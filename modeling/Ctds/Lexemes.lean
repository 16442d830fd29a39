import Ctds.Lexer

/-! The lexemes of the language. The scanner compares the longest matches of all its rules; for
the language it is enough to look at the letter behind a lexeme, comments apart. Every text
falls into lexemes in one way, and the scanner finds these. -/

namespace Ctds

open Pattern Decimal Word

/-- `//`, or `/*` with a `*/` somewhere behind it. -/
def OpensComment (s : CString) : Prop :=
  ['/', '/'] <+: s ∨ ∃ t, s = '/' :: '*' :: t ∧ ['*', '/'] <:+: t

/-- An action, the text it acts on and what stands behind the text. -/
inductive Lexeme : LexAction → CString → CString → Prop where
  | integer {w rest : CString} : w ≠ [] → (∀ c ∈ w, c.isDigit = true) → Ends Char.isDigit rest →
    Lexeme (.token (.integerLiteral (atoi w))) w rest
  | keyword {w rest : CString} {t : Token} : (w, t) ∈ keywords → Ends isIdentChar rest →
    Lexeme (.token t) w rest
  | id {x : Ident} {rest : CString} : x.text ∉ keywords.map Prod.fst → Ends isIdentChar rest →
    Lexeme (.token (.id x)) x.text rest
  | oneLineComment {w rest : CString} : (∀ c ∈ w, (c != '\n') = true) → Ends (· != '\n') rest →
    Lexeme .skip ('/' :: '/' :: w) rest
  | comment {w rest : CString} : OnlyAtEnd ['*', '/'] w → Lexeme .skip ('/' :: '*' :: w) rest
  | operator {w rest : CString} {t : Token} : (w, t) ∈ operators →
    (w ++ ['='] ∈ operators.map Prod.fst → Ends (· == '=') rest) → ¬ OpensComment (w ++ rest) →
    Lexeme (.token t) w rest
  | punctuation {c : Char} {rest : CString} : c ∈ punctuation → Lexeme (.token (.char c)) [c] rest
  | blank {w rest : CString} : w ≠ [] → (∀ c ∈ w, isBlank c = true) → Ends isBlank rest →
    Lexeme .skip w rest
  | unknown {c : Char} {rest : CString} : c.isDigit = false → c.isAlpha = false →
    isBlank c = false → c ∉ punctuation → (∀ entry ∈ operators, ¬ entry.1 <+: c :: rest) →
    Lexeme .unknown [c] rest

/-- What a letter can open. -/
inductive CharKind where
  | digit | letter | operator | punctuation | blank | other
deriving DecidableEq

def charKind (c : Char) : CharKind :=
  if c.isDigit then .digit
  else if c.isAlpha then .letter
  else if operators.any fun entry => entry.1.head? == some c then .operator
  else if c ∈ punctuation then .punctuation
  else if isBlank c then .blank
  else .other

theorem charKind_digit {c : Char} : charKind c = .digit ↔ c.isDigit = true := by
  unfold charKind
  split
  · next h => exact iff_of_true rfl h
  · next h =>
    refine iff_of_false ?_ h
    split <;> [skip; split <;> [skip; split <;> [skip; split]]] <;> exact nofun

theorem isAlpha_not_isDigit {c : Char} (h : c.isAlpha = true) : c.isDigit = false := by
  rw [Bool.eq_false_iff]
  intro digit
  have range : (decide ('0'.val ≤ c.val) && decide (c.val ≤ '9'.val)) = true := digit
  have letter : (decide ('A'.val ≤ c.val ∧ c.val ≤ 'Z'.val) ||
      (decide ('a'.val ≤ c.val) && decide (c.val ≤ 'z'.val))) = true := h
  simp only [Bool.or_eq_true, Bool.and_eq_true, decide_eq_true_eq, UInt32.le_iff_toNat_le]
    at range letter
  have : 'A'.val.toNat = 65 := rfl
  have : 'a'.val.toNat = 97 := rfl
  have : '9'.val.toNat = 57 := rfl
  omega

theorem charKind_letter {c : Char} : charKind c = .letter ↔ c.isAlpha = true := by
  constructor
  · unfold charKind
    split
    · exact nofun
    · split
      · next h => exact fun _ => h
      · split <;> [skip; split <;> [skip; split]] <;> exact nofun
  · intro h
    rw [charKind, if_neg (by rw [isAlpha_not_isDigit h]; exact Bool.false_ne_true), if_pos h]

theorem charKind_blank {c : Char} (h : isBlank c = true) : charKind c = .blank := by
  simp only [isBlank, Bool.or_eq_true, beq_iff_eq, or_assoc] at h
  rcases h with rfl | rfl | rfl | rfl <;> rfl

theorem charKind_head {table : List (CString × Token)} {k : CharKind}
    (all : (table.all fun entry => entry.1.head?.any fun d => charKind d == k) = true)
    {entry : CString × Token} (mem : entry ∈ table) : ∃ d ∈ entry.1.head?, charKind d = k := by
  have here := List.all_eq_true.mp all entry mem
  cases head : entry.1.head? with
  | none => simp [head] at here
  | some d => exact ⟨d, rfl, by simpa [head] using here⟩

theorem charKind_keywords {entry : CString × Token} (mem : entry ∈ keywords) :
    ∃ d ∈ entry.1.head?, charKind d = .letter := charKind_head (by decide) mem

theorem charKind_operators {entry : CString × Token} (mem : entry ∈ operators) :
    ∃ d ∈ entry.1.head?, charKind d = .operator := charKind_head (by decide) mem

theorem charKind_punctuation {c : Char} (mem : c ∈ punctuation) : charKind c = .punctuation := by
  have all : (punctuation.all fun c => charKind c == .punctuation) = true := by decide
  exact eq_of_beq (List.all_eq_true.mp all c mem)

theorem prefix_head {w : CString} {c d : Char} {rest : CString} (h : w <+: c :: rest)
    (head : d ∈ w.head?) : d = c := by
  cases w with
  | nil => cases head
  | cons a w =>
    obtain rfl : a = d := by simpa using head
    exact (List.cons_prefix_cons.mp h).1

section
variable {c : Char} {rest : CString}

theorem tokenActions_none {table : List (CString × Token)} {k : CharKind}
    (heads : ∀ entry ∈ table, ∃ d ∈ entry.1.head?, charKind d = k) (other : charKind c ≠ k) :
    best (textRules (tokenActions table)) (c :: rest) = none := by
  refine best_textRules_none fun entry mem starts => ?_
  obtain ⟨source, inTable, rfl⟩ := List.mem_map.mp mem
  obtain ⟨d, head, kind⟩ := heads source inTable
  exact other (prefix_head starts head ▸ kind)

theorem integerLiteral_none (other : charKind c ≠ .digit) :
    integerLiteral.longest (c :: rest) = none := by
  rw [integerLiteral, plus, digit, longest_word, if_neg (mt charKind_digit.mpr other)]

theorem identifier_none (other : charKind c ≠ .letter) :
    identifier.longest (c :: rest) = none := by
  rw [identifier, longest_word, if_neg (mt charKind_letter.mpr other)]

theorem oneLineComment_none (other : ¬ ['/', '/'] <+: c :: rest) :
    oneLineComment.longest (c :: rest) = none := longest_text_cat_none other

theorem multiLineComment_none (other : ¬ ∃ t, c :: rest = '/' :: '*' :: t ∧ ['*', '/'] <:+: t) :
    multiLineComment.longest (c :: rest) = none := by
  rw [longest_eq_none_iff]
  intro n le mem
  obtain ⟨t, eq, only⟩ := mem_multiLineComment.mp mem
  obtain ⟨behind, split⟩ := List.take_prefix n (c :: rest)
  rw [eq] at split
  refine other ⟨t ++ behind, split.symm, only.1.isInfix.trans (List.infix_append' [] t behind)⟩

theorem blank_none (other : charKind c ≠ .blank) :
    (Pattern.plus (.cls isBlank)).longest (c :: rest) = none := by
  rw [plus, longest_word, if_neg (mt charKind_blank other)]

theorem not_opensComment (rest : CString) (other : charKind c ≠ .operator) :
    ¬ OpensComment (c :: rest) := by
  have slash : c ≠ '/' := fun same => other (same ▸ rfl)
  rintro (line | ⟨t, eq, -⟩)
  · exact slash (List.cons_prefix_cons.mp line).1.symm
  · exact slash (List.cons.inj eq).1

theorem punctuation_none (rest : CString) (other : charKind c ≠ .punctuation) :
    (Pattern.letter ',').longest (c :: rest) = none ∧
      (Pattern.cls (· ∈ [';', '(', ')', '{', '}'])).longest (c :: rest) = none := by
  have out : c ∉ punctuation := mt charKind_punctuation other
  rw [punctuation, List.mem_cons, not_or] at out
  rw [letter, longest_cls, longest_cls, if_neg (by simpa using out.1),
    if_neg (by simpa using out.2)]
  exact ⟨rfl, rfl⟩

theorem last_le {k : CString → LexAction} {s : CString} :
    ∀ later ∈ ((Pattern.cls (· != '\n')).longest s).map (k, ·), later.2 ≤ 1 := by
  intro later mem
  obtain ⟨n, found, rfl⟩ := Option.map_eq_some_iff.mp mem
  cases s with
  | nil => simp [nullable] at found
  | cons c rest =>
    rw [longest_cls] at found
    split at found
    · exact (Option.some.inj found).symm.le
    · cases found

theorem best_lexRules (s : CString) :
    best lexRules s =
      better ((integerLiteral.longest s).map
        ((fun yytext => .token (.integerLiteral (atoi yytext))), ·))
      (better (best (textRules (tokenActions keywords)) s)
      (better ((identifier.longest s).map (idAction, ·))
      (better ((oneLineComment.longest s).map ((fun _ => .skip), ·))
      (better ((multiLineComment.longest s).map ((fun _ => .skip), ·))
      (better (best (textRules (tokenActions operators)) s)
      (better (((Pattern.letter ',').longest s).map (charAction, ·))
      (better (((Pattern.cls (· ∈ [';', '(', ')', '{', '}'])).longest s).map (charAction, ·))
      (better (((Pattern.plus (.cls isBlank)).longest s).map ((fun _ => .skip), ·))
        (((Pattern.cls (· != '\n')).longest s).map ((fun _ => .unknown), ·)))))))))) := by
  simp only [lexRules, best_append, best_cons, better_assoc]
  simp [best]

end

theorem nextMatch_of_best {w rest : CString} (action : CString → LexAction)
    (found : best lexRules (w ++ rest) = some (action, w.length)) :
    nextMatch (w ++ rest) = (action w, w.length) := by
  rw [nextMatch, found]
  dsimp only
  rw [List.take_left]

theorem nextMatch_integer {w rest : CString} (nonempty : w ≠ [])
    (digits : ∀ c ∈ w, c.isDigit = true) (ends : Ends Char.isDigit rest) :
    nextMatch (w ++ rest) = (.token (.integerLiteral (atoi w)), w.length) := by
  obtain ⟨c, v, rfl⟩ := List.exists_cons_of_ne_nil nonempty
  rw [List.forall_mem_cons] at digits
  have kind := charKind_digit.mpr digits.1
  have here : integerLiteral.longest (c :: v ++ rest) = some (c :: v).length :=
    longest_word_append digits.1 digits.2 ends
  have plain := not_opensComment (v ++ rest) (c := c) (by rw [kind]; exact nofun)
  have noChar := punctuation_none (v ++ rest) (c := c) (by rw [kind]; exact nofun)
  refine nextMatch_of_best (fun yytext => .token (.integerLiteral (atoi yytext))) ?_
  rw [best_lexRules, here, List.cons_append,
    tokenActions_none (fun _ => charKind_keywords) (by rw [kind]; exact nofun),
    tokenActions_none (fun _ => charKind_operators) (by rw [kind]; exact nofun),
    identifier_none (by rw [kind]; exact nofun),
    oneLineComment_none fun line => plain (.inl line),
    multiLineComment_none fun comment => plain (.inr comment), noChar.1, noChar.2,
    blank_none (by rw [kind]; exact nofun)]
  exact better_eq_left fun later mem =>
    (last_le later mem).trans (Nat.succ_le_of_lt (Nat.succ_pos _))

theorem isIdentText_chars {w : CString} (word : isIdentText w = true) :
    ∃ c v, w = c :: v ∧ c.isAlpha = true ∧ (∀ d ∈ v, isIdentChar d = true) ∧
      ∀ d ∈ w, isIdentChar d = true := by
  cases w with
  | nil => cases word
  | cons c v =>
    rw [isIdentText, Bool.and_eq_true, List.all_eq_true] at word
    refine ⟨c, v, rfl, word.1, word.2, List.forall_mem_cons.mpr ⟨?_, word.2⟩⟩
    rw [isIdentChar, word.1]
    rfl

theorem isIdentText_keywords {entry : CString × Token} (mem : entry ∈ keywords) :
    isIdentText entry.1 = true := by
  revert entry
  decide

theorem tokenActions_keys (table : List (CString × Token)) :
    (tokenActions table).map Prod.fst = table.map Prod.fst := by
  rw [tokenActions, List.map_map]
  rfl

theorem best_word {w rest : CString} (word : isIdentText w = true) (ends : Ends isIdentChar rest) :
    best lexRules (w ++ rest) =
      better (best (textRules (tokenActions keywords)) (w ++ rest))
      (some (idAction, w.length)) := by
  obtain ⟨c, v, rfl, letter, chars, -⟩ := isIdentText_chars word
  have kind := charKind_letter.mpr letter
  have here : identifier.longest (c :: v ++ rest) = some (c :: v).length :=
    longest_word_append letter chars ends
  have plain := not_opensComment (v ++ rest) (c := c) (by rw [kind]; exact nofun)
  have noChar := punctuation_none (v ++ rest) (c := c) (by rw [kind]; exact nofun)
  rw [best_lexRules, here, List.cons_append,
    integerLiteral_none (by rw [kind]; exact nofun),
    tokenActions_none (fun _ => charKind_operators) (by rw [kind]; exact nofun),
    oneLineComment_none fun line => plain (.inl line),
    multiLineComment_none fun comment => plain (.inr comment), noChar.1, noChar.2,
    blank_none (by rw [kind]; exact nofun)]
  simp only [Option.map_none, Option.map_some, better_none_left]
  refine congrArg (better _) (better_eq_left fun later mem => (last_le later mem).trans ?_)
  exact Nat.succ_le_of_lt (Nat.succ_pos _)

theorem keyword_inside {w rest : CString} (word : isIdentText w = true)
    (ends : Ends isIdentChar rest) {entry : CString × Token} (mem : entry ∈ keywords)
    (starts : entry.1 <+: w ++ rest) : entry.1 <+: w := by
  obtain ⟨-, -, -, -, -, inside⟩ := isIdentText_chars (isIdentText_keywords mem)
  obtain ⟨-, -, -, -, -, all⟩ := isIdentText_chars word
  exact prefix_of_ends inside all ends starts

theorem nextMatch_keyword {w rest : CString} {t : Token} (mem : (w, t) ∈ keywords)
    (ends : Ends isIdentChar rest) : nextMatch (w ++ rest) = (.token t, w.length) := by
  have word := isIdentText_keywords mem
  refine nextMatch_of_best (fun _ => .token t) ?_
  have found : best (textRules (tokenActions keywords)) (w ++ rest) =
    some (fun _ => .token t, w.length) := by
    refine best_textRules (by rw [tokenActions_keys]; decide) (List.mem_map.mpr ⟨(w, t), mem, rfl⟩)
      (List.prefix_append w rest) fun entry inTable starts => ?_
    obtain ⟨source, inSource, rfl⟩ := List.mem_map.mp inTable
    exact (keyword_inside word ends inSource starts).length_le
  rw [best_word word ends, found]
  exact better_eq_left fun later mem => by obtain rfl := Option.some.inj mem; exact Nat.le_refl _

theorem nextMatch_id {x : Ident} {rest : CString} (other : x.text ∉ keywords.map Prod.fst)
    (ends : Ends isIdentChar rest) :
    nextMatch (x.text ++ rest) = (.token (.id x), x.text.length) := by
  have act : idAction x.text = .token (.id x) := dif_pos x.accepted
  rw [← act]
  refine nextMatch_of_best idAction ?_
  rw [best_word x.accepted ends]
  refine better_eq_right fun first mem => ?_
  obtain ⟨u, inTable, starts, eq⟩ := mem_of_best_textRules mem
  obtain ⟨source, inSource, same⟩ := List.mem_map.mp inTable
  obtain rfl : source.1 = u := congrArg Prod.fst same
  have inside := keyword_inside x.accepted ends inSource starts
  rw [eq]
  refine Nat.lt_of_le_of_ne inside.length_le fun full => other ?_
  rw [← inside.eq_of_length full]
  exact List.mem_map_of_mem inSource

theorem best_operator {c : Char} {rest : CString} (kind : charKind c = .operator) :
    best lexRules (c :: rest) =
      better ((oneLineComment.longest (c :: rest)).map ((fun _ => .skip), ·))
        (better ((multiLineComment.longest (c :: rest)).map ((fun _ => .skip), ·))
          (better (best (textRules (tokenActions operators)) (c :: rest))
          (some ((fun _ => .unknown), 1)))) := by
  have noChar := punctuation_none rest (c := c) (by rw [kind]; exact nofun)
  have same : c ≠ '\n' := by
    rintro rfl
    exact absurd kind (by decide)
  rw [best_lexRules, tokenActions_none (fun _ => charKind_keywords) (by rw [kind]; exact nofun),
    integerLiteral_none (by rw [kind]; exact nofun), identifier_none (by rw [kind]; exact nofun),
    noChar.1, noChar.2, blank_none (by rw [kind]; exact nofun), longest_cls,
    if_pos (bne_iff_ne.mpr same)]
  simp only [Option.map_none, Option.map_some, better_none_left]

theorem operators_le {s : CString} :
    ∀ later ∈ better (best (textRules (tokenActions operators)) s)
      (some ((fun _ => LexAction.unknown : CString → LexAction), 1)), later.2 ≤ 2 := by
  have short : ∀ entry ∈ operators, entry.1.length ≤ 2 := by decide
  intro later mem
  rcases eq_some_of_better mem with operator | last
  · obtain ⟨u, inTable, -, eq⟩ := mem_of_best_textRules operator
    obtain ⟨source, inSource, same⟩ := List.mem_map.mp inTable
    obtain rfl : source.1 = u := congrArg Prod.fst same
    rw [eq]
    exact short source inSource
  · obtain rfl := Option.some.inj last
    decide

theorem nextMatch_oneLineComment {w rest : CString} (line : ∀ c ∈ w, (c != '\n') = true)
    (ends : Ends (· != '\n') rest) :
    nextMatch ('/' :: '/' :: w ++ rest) = (.skip, ('/' :: '/' :: w).length) := by
  refine nextMatch_of_best (fun _ => .skip) ?_
  have here : oneLineComment.longest ('/' :: '/' :: w ++ rest) = some ('/' :: '/' :: w).length := by
    refine (longest_text_cat ['/', '/'] _ (w ++ rest)).trans ?_
    rw [longest_star_cls, takeWhile_ends line ends]
    rfl
  have other : multiLineComment.longest ('/' :: '/' :: w ++ rest) = none :=
    multiLineComment_none fun ⟨_, eq, _⟩ =>
      absurd (List.cons.inj (List.cons.inj eq).2).1 (by decide)
  rw [List.cons_append, best_operator rfl, ← List.cons_append, here, other]
  refine better_eq_left fun later mem => (operators_le later mem).trans ?_
  exact Nat.le_add_left 2 w.length

theorem nextMatch_comment {w rest : CString} (only : OnlyAtEnd ['*', '/'] w) :
    nextMatch ('/' :: '*' :: w ++ rest) = (.skip, ('/' :: '*' :: w).length) := by
  refine nextMatch_of_best (fun _ => .skip) ?_
  have other : oneLineComment.longest ('/' :: '*' :: w ++ rest) = none :=
    oneLineComment_none fun line =>
      absurd (List.cons_prefix_cons.mp (List.cons_prefix_cons.mp line).2).1 (by decide)
  have here : multiLineComment.longest ('/' :: '*' :: w ++ rest) =
      some ('/' :: '*' :: w).length := by
    rw [longest_eq_some_iff]
    have full : ('/' :: '*' :: w ++ rest).take ('/' :: '*' :: w).length = '/' :: '*' :: w :=
      List.take_left
    have le : ('/' :: '*' :: w).length ≤ ('/' :: '*' :: w ++ rest).length := by simp
    have mem : ('/' :: '*' :: w ++ rest).take ('/' :: '*' :: w).length ∈
        multiLineComment.language := by
      rw [full]
      exact mem_multiLineComment.mpr ⟨w, rfl, only⟩
    refine ⟨le, mem, fun m gt le' mem' => ?_⟩
    obtain ⟨k, first, eq⟩ := (take_mem_multiLineComment le).mp mem
    obtain ⟨k', first', eq'⟩ := (take_mem_multiLineComment le').mp mem'
    have := first.unique first'
    omega
  rw [List.cons_append, best_operator rfl, ← List.cons_append, other, here]
  rw [Option.map_none, better_none_left]
  refine better_eq_left fun later mem => (operators_le later mem).trans ?_
  exact Nat.le_add_left 2 w.length

theorem operators_extend : ∀ short ∈ operators, ∀ long ∈ operators, short.1 <+: long.1 →
    long.1 = short.1 ∨ long.1 = short.1 ++ ['='] := by
  decide

theorem operator_longest {w rest : CString} {t : Token} (mem : (w, t) ∈ operators)
    (ends : w ++ ['='] ∈ operators.map Prod.fst → Ends (· == '=') rest)
    {entry : CString × Token} (inTable : entry ∈ operators) (starts : entry.1 <+: w ++ rest) :
    entry.1.length ≤ w.length := by
  by_contra longer
  have short : w <+: entry.1 :=
    List.prefix_of_prefix_length_le (List.prefix_append w rest) starts
      (Nat.le_of_lt (Nat.not_le.mp longer))
  rcases operators_extend _ mem _ inTable short with same | extended
  · exact longer (by rw [same])
  · rw [extended, List.prefix_append_right_inj] at starts
    obtain ⟨behind, rfl⟩ := starts
    have absent := ends (extended ▸ List.mem_map_of_mem inTable) '=' rfl
    cases absent

theorem nextMatch_operator {w rest : CString} {t : Token} (mem : (w, t) ∈ operators)
    (ends : w ++ ['='] ∈ operators.map Prod.fst → Ends (· == '=') rest)
    (plain : ¬ OpensComment (w ++ rest)) : nextMatch (w ++ rest) = (.token t, w.length) := by
  obtain ⟨c, head, kind⟩ := charKind_operators mem
  obtain ⟨v, rfl⟩ : ∃ v, w = c :: v := by
    cases w with
    | nil => cases head
    | cons a v => exact ⟨v, congrArg (· :: v) (by simpa using head)⟩
  refine nextMatch_of_best (fun _ => .token t) ?_
  have found : best (textRules (tokenActions operators)) (c :: v ++ rest) =
      some (fun _ => .token t, (c :: v).length) := by
    refine best_textRules (by rw [tokenActions_keys]; decide)
      (List.mem_map.mpr ⟨(c :: v, t), mem, rfl⟩)
      (List.prefix_append _ rest) fun entry inTable starts => ?_
    obtain ⟨source, inSource, rfl⟩ := List.mem_map.mp inTable
    exact operator_longest mem ends inSource starts
  rw [List.cons_append] at plain found ⊢
  rw [best_operator kind, oneLineComment_none fun line => plain (.inl line),
    multiLineComment_none fun comment => plain (.inr comment), found]
  simp only [Option.map_none, better_none_left]
  refine better_eq_left fun later mem => ?_
  obtain rfl := Option.some.inj mem
  exact Nat.succ_le_of_lt (Nat.succ_pos _)

theorem nextMatch_punctuation {c : Char} {rest : CString} (mem : c ∈ punctuation) :
    nextMatch ([c] ++ rest) = (.token (.char c), 1) := by
  have kind := charKind_punctuation mem
  have plain := not_opensComment rest (c := c) (by rw [kind]; exact nofun)
  refine nextMatch_of_best charAction ?_
  rw [List.singleton_append, best_lexRules, integerLiteral_none (by rw [kind]; exact nofun),
    tokenActions_none (fun _ => charKind_keywords) (by rw [kind]; exact nofun),
    tokenActions_none (fun _ => charKind_operators) (by rw [kind]; exact nofun),
    identifier_none (by rw [kind]; exact nofun),
    oneLineComment_none fun line => plain (.inl line),
    multiLineComment_none fun comment => plain (.inr comment),
    blank_none (by rw [kind]; exact nofun), letter, longest_cls, longest_cls, longest_cls]
  simp only [punctuation, List.mem_cons, List.not_mem_nil, or_false] at mem
  rcases mem with rfl | rfl | rfl | rfl | rfl | rfl <;> rfl

theorem nextMatch_blank {w rest : CString} (nonempty : w ≠ []) (all : ∀ c ∈ w, isBlank c = true)
    (ends : Ends isBlank rest) : nextMatch (w ++ rest) = (.skip, w.length) := by
  obtain ⟨c, v, rfl⟩ := List.exists_cons_of_ne_nil nonempty
  rw [List.forall_mem_cons] at all
  have kind := charKind_blank all.1
  have here : (Pattern.plus (.cls isBlank)).longest (c :: v ++ rest) = some (c :: v).length :=
    longest_word_append all.1 all.2 ends
  have plain := not_opensComment (v ++ rest) (c := c) (by rw [kind]; exact nofun)
  have noChar := punctuation_none (v ++ rest) (c := c) (by rw [kind]; exact nofun)
  refine nextMatch_of_best (fun _ => .skip) ?_
  rw [best_lexRules, here, List.cons_append, integerLiteral_none (by rw [kind]; exact nofun),
    tokenActions_none (fun _ => charKind_keywords) (by rw [kind]; exact nofun),
    tokenActions_none (fun _ => charKind_operators) (by rw [kind]; exact nofun),
    identifier_none (by rw [kind]; exact nofun),
    oneLineComment_none fun line => plain (.inl line),
    multiLineComment_none fun comment => plain (.inr comment), noChar.1, noChar.2]
  exact better_eq_left fun later mem =>
    (last_le later mem).trans (Nat.succ_le_of_lt (Nat.succ_pos _))

theorem nextMatch_unknown {c : Char} {rest : CString} (digit : c.isDigit = false)
    (letter : c.isAlpha = false) (blank : isBlank c = false) (mark : c ∉ punctuation)
    (operator : ∀ entry ∈ operators, ¬ entry.1 <+: c :: rest) :
    nextMatch ([c] ++ rest) = (.unknown, 1) := by
  have noDigit : charKind c ≠ .digit := mt charKind_digit.mp (by rw [digit]; exact nofun)
  have noLetter : charKind c ≠ .letter := mt charKind_letter.mp (by rw [letter]; exact nofun)
  have slash : c ≠ '/' := by
    rintro rfl
    exact operator ("/".toList, .char '/') (by decide) (List.prefix_append ['/'] rest)
  have line : ¬ ['/', '/'] <+: c :: rest := fun starts =>
    slash (List.cons_prefix_cons.mp starts).1.symm
  have comment : ¬ ∃ t, c :: rest = '/' :: '*' :: t ∧ ['*', '/'] <:+: t :=
    fun ⟨_, eq, _⟩ => slash (List.cons.inj eq).1
  have noBlank : (Pattern.plus (.cls isBlank)).longest (c :: rest) = none := by
    rw [plus, longest_word, if_neg (by rw [blank]; exact nofun)]
  have noOperator : best (textRules (tokenActions operators)) (c :: rest) = none := by
    refine best_textRules_none fun entry mem => ?_
    obtain ⟨source, inTable, rfl⟩ := List.mem_map.mp mem
    exact operator source inTable
  have notFeed : c ≠ '\n' := by
    rintro rfl
    cases blank
  rw [punctuation, List.mem_cons, not_or] at mark
  refine nextMatch_of_best (fun _ => .unknown) ?_
  rw [List.singleton_append, best_lexRules, integerLiteral_none noDigit,
    tokenActions_none (fun _ => charKind_keywords) noLetter, identifier_none noLetter, noOperator,
    oneLineComment_none line, multiLineComment_none comment, noBlank, Pattern.letter, longest_cls,
    longest_cls, longest_cls, if_neg (by simpa using mark.1), if_neg (by simpa using mark.2),
    if_pos (bne_iff_ne.mpr notFeed)]
  rfl

theorem Lexeme.nextMatch {k : LexAction} {w rest : CString} (h : Lexeme k w rest) :
    nextMatch (w ++ rest) = (k, w.length) := by
  cases h with
  | integer nonempty digits ends => exact nextMatch_integer nonempty digits ends
  | keyword mem ends => exact nextMatch_keyword mem ends
  | id other ends => exact nextMatch_id other ends
  | oneLineComment line ends => exact nextMatch_oneLineComment line ends
  | comment only => exact nextMatch_comment only
  | operator mem ends plain => exact nextMatch_operator mem ends plain
  | punctuation mem => exact nextMatch_punctuation mem
  | blank nonempty all ends => exact nextMatch_blank nonempty all ends
  | unknown digit letter blank mark operator =>
    exact nextMatch_unknown digit letter blank mark operator

theorem Lexeme.nonempty {k : LexAction} {w rest : CString} (h : Lexeme k w rest) : w ≠ [] := by
  cases h with
  | integer nonempty | blank nonempty => exact nonempty
  | keyword mem =>
    obtain ⟨d, head, -⟩ := charKind_keywords mem
    rintro rfl
    cases head
  | operator mem =>
    obtain ⟨d, head, -⟩ := charKind_operators mem
    rintro rfl
    cases head
  | @id x =>
    obtain ⟨c, cs, eq, -⟩ := x.text_cons
    rw [eq]
    exact List.cons_ne_nil c cs
  | oneLineComment | comment | punctuation | unknown => exact List.cons_ne_nil _ _

theorem exists_word {c : Char} (rest : CString) (letter : c.isAlpha = true) :
    ∃ k w rest', c :: rest = w ++ rest' ∧ Lexeme k w rest' := by
  have split : c :: rest = (c :: rest.takeWhile isIdentChar) ++ rest.dropWhile isIdentChar := by
    rw [List.cons_append, List.takeWhile_append_dropWhile]
  have ends : Ends isIdentChar (rest.dropWhile isIdentChar) := ends_dropWhile isIdentChar rest
  have accepted : isIdentText (c :: rest.takeWhile isIdentChar) = true := by
    rw [isIdentText, letter, Bool.true_and]
    exact List.all_takeWhile
  by_cases keyword : c :: rest.takeWhile isIdentChar ∈ keywords.map Prod.fst
  · obtain ⟨⟨w, t⟩, mem, rfl⟩ := List.mem_map.mp keyword
    exact ⟨_, _, _, split, .keyword mem ends⟩
  · exact ⟨_, _, _, split, .id (x := ⟨_, accepted⟩) keyword ends⟩

theorem exists_comment {s : CString} (opens : OpensComment s) :
    ∃ k w rest', s = w ++ rest' ∧ Lexeme k w rest' := by
  rcases opens with ⟨t, rfl⟩ | ⟨t, rfl, closed⟩
  · refine ⟨.skip, '/' :: '/' :: t.takeWhile (· != '\n'), t.dropWhile (· != '\n'), ?_,
      .oneLineComment (fun c mem => List.mem_takeWhile_imp (p := (· != '\n')) mem)
        (ends_dropWhile _ t)⟩
    exact congrArg ('/' :: '/' :: ·) List.takeWhile_append_dropWhile.symm
  · obtain ⟨k, first⟩ := infix_iff_firstAt.mp closed
    have le := first.le_length (by simp)
    refine ⟨.skip, '/' :: '*' :: t.take (k + 2), t.drop (k + 2), ?_,
      .comment ((onlyAtEnd_take_iff (by simp) le).mpr ⟨k, first, rfl⟩)⟩
    rw [List.cons_append, List.cons_append, List.take_append_drop]

theorem exists_operator {s : CString} {entry : CString × Token} (mem : entry ∈ operators)
    (starts : entry.1 <+: s) (plain : ¬ OpensComment s) :
    ∃ k w rest', s = w ++ rest' ∧ Lexeme k w rest' := by
  obtain ⟨rest, rfl⟩ := starts
  by_cases extended : entry.1 ++ ['='] ∈ operators.map Prod.fst ∧ ['='] <+: rest
  · obtain ⟨longer, rest', rfl⟩ := extended
    obtain ⟨⟨w, t⟩, mem', eq⟩ := List.mem_map.mp longer
    obtain rfl : w = entry.1 ++ ['='] := eq
    have once : ∀ entry ∈ operators, entry.1 ++ ['='] ++ ['='] ∉ operators.map Prod.fst := by decide
    refine ⟨.token t, entry.1 ++ ['='], rest', (List.append_assoc _ _ _).symm,
      .operator mem' (fun twice => absurd twice (once entry mem)) ?_⟩
    rwa [List.append_assoc]
  · refine ⟨.token entry.2, entry.1, rest, rfl, .operator mem (fun longer c first => ?_) plain⟩
    refine Bool.eq_false_iff.mpr fun same => extended ⟨longer, ?_⟩
    obtain ⟨tail, rfl⟩ := List.head?_eq_some_iff.mp first
    rw [eq_of_beq same]
    exact List.prefix_append ['='] tail

theorem exists_lexeme (c : Char) (rest : CString) :
    ∃ k w rest', c :: rest = w ++ rest' ∧ Lexeme k w rest' := by
  cases digit : c.isDigit with
  | true =>
    refine ⟨_, (c :: rest).takeWhile Char.isDigit, (c :: rest).dropWhile Char.isDigit,
      List.takeWhile_append_dropWhile.symm,
      .integer ?_ (fun d mem => List.mem_takeWhile_imp mem) (ends_dropWhile _ _)⟩
    rw [List.takeWhile_cons_of_pos digit]
    exact List.cons_ne_nil _ _
  | false =>
  cases letter : c.isAlpha with
  | true => exact exists_word rest letter
  | false =>
  cases blank : isBlank c with
  | true =>
    refine ⟨_, (c :: rest).takeWhile isBlank, (c :: rest).dropWhile isBlank,
      List.takeWhile_append_dropWhile.symm,
      .blank ?_ (fun d mem => List.mem_takeWhile_imp mem) (ends_dropWhile _ _)⟩
    rw [List.takeWhile_cons_of_pos blank]
    exact List.cons_ne_nil _ _
  | false =>
  by_cases mark : c ∈ punctuation
  · exact ⟨_, [c], rest, rfl, .punctuation mark⟩
  by_cases comment : OpensComment (c :: rest)
  · exact exists_comment comment
  by_cases operator : ∃ entry ∈ operators, entry.1 <+: c :: rest
  · obtain ⟨entry, mem, starts⟩ := operator
    exact exists_operator mem starts comment
  · exact ⟨_, [c], rest, rfl, .unknown digit letter blank mark fun entry mem starts =>
      operator ⟨entry, mem, starts⟩⟩

/-- What the scanner returns from a line on: the tokens of the lexemes, each with the line it
stands on, up to the end or to the first letter that opens no lexeme. -/
inductive Lexemes : Nat → CString → Scanned → Prop where
  | done {line : Nat} : Lexemes line [] ⟨[], none⟩
  | token {line : Nat} {t : Token} {w rest : CString} {s : Scanned} :
    Lexeme (.token t) w rest → Lexemes line rest s → Lexemes line (w ++ rest) (s.cons (t, line))
  | skip {line : Nat} {w rest : CString} {s : Scanned} : Lexeme .skip w rest →
    Lexemes (line + w.count '\n') rest s → Lexemes line (w ++ rest) s
  | unknown {line : Nat} {c : Char} {rest : CString} : Lexeme .unknown [c] rest →
    Lexemes line (c :: rest) ⟨[], some ⟨line, [c]⟩⟩

theorem Lexeme.count_token {t : Token} {w rest : CString} (h : Lexeme (.token t) w rest) :
    w.count '\n' = 0 := by
  rw [List.count_eq_zero]
  cases h with
  | integer _ digits => exact fun mem => absurd (digits _ mem) (by decide)
  | keyword mem =>
    obtain ⟨-, -, -, -, -, chars⟩ := isIdentText_chars (isIdentText_keywords mem)
    exact fun mem => absurd (chars _ mem) (by decide)
  | @id x =>
    obtain ⟨-, -, -, -, -, chars⟩ := isIdentText_chars x.accepted
    exact fun mem => absurd (chars _ mem) (by decide)
  | operator mem =>
    have all : ∀ entry ∈ operators, '\n' ∉ entry.1 := by decide
    exact all _ mem
  | punctuation mem =>
    have out : '\n' ∉ Ctds.punctuation := by decide
    exact fun same => out (List.mem_singleton.mp same ▸ mem)

theorem Lexeme.unknown_singleton {w rest : CString} (h : Lexeme .unknown w rest) :
    ∃ c, w = [c] ∧ c ≠ '\n' := by
  cases h with
  | @unknown c _ _ _ blank => exact ⟨c, rfl, fun same => by subst same; cases blank⟩

/-- One round of the scanner, at a lexeme. -/
theorem scanFrom_lexeme {k : LexAction} {w rest : CString} (h : Lexeme k w rest)
    (fuel line : Nat) :
    scanFrom (fuel + 1) line (w ++ rest) =
      match k with
      | .token t => (scanFrom fuel (line + w.count '\n') rest).cons (t, line + w.count '\n')
      | .skip => scanFrom fuel (line + w.count '\n') rest
      | .unknown => ⟨[], some ⟨line + w.count '\n', w⟩⟩ := by
  obtain ⟨c, v, rfl⟩ := List.exists_cons_of_ne_nil h.nonempty
  have found := h.nextMatch
  rw [List.cons_append] at found ⊢
  rw [scanFrom, found]
  dsimp only
  rw [← List.cons_append, List.take_left, List.drop_left]
  cases k <;> rfl

theorem scanFrom_lexemes {fuel line : Nat} {input : CString} (enough : input.length ≤ fuel) :
    Lexemes line input (scanFrom fuel line input) := by
  induction fuel generalizing line input with
  | zero =>
    obtain rfl := List.length_eq_zero_iff.mp (Nat.le_zero.mp enough)
    exact .done
  | succ fuel ih =>
    cases input with
    | nil => exact .done
    | cons c input =>
      obtain ⟨k, w, rest, eq, lexeme⟩ := exists_lexeme c input
      have pos := List.length_pos_iff.mpr lexeme.nonempty
      have length := congrArg List.length eq
      rw [List.length_append] at length
      have shorter : rest.length ≤ fuel := by omega
      rw [eq, scanFrom_lexeme lexeme]
      cases k with
      | token t =>
        dsimp only
        rw [lexeme.count_token]
        exact .token lexeme (ih shorter)
      | skip => exact .skip lexeme (ih shorter)
      | unknown =>
        obtain ⟨c, rfl, other⟩ := lexeme.unknown_singleton
        dsimp only
        rw [List.count_singleton, if_neg (by simpa using other)]
        exact .unknown lexeme

theorem Lexemes.scanFrom_eq {line : Nat} {input : CString} {s : Scanned} (h : Lexemes line input s)
    {fuel : Nat} (enough : input.length ≤ fuel) : scanFrom fuel line input = s := by
  induction h generalizing fuel with
  | done => cases fuel <;> rfl
  | @token line t w rest s lexeme _ ih =>
    have pos := List.length_pos_iff.mpr lexeme.nonempty
    rw [List.length_append] at enough
    obtain ⟨fuel, rfl⟩ : ∃ n, fuel = n + 1 := ⟨fuel - 1, by omega⟩
    rw [scanFrom_lexeme lexeme]
    dsimp only
    rw [lexeme.count_token, Nat.add_zero, ih (by omega)]
  | @skip line w rest s lexeme _ ih =>
    have pos := List.length_pos_iff.mpr lexeme.nonempty
    rw [List.length_append] at enough
    obtain ⟨fuel, rfl⟩ : ∃ n, fuel = n + 1 := ⟨fuel - 1, by omega⟩
    rw [scanFrom_lexeme lexeme]
    exact ih (by omega)
  | @unknown line c rest lexeme =>
    obtain ⟨fuel, rfl⟩ : ∃ n, fuel = n + 1 := ⟨fuel - 1, by
      rw [List.length_cons] at enough
      omega⟩
    obtain ⟨c', same, other⟩ := lexeme.unknown_singleton
    obtain rfl : c = c' := by simpa using same
    have here := scanFrom_lexeme lexeme fuel line
    rw [List.singleton_append] at here
    rw [here]
    dsimp only
    rw [List.count_singleton, if_neg (by simpa using other), Nat.add_zero]

/-- The scanner returns the tokens of the lexemes of the text, the lines they stand on and the
first letter that opens no lexeme; there is one way to split a text into lexemes. -/
theorem scan_iff_lexemes (input : CString) (s : Scanned) :
    scan input = s ↔ Lexemes 1 input s :=
  ⟨fun eq => eq ▸ scanFrom_lexemes (Nat.le_refl _), fun h => h.scanFrom_eq (Nat.le_refl _)⟩

/-- Without its end a comment is a division and a multiplication. -/
example : (scan "a /* b".toList).tokens =
    [(.id (.of "a"), 1), (.char '/', 1), (.char '*', 1), (.id (.of "b"), 1)] := by decide

end Ctds
