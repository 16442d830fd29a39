import Ctds.Lib.Pattern
import Ctds.Lib.Terminator

/-! Two patterns of `lex.l`. The one for integer literals matches the texts of digits. The one
for comments over several lines matches a text from `/*` to the first `*/` behind it, and nothing
else; so the longest match never runs into a second comment. -/

namespace Ctds

open Pattern

def digit : Pattern Char := .cls Char.isDigit

/-- `{digit}+`. -/
def integerLiteral : Pattern Char := .plus digit

theorem mem_integerLiteral {w : List Char} :
    w ∈ integerLiteral.language ↔ w ≠ [] ∧ ∀ c ∈ w, c.isDigit = true := mem_plus_cls

/-- `\*+`. -/
def stars : Pattern Char := .plus (.letter '*')

/-- `([^*]|\*+[^*/])*`. -/
def commentText : Pattern Char :=
  .star (.alt (.cls (· != '*')) (.cat stars (.cls fun c => c != '*' && c != '/')))

/-- `"/*"([^*]|\*+[^*/])*\*+"/"`. -/
def multiLineComment : Pattern Char :=
  .cat (.text ['/', '*']) (.cat commentText (.cat stars (.text ['/'])))

def commentRest : Language Char := (Pattern.cat commentText (.cat stars (.text ['/']))).language

/-- What may follow where the letter read last is a star. -/
def afterStar : Language Char :=
  (Pattern.star (.letter '*')).language *
    ((Pattern.text ['/']).language +
      (Pattern.cls fun c => c != '*' && c != '/').language * commentRest)

theorem commentRest_eq :
    commentRest = (Pattern.cls (· != '*')).language * commentRest +
      (Pattern.letter '*').language * afterStar := by
  have round := star_mul (.alt (.cls (· != '*')) (.cat stars (.cls fun c => c != '*' && c != '/')))
    (Pattern.cat stars (.text ['/'])).language
  have whole : commentRest = commentText.language * (Pattern.cat stars (.text ['/'])).language :=
    rfl
  rw [commentText] at whole
  rw [← whole, language_alt, language_cat, language_cat, add_mul, mul_assoc, stars, plus_mul,
    plus_mul] at round
  rw [afterStar, mul_add, mul_add]
  exact round.trans (add_left_comm _ _ _)

theorem afterStar_eq :
    afterStar = (Pattern.text ['/']).language +
      (Pattern.cls fun c => c != '*' && c != '/').language * commentRest +
      (Pattern.letter '*').language * afterStar :=
  star_mul _ _

theorem cons_mem_commentRest (c : Char) (w : List Char) :
    c :: w ∈ commentRest ↔ (c ≠ '*' ∧ w ∈ commentRest) ∨ (c = '*' ∧ w ∈ afterStar) := by
  conv_lhs => rw [commentRest_eq]
  rw [Language.mem_add, letter, cons_mem_cls_mul, cons_mem_cls_mul, bne_iff_ne, beq_iff_eq]

theorem cons_mem_afterStar (c : Char) (w : List Char) :
    c :: w ∈ afterStar ↔ (c = '/' ∧ w = []) ∨ ((c ≠ '*' ∧ c ≠ '/') ∧ w ∈ commentRest) ∨
      (c = '*' ∧ w ∈ afterStar) := by
  conv_lhs => rw [afterStar_eq]
  rw [Language.mem_add, Language.mem_add, mem_text, List.cons.injEq, letter, cons_mem_cls_mul,
    cons_mem_cls_mul, Bool.and_eq_true, bne_iff_ne, bne_iff_ne, beq_iff_eq, or_assoc]

theorem nil_notMem_commentRest : [] ∉ commentRest := by
  rw [commentRest_eq, Language.mem_add, letter]
  exact fun mem => mem.elim nil_notMem_cls_mul nil_notMem_cls_mul

theorem nil_notMem_afterStar : [] ∉ afterStar := by
  rw [afterStar_eq, Language.mem_add, Language.mem_add, mem_text, letter]
  rintro ((slash | text) | star)
  · cases slash
  · exact nil_notMem_cls_mul text
  · exact nil_notMem_cls_mul star

theorem prefix_terminator {c : Char} {w : List Char} :
    ['*', '/'] <+: c :: w ↔ c = '*' ∧ ['/'] <+: w := by
  rw [List.cons_prefix_cons, eq_comm]

theorem mem_commentRest (w : List Char) :
    (w ∈ commentRest ↔ OnlyAtEnd ['*', '/'] w) ∧
      (w ∈ afterStar ↔ OnlyAtEnd ['*', '/'] ('*' :: w)) := by
  induction w with
  | nil =>
    refine ⟨iff_of_false nil_notMem_commentRest (not_onlyAtEnd_nil (by simp)),
      iff_of_false nil_notMem_afterStar fun h => ?_⟩
    have := h.1.length_le
    simp at this
  | cons c w ih =>
    obtain ⟨text, star⟩ := ih
    have plain : c ≠ '*' → (OnlyAtEnd ['*', '/'] (c :: w) ↔ OnlyAtEnd ['*', '/'] w) := fun other =>
      onlyAtEnd_cons fun h => other (prefix_terminator.mp h).1
    constructor
    · rw [cons_mem_commentRest]
      by_cases isStar : c = '*'
      · subst isStar
        simp [star]
      · simp [isStar, text, plain isStar]
    · rw [cons_mem_afterStar]
      by_cases slash : c = '/'
      · subst slash
        have last := onlyAtEnd_append (w := w) (show ['*', '/'] ≠ [] by simp)
        simpa using last.symm
      · have not : ¬ ['*', '/'] <+: '*' :: c :: w := by
          rw [prefix_terminator, List.cons_prefix_cons]
          exact fun h => slash h.2.1.symm
        rw [onlyAtEnd_cons not]
        by_cases isStar : c = '*'
        · subst isStar
          simp [star]
        · simp [isStar, slash, text, plain isStar]

theorem mem_multiLineComment {w : List Char} :
    w ∈ multiLineComment.language ↔ ∃ t, w = '/' :: '*' :: t ∧ OnlyAtEnd ['*', '/'] t := by
  rw [multiLineComment, language_cat, Language.mem_mul]
  constructor
  · rintro ⟨u, opening, t, rest, rfl⟩
    rw [mem_text.mp opening]
    exact ⟨t, rfl, (mem_commentRest t).1.mp rest⟩
  · rintro ⟨t, rfl, only⟩
    exact ⟨['/', '*'], mem_text.mpr rfl, t, (mem_commentRest t).1.mpr only, rfl⟩

theorem take_mem_multiLineComment {rest : List Char} {n : Nat}
    (le : n ≤ ('/' :: '*' :: rest).length) :
    ('/' :: '*' :: rest).take n ∈ multiLineComment.language ↔
      ∃ k, FirstAt ['*', '/'] rest k ∧ n = k + 4 := by
  rw [mem_multiLineComment]
  constructor
  · rintro ⟨t, eq, only⟩
    obtain ⟨m, rfl⟩ : ∃ m, n = m + 2 := by
      have := congrArg List.length eq
      rw [List.length_take_of_le le, List.length_cons, List.length_cons] at this
      exact ⟨t.length, this⟩
    rw [List.take_succ_cons, List.take_succ_cons] at eq
    obtain rfl := (List.cons.inj (List.cons.inj eq).2).2
    obtain ⟨k, first, rfl⟩ := (onlyAtEnd_take_iff (by simp) (by simpa using le)).mp only
    exact ⟨k, first, rfl⟩
  · rintro ⟨k, first, rfl⟩
    refine ⟨rest.take (k + 2), rfl, (onlyAtEnd_take_iff (by simp) ?_).mpr ⟨k, first, rfl⟩⟩
    simpa using le

/-- The pattern matches the comments exactly. On an input that opens a comment the longest match
ends at the first terminator, and without a terminator there is no match. -/
theorem multi_line_comment_exact :
    (∀ s, s ∈ multiLineComment.language ↔
      ∃ t, s = ['/', '*'] ++ t ∧ OnlyAtEnd ['*', '/'] t) ∧
    ∀ rest, (∀ n, multiLineComment.longest (['/', '*'] ++ rest) = some n ↔
        ∃ k, FirstAt ['*', '/'] rest k ∧ n = 2 + k + 2) ∧
      (multiLineComment.longest (['/', '*'] ++ rest) = none ↔ ¬ ['*', '/'] <:+: rest) := by
  refine ⟨fun s => mem_multiLineComment, fun rest => ⟨fun n => ?_, ?_⟩⟩
  · rw [longest_eq_some_iff]
    constructor
    · rintro ⟨le, mem, -⟩
      obtain ⟨k, first, rfl⟩ := (take_mem_multiLineComment le).mp mem
      exact ⟨k, first, by omega⟩
    · rintro ⟨k, first, rfl⟩
      have room : 2 + k + 2 ≤ (['/', '*'] ++ rest).length := by
        have := first.le_length (by simp)
        simp only [List.length_append, List.length_cons, List.length_nil] at this ⊢
        omega
      refine ⟨room, (take_mem_multiLineComment room).mpr ⟨k, first, by omega⟩,
        fun m gt le mem => ?_⟩
      obtain ⟨k', first', rfl⟩ := (take_mem_multiLineComment le).mp mem
      have := first.unique first'
      omega
  · rw [longest_eq_none_iff, infix_iff_firstAt]
    constructor
    · rintro no ⟨k, first⟩
      have room : k + 4 ≤ (['/', '*'] ++ rest).length := by
        have := first.le_length (by simp)
        simp only [List.length_append, List.length_cons, List.length_nil] at this ⊢
        omega
      exact no (k + 4) room ((take_mem_multiLineComment room).mpr ⟨k, first, rfl⟩)
    · intro never n le mem
      obtain ⟨k, first, -⟩ := (take_mem_multiLineComment le).mp mem
      exact never ⟨k, first⟩

example : "/*/ **** /**/".toList ∈ multiLineComment.language := by decide

/-- `/* y **/ x */` is a comment up to the first `*/`. -/
example : multiLineComment.longest "/* y **/ x */".toList = some 8 := by decide

end Ctds
