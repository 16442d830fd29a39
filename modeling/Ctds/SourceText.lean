import Ctds.Lexemes
import Ctds.ProgramReader

/-! From the text of a program to its derivation, and back: a derivation that is written down,
with blanks of any kind and number behind its terminals, is read as it was. -/

namespace Ctds

open Pattern Decimal Word

/-- The derivation that the text has, lines apart; a lexical error leaves none. -/
def readText (text : CString) : Option ProgramSyn :=
  match scan text with
  | ⟨tokens, none⟩ => readProgram (tokens.map Prod.fst)
  | ⟨_, some _⟩ => none

def Token.spelling : Token → CString
  | .kwProgram => "Program".toList | .kwIf => "if".toList | .kwElse => "else".toList
  | .kwThen => "then".toList | .kwWhile => "while".toList | .kwVoid => "void".toList
  | .kwReturn => "return".toList | .kwExtern => "extern".toList | .kwBool => "bool".toList
  | .kwInteger => "integer".toList | .kwFalse => "false".toList | .kwTrue => "true".toList
  | .integerLiteral ival => natText ival.toNat
  | .id sval => sval.text
  | .and => "&&".toList | .or => "||".toList | .neg => "!".toList | .eq => "==".toList
  | .neq => "!=".toList | .leq => "<=".toList | .geq => ">=".toList | .les => "<".toList
  | .grt => ">".toList
  | .char c => [c]

/-- The letters that are terminals of the grammar. -/
def terminalChars : CString := ['+', '-', '*', '/', '%', '=', ',', ';', '(', ')', '{', '}']

/-- A token that the scanner can return. -/
def Token.Spelled : Token → Prop
  | .id sval => sval.text ∉ keywords.map Prod.fst
  | .char c => c ∈ terminalChars
  | _ => True

theorem atoi_natText (v : BitVec 32) : atoi (natText v.toNat) = v := by
  have digits : ∀ c ∈ natText v.toNat, c.isDigit = true := fun c mem => isDigit_of_mem_natText mem
  have value : Nat.ofDigitChars 10 (natText v.toNat) 0 = v.toNat := Nat.ofDigitChars_ten_toDigits
  have small : v.toNat < 2 ^ 32 := v.isLt
  rw [atoi, strtol_digits digits, value, min_eq_right (by omega)]
  exact BitVec.eq_of_toNat_eq (by simp)

theorem mem_of_isBlank {c : Char} (h : isBlank c = true) : c ∈ [' ', '\t', '\r', '\n'] := by
  simpa [isBlank, or_assoc] using h

theorem ends_blank {p : Char → Bool} {gap rest : CString} (nonempty : gap ≠ [])
    (blank : ∀ c ∈ gap, isBlank c = true) (out : [' ', '\t', '\r', '\n'].any p = false) :
    Ends p (gap ++ rest) := by
  obtain ⟨c, gap, rfl⟩ := List.exists_cons_of_ne_nil nonempty
  intro d first
  obtain rfl : c = d := Option.some.inj first
  exact eq_false_of_ne_true
    (List.any_eq_false.mp out c (mem_of_isBlank (blank c List.mem_cons_self)))

theorem operator_not_comment {w gap rest : CString} {t : Token} (mem : (w, t) ∈ operators)
    (nonempty : gap ≠ []) (blank : ∀ c ∈ gap, isBlank c = true) :
    ¬ OpensComment (w ++ (gap ++ rest)) := by
  have second : ∀ entry ∈ operators, entry.1 = ['/'] ∨ entry.1.head? ≠ some '/' := by decide
  obtain ⟨c, gap, rfl⟩ := List.exists_cons_of_ne_nil nonempty
  have here := blank c List.mem_cons_self
  rcases second _ mem with rfl | other
  · rintro (line | ⟨t, eq, -⟩)
    · obtain rfl : '/' = c := by simpa using line
      cases here
    · obtain rfl : c = '*' := (List.cons.inj (List.cons.inj eq).2).1
      cases here
  · obtain ⟨d, head, -⟩ := charKind_operators mem
    obtain ⟨v, rfl⟩ := List.head?_eq_some_iff.mp head
    rintro (line | ⟨t, eq, -⟩)
    · obtain rfl : '/' = d := (List.cons_prefix_cons.mp line).1
      exact other rfl
    · obtain rfl : d = '/' := (List.cons.inj eq).1
      exact other rfl

theorem lexeme_operator {w gap rest : CString} {t : Token} (mem : (w, t) ∈ operators)
    (nonempty : gap ≠ []) (blank : ∀ c ∈ gap, isBlank c = true) :
    Lexeme (.token t) w (gap ++ rest) :=
  .operator mem (fun _ => ends_blank nonempty blank rfl)
    (operator_not_comment mem nonempty blank)

theorem spelling_lexeme {t : Token} (spelled : t.Spelled) {gap : CString} (nonempty : gap ≠ [])
    (blank : ∀ c ∈ gap, isBlank c = true) (rest : CString) :
    Lexeme (.token t) t.spelling (gap ++ rest) := by
  have word : Ends isIdentChar (gap ++ rest) :=
    ends_blank nonempty blank rfl
  cases t with
  | integerLiteral ival =>
    have here : Lexeme (.token (.integerLiteral (atoi (natText ival.toNat)))) (natText ival.toNat)
        (gap ++ rest) := by
      refine .integer ?_ (fun c mem => isDigit_of_mem_natText mem)
        (ends_blank nonempty blank rfl)
      obtain ⟨d, ds, eq, -⟩ := natText_cons ival.toNat
      rw [eq]
      exact List.cons_ne_nil d ds
    rwa [atoi_natText] at here
  | id sval => exact .id spelled word
  | char c =>
    have split : c ∈ punctuation ∨ ([c], Token.char c) ∈ operators := by
      have all : (terminalChars.all fun c => decide (c ∈ punctuation) ||
          decide (([c], Token.char c) ∈ operators)) = true := by decide
      simpa using List.all_eq_true.mp all c spelled
    rcases split with mark | operator
    · exact .punctuation mark
    · exact lexeme_operator operator nonempty blank
  | and | or | neg | eq | neq | leq | geq | les | grt =>
    exact lexeme_operator (by decide) nonempty blank
  | _ => exact .keyword (by decide) word

/-- A blank text behind every token. -/
def layoutText (laid : List (Token × CString)) : CString :=
  (laid.map fun entry => entry.1.spelling ++ entry.2).flatten

theorem Lexeme.head_not_blank {t : Token} {w rest : CString} (h : Lexeme (.token t) w rest) :
    ∀ c ∈ w.head?, isBlank c = false := by
  have kinds : ∀ c, charKind c ≠ .blank → isBlank c = false := fun c other =>
    Bool.eq_false_iff.mpr (mt charKind_blank other)
  intro c first
  refine kinds c ?_
  cases h with
  | integer _ digits =>
    rw [charKind_digit.mpr (digits c (List.mem_of_mem_head? first))]
    exact nofun
  | keyword mem =>
    obtain ⟨d, head, kind⟩ := charKind_keywords mem
    obtain rfl : d = c := Option.mem_unique head first
    rw [kind]
    exact nofun
  | @id x =>
    obtain ⟨d, ds, eq, letter⟩ := x.text_cons
    rw [eq] at first
    obtain rfl : d = c := Option.some.inj first
    rw [charKind_letter.mpr letter]
    exact nofun
  | operator mem =>
    obtain ⟨d, head, kind⟩ := charKind_operators mem
    obtain rfl : d = c := Option.mem_unique head first
    rw [kind]
    exact nofun
  | punctuation mem =>
    obtain rfl := Option.some.inj first
    rw [charKind_punctuation mem]
    exact nofun

theorem layout_lexemes {laid : List (Token × CString)}
    (spelled : ∀ entry ∈ laid, entry.1.Spelled)
    (gaps : ∀ entry ∈ laid, entry.2 ≠ [] ∧ ∀ c ∈ entry.2, isBlank c = true) (line : Nat) :
    ∃ tokens, Lexemes line (layoutText laid) ⟨tokens, none⟩ ∧
      tokens.map Prod.fst = laid.map Prod.fst := by
  induction laid generalizing line with
  | nil => exact ⟨[], .done, rfl⟩
  | cons entry laid ih =>
    obtain ⟨t, gap⟩ := entry
    rw [List.forall_mem_cons] at spelled gaps
    obtain ⟨nonempty, blank⟩ := gaps.1
    obtain ⟨tokens, lexemes, same⟩ := ih spelled.2 gaps.2 (line + gap.count '\n')
    have text : layoutText ((t, gap) :: laid) = t.spelling ++ (gap ++ layoutText laid) := by
      simp [layoutText]
    have ends : Ends isBlank (layoutText laid) := by
      cases laid with
      | nil => exact nofun
      | cons next laid =>
        obtain ⟨t', gap'⟩ := next
        rw [List.forall_mem_cons] at spelled gaps
        have lexeme := spelling_lexeme spelled.2.1 gaps.2.1.1 gaps.2.1.2 (layoutText laid)
        have text' : layoutText ((t', gap') :: laid) = t'.spelling ++
          (gap' ++ layoutText laid) := by
          simp [layoutText]
        obtain ⟨c, w, eq⟩ := List.exists_cons_of_ne_nil lexeme.nonempty
        intro d first
        rw [text', eq] at first
        exact lexeme.head_not_blank d (by rw [eq]; exact first)
    refine ⟨(t, line) :: tokens, ?_, by rw [List.map_cons, same, List.map_cons]⟩
    rw [text]
    exact .token (spelling_lexeme spelled.1 nonempty blank _)
      (.skip (.blank nonempty blank ends) lexemes)

/-- A letter only if the grammar has it. -/
def Token.isTerminal : Token → Bool
  | .char c => terminalChars.contains c
  | _ => true

@[simp] theorem binary_isTerminal (op : BinarySyn) : op.terminal.isTerminal = true := by
  cases op <;> rfl

@[simp] theorem type_isTerminal (type : TypeSyn) : type.terminal.isTerminal = true := by
  cases type <;> rfl

mutual
theorem expr_isTerminal (e : ExprSyn) : e.terminals.all Token.isTerminal = true := by
  match e with
  | .id .. | .integerLiteral .. | .trueLiteral .. | .falseLiteral .. => rfl
  | .methodCall line name callArgs =>
    simpa [ExprSyn.terminals, Token.isTerminal, terminalChars] using
      (callArgs_isTerminal callArgs).1
  | .binary line op left right =>
    have l := expr_isTerminal left
    have r := expr_isTerminal right
    rw [ExprSyn.terminals, List.all_append, List.all_cons, l, r, binary_isTerminal]
    rfl
  | .uminus line expr => exact expr_isTerminal expr
  | .neg line expr => exact expr_isTerminal expr
  | .paren expr =>
    have inner := expr_isTerminal expr
    rw [ExprSyn.terminals, List.all_append, List.all_cons, inner]
    rfl
theorem callArgs_isTerminal (args : ExprListSyn) :
    args.terminals.all Token.isTerminal = true ∧
      args.commaTerminals.all Token.isTerminal = true := by
  match args with
  | .nil => exact ⟨rfl, rfl⟩
  | .cons expr rest =>
    have here := expr_isTerminal expr
    have later := (callArgs_isTerminal rest).2
    constructor
    · rw [ExprListSyn.terminals, List.all_append, here, later]
      rfl
    · rw [ExprListSyn.commaTerminals, List.all_append, List.all_cons, here, later]
      rfl
end

theorem flatten_isTerminal {α : Type} {terminals : α → List Token} {items : List α}
    (all : ∀ item ∈ items, (terminals item).all Token.isTerminal = true) :
    (items.map terminals).flatten.all Token.isTerminal = true := by
  rw [List.all_flatten, List.all_map, List.all_eq_true]
  exact all

theorem varDecl_isTerminal (decl : VarDeclSyn) : decl.terminals.all Token.isTerminal = true := by
  rw [VarDeclSyn.terminals, List.all_cons, List.all_cons, type_isTerminal]
  cases decl.init with
  | none => rfl
  | some expr =>
    rw [initTerminals, List.all_append, List.all_cons, expr_isTerminal]
    rfl

mutual
theorem stmt_isTerminal (s : StmtSyn) : s.terminals.all Token.isTerminal = true := by
  match s with
  | .assign line name expr | .returnExpr line expr =>
    simp only [StmtSyn.terminals, List.all_append, List.all_cons, expr_isTerminal]
    rfl
  | .methodCall line name callArgs =>
    simp only [StmtSyn.terminals, List.all_append, List.all_cons, callArgs_isTerminal]
    rfl
  | .ifThen line cond thenBlock =>
    simp only [StmtSyn.terminals, List.all_append, List.all_cons, expr_isTerminal,
      block_isTerminal thenBlock]
    rfl
  | .ifThenElse line cond thenBlock elseBlock =>
    simp only [StmtSyn.terminals, List.all_append, List.all_cons, expr_isTerminal,
      block_isTerminal thenBlock, block_isTerminal elseBlock]
    rfl
  | .whileLoop line cond block =>
    simp only [StmtSyn.terminals, List.all_append, List.all_cons, expr_isTerminal,
      block_isTerminal block]
    rfl
  | .returnVoid line | .empty => rfl
  | .block block => exact block_isTerminal block
theorem block_isTerminal (b : BlockSyn) : b.terminals.all Token.isTerminal = true := by
  match b with
  | .mk line decls statements =>
    have locals : (decls.map VarDeclSyn.terminals).flatten.all Token.isTerminal = true :=
      flatten_isTerminal fun decl _ => varDecl_isTerminal decl
    simp only [BlockSyn.terminals, List.all_append, List.all_cons, locals,
      stmts_isTerminal statements]
    rfl
theorem stmts_isTerminal (ss : StmtListSyn) : ss.terminals.all Token.isTerminal = true := by
  match ss with
  | .nil => rfl
  | .cons statement rest =>
    rw [StmtListSyn.terminals, List.all_append, stmt_isTerminal statement, stmts_isTerminal rest]
    rfl
end

theorem args_isTerminal (args : List ArgSyn) :
    (argTerminals args).all Token.isTerminal = true := by
  have one : ∀ arg : ArgSyn, arg.terminals.all Token.isTerminal = true := fun arg => by
    rw [ArgSyn.terminals, List.all_cons, type_isTerminal]
    rfl
  cases args with
  | nil => rfl
  | cons arg args =>
    have more : (commaArgTerminals args).all Token.isTerminal = true :=
      flatten_isTerminal fun arg _ => one arg
    rw [argTerminals, List.all_append, one, more]
    rfl

theorem decl_isTerminal (decl : DeclSyn) : decl.terminals.all Token.isTerminal = true := by
  cases decl with
  | varDecl decl => exact varDecl_isTerminal decl
  | methodDecl decl =>
    have type : (returnTerminal decl.type).isTerminal = true := by
      cases decl.type with
      | none => rfl
      | some type => exact type_isTerminal type
    have body : (bodyTerminals decl.body).all Token.isTerminal = true := by
      cases decl.body with
      | none => rfl
      | some block => exact block_isTerminal block
    simp only [DeclSyn.terminals, MethodDeclSyn.terminals, List.all_append, List.all_cons, type,
      body, args_isTerminal]
    rfl

theorem program_isTerminal (prog : ProgramSyn) :
    (programTerminals prog).all Token.isTerminal = true := by
  have decls : (prog.map DeclSyn.terminals).flatten.all Token.isTerminal = true :=
    flatten_isTerminal fun decl _ => decl_isTerminal decl
  simp only [programTerminals, List.all_append, List.all_cons, decls]
  rfl

/-- No name of the derivation is a keyword. -/
def NamesFree (prog : ProgramSyn) : Prop :=
  ∀ x, Token.id x ∈ programTerminals prog → x.text ∉ keywords.map Prod.fst

theorem program_spelled {prog : ProgramSyn} (free : NamesFree prog) {t : Token}
    (mem : t ∈ programTerminals prog) : t.Spelled := by
  have terminal := List.all_eq_true.mp (program_isTerminal prog) t mem
  cases t with
  | id x => exact free x mem
  | char c => exact List.contains_iff_mem.mp terminal
  | _ => exact trivial

/-- A derivation that the precedence declarations leave is read again from its terminals, written
down with any blanks behind them. -/
theorem source_round_trip {prog : ProgramSyn} (respects : ∀ decl ∈ prog, decl.Respects)
    (free : NamesFree prog) {laid : List (Token × CString)}
    (tokens : laid.map Prod.fst = programTerminals prog)
    (gaps : ∀ entry ∈ laid, entry.2 ≠ [] ∧ ∀ c ∈ entry.2, isBlank c = true) :
    readText (layoutText laid) = some (prog.map DeclSyn.unlined) := by
  have spelled : ∀ entry ∈ laid, entry.1.Spelled := fun entry mem =>
    program_spelled free (tokens ▸ List.mem_map_of_mem mem)
  obtain ⟨found, lexemes, same⟩ := layout_lexemes spelled gaps 1
  have scanned : scan (layoutText laid) = ⟨found, none⟩ := lexemes.scanFrom_eq (Nat.le_refl _)
  rw [readText, scanned]
  dsimp only
  rw [same, tokens, readProgram_terminals respects]

/-- `integer f(integer x) { return 1 - 2 * x - 3; }`. -/
def difference : ProgramSyn :=
  [.methodDecl ⟨1, some .integer, .of "f", [⟨1, .integer, .of "x"⟩], some (.mk 1 []
    (.cons (.returnExpr 1 (.binary 1 .minus (.binary 1 .minus (.integerLiteral 1 1)
      (.binary 1 .times (.integerLiteral 1 2) (.id 1 (.of "x")))) (.integerLiteral 1 3))) .nil))⟩]

theorem difference_read :
    readText (layoutText ((programTerminals difference).map fun t => (t, [' ', '\n']))) =
      some (difference.map DeclSyn.unlined) := by
  refine source_round_trip ?_ ?_ ?_ ?_
  · refine List.forall_mem_cons.mpr ⟨fun block mem => ?_, nofun⟩
    obtain rfl := Option.some.inj mem
    exact ⟨nofun, ⟨⟨trivial, ⟨trivial, trivial, trivial, trivial⟩, trivial, Nat.le_refl _⟩,
      trivial, Nat.le_refl _, trivial⟩, trivial⟩
  · intro x mem
    have names : x = .of "f" ∨ x = .of "x" := by
      simpa [programTerminals, difference, DeclSyn.terminals, MethodDeclSyn.terminals,
        argTerminals, commaArgTerminals, ArgSyn.terminals, bodyTerminals, BlockSyn.terminals,
        StmtListSyn.terminals, StmtSyn.terminals, ExprSyn.terminals, returnTerminal,
        TypeSyn.terminal, BinarySyn.terminal, or_assoc] using mem
    rcases names with rfl | rfl <;> decide
  · rw [List.map_map]
    exact List.map_id _
  · intro entry mem
    obtain ⟨t, -, rfl⟩ := List.mem_map.mp mem
    exact ⟨List.cons_ne_nil _ _, List.forall_mem_cons.mpr ⟨rfl, List.forall_mem_singleton.mpr rfl⟩⟩

end Ctds
