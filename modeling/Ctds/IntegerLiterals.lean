import Mathlib.Data.List.TakeWhile
import Ctds.CallingConvention
import Ctds.LexPatterns

/-! An integer literal on its way to the machine: `atoi` reads its digits, the leaf keeps the
int, LOADVAL prints it, and `movq` extends its sign. The word is the number that the digits
denote below 2^31 only; `atoi` does not say that a number was too large. -/

namespace Ctds

open Decimal Word Fallible

def isSpace (c : Char) : Bool := [' ', '\t', '\n', '\x0b', '\x0c', '\r'].contains c

def digitsValue (text : CString) : Nat := Nat.ofDigitChars 10 (text.takeWhile Char.isDigit) 0

def signedValue : CString → Int
  | '-' :: digits => -digitsValue digits
  | '+' :: digits => digitsValue digits
  | digits => digitsValue digits

/-- In base ten; what a `long` cannot hold is its nearest value. -/
def strtol (text : CString) : Int :=
  max (-2 ^ 63) (min (2 ^ 63 - 1) (signedValue (text.dropWhile isSpace)))

def atoi (text : CString) : BitVec 32 := BitVec.ofInt 32 (strtol text)

theorem signedValue_digits {text : CString} (digits : ∀ c ∈ text, c.isDigit = true) :
    signedValue text = Nat.ofDigitChars 10 text 0 := by
  have all : text.takeWhile Char.isDigit = text := List.takeWhile_eq_self_iff.mpr digits
  unfold signedValue
  split
  · exact absurd (digits '-' List.mem_cons_self) (by decide)
  · exact absurd (digits '+' List.mem_cons_self) (by decide)
  · rw [digitsValue, all]

theorem strtol_digits {text : CString} (digits : ∀ c ∈ text, c.isDigit = true) :
    strtol text = min (2 ^ 63 - 1) ((Nat.ofDigitChars 10 text 0 : Nat) : Int) := by
  have noSpace : text.dropWhile isSpace = text := by
    cases text with
    | nil => rfl
    | cons c rest =>
      refine List.dropWhile_cons_of_neg fun space => ?_
      have digit := digits c List.mem_cons_self
      simp only [isSpace, List.contains_eq_mem, List.mem_cons, List.not_mem_nil, or_false,
        decide_eq_true_eq] at space
      rcases space with rfl | rfl | rfl | rfl | rfl | rfl <;> cases digit
  rw [strtol, noSpace, signedValue_digits digits]
  omega

theorem toInt_atoi_iff {text : CString} (digits : ∀ c ∈ text, c.isDigit = true) :
    (atoi text).toInt = Nat.ofDigitChars 10 text 0 ↔ Nat.ofDigitChars 10 text 0 < 2 ^ 31 := by
  rw [atoi, strtol_digits digits, BitVec.toInt_ofInt]
  generalize Nat.ofDigitChars 10 text 0 = n
  constructor
  · intro same
    have below := @Int.bmod_lt (min (2 ^ 63 - 1) (n : Int)) (2 ^ 32) (by decide)
    rw [same] at below
    omega
  · intro small
    rw [min_eq_right (by omega)]
    exact Int.bmod_eq_of_le (by omega) (by omega)

/-- The code that brings a literal into a variable: LOADVAL into a temporary, or the direct STORE
of an assignment. -/
inductive LiteralCode (env : Env) (tab : SymbolTable) (v : BitVec 32) :
    List IrInstr → Var → Prop where
  | loadval (line : Int) (fatherOp temps : Nat) :
    LiteralCode env tab v (exprCode env tab fatherOp (.leaf line (.int v)) temps).code (.temp temps)
  | store {left : AstNode} {x : Ident} (line line' : Int) (arity : OperatorArity) (c : Counters) :
    env.optimizations = true → targetOf tab left = some x →
    LiteralCode env tab v
      (stmtCode env tab (.common line arity .assign left (.leaf line' (.int v))) c).1 (.user x)

/-- In every accepted program, wherever the literal's code stands in a method, its lines end with
the number in the slot of the variable. -/
def LiteralKept (text : CString) : Prop :=
  ∀ (env : Env) (b : Compiled env) (e l j : Nat) (f : CString) (code : List IrInstr) (x : Var),
    InMethod b.code e l f → e < j → j < l → LiteralCode env b.tab (atoi text) code x →
    Placed b.instrs j code → ∀ m : Machine, ∃ m',
      execLines (objectLines b.tab b.headAst b.code j) m = some (m', .next) ∧
      (valueIn (objectState b.tab b.headAst b.code l).varMap m' (x.name b.rename)).toInt =
        Nat.ofDigitChars 10 text 0

theorem literalCode_eq {env : Env} {tab : SymbolTable} {v : BitVec 32}
    {code : List IrInstr} {x : Var}
    (h : LiteralCode env tab v code x) :
    ∃ i, code = [i] ∧ i.isLocal = true ∧ (∀ ρ, x.name ρ ∈ i.slotNames ρ) ∧
      ∀ ρ store, i.effect ρ store =
        some (Function.update store (x.name ρ) (v.signExtend 64), .next) := by
  cases h with
  | loadval line fatherOp temps =>
    exact ⟨.loadval v temps, by simp [exprCode, leafCode, LeafValue.intValue], rfl,
      fun ρ => by simp [IrInstr.slotNames, Var.name], fun ρ store => rfl⟩
  | @store left y line line' arity c on target =>
    refine ⟨.storeVal v y, ?_, rfl, fun ρ => by simp [IrInstr.slotNames, Var.name],
      fun ρ store => rfl⟩
    simp [stmtCode, on, target, AstNode.literal?, LeafValue.intValue]

theorem literal_loaded {env : Env} (b : Compiled env) {e l j : Nat} {f : CString}
    (method : InMethod b.code e l f) (gt : e < j) (lt : j < l) {v : BitVec 32} {code : List IrInstr}
    {x : Var} (literal : LiteralCode env b.tab v code x) (placed : Placed b.instrs j code)
    (m : Machine) :
    ∃ m', execLines (objectLines b.tab b.headAst b.code j) m = some (m', .next) ∧
      valueIn (objectState b.tab b.headAst b.code l).varMap m' (x.name b.rename) =
        v.signExtend 64 := by
  obtain ⟨i, rfl, isLocal, slot, effect⟩ := literalCode_eq literal
  have here := placed.head
  have holds : SlotsHold (objectState b.tab b.headAst b.code l).varMap
      (valueIn (objectState b.tab b.headAst b.code l).varMap m) m := by
    intro name offset found
    rw [valueIn, slotOf, found, Option.getD_some]
  have done := b.objectLines_refine method gt lt here isLocal holds
  rw [effect] at done
  obtain ⟨m', run, holds', -⟩ := done
  obtain ⟨offset, found⟩ := b.slot_found method gt lt here (slot b.rename)
  refine ⟨m', run, ?_⟩
  rw [valueIn, slotOf, found, Option.getD_some, holds' _ offset found, Function.update_self]

/-- `integer main() { return v; }` -/
def returnLiteral (v : BitVec 32) : ProgramSyn :=
  [.methodDecl ⟨1, some .integer, .of "main", [],
    some (.mk 1 [] (.cons (.returnExpr 1 (.integerLiteral 1 v)) .nil))⟩]

theorem returnLiteral_accepted (v : BitVec 32) :
    ∃ b : Compiled (.sample false), b.prog = returnLiteral v ∧
      b.instrs = [.enter (.of "main"), .loadval v 0, .ret (some (.temp 0)),
      .leave (.of "main")] := by
  obtain ⟨checked, accepted⟩ := isOk_iff.mp
    (rfl : (frontEnd (.sample false) (returnLiteral v)).isOk = true)
  have facts : (frontEnd (.sample false) (returnLiteral v)).toOption.map (fun c =>
      (programCode (.sample false) c.tab c.headAst ⟨0, 0⟩).1) =
      some [.enter (.of "main"), .loadval v 0, .ret (some (.temp 0)), .leave (.of "main")] := rfl
  rw [accepted] at facts
  exact ⟨.plain rfl accepted, rfl, Option.some.inj facts⟩

theorem returnLiteral_literal {v : BitVec 32} {b : Compiled (.sample false)}
    (instrs : b.instrs =
      [.enter (.of "main"), .loadval v 0, .ret (some (.temp 0)), .leave (.of "main")]) :
    InMethod b.code 0 3 "main".toList ∧
      ∃ code, LiteralCode (.sample false) b.tab v code (.temp 0) ∧ Placed b.instrs 1 code := by
  refine ⟨?_, _, .loadval 1 0 0, ?_⟩
  · have code := b.code_eq
    rw [instrs] at code
    rw [code]
    exact inMethod_of_range (by decide) rfl rfl rfl
  · exact ⟨[.enter (.of "main")], [.ret (some (.temp 0)), .leave (.of "main")], instrs, rfl⟩

theorem toInt_of_kept {text : CString} (kept : LiteralKept text) :
    (atoi text).toInt = Nat.ofDigitChars 10 text 0 := by
  obtain ⟨b, -, instrs⟩ := returnLiteral_accepted (atoi text)
  obtain ⟨method, code, literal, placed⟩ := returnLiteral_literal instrs
  let m : Machine := ⟨fun _ => 0, 0, 0, fun _ => 0, ⟨false, false, false⟩⟩
  obtain ⟨m', run, value⟩ :=
    kept _ b 0 3 1 _ code (.temp 0) method (by decide) (by decide) literal placed m
  obtain ⟨m'', run', loaded⟩ := literal_loaded b method (by decide) (by decide) literal placed m
  rw [run, Option.some.injEq, Prod.mk.injEq] at run'
  rw [← value, run'.1, loaded, BitVec.toInt_signExtend_of_le (by decide)]

/-- A literal keeps its value exactly when it denotes a number below 2^31. -/
theorem literal_kept_iff {text : CString} (lexed : text ∈ integerLiteral.language) :
    LiteralKept text ↔ Nat.ofDigitChars 10 text 0 < 2 ^ 31 := by
  rw [← toInt_atoi_iff (mem_integerLiteral.mp lexed).2]
  constructor
  · exact toInt_of_kept
  · intro same env b e l j f code x method gt lt literal placed m
    obtain ⟨m', run, loaded⟩ := literal_loaded b method gt lt literal placed m
    refine ⟨m', run, ?_⟩
    rw [loaded, BitVec.toInt_signExtend_of_le (by decide), same]

theorem literal_kept_zeros : LiteralKept "0002147483647".toList :=
  (literal_kept_iff (by decide)).mpr (by decide)

/-- The first number too large is loaded as the least int. -/
theorem literal_wraps :
    "2147483648".toList ∈ integerLiteral.language ∧ ¬ LiteralKept "2147483648".toList ∧
      ∃ b : Compiled (.sample false), b.prog = returnLiteral (atoi "2147483648".toList) ∧
        ∀ m : Machine, ∃ m', execLines (objectLines b.tab b.headAst b.code 1) m = some (m', .next) ∧
          (valueIn (objectState b.tab b.headAst b.code 3).varMap m' (tempText (b.rename 0))).toInt =
            -2147483648 := by
  have value : (atoi "2147483648".toList).toInt = -2147483648 := by decide
  obtain ⟨b, prog, instrs⟩ := returnLiteral_accepted (atoi "2147483648".toList)
  obtain ⟨method, code, literal, placed⟩ := returnLiteral_literal instrs
  refine ⟨by decide, fun kept => ?_, b, prog, fun m => ?_⟩
  · have same := toInt_of_kept kept
    rw [value] at same
    revert same
    decide
  · obtain ⟨m', run, loaded⟩ := literal_loaded b method (by decide) (by decide) literal placed m
    refine ⟨m', run, ?_⟩
    rw [Var.name] at loaded
    rw [loaded, BitVec.toInt_signExtend_of_le (by decide), value]

end Ctds
