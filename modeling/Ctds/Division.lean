import Ctds.Lib.Signed
import Ctds.Typing
import Ctds.ProgramCode

/-! Division by a leaf. With `-opt` the case of OP_DIVISION reads `int_value` of the right
operand and shifts if that is a positive power of two; it does not look at the leaf's
type, so for an identifier the number is the low half of the symbol's address. -/

namespace Ctds

open Signed Decimal Fallible

theorem builtinCtz_twoPow (k : Fin 31) : builtinCtz (BitVec.ofInt 32 (2 ^ k.val)) = k := by
  revert k
  decide

theorem builtinCtz_of_toInt {v : BitVec 32} {k : Nat} (value : v.toInt = 2 ^ k) :
    builtinCtz v = k := by
  have small : k < 31 := by
    by_contra large
    have le : (2 : Int) ^ 31 ≤ 2 ^ k := by
      exact_mod_cast Nat.pow_le_pow_right (by decide) (by omega : 31 ≤ k)
    have lt : v.toInt < 2 ^ 31 := BitVec.toInt_lt
    omega
  rw [← BitVec.ofInt_toInt (x := v), value]
  exact builtinCtz_twoPow ⟨k, small⟩

/-- The shift is chosen for the powers of two, with the exponent as its count. -/
theorem shiftCount_eq_some_iff {env : Env} (on : env.optimizations = true) {line : Int}
    {value : LeafValue} {k : Nat} :
    shiftCount env (.leaf line value) = some k ↔ (value.intValue env).toInt = 2 ^ k := by
  simp only [shiftCount, on, true_and]
  constructor
  · intro chosen
    split at chosen
    · next test =>
      obtain ⟨j, power⟩ := (and_pred_eq_zero_iff _ test.1).mp test.2
      rw [builtinCtz_of_toInt power, Option.some.injEq] at chosen
      rw [power, chosen]
    · cases chosen
  · intro power
    have pos : 0 < (value.intValue env).toInt := power ▸ Int.pow_pos (by decide)
    rw [if_pos ⟨pos, (and_pred_eq_zero_iff _ pos).mpr ⟨k, power⟩⟩, builtinCtz_of_toInt power]

theorem emit_getLast? (env : Env) (t : InstrType) (var1 var2 reg : Option NamePtr)
    (st : GenState) :
    (emit env t var1 var2 reg st).code.getLast? = some ⟨t, var1, var2, reg⟩ := by
  simp [emit]

theorem genDivision_variable (env : Env) {tab : SymbolTable} {p : IdPtr} {info : SymbolInfo}
    (entry : tab.entry p = some info) (line : Int) (fatherOp : Nat) (genLeft : Emitter)
    (st : GenState) :
    ∃ var1 temp, (genDivision env (.leaf line (.id p)) genLeft
        (genCode env tab fatherOp (.leaf line (.id p))) st).1.code.getLast? =
      match shiftCount env (.leaf line (.id p)) with
      | some count => some ⟨.shiftRight, some var1, some (.str (natText count)), some temp⟩
      | none => some ⟨.div, some var1, some (.str info.name.text), some temp⟩ := by
  simp only [genDivision]
  cases shiftCount env (.leaf line (.id p)) with
  | some count => exact ⟨_, _, emit_getLast? _ _ _ _ _ _⟩
  | none =>
    have right : (genCode env tab fatherOp (.leaf line (.id p)) (genLeft st).1).2 =
        some (.str info.name.text) := by
      rw [genCode, genCodeLeaf, entry]
      dsimp only
      split <;> rfl
    simp only [emit_getLast?, right]
    exact ⟨_, _, rfl⟩

/-- A division by a variable stays a division if the low half of the address of its
symbol is no positive power of two. -/
theorem division_by_variable_iff {env : Env} (on : env.optimizations = true) {tab : SymbolTable}
    {p : IdPtr} {info : SymbolInfo} (entry : tab.entry p = some info) (line line' : Int)
    (left : AstNode) (fatherOp : Nat) (st : GenState) :
    (∃ var1 temp, (genCode env tab fatherOp
        (.common line .binary .division left (.leaf line' (.id p))) st).1.code.getLast? =
      some ⟨.div, some var1, some (.str info.name.text), some temp⟩) ↔
    ¬ ∃ k, ((env.addr p).setWidth 32).toInt = 2 ^ k := by
  obtain ⟨var1, temp, last⟩ := genDivision_variable env entry line' Operator.division.code
    (genCode env tab Operator.division.code left) st
  rw [genCode, genCodeCommon, last]
  cases count : shiftCount env (.leaf line' (.id p)) with
  | some k =>
    have power := (shiftCount_eq_some_iff on).mp count
    exact iff_of_false (by simp) (not_not_intro ⟨k, power⟩)
  | none =>
    refine iff_of_true ⟨var1, temp, rfl⟩ ?_
    rintro ⟨k, power⟩
    have chosen : shiftCount env (.leaf line' (.id p)) = some k :=
      (shiftCount_eq_some_iff on).mpr power
    rw [count] at chosen
    cases chosen

/-- An allocation of the entries two lines of 16 bytes apart. -/
def Env.heapAt (base : Nat) : Env :=
  { Env.sample true with
    addr := fun p => BitVec.ofNat 64 (16 * (base + 2 * p))
    addr_aligned := by
      intro p
      rw [BitVec.toNat_ofNat]
      omega }

/-- `integer x; integer main() { return 7 / x; }`. -/
def sevenOver : ProgramSyn :=
  let x : Ident := .of "x"
  [.varDecl ⟨1, .integer, x, none⟩,
    .methodDecl ⟨2, some .integer, .of "main", [], some (.mk 2 []
      (.cons (.returnExpr 3 (.binary 3 .slash (.integerLiteral 3 7) (.id 3 x))) .nil))⟩]

/-- `7 / x`. -/
def sevenOverNode : AstNode :=
  .common 3 .binary .division (.leaf 3 (.int 7)) (.leaf 3 (.id 0))

/-- With `x` at `0x555500010000` the division becomes a shift by 16. -/
theorem division_by_variable_shifted :
    ∃ checked sentence, frontEnd (.heapAt 0x55550001000) sevenOver = .ok checked ∧
      sentence ∈ checked.headAst ∧ sevenOverNode ∈ subnodes sentence ∧
      checked.tab.hasEntry 0 = true ∧
      ∀ instr ∈ (intermediateCode (.heapAt 0x55550001000) checked).code, instr.instruct ≠ .div := by
  obtain ⟨checked, accepted⟩ := isOk_iff.mp (by decide +kernel :
    (frontEnd (.heapAt 0x55550001000) sevenOver).isOk = true)
  have facts : (frontEnd (.heapAt 0x55550001000) sevenOver).toOption.map (fun c =>
      c.headAst.any (fun sentence => sevenOverNode ∈ subnodes sentence) && c.tab.hasEntry 0 &&
        (intermediateCode (.heapAt 0x55550001000) c).code.all fun instr => instr.instruct ≠ .div) =
      some true := by decide +kernel
  simp only [accepted, Except.toOption, Option.map_some, Option.some.injEq, Bool.and_eq_true,
    List.any_eq_true, List.all_eq_true, decide_eq_true_eq] at facts
  obtain ⟨⟨⟨sentence, mem, inside⟩, entry⟩, absent⟩ := facts
  exact ⟨checked, sentence, accepted, mem, inside, entry, absent⟩

/-- With `x` at `0x555500010010` it stays a division. -/
theorem division_by_variable_kept :
    ∃ checked info var1 temp, frontEnd (.heapAt 0x55550001001) sevenOver = .ok checked ∧
      (genCode (.heapAt 0x55550001001) checked.tab 0 sevenOverNode resetCode).1.code.getLast? =
        some ⟨.div, some var1, some (.str info), some temp⟩ := by
  obtain ⟨checked, accepted⟩ := isOk_iff.mp (by decide +kernel :
    (frontEnd (.heapAt 0x55550001001) sevenOver).isOk = true)
  have facts : (frontEnd (.heapAt 0x55550001001) sevenOver).toOption.map (fun c =>
      c.tab.hasEntry 0) = some true := by decide +kernel
  simp only [accepted, Except.toOption, Option.map_some, Option.some.injEq] at facts
  obtain ⟨info, entry⟩ := SymbolTable.hasEntry_iff.mp facts
  have apart : ¬ ∃ k, (((Env.heapAt 0x55550001001).addr 0).setWidth 32).toInt = 2 ^ k := by
    rintro ⟨k, power⟩
    have chosen : shiftCount (.heapAt 0x55550001001) (.leaf 3 (.id 0)) = some k :=
      (shiftCount_eq_some_iff rfl).mpr power
    have plain : shiftCount (.heapAt 0x55550001001) (.leaf 3 (.id 0)) = none := by decide +kernel
    rw [plain] at chosen
    cases chosen
  have on : (Env.heapAt 0x55550001001).optimizations = true := rfl
  obtain ⟨var1, temp, last⟩ :=
    (division_by_variable_iff on entry 3 3 (.leaf 3 (.int 7)) 0 resetCode).mpr apart
  exact ⟨checked, info.name.text, var1, temp, accepted, last⟩

end Ctds
