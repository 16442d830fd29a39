import Ctds.Lib.Signed
import Ctds.OptVerdict
import Ctds.Typing

/-! Constant subexpressions: literals under binary operators. Their values are integers,
with or without the wrap of a C int; with it they are what folding leaves. -/

namespace Ctds

open Signed

def truth (b : Bool) : Int := if b then 1 else 0

/-- The binary operators over the integers; truth values are 0 and 1. -/
def intOperator (op : Operator) (x y : Int) : Option Int :=
  match op with
  | .addition => some (x + y)
  | .subtraction => some (x - y)
  | .multiplication => some (x * y)
  | .division => if y = 0 then none else some (x.tdiv y)
  | .mod => if y = 0 then none else some (x.tmod y)
  | .les => some (truth (decide (x < y)))
  | .grt => some (truth (decide (y < x)))
  | .eq => some (truth (decide (x = y)))
  | .neq => some (truth (!decide (x = y)))
  | .leq => some (truth (decide (x ≤ y)))
  | .geq => some (truth (decide (y ≤ x)))
  | .and => some (truth (!decide (x = 0) && !decide (y = 0)))
  | .or => some (truth (!decide (x = 0) || !decide (y = 0)))
  | _ => none

/-- The value of a constant subexpression, when every result goes through `cut`. -/
def constantValue (cut : Int → Int) : AstNode → Option Int
  | .leaf _ (.int v) => some v.toInt
  | .leaf _ (.bool v) => some v.toInt
  | .common _ .binary op left right =>
    match constantValue cut left, constantValue cut right with
    | some x, some y => (intOperator op x y).map cut
    | _, _ => none
  | _ => none

/-- A division of C ints that kills the process. -/
def divisionFaults (op : Operator) (x y : Int) : Bool :=
  (op == .division || op == .mod) && (decide (y = 0) || (decide (x = -2 ^ 31) && decide (y = -1)))

/-- A `/` or `%` of constant subexpressions that C faults on. -/
def faultingDivision : AstNode → Bool
  | .common _ .binary op left right =>
    match constantValue (wrap 32) left, constantValue (wrap 32) right with
    | some x, some y => divisionFaults op x y
    | _, _ => false
  | _ => false

/-- The leaf a folded operator leaves. -/
def foldedLeaf (op : Operator) (v : BitVec 32) : LeafValue :=
  if resultType op = .int then .int v else .bool v

theorem foldedLeaf_intValue (env : Env) (op : Operator) (v : BitVec 32) :
    (foldedLeaf op v).intValue env = v := by
  unfold foldedLeaf
  split
  · rfl
  · rfl

theorem foldedLeaf_literal (line : Int) (op : Operator) (v : BitVec 32) :
    (AstNode.leaf line (foldedLeaf op v)).literal? = some (foldedLeaf op v) := by
  unfold foldedLeaf
  split
  · rfl
  · rfl

theorem foldBool_int (f : BitVec 32 → BitVec 32 → Bool) {a b : BitVec 32} {t : Bool}
    (h : f a b = t) : foldBool f a b = some (.bool (BitVec.ofInt 32 (truth t))) := by
  rw [foldBool, h]
  cases t
  · rfl
  · rfl

theorem division_faults_iff (a b : BitVec 32) :
    (b = 0 ∨ (a = BitVec.intMin 32 ∧ b = -1)) ↔
      divisionFaults .division a.toInt b.toInt = true := by
  rw [eq_zero_iff, eq_intMin_iff a (by decide), eq_neg_one_iff b (by decide)]
  simp [divisionFaults]

theorem foldOperator_int {op : Operator} (binary : op.isBinary = true) (a b : BitVec 32) :
    foldOperator op a b =
      if divisionFaults op a.toInt b.toInt then none
      else (intOperator op a.toInt b.toInt).map fun v => foldedLeaf op (BitVec.ofInt 32 v) := by
  cases op with
  | minus | neg | decl | assign | ret => cases binary
  | addition => exact congrArg (fun v => some (LeafValue.int v)) (add_eq a b)
  | subtraction => exact congrArg (fun v => some (LeafValue.int v)) (sub_eq a b)
  | multiplication => exact congrArg (fun v => some (LeafValue.int v)) (mul_eq a b)
  | division =>
    simp only [foldOperator, foldDivision, division_faults_iff]
    split
    · rfl
    · next safe =>
      have nonzero : b.toInt ≠ 0 := fun zero => safe (by simp [divisionFaults, zero])
      rw [intOperator, if_neg nonzero, sdiv_eq]
      rfl
  | mod =>
    simp only [foldOperator, foldMod, division_faults_iff]
    have same : divisionFaults .division a.toInt b.toInt = divisionFaults .mod a.toInt b.toInt :=
      rfl
    rw [same]
    split
    · rfl
    · next safe =>
      have nonzero : b.toInt ≠ 0 := fun zero => safe (by simp [divisionFaults, zero])
      rw [intOperator, if_neg nonzero, srem_eq]
      rfl
  | les => exact foldBool_int _ (slt_eq a b)
  | grt => exact foldBool_int _ (slt_eq b a)
  | eq => exact foldBool_int _ (beq_eq a b)
  | neq => exact foldBool_int _ (congrArg not (beq_eq a b))
  | leq => exact foldBool_int _ (sle_eq a b)
  | geq => exact foldBool_int _ (sle_eq b a)
  | and =>
    exact foldBool_int (fun x y => x != 0 && y != 0)
      (congrArg₂ and (bne_zero_eq a) (bne_zero_eq b))
  | or =>
    exact foldBool_int (fun x y => x != 0 || y != 0)
      (congrArg₂ or (bne_zero_eq a) (bne_zero_eq b))

theorem foldOperator_faults {op : Operator} (binary : op.isBinary = true) (a b : BitVec 32) :
    (foldOperator op a b).isNone = divisionFaults op a.toInt b.toInt := by
  rw [foldOperator_int binary]
  by_cases faults : divisionFaults op a.toInt b.toInt = true
  · rw [if_pos faults, faults]
    rfl
  · rw [if_neg faults, Bool.eq_false_iff.mpr faults]
    cases op with
    | minus | neg | decl | assign | ret => cases binary
    | division | mod =>
      have nonzero : b.toInt ≠ 0 := fun zero => faults (by simp [divisionFaults, zero])
      rw [intOperator, if_neg nonzero]
      rfl
    | _ => rfl

theorem foldTree_constant {env : Env} (on : env.optimizations = true) {tab : SymbolTable} :
    ∀ (node : AstNode), isExpr tab node = true → exprSafe env node = true →
      constantValue (wrap 32) node =
        (foldTree env node).literal?.map fun value => (value.intValue env).toInt
  | .leaf line value, _, _ => by
    cases value with
    | int v => rfl
    | bool v => rfl
    | id p => rfl
  | .common line .binary op left right, shape, safe => by
    simp only [isExpr, Bool.and_eq_true] at shape
    simp only [exprSafe, Bool.and_eq_true, Bool.not_eq_true'] at safe
    obtain ⟨⟨safeLeft, safeRight⟩, whole⟩ := safe
    have l := foldTree_constant on left shape.1.2 safeLeft
    have r := foldTree_constant on right shape.2 safeRight
    simp only [constantValue, l, r, foldTree, foldNode]
    simp only [foldFaults, literalOperands, on, if_true] at whole ⊢
    cases literalLeft : (foldTree env left).literal? with
    | none => rfl
    | some a =>
      cases literalRight : (foldTree env right).literal? with
      | none => rfl
      | some b =>
        simp only [literalLeft, literalRight, foldOperator_faults shape.1.1] at whole
        simp only [Option.map_some, foldOperator_int shape.1.1, whole, Bool.false_eq_true, if_false]
        cases intOperator op (a.intValue env).toInt (b.intValue env).toInt with
        | none => rfl
        | some v =>
          simp only [Option.map_some, foldedLeaf_literal, foldedLeaf_intValue, toInt_ofInt]
  | .common line .unary op left right, _, _ => rfl
  | .methodCall line name numArgs args, _, _ => by
    simp [constantValue, foldTree, AstNode.literal?]
  | .null, shape, _ | .ifStmt .., shape, _ | .whileStmt .., shape, _ | .methodDecl .., shape, _
  | .block .., shape, _ => by simp [isExpr] at shape

theorem foldFaults_division {env : Env} (on : env.optimizations = true) {tab : SymbolTable}
    {line : Int} {op : Operator} {left right : AstNode} (binary : op.isBinary = true)
    (shapeLeft : isExpr tab left = true) (shapeRight : isExpr tab right = true)
    (safeLeft : exprSafe env left = true) (safeRight : exprSafe env right = true) :
    foldFaults env op (foldTree env left) (foldTree env right) =
      faultingDivision (.common line .binary op left right) := by
  simp only [faultingDivision, foldTree_constant on left shapeLeft safeLeft,
    foldTree_constant on right shapeRight safeRight, foldFaults, literalOperands, on, if_true]
  cases (foldTree env left).literal? with
  | none => rfl
  | some a =>
    cases (foldTree env right).literal? with
    | none => rfl
    | some b => exact foldOperator_faults binary _ _

mutual
theorem exprSafe_iff {env : Env} (on : env.optimizations = true) {tab : SymbolTable} :
    ∀ (node : AstNode), isExpr tab node = true →
      (exprSafe env node = true ↔ ∀ sub ∈ subnodes node, faultingDivision sub = false)
  | .leaf line value, _ => by simp [exprSafe, subnodes, faultingDivision]
  | .common line .binary op left right, shape => by
    simp only [isExpr, Bool.and_eq_true] at shape
    have l := exprSafe_iff on left shape.1.2
    have r := exprSafe_iff on right shape.2
    simp only [exprSafe, subnodes, List.mem_cons, List.mem_append, Bool.and_eq_true,
      Bool.not_eq_true']
    constructor
    · rintro ⟨⟨safeLeft, safeRight⟩, whole⟩ sub mem
      rw [foldFaults_division on shape.1.1 shape.1.2 shape.2 safeLeft safeRight] at whole
      rcases mem with rfl | mem | mem
      · exact whole
      · exact l.mp safeLeft sub mem
      · exact r.mp safeRight sub mem
    · intro safe
      have safeLeft := l.mpr fun sub mem => safe sub (.inr (.inl mem))
      have safeRight := r.mpr fun sub mem => safe sub (.inr (.inr mem))
      refine ⟨⟨safeLeft, safeRight⟩, ?_⟩
      rw [foldFaults_division on shape.1.1 shape.1.2 shape.2 safeLeft safeRight]
      exact safe _ (.inl rfl)
  | .common line .unary op left right, shape => by
    simp only [isExpr, Bool.and_eq_true] at shape
    obtain rfl := isNull_iff.mp shape.2
    have l := exprSafe_iff on left shape.1.2
    simp only [exprSafe, subnodes, List.append_nil, List.forall_mem_cons, faultingDivision,
      true_and, l]
  | .methodCall line name numArgs args, shape => by
    simp only [isExpr, Bool.and_eq_true] at shape
    have a := exprsSafe_iff on args shape.2
    simp only [exprSafe, subnodes, List.forall_mem_cons, faultingDivision, true_and, a]
  | .null, shape | .ifStmt .., shape | .whileStmt .., shape | .methodDecl .., shape
  | .block .., shape => by simp [isExpr] at shape
theorem exprsSafe_iff {env : Env} (on : env.optimizations = true) {tab : SymbolTable} :
    ∀ (args : AstNodeList), areExprs tab args = true →
      (exprsSafe env args = true ↔ ∀ sub ∈ subnodesList args, faultingDivision sub = false)
  | .nil, _ => by simp [exprsSafe, subnodesList]
  | .cons first next, shape => by
    simp only [areExprs, Bool.and_eq_true] at shape
    simp only [exprsSafe, subnodesList, Bool.and_eq_true, List.forall_mem_append,
      exprSafe_iff on first shape.1, exprsSafe_iff on next shape.2]
end

end Ctds
