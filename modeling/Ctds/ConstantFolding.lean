import Ctds.Constants
import Ctds.Visited

/-! Constant folding against the arithmetic of the generated code. Folding computes in
32 bits and the code in 64, so they agree as long as every constant subexpression has a
value that an int holds. -/

namespace Ctds

open Fallible Signed Word

theorem ofBool_truth (b : Bool) : Word.ofBool b = BitVec.ofInt 64 (truth b) := by
  cases b
  · rfl
  · rfl

theorem ofBool_int {b t : Bool} (h : b = t) :
    some (Word.ofBool b) = some (BitVec.ofInt 64 (truth t)) := by
  rw [h, ofBool_truth]

theorem binaryValue_int {op : Operator} (binary : op.isBinary = true) (l r : Word)
    (small : l.toInt ≠ -2 ^ 63) :
    binaryValue op l r = (intOperator op l.toInt r.toInt).map (BitVec.ofInt 64) := by
  have least : l ≠ BitVec.intMin 64 := fun h => small ((eq_intMin_iff l (by decide)).mp h)
  cases op with
  | minus | neg | decl | assign | ret => cases binary
  | addition => exact congrArg some (add_eq l r)
  | subtraction => exact congrArg some (sub_eq l r)
  | multiplication => exact congrArg some (mul_eq l r)
  | division =>
    simp only [binaryValue, quotient, least, false_and, or_false, eq_zero_iff, intOperator]
    split
    · rfl
    · exact congrArg some (sdiv_eq l r)
  | mod =>
    simp only [binaryValue, remainder, least, false_and, or_false, eq_zero_iff, intOperator]
    split
    · rfl
    · exact congrArg some (srem_eq l r)
  | les => exact ofBool_int (slt_eq l r)
  | grt => exact ofBool_int (slt_eq r l)
  | eq => exact ofBool_int (beq_eq l r)
  | neq => exact ofBool_int (congrArg not (beq_eq l r))
  | leq => exact ofBool_int (sle_eq l r)
  | geq => exact ofBool_int (sle_eq r l)
  | and => exact ofBool_int (congrArg₂ and (bne_zero_eq l) (bne_zero_eq r))
  | or => exact ofBool_int (congrArg₂ or (bne_zero_eq l) (bne_zero_eq r))

theorem natAbs_le_of_fits {v : Int} (h : Fits 32 v) : v.natAbs ≤ 2 ^ 31 := by
  obtain ⟨low, high⟩ := h
  simp only [Nat.add_one_sub_one] at low high
  omega

theorem fits_of_natAbs_le {v : Int} (h : v.natAbs ≤ 2 ^ 62) : Fits 64 v := by
  unfold Fits
  simp only [Nat.add_one_sub_one]
  omega

theorem intOperator_fits {op : Operator} {x y v : Int} (hx : Fits 32 x) (hy : Fits 32 y)
    (h : intOperator op x y = some v) : Fits 64 v := by
  have ax := natAbs_le_of_fits hx
  have ay := natAbs_le_of_fits hy
  have bit : ∀ b, (truth b).natAbs ≤ 2 ^ 62 := by decide
  apply fits_of_natAbs_le
  cases op with
  | minus | neg | decl | assign | ret => cases h
  | addition | subtraction =>
    obtain rfl := Option.some.inj h
    omega
  | multiplication =>
    obtain rfl := Option.some.inj h
    rw [Int.natAbs_mul]
    exact (Nat.mul_le_mul ax ay).trans (by decide)
  | division =>
    simp only [intOperator] at h
    split at h
    · cases h
    · obtain rfl := Option.some.inj h
      have le := Int.natAbs_tdiv_le_natAbs x y
      omega
  | mod =>
    simp only [intOperator] at h
    split at h
    · cases h
    · obtain rfl := Option.some.inj h
      rw [Int.natAbs_tmod]
      have le := Nat.mod_le x.natAbs y.natAbs
      omega
  | _ =>
    obtain rfl := Option.some.inj h
    exact bit _

theorem exprValue_binary {tab : SymbolTable} {typed : Bool} {oracle : Oracle} {store : Store}
    {line : Int} {op : Operator} {left right : AstNode} {x y v : Int} {events : List Event}
    (binary : op.isBinary = true) (hx : Fits 32 x) (hy : Fits 32 y)
    (l : exprValue tab typed oracle store left events = some (BitVec.ofInt 64 x, events))
    (r : exprValue tab typed oracle store right events = some (BitVec.ofInt 64 y, events))
    (result : intOperator op x y = some v) :
    exprValue tab typed oracle store (.common line .binary op left right) events =
      some (BitVec.ofInt 64 v, events) := by
  have lx := toInt_of_fits (n := 64) (by decide) (hx.mono (by decide))
  have ry := toInt_of_fits (n := 64) (by decide) (hy.mono (by decide))
  have small : (BitVec.ofInt 64 x).toInt ≠ -2 ^ 63 := by
    rw [lx]
    have low := hx.1
    simp only [Nat.add_one_sub_one] at low
    omega
  have value := binaryValue_int binary (BitVec.ofInt 64 x) (BitVec.ofInt 64 y) small
  rw [lx, ry, result, Option.map_some] at value
  simp only [exprValue, l, r, Option.bind_eq_bind, Option.bind_some, value]
  rfl

/-- The values of all constant subexpressions are ints. -/
def ConstantsFit (node : AstNode) : Prop :=
  ∀ sub ∈ subnodes node, ∀ v, constantValue id sub = some v → Fits 32 v

instance (node : AstNode) : Decidable (ConstantsFit node) :=
  decidable_of_iff (∀ sub ∈ subnodes node, ∀ v ∈ constantValue id sub, Fits 32 v) Iff.rfl

theorem ConstantsFit.operands {line : Int} {arity : OperatorArity} {op : Operator}
    {left right : AstNode} (h : ConstantsFit (.common line arity op left right)) :
    ConstantsFit left ∧ ConstantsFit right := by
  constructor
  · intro sub mem
    exact h sub (by simp [subnodes, mem])
  · intro sub mem
    exact h sub (by simp [subnodes, mem])

theorem constantValue_exact {tab : SymbolTable} :
    ∀ (node : AstNode), isExpr tab node = true → ConstantsFit node →
      constantValue (wrap 32) node = constantValue id node
  | .leaf line value, _, _ => by cases value <;> rfl
  | .common line .binary op left right, shape, fits => by
    simp only [isExpr, Bool.and_eq_true] at shape
    obtain ⟨fitsLeft, fitsRight⟩ := fits.operands
    have l := constantValue_exact left shape.1.2 fitsLeft
    have r := constantValue_exact right shape.2 fitsRight
    have whole := fits _ (self_mem_subnodes (by simp))
    simp only [constantValue, l, r] at whole ⊢
    cases valueLeft : constantValue id left with
    | none => rfl
    | some x =>
      cases valueRight : constantValue id right with
      | none => rfl
      | some y =>
        cases result : intOperator op x y with
        | none => simp [result]
        | some v =>
          have fitsHere := whole v (by simp [valueLeft, valueRight, result])
          simp [result, wrap_of_fits (by decide) fitsHere]
  | .common line .unary op left right, _, _ => rfl
  | .methodCall line name numArgs args, _, _ => rfl
  | .null, shape, _ | .ifStmt .., shape, _ | .whileStmt .., shape, _ | .methodDecl .., shape, _
  | .block .., shape, _ => by simp [isExpr] at shape

theorem constantValue_binary {cut : Int → Int} {line : Int} {op : Operator} {left right : AstNode}
    {v : Int} (h : constantValue cut (.common line .binary op left right) = some v) :
    ∃ x y w, constantValue cut left = some x ∧ constantValue cut right = some y ∧
      intOperator op x y = some w ∧ v = cut w := by
  simp only [constantValue] at h
  split at h
  · next x y l r =>
    obtain ⟨w, result, rfl⟩ := Option.map_eq_some_iff.mp h
    exact ⟨x, y, w, l, r, result, rfl⟩
  · cases h

/-- At run time a constant subexpression has its integer as its word. -/
theorem exprValue_constant {tab : SymbolTable} (typed : Bool) (oracle : Oracle) (store : Store)
    (events : List Event) :
    ∀ (node : AstNode) (v : Int), isExpr tab node = true → ConstantsFit node →
      constantValue id node = some v →
      exprValue tab typed oracle store node events = some (BitVec.ofInt 64 v, events)
  | .leaf line value, v, _, _, h => by
    cases value with
    | int w | bool w =>
      obtain rfl := Option.some.inj h
      rfl
    | id p => cases h
  | .common line .binary op left right, v, shape, fits, h => by
    simp only [isExpr, Bool.and_eq_true] at shape
    obtain ⟨fitsLeft, fitsRight⟩ := fits.operands
    obtain ⟨x, y, w, valueLeft, valueRight, result, rfl⟩ := constantValue_binary h
    have l := exprValue_constant typed oracle store events left x shape.1.2 fitsLeft valueLeft
    have r := exprValue_constant typed oracle store events right y shape.2 fitsRight valueRight
    have hx := fitsLeft left (self_mem_subnodes (isExpr_ne_null shape.1.2)) x valueLeft
    have hy := fitsRight right (self_mem_subnodes (isExpr_ne_null shape.2)) y valueRight
    exact exprValue_binary shape.1.1 hx hy l r result
  | .common line .unary op left right, v, _, _, h => by cases h
  | .methodCall line name numArgs args, v, _, _, h => by cases h
  | .null, _, shape, _, _ | .ifStmt .., _, shape, _, _ | .whileStmt .., _, shape, _, _
  | .methodDecl .., _, shape, _, _ | .block .., _, shape, _, _ => by simp [isExpr] at shape

theorem foldTree_literal_leaf {env : Env} {node : AstNode} {value : LeafValue}
    (h : (foldTree env node).literal? = some value) :
    ∃ line, foldTree env node = .leaf line value := by
  unfold AstNode.literal? at h
  split at h
  · cases h
  · next line value' notId eq => exact ⟨line, by rw [eq, Option.some.inj h]⟩
  · cases h

theorem exprValue_folded {env : Env} (on : env.optimizations = true) {tab : SymbolTable}
    (typed : Bool) (oracle : Oracle) (store : Store) (events : List Event)
    {node : AstNode} {v : Int}
    (shape : isExpr tab node = true) (safe : exprSafe env node = true)
    (h : constantValue (wrap 32) node = some v) :
    exprValue tab typed oracle store (foldTree env node) events =
      some (BitVec.ofInt 64 v, events) := by
  rw [foldTree_constant on node shape safe] at h
  obtain ⟨value, literal, rfl⟩ := Option.map_eq_some_iff.mp h
  obtain ⟨line, eq⟩ := foldTree_literal_leaf literal
  rw [eq] at literal ⊢
  cases value with
  | int w => rfl
  | bool w => rfl
  | id p => cases literal

mutual
theorem foldTree_value {env : Env} (on : env.optimizations = true) {tab : SymbolTable}
    (typed : Bool) (oracle : Oracle) (store : Store) :
    ∀ (node : AstNode) (events : List Event), isExpr tab node = true → exprSafe env node = true →
      ConstantsFit node →
      exprValue tab typed oracle store (foldTree env node) events =
        exprValue tab typed oracle store node events
  | .leaf line value, events, _, _, _ => by rw [foldTree] <;> simp
  | .common line .binary op left right, events, shape, safe, fits => by
    have shapes := shape
    have safes := safe
    simp only [isExpr, Bool.and_eq_true] at shapes
    simp only [exprSafe, Bool.and_eq_true, Bool.not_eq_true'] at safes
    obtain ⟨fitsLeft, fitsRight⟩ := fits.operands
    have l := fun events =>
      foldTree_value on typed oracle store left events shapes.1.2 safes.1.1 fitsLeft
    have r := fun events =>
      foldTree_value on typed oracle store right events shapes.2 safes.1.2 fitsRight
    have exact' := constantValue_exact _ shape fits
    cases constant : constantValue (wrap 32) (.common line .binary op left right) with
    | some v =>
      rw [exprValue_folded on typed oracle store events shape safe constant,
        exprValue_constant typed oracle store events _ v shape fits (exact' ▸ constant)]
    | none =>
      rw [foldTree_constant on _ shape safe, Option.map_eq_none_iff, foldTree] at constant
      have kept : foldNode env line op (foldTree env left) (foldTree env right) =
          .common line .binary op (foldTree env left) (foldTree env right) := by
        unfold foldNode at constant ⊢
        split
        · rfl
        · next a b operands =>
          simp only [operands] at constant
          split
          · rfl
          · next value folded =>
            simp only [folded] at constant
            rcases foldOperator_value folded with ⟨-, v, rfl⟩ | ⟨-, v, rfl, -⟩ <;> cases constant
      simp only [foldTree, kept, exprValue, l, r]
  | .common line .unary op left right, events, shape, safe, fits => by
    simp only [isExpr, Bool.and_eq_true] at shape
    simp only [exprSafe] at safe
    have l := foldTree_value on typed oracle store left events shape.1.2 safe fits.operands.1
    simp only [foldTree, exprValue, l]
  | .methodCall line name numArgs args, events, shape, safe, fits => by
    simp only [isExpr, Bool.and_eq_true] at shape
    simp only [exprSafe] at safe
    have a := foldTrees_value on typed oracle store args events shape.2 safe
      fun sub mem => fits sub (by simp [subnodes, mem])
    simp only [foldTree, exprValue, a]
  | .null, _, shape, _, _ | .ifStmt .., _, shape, _, _ | .whileStmt .., _, shape, _, _
  | .methodDecl .., _, shape, _, _ | .block .., _, shape, _, _ => by simp [isExpr] at shape
theorem foldTrees_value {env : Env} (on : env.optimizations = true) {tab : SymbolTable}
    (typed : Bool) (oracle : Oracle) (store : Store) :
    ∀ (args : AstNodeList) (events : List Event), areExprs tab args = true →
      exprsSafe env args = true →
      (∀ sub ∈ subnodesList args, ∀ v, constantValue id sub = some v → Fits 32 v) →
      argValues tab typed oracle store (foldTrees env args) events =
        argValues tab typed oracle store args events
  | .nil, events, _, _, _ => rfl
  | .cons first next, events, shape, safe, fits => by
    simp only [areExprs, Bool.and_eq_true] at shape
    simp only [exprsSafe, Bool.and_eq_true] at safe
    have f := foldTree_value on typed oracle store first events shape.1 safe.1
      fun sub mem => fits sub (by simp [subnodesList, mem])
    have n := fun events => foldTrees_value on typed oracle store next events shape.2 safe.2
      fun sub mem => fits sub (by simp [subnodesList, mem])
    simp only [foldTrees, argValues, f, n]
end

/-- One store under which folding keeps the value. -/
def KeptIn (env : Env) (tab : SymbolTable) (typed : Bool) (oracle : Oracle) (store : Store)
    (events : List Event) (node : AstNode) : Prop :=
  exprValue tab typed oracle store (foldTree env node) events =
    exprValue tab typed oracle store node events

mutual
theorem constantsFit_of_kept {env : Env} (on : env.optimizations = true) {tab : SymbolTable}
    (typed : Bool) (oracle : Oracle) (store : Store) (events : List Event) :
    ∀ (node : AstNode), isExpr tab node = true → exprSafe env node = true →
      (∀ sub ∈ subnodes node, KeptIn env tab typed oracle store events sub) → ConstantsFit node
  | .leaf line value, _, _, _ => by
    intro sub mem v h
    obtain rfl := List.mem_singleton.mp (by simpa [subnodes] using mem)
    cases value with
    | int w | bool w =>
      obtain rfl := Option.some.inj h
      exact fits_toInt w
    | id p => cases h
  | .common line .binary op left right, shape, safe, kept => by
    have shapes := shape
    have safes := safe
    simp only [isExpr, Bool.and_eq_true] at shapes
    simp only [exprSafe, Bool.and_eq_true, Bool.not_eq_true'] at safes
    have fitsLeft := constantsFit_of_kept on typed oracle store events left shapes.1.2 safes.1.1
      fun sub mem => kept sub (by simp [subnodes, mem])
    have fitsRight := constantsFit_of_kept on typed oracle store events right shapes.2 safes.1.2
      fun sub mem => kept sub (by simp [subnodes, mem])
    have here := kept _ (self_mem_subnodes (by simp))
    intro sub mem v h
    simp only [subnodes, List.mem_cons, List.mem_append] at mem
    rcases mem with rfl | mem | mem
    · obtain ⟨x, y, _, valueLeft, valueRight, result, rfl⟩ := constantValue_binary h
      have hx := fitsLeft left (self_mem_subnodes (isExpr_ne_null shapes.1.2)) x valueLeft
      have hy := fitsRight right (self_mem_subnodes (isExpr_ne_null shapes.2)) y valueRight
      have l := exprValue_constant typed oracle store events left x shapes.1.2 fitsLeft valueLeft
      have r := exprValue_constant typed oracle store events right y shapes.2 fitsRight valueRight
      have wrapped : constantValue (wrap 32) (.common line .binary op left right) =
          some (wrap 32 v) := by
        simp only [constantValue, constantValue_exact left shapes.1.2 fitsLeft, valueLeft,
          constantValue_exact right shapes.2 fitsRight, valueRight, result, Option.map_some]
      rw [KeptIn, exprValue_folded on typed oracle store events shape safe wrapped,
        exprValue_binary shapes.1.1 hx hy l r result, Option.some.injEq, Prod.mk.injEq] at here
      have same := eq_of_ofInt_eq (n := 64) (by decide) ((fits_wrap v).mono (by decide))
        (intOperator_fits hx hy result) here.1
      have fits : Fits 32 (wrap 32 v) := fits_wrap v
      rw [same] at fits
      exact fits
    · exact fitsLeft sub mem v h
    · exact fitsRight sub mem v h
  | .common line .unary op left right, shape, safe, kept => by
    simp only [isExpr, Bool.and_eq_true] at shape
    obtain rfl := isNull_iff.mp shape.2
    simp only [exprSafe] at safe
    have fitsLeft := constantsFit_of_kept on typed oracle store events left shape.1.2 safe
      fun sub mem => kept sub (by simp [subnodes, mem])
    intro sub mem v h
    simp only [subnodes, List.append_nil, List.mem_cons] at mem
    rcases mem with rfl | mem
    · cases h
    · exact fitsLeft sub mem v h
  | .methodCall line name numArgs args, shape, safe, kept => by
    simp only [isExpr, Bool.and_eq_true] at shape
    simp only [exprSafe] at safe
    have fitsArgs := constantsFit_of_keptArgs on typed oracle store events args shape.2 safe
      fun sub mem => kept sub (by simp [subnodes, mem])
    intro sub mem v h
    simp only [subnodes, List.mem_cons] at mem
    rcases mem with rfl | mem
    · cases h
    · exact fitsArgs sub mem v h
  | .null, shape, _, _ | .ifStmt .., shape, _, _ | .whileStmt .., shape, _, _
  | .methodDecl .., shape, _, _ | .block .., shape, _, _ => by simp [isExpr] at shape
theorem constantsFit_of_keptArgs {env : Env} (on : env.optimizations = true) {tab : SymbolTable}
    (typed : Bool) (oracle : Oracle) (store : Store) (events : List Event) :
    ∀ (args : AstNodeList), areExprs tab args = true → exprsSafe env args = true →
      (∀ sub ∈ subnodesList args, KeptIn env tab typed oracle store events sub) →
      ∀ sub ∈ subnodesList args, ∀ v, constantValue id sub = some v → Fits 32 v
  | .nil, _, _, _ => by simp [subnodesList]
  | .cons first next, shape, safe, kept => by
    simp only [areExprs, Bool.and_eq_true] at shape
    simp only [exprsSafe, Bool.and_eq_true] at safe
    have f := constantsFit_of_kept on typed oracle store events first shape.1 safe.1
      fun sub mem => kept sub (by simp [subnodesList, mem])
    have n := constantsFit_of_keptArgs on typed oracle store events next shape.2 safe.2
      fun sub mem => kept sub (by simp [subnodesList, mem])
    intro sub mem v h
    simp only [subnodesList, List.mem_append] at mem
    rcases mem with mem | mem
    · exact f sub mem v h
    · exact n sub mem v h
end

mutual
theorem foldTree_type (env : Env) {tab : SymbolTable} (methods : tab.MethodsOk) :
    ∀ (node : AstNode) (type : RetType), isExpr tab node = true →
      exprType env.plain tab node = some type →
      exprType env.plain tab (foldTree env node) = some type
  | .leaf line value, type, _, typed => by rw [foldTree] <;> simp [typed]
  | .common line .binary op left right, type, shape, typed => by
    simp only [isExpr, Bool.and_eq_true] at shape
    obtain ⟨l, r, leftType, rightType, -, result⟩ := exprType_binary typed
    have hl := foldTree_type env methods left l shape.1.2 leftType
    have hr := foldTree_type env methods right r shape.2 rightType
    have kept : exprType env.plain tab
        (.common line .binary op (foldTree env left) (foldTree env right)) = some type := by
      simp only [exprType, hl, hr]
      rw [foldFaults_off rfl, if_neg (by decide), result]
    rw [foldTree, foldNode]
    split
    · exact kept
    · split
      · exact kept
      · next a b _ value folded =>
        rw [exprType, binaryType_result result]
        rcases foldOperator_value folded with ⟨int, v, rfl⟩ | ⟨bool, v, rfl, -⟩
        · rw [int]
          rfl
        · rw [bool]
          rfl
  | .common line .unary op left right, type, shape, typed => by
    simp only [isExpr, Bool.and_eq_true] at shape
    simp only [exprType] at typed
    obtain ⟨l, leftType, result⟩ := Option.bind_eq_some_iff.mp typed
    have hl := foldTree_type env methods left l shape.1.2 leftType
    simp only [foldTree, exprType, hl, Option.bind_some, result]
  | .methodCall line name numArgs args, type, shape, typed => by
    simp only [isExpr, Bool.and_eq_true, decide_eq_true_eq] at shape
    obtain ⟨method, called, accepted, result⟩ := exprType_call typed
    have a := foldTrees_accepted env methods args method.args shape.2
      (called_length methods shape.1 called) accepted
    simp only [foldTree, exprType, called, a, if_true, result]
  | .null, _, shape, _ | .ifStmt .., _, shape, _ | .whileStmt .., _, shape, _
  | .methodDecl .., _, shape, _ | .block .., _, shape, _ => by simp [isExpr] at shape
theorem foldTrees_accepted (env : Env) {tab : SymbolTable} (methods : tab.MethodsOk) :
    ∀ (args : AstNodeList) (params : List Args), areExprs tab args = true →
      params.length = args.length → argsAccepted env.plain tab params args = true →
      argsAccepted env.plain tab params (foldTrees env args) = true
  | .nil, _, _, _, accepted => accepted
  | .cons first next, [], _, count, _ => by cases count
  | .cons first next, param :: params, shape, count, accepted => by
    simp only [areExprs, Bool.and_eq_true] at shape
    simp only [argsAccepted, Bool.and_eq_true, beq_iff_eq] at accepted
    obtain ⟨type, is, passed⟩ := Option.bind_eq_some_iff.mp accepted.1
    have f := foldTree_type env methods first type shape.1 is
    have n := foldTrees_accepted env methods next params shape.2 (Nat.succ.inj count) accepted.2
    simp only [foldTrees, argsAccepted, f, Option.bind_some, passed, beq_self_eq_true, n,
      Bool.and_self]
end

/-- The tree that the analyzer leaves has the value of the tree it was given. -/
def KeepsValue (env : Env) (tab : SymbolTable) (node : AstNode) : Prop :=
  ∀ father ret st e, eval env tab father node ret st = .ok e →
    ∀ typed oracle store events, exprValue tab typed oracle store e.tree events =
      exprValue tab typed oracle store node events

theorem exprType_safe {env : Env} {tab : SymbolTable} (methods : tab.MethodsOk) {node : AstNode}
    (shape : isExpr tab node = true) (typed : (exprType env tab node).isSome = true) :
    exprSafe env node = true ∧ exprType env.plain tab node = exprType env tab node := by
  have split := exprType_split env methods node shape
  by_cases safe : exprSafe env node = true
  · rw [if_pos safe] at split
    exact ⟨safe, split.symm⟩
  · rw [if_neg safe] at split
    rw [split] at typed
    cases typed

theorem keepsValue_iff {env : Env} {tab : SymbolTable} (methods : tab.MethodsOk) {node : AstNode}
    (shape : isExpr tab node = true) (typed : (exprType env tab node).isSome = true) :
    KeepsValue env tab node ↔
      ∀ typed oracle store events, KeptIn env tab typed oracle store events node := by
  constructor
  · intro keeps
    have outcome := eval_expr env methods node .common .null .init shape
    rw [typed] at outcome
    obtain ⟨e, evaluated, -, tree, -⟩ := outcome.ok
    intro typed oracle store events
    rw [KeptIn, ← tree]
    exact keeps .common .null .init e evaluated typed oracle store events
  · intro kept father ret st e evaluated
    have outcome := eval_expr env methods node father ret st shape
    obtain ⟨-, -, tree, -⟩ := outcome.of_ok evaluated
    rw [tree]
    exact kept

/-- Under `-opt` a well-typed expression keeps its type, and it and its subexpressions keep
their values exactly if every constant subexpression has a value that an int holds. -/
theorem folding_preserves_iff {env : Env} (on : env.optimizations = true) {tab : SymbolTable}
    (methods : tab.MethodsOk) {node : AstNode} (shape : isExpr tab node = true) {father : InfoType}
    {ret : RetType} {st : SemState} {e : Evaluated}
    (completes : eval env tab father node ret st = .ok e) :
    (exprType env.plain tab e.tree = some e.ret ∧ exprType env.plain tab node = some e.ret) ∧
      ((∀ sub ∈ subnodes node, KeepsValue env tab sub) ↔ ConstantsFit node) := by
  obtain ⟨typed, type, tree, -⟩ := (eval_expr env methods node father ret st shape).of_ok completes
  obtain ⟨safe, plain⟩ := exprType_safe methods shape typed
  have plainType : exprType env.plain tab node = some e.ret := plain.trans type
  have subs := exprType_subnodes env methods node shape typed
  refine ⟨⟨?_, plainType⟩, ?_⟩
  · rw [tree]
    exact foldTree_type env methods node e.ret shape plainType
  · constructor
    · intro keeps
      refine constantsFit_of_kept on false (fun _ _ _ => 0) (fun _ => 0) [] node shape safe ?_
      intro sub mem
      obtain ⟨subShape, subTyped⟩ := subs sub mem
      exact (keepsValue_iff methods subShape subTyped).mp (keeps sub mem) _ _ _ _
    · intro fits sub mem
      obtain ⟨subShape, subTyped⟩ := subs sub mem
      refine (keepsValue_iff methods subShape subTyped).mpr fun typed oracle store events => ?_
      have subSafe := (exprType_safe methods subShape subTyped).1
      exact foldTree_value on typed oracle store sub events subShape subSafe
        fun sub' mem' => fits sub' (subnodes_trans mem' mem)

/-- `a op b` for two int literals. -/
def literalPair (op : Operator) (a b : BitVec 32) : AstNode :=
  .common 1 .binary op (.leaf 1 (.int a)) (.leaf 1 (.int b))

/-- `2147483647 + 1` is 2147483648 at run time and -2147483648 once folded. -/
theorem folding_changes_value :
    isExpr .empty (literalPair .addition 2147483647 1) = true ∧
      ∃ e, eval (.sample true) .empty .common (literalPair .addition 2147483647 1) .null .init =
      .ok e ∧
        ∀ typed oracle store,
          exprValue .empty typed oracle store (literalPair .addition 2147483647 1) [] =
            some (2147483648, []) ∧
          exprValue .empty typed oracle store e.tree [] = some (-2147483648, []) :=
  ⟨rfl, _, rfl, fun _ _ _ => ⟨rfl, rfl⟩⟩

/-- `2147483647 - 1` keeps its value. -/
theorem folding_preserves_difference :
    KeepsValue (.sample true) .empty (literalPair .subtraction 2147483647 1) := by
  obtain ⟨e, completes⟩ : ∃ e, eval (.sample true) .empty .common
    (literalPair .subtraction 2147483647 1) .null .init = .ok e := ⟨_, rfl⟩
  have preserves := folding_preserves_iff rfl SymbolTable.wellFormed_empty.methods rfl completes
  exact preserves.2.mpr (by decide) _ (self_mem_subnodes (by decide))

end Ctds
