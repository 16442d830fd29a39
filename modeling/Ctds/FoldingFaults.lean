import Ctds.ConstantFolding

/-! Folding a division of C ints by zero, or of the least int by -1, kills the compiler.
Nothing else does on a well-typed expression. -/

namespace Ctds

open Fallible

theorem binaryCase_onlyFaults {line : Int} {tree : AstNode} {st : SemState} {operandsOk : Bool}
    {err : Error} {literals : Option (BitVec 32 × BitVec 32)}
    {fold : BitVec 32 → BitVec 32 → Option LeafValue} {type : RetType} (ok : operandsOk = true) :
    OnlyFails .fault (binaryCase line tree st operandsOk err literals fold type) := by
  unfold binaryCase
  rw [if_pos ok]
  cases literals with
  | none => exact OnlyFails.of_ok rfl
  | some operands =>
    cases folded : fold operands.1 operands.2 with
    | none =>
      simp only [folded]
      exact OnlyFails.error _
    | some value =>
      simp only [folded]
      exact OnlyFails.of_ok rfl

theorem evalBinary_onlyFaults {env : Env} {tab : SymbolTable} {line : Int} {op : Operator}
    {l r : Evaluated} {type : RetType} (typed : binaryType op l.ret r.ret = some type) :
    OnlyFails .fault (evalBinary env tab line op l r) := by
  unfold evalBinary
  cases op with
  | minus | neg | decl | assign | ret => cases typed
  | eq =>
    simp only [binaryType, Option.ite_none_right_eq_some] at typed
    exact binaryCase_onlyFaults (by simp [typed.1])
  | _ =>
    simp only [binaryType, Option.ite_none_right_eq_some] at typed
    exact binaryCase_onlyFaults (by simp [typed.1])

theorem eval_typed_ret {env : Env} {tab : SymbolTable} (methods : tab.MethodsOk) {node : AstNode}
    {father : InfoType} {ret : RetType} {st : SemState} {e : Evaluated}
    (shape : isExpr tab node = true) (evaluated : eval env tab father node ret st = .ok e) :
    exprType env.plain tab node = some e.ret := by
  obtain ⟨typed, type, -⟩ := (eval_expr env methods node father ret st shape).of_ok evaluated
  exact (exprType_safe methods shape typed).2.trans type

mutual
theorem eval_onlyFaults (env : Env) {tab : SymbolTable} (methods : tab.MethodsOk) :
    ∀ (node : AstNode) (father : InfoType) (ret : RetType) (st : SemState) (type : RetType),
      isExpr tab node = true → exprType env.plain tab node = some type →
      OnlyFails .fault (eval env tab father node ret st)
  | .leaf line value, father, ret, st, type, shape, typed => by
    have outcome := eval_expr env methods (.leaf line value) father ret st shape
    have same : exprType env tab (.leaf line value) = some type := typed
    rw [same] at outcome
    obtain ⟨e, evaluated, -⟩ := outcome.ok
    exact OnlyFails.of_ok evaluated
  | .common line .binary op left right, father, ret, st, type, shape, typed => by
    simp only [isExpr, Bool.and_eq_true] at shape
    obtain ⟨⟨binary, shapeLeft⟩, shapeRight⟩ := shape
    obtain ⟨l, r, leftType, rightType, -, result⟩ := exprType_binary typed
    rw [eval_binary env tab binary]
    refine (eval_onlyFaults env methods left _ _ _ l shapeLeft leftType).bind fun el evalLeft => ?_
    refine (eval_onlyFaults env methods right _ _ _ r shapeRight rightType).bind
      fun er evalRight => ?_
    have retLeft := Option.some.inj
      (leftType.symm.trans (eval_typed_ret methods shapeLeft evalLeft))
    have retRight :=
      Option.some.inj (rightType.symm.trans (eval_typed_ret methods shapeRight evalRight))
    exact evalBinary_onlyFaults (retLeft ▸ retRight ▸ result)
  | .common line .unary op left right, father, ret, st, type, shape, typed => by
    simp only [isExpr, Bool.and_eq_true] at shape
    obtain ⟨⟨unary, shapeLeft⟩, -⟩ := shape
    simp only [exprType] at typed
    obtain ⟨l, leftType, result⟩ := Option.bind_eq_some_iff.mp typed
    rw [eval_unary env tab unary]
    refine (eval_onlyFaults env methods left _ _ _ l shapeLeft leftType).bind fun el evalLeft => ?_
    have retLeft := Option.some.inj
      (leftType.symm.trans (eval_typed_ret methods shapeLeft evalLeft))
    have outcome := @evalUnary_outcome line op el right unary
    rw [← retLeft, result] at outcome
    obtain ⟨e, evaluated, -⟩ := outcome.ok
    exact OnlyFails.of_ok evaluated
  | .methodCall line name numArgs args, father, ret, st, type, shape, typed => by
    simp only [isExpr, Bool.and_eq_true, decide_eq_true_eq] at shape
    obtain ⟨method, called, accepted, -⟩ := exprType_call typed
    obtain ⟨p, -, entry, -⟩ := calledMethod_entry called
    rw [eval]
    beta_reduce
    rw [called, ok_bind]
    refine (evalCallArgs_onlyFaults env methods args method.args ret _ shape.2
      (called_length methods shape.1 called) accepted).bind fun result _ => ?_
    obtain ⟨type, -, done⟩ := callResult_ok (.methodCall line name numArgs result.1) result.2
      (methods p method entry).2
    exact OnlyFails.of_ok done
  | .null, _, _, _, _, shape, _ | .ifStmt .., _, _, _, _, shape, _
  | .whileStmt .., _, _, _, _, shape, _ | .methodDecl .., _, _, _, _, shape, _
  | .block .., _, _, _, _, shape, _ => by simp [isExpr] at shape
theorem evalCallArgs_onlyFaults (env : Env) {tab : SymbolTable} (methods : tab.MethodsOk) :
    ∀ (args : AstNodeList) (params : List Args) (ret : RetType) (st : SemState),
      areExprs tab args = true → params.length = args.length →
      argsAccepted env.plain tab params args = true →
      OnlyFails .fault (evalCallArgs env tab params args ret st)
  | .nil, [], ret, st, _, _, _ => OnlyFails.of_ok rfl
  | .nil, _ :: _, _, _, _, count, _ => by cases count
  | .cons first next, [], _, _, _, count, _ => by cases count
  | .cons first next, param :: params, ret, st, shape, count, accepted => by
    simp only [areExprs, Bool.and_eq_true] at shape
    simp only [argsAccepted, Bool.and_eq_true, beq_iff_eq] at accepted
    obtain ⟨type, firstType, passed⟩ := Option.bind_eq_some_iff.mp accepted.1
    rw [evalCallArgs]
    refine (eval_onlyFaults env methods first _ _ _ type shape.1 firstType).bind
      fun e evaluated => ?_
    have retFirst := Option.some.inj
      (firstType.symm.trans (eval_typed_ret methods shape.1 evaluated))
    have check := checkArgument_outcome param e
    rw [← retFirst, passed, beq_self_eq_true] at check
    obtain ⟨checked, passes, -⟩ := check.ok
    refine (OnlyFails.of_ok passes).bind fun _ _ => ?_
    refine (evalCallArgs_onlyFaults env methods next params e.ret e.st shape.2
      (Nat.succ.inj count) accepted.2).bind fun result _ => ?_
    exact OnlyFails.of_ok rfl
end

/-- Under `-opt` the evaluation of a well-typed expression faults exactly if it contains a
division of constant subexpressions that C faults on. -/
theorem folding_faults_iff {env : Env} (on : env.optimizations = true) {tab : SymbolTable}
    (methods : tab.MethodsOk) {node : AstNode} (shape : isExpr tab node = true)
    (typed : (exprType env.plain tab node).isSome = true) (father : InfoType) (ret : RetType)
    (st : SemState) :
    eval env tab father node ret st ≠ .error .fault ↔
      ∀ sub ∈ subnodes node, faultingDivision sub = false := by
  rw [← exprSafe_iff on node shape]
  have outcome := eval_expr env methods node father ret st shape
  rw [exprType_split env methods node shape] at outcome
  obtain ⟨type, is⟩ := Option.isSome_iff_exists.mp typed
  constructor
  · intro completes
    by_contra unsafe'
    rw [if_neg unsafe'] at outcome
    exact completes
      ((eval_onlyFaults env methods node father ret st type shape is).eq_error outcome)
  · intro safe failed
    rw [if_pos safe, typed] at outcome
    obtain ⟨e, evaluated, -⟩ := outcome.ok
    rw [failed] at evaluated
    cases evaluated

/-- `7 / (65536 * 65536)`: no zero is written, and the product is one. -/
def hiddenZero : AstNode :=
  .common 1 .binary .division (.leaf 1 (.int 7)) (literalPair .multiplication 65536 65536)

theorem folding_faults_hiddenZero :
    isExpr .empty hiddenZero = true ∧ exprType (.sample false) .empty hiddenZero = some .int ∧
      eval (.sample true) .empty .common hiddenZero .null .init = .error .fault :=
  ⟨rfl, rfl, rfl⟩

theorem folding_completes_quotient :
    eval (.sample true) .empty .common (literalPair .division 7 2) .null .init ≠ .error .fault :=
  (folding_faults_iff rfl SymbolTable.wellFormed_empty.methods rfl rfl .common .null .init).mpr
    (by decide)

end Ctds
