import Ctds.Checker

/-! The analyzer computes what the checker says: `eval` accepts exactly the accepted
trees, leaves the rewritten tree, and moves the flag and `ret` as predicted. The two
parts of its state that matter to a body are the flag and the method's return type. -/

namespace Ctds

open Fallible

structure Kept (st st' : SemState) : Prop where
  returnedGlobal : st'.returnedGlobal = st.returnedGlobal
  methodReturnType : st'.methodReturnType = st.methodReturnType
  mainDefined : st'.mainDefined = st.mainDefined

theorem Kept.refl (st : SemState) : Kept st st := ⟨rfl, rfl, rfl⟩

theorem Kept.trans {st st' st'' : SemState} (h : Kept st st') (g : Kept st' st'') : Kept st st'' :=
  ⟨g.1.trans h.1, g.2.trans h.2, g.3.trans h.3⟩

theorem Kept.line {st st' : SemState} {line : Int} (h : Kept { st with line := line } st') :
    Kept st st' := ⟨h.1, h.2, h.3⟩

theorem binaryCase_outcome {line : Int} {tree : AstNode} {st : SemState} {operandsOk : Bool}
    {err : Error} {literals : Option (BitVec 32 × BitVec 32)}
    {fold : BitVec 32 → BitVec 32 → Option LeafValue} {type : RetType} :
    Outcome (operandsOk && literals.all fun v => (fold v.1 v.2).isSome)
      (fun e => e.ret = type ∧ e.st = st ∧
        e.tree = (literals.bind fun v => fold v.1 v.2).elim tree (.leaf line))
      (binaryCase line tree st operandsOk err literals fold type) := by
  unfold binaryCase
  cases operandsOk with
  | false => exact rfl
  | true =>
    rcases literals with _ | ⟨l, r⟩
    · exact ⟨rfl, rfl, rfl, rfl⟩
    · cases folded : fold l r with
      | none => simp [Outcome, folded]
      | some value => simp [Outcome, folded]

theorem foldNode_eq (env : Env) (line : Int) (op : Operator) (left right : AstNode) :
    foldNode env line op left right =
      ((literalOperands env left right).bind fun v => foldOperator op v.1 v.2).elim
        (.common line .binary op left right) (.leaf line) := by
  unfold foldNode
  cases literalOperands env left right with
  | none => rfl
  | some v =>
    cases h : foldOperator op v.1 v.2 <;> simp [h]

theorem foldFaults_eq (env : Env) (op : Operator) (left right : AstNode) :
    foldFaults env op left right =
      !((literalOperands env left right).all fun v => (foldOperator op v.1 v.2).isSome) := by
  unfold foldFaults
  cases literalOperands env left right with
  | none => rfl
  | some v => cases h : foldOperator op v.1 v.2 <;> simp [h]

theorem foldFaults_off {env : Env} (off : env.optimizations = false) (op : Operator)
    (left right : AstNode) : foldFaults env op left right = false := by
  simp [foldFaults, literalOperands, off]

theorem ifCase_off {env : Env} (off : env.optimizations = false) (condition elseBlock : AstNode) :
    ifCase env condition elseBlock = .both := by
  unfold ifCase
  split
  · simp [off]
  · rfl

/-- The type of a binary node whose operands have been evaluated. -/
def nodeType (env : Env) (op : Operator) (l r : Evaluated) : Option RetType :=
  if foldFaults env op l.tree r.tree then none else binaryType op l.ret r.ret

theorem binaryCase_nodeType {env : Env} {line : Int} {op : Operator} {l r : Evaluated}
    {operandsOk : Bool} {err : Error} {type : RetType}
    (typed : binaryType op l.ret r.ret = if operandsOk then some type else none) :
    Outcome (nodeType env op l r).isSome
      (fun e => nodeType env op l r = some e.ret ∧
        e.tree = foldNode env line op l.tree r.tree ∧ e.st = r.st)
      (binaryCase line (.common line .binary op l.tree r.tree) r.st operandsOk err
        (literalOperands env l.tree r.tree) (foldOperator op) type) := by
  have one := @binaryCase_outcome line (.common line .binary op l.tree r.tree) r.st operandsOk err
    (literalOperands env l.tree r.tree) (foldOperator op) type
  unfold nodeType
  rw [foldFaults_eq, foldNode_eq, typed]
  cases operandsOk with
  | false => simpa using one.rejected
  | true =>
    cases literals : (literalOperands env l.tree r.tree).all
        fun v => (foldOperator op v.1 v.2).isSome with
    | false =>
      rw [literals] at one
      simpa using one.rejected
    | true =>
      rw [literals] at one
      exact one.mono fun e ⟨ret, st, tree⟩ => ⟨by simp [ret], tree, st⟩

theorem evalBinary_outcome {env : Env} {tab : SymbolTable} {line : Int} {op : Operator}
    {l r : Evaluated} (binary : op.isBinary = true) :
    Outcome (nodeType env op l r).isSome
      (fun e => nodeType env op l r = some e.ret ∧
        e.tree = foldNode env line op l.tree r.tree ∧ e.st = r.st)
      (evalBinary env tab line op l r) := by
  cases op with
  | minus | neg | decl | assign | ret => cases binary
  | _ => exact binaryCase_nodeType (by simp [binaryType])

theorem evalUnary_outcome {line : Int} {op : Operator} {l : Evaluated} {right : AstNode}
    (unary : op.isUnary = true) :
    Outcome (unaryType op l.ret).isSome
      (fun e => unaryType op l.ret = some e.ret ∧
        e.tree = .common line .unary op l.tree right ∧ e.st = l.st)
      (evalUnary line op right l) := by
  cases op with
  | minus =>
    by_cases int : l.ret = .int <;> simp [evalUnary, unaryType, Outcome, int]
  | neg =>
    by_cases bool : l.ret = .bool <;> simp [evalUnary, unaryType, Outcome, bool]
  | _ => cases unary

theorem evalLeaf_outcome (tab : SymbolTable) (line : Int) (value : LeafValue) (ret : RetType)
    (st : SemState) :
    Outcome (leafType tab value).isSome
      (fun e => leafType tab value = some e.ret ∧ e.tree = .leaf line value ∧ Kept st e.st)
      (evalLeaf tab line value ret st) := by
  cases value with
  | int v => exact ⟨rfl, rfl, rfl, rfl, rfl, rfl⟩
  | bool v => exact ⟨rfl, rfl, rfl, rfl, rfl, rfl⟩
  | id p =>
    cases found : tab.entry p with
    | none => simp [Outcome, evalLeaf, leafType, found]
    | some info =>
      by_cases int : info.idType = Ty.int.code
      · have kept : Kept st { st with line := line } := ⟨rfl, rfl, rfl⟩
        simp [Outcome, evalLeaf, leafType, found, symbolType, int, kept]
      · by_cases bool : info.idType = Ty.bool.code
        · have kept : Kept st { st with line := line } := ⟨rfl, rfl, rfl⟩
          have distinct : Ty.bool.code ≠ Ty.int.code := by decide
          simp [Outcome, evalLeaf, leafType, found, symbolType, bool, distinct, kept]
        · simp [Outcome, evalLeaf, leafType, found, symbolType, int, bool]

theorem checkArgument_outcome (param : Args) (arg : Evaluated) :
    Outcome (arg.ret.toTy? == some param.type) (fun _ => True) (checkArgument param arg) := by
  unfold checkArgument
  cases arg.ret.toTy? with
  | none => exact rfl
  | some type =>
    by_cases same : param.type = type
    · simp [Outcome, same]
    · simp [Outcome, same, Ne.symm same]

theorem calledMethod_entry {tab : SymbolTable} {line : Int} {name : Ident} {numArgs : Nat}
    {method : MethodInfo} (h : calledMethod tab line name numArgs = .ok method) :
    ∃ p, tab.findGlobal name = some p ∧ tab.entry p = some (.methodDecl method) ∧
      method.numArgs = numArgs := by
  unfold calledMethod at h
  split at h
  · cases h
  · cases h
  · next m found =>
    split at h
    · cases h
    · next counted =>
      obtain rfl := Except.ok.inj h
      obtain ⟨p, named, entry⟩ := Option.bind_eq_some_iff.mp found
      exact ⟨p, named, entry, by simpa using counted⟩

theorem callResult_ok (tree : AstNode) {method : MethodInfo} (st : SemState)
    (known : method.returnType ≠ .null) :
    ∃ type, method.returnType.toRetType = some type ∧
      callResult tree method st = .ok ⟨tree, type, st⟩ := by
  unfold callResult
  cases returnType : method.returnType with
  | null => exact absurd returnType known
  | _ => exact ⟨_, rfl, rfl⟩

/-- What `eval` returns for an accepted expression. -/
def ExprPost (env : Env) (tab : SymbolTable) (node : AstNode) (st : SemState) (e : Evaluated) :
    Prop :=
  exprType env tab node = some e.ret ∧ e.tree = foldTree env node ∧ Kept st e.st

theorem operands_outcome {env : Env} {tab : SymbolTable} {left right : AstNode} {st : SemState}
    {evalLeft : Except Error Evaluated} {evalRight : SemState → Except Error Evaluated}
    {next : Evaluated → Evaluated → Except Error Evaluated} {post : Evaluated → Prop}
    (accepted : RetType → RetType → Bool)
    (hLeft : Outcome (exprType env tab left).isSome (ExprPost env tab left st) evalLeft)
    (hRight : ∀ st', Outcome (exprType env tab right).isSome (ExprPost env tab right st')
      (evalRight st'))
    (hNext : ∀ l r : Evaluated, exprType env tab left = some l.ret →
      exprType env tab right = some r.ret → l.tree = foldTree env left →
      r.tree = foldTree env right → Kept st r.st →
      Outcome (accepted l.ret r.ret) post (next l r)) :
    Outcome
      (match exprType env tab left, exprType env tab right with
        | some l, some r => accepted l r
        | _, _ => false)
      post (evalLeft >>= fun l => evalRight l.st >>= fun r => next l r) := by
  cases leftType : exprType env tab left with
  | none =>
    rw [leftType] at hLeft
    obtain ⟨err, failed⟩ := hLeft.error
    rw [failed]
    exact rfl
  | some lt =>
    rw [leftType] at hLeft
    obtain ⟨l, evaluated, ltype, ltree, lkept⟩ := hLeft.ok
    obtain rfl := Option.some.inj (leftType.symm.trans ltype)
    rw [evaluated, ok_bind]
    have hRight := hRight l.st
    cases rightType : exprType env tab right with
    | none =>
      rw [rightType] at hRight
      obtain ⟨err, failed⟩ := hRight.error
      rw [failed]
      exact rfl
    | some rt =>
      rw [rightType] at hRight
      obtain ⟨r, evaluated', rtype, rtree, rkept⟩ := hRight.ok
      obtain rfl := Option.some.inj (rightType.symm.trans rtype)
      rw [evaluated', ok_bind]
      exact hNext l r ltype rtype ltree rtree (lkept.trans rkept)

mutual
theorem eval_expr (env : Env) {tab : SymbolTable} (methods : tab.MethodsOk) :
    ∀ (node : AstNode) (father : InfoType) (ret : RetType) (st : SemState),
      isExpr tab node = true →
      Outcome (exprType env tab node).isSome (ExprPost env tab node st)
        (eval env tab father node ret st)
  | .null, _, _, _, shape | .ifStmt .., _, _, _, shape | .whileStmt .., _, _, _, shape
  | .methodDecl .., _, _, _, shape | .block .., _, _, _, shape => by simp [isExpr] at shape
  | .leaf line value, father, ret, st, _ => by
    rw [eval]
    simp only [exprType]
    refine (evalLeaf_outcome tab line value ret st).mono fun e ⟨type, tree, kept⟩ => ⟨?_, ?_, kept⟩
    · rw [exprType, type]
    · rw [tree, foldTree]
      · simp
      · simp
      · simp
  | .common line .binary op left right, father, ret, st, shape => by
    simp only [isExpr, Bool.and_eq_true] at shape
    obtain ⟨⟨binary, leftShape⟩, rightShape⟩ := shape
    have accepted : (exprType env tab (.common line .binary op left right)).isSome =
        match exprType env tab left, exprType env tab right with
        | some l, some r =>
          (if foldFaults env op (foldTree env left) (foldTree env right) then none
            else binaryType op l r).isSome
        | _, _ => false := by
      simp only [exprType]
      cases exprType env tab left <;> cases exprType env tab right <;> rfl
    rw [eval_binary env tab binary, accepted]
    refine operands_outcome
      (fun l r => (if foldFaults env op (foldTree env left) (foldTree env right) then none
        else binaryType op l r).isSome)
      (eval_expr env methods left .common env.uninitRet { st with line := line } leftShape)
      (fun st' => eval_expr env methods right .common env.uninitRet st' rightShape)
      fun l r ltype rtype ltree rtree kept => ?_
    have same : nodeType env op l r =
        if foldFaults env op (foldTree env left) (foldTree env right) then none
        else binaryType op l.ret r.ret := by
      rw [nodeType, ltree, rtree]
    have node : Outcome (nodeType env op l r).isSome _ (evalBinary env tab line op l r) :=
      evalBinary_outcome binary
    rw [same] at node
    refine node.mono fun e ⟨type, tree, st'⟩ => ⟨?_, ?_, ?_⟩
    · simp only [exprType, ltype, rtype]
      exact type
    · rw [tree, ltree, rtree, foldTree]
    · exact st' ▸ kept.line
  | .common line .unary op left right, father, ret, st, shape => by
    simp only [isExpr, Bool.and_eq_true] at shape
    obtain ⟨⟨unary, leftShape⟩, -⟩ := shape
    have ihl := eval_expr env methods left .common env.uninitRet { st with line := line } leftShape
    rw [eval_unary env tab unary]
    simp only [exprType]
    cases leftType : exprType env tab left with
    | none =>
      rw [leftType] at ihl
      obtain ⟨err, failed⟩ := ihl.error
      rw [failed]
      exact rfl
    | some lt =>
      rw [leftType] at ihl
      obtain ⟨l, evaluated, lret, ltree, lkept⟩ := ihl.ok
      rw [leftType, Option.some.injEq] at lret
      rw [evaluated, ok_bind, Option.bind_some, lret]
      refine (evalUnary_outcome unary).mono fun e ⟨type, tree, kept⟩ => ⟨?_, ?_, ?_⟩
      · rw [exprType, leftType, Option.bind_some, lret, type]
      · rw [tree, ltree, foldTree]
      · rw [kept]
        exact lkept.line
  | .methodCall line name numArgs args, father, ret, st, shape => by
    simp only [isExpr, Bool.and_eq_true, decide_eq_true_eq] at shape
    obtain ⟨counted, shapes⟩ := shape
    cases called : calledMethod tab line name numArgs with
    | error err =>
      simp only [exprType, called]
      rw [eval, called]
      exact rfl
    | ok method =>
      obtain ⟨p, -, entry, number⟩ := calledMethod_entry called
      obtain ⟨total, known⟩ := methods p method entry
      have lengths : method.args.length = args.length := by omega
      have ih := evalCallArgs_exprs env methods args method.args ret { st with line := line } shapes
        lengths
      have callType : exprType env tab (.methodCall line name numArgs args) =
          if argsAccepted env tab method.args args then method.returnType.toRetType else none := by
        simp only [exprType, called]
      rw [eval]
      beta_reduce
      rw [called, ok_bind]
      cases accepted : argsAccepted env tab method.args args with
      | false =>
        rw [accepted] at ih
        obtain ⟨err, failed⟩ := ih.error
        rw [failed, callType, accepted]
        exact rfl
      | true =>
        rw [accepted] at ih
        obtain ⟨⟨args', st'⟩, evaluated, trees, kept⟩ := ih.ok
        obtain ⟨type, typed, result⟩ :=
          callResult_ok (.methodCall line name numArgs args') st' known
        rw [accepted, if_pos rfl, typed] at callType
        rw [evaluated, ok_bind]
        dsimp only
        rw [result, callType]
        refine ⟨rfl, callType, ?_, kept.line⟩
        simp only [foldTree]
        rw [← trees]
theorem evalCallArgs_exprs (env : Env) {tab : SymbolTable} (methods : tab.MethodsOk) :
    ∀ (args : AstNodeList) (params : List Args) (ret : RetType) (st : SemState),
      areExprs tab args = true → params.length = args.length →
      Outcome (argsAccepted env tab params args)
        (fun r => r.1 = foldTrees env args ∧ Kept st r.2) (evalCallArgs env tab params args ret st)
  | .nil, [], ret, st, _, _ => ⟨rfl, rfl, .refl st⟩
  | .cons first next, param :: params, ret, st, shapes, lengths => by
    simp only [areExprs, Bool.and_eq_true] at shapes
    have ih := eval_expr env methods first .methodCall ret st shapes.1
    rw [evalCallArgs, argsAccepted]
    cases firstType : exprType env tab first with
    | none =>
      rw [firstType] at ih
      obtain ⟨err, failed⟩ := ih.error
      rw [failed]
      exact rfl
    | some type =>
      rw [firstType] at ih
      obtain ⟨e, evaluated, eret, etree, ekept⟩ := ih.ok
      rw [firstType, Option.some.injEq] at eret
      rw [evaluated, ok_bind, Option.bind_some, eret]
      refine (checkArgument_outcome param e).bind fun _ _ => ?_
      have rest := evalCallArgs_exprs env methods next params e.ret e.st shapes.2
        (Nat.succ.inj lengths)
      cases accepted : argsAccepted env tab params next with
      | false =>
        rw [accepted] at rest
        obtain ⟨err, failed⟩ := rest.error
        rw [failed]
        exact rfl
      | true =>
        rw [accepted] at rest
        obtain ⟨⟨args', st'⟩, evaluated', trees, kept⟩ := rest.ok
        rw [evaluated', ok_bind]
        refine ⟨rfl, ?_, ekept.trans kept⟩
        simp only [foldTrees, etree]
        rw [← trees]
end

theorem rewrite_isReturn (env : Env) (node : AstNode) :
    (rewrite env node).isReturn = node.isReturn := by
  cases node with
  | common line arity op left right => cases op <;> rfl
  | ifStmt line condition thenBlock elseBlock =>
    simp only [rewrite]
    split <;> rfl
  | whileStmt line condition block =>
    simp only [rewrite]
    split <;> rfl
  | _ => rfl

/-- Whether the flag outlives a node under this father. -/
def keepsFlag (father : InfoType) : Bool := decide (father = .block ∨ father = .ifStmt)

structure StmtPost (env : Env) (father : InfoType) (node : AstNode) (ret : RetType)
    (st : SemState) (e : Evaluated) : Prop where
  tree : e.tree = rewrite env node
  methodReturnType : e.st.methodReturnType = st.methodReturnType
  mainDefined : e.st.mainDefined = st.mainDefined
  flag : e.st.returnedGlobal = (keepsFlag father && flagAfter env st.returnedGlobal node)
  ret_isReturn : node.isReturn = true → e.ret = st.methodReturnType
  ret_block : ∀ line stmts, node = .block line stmts →
    e.ret = retAfterBlock env st.methodReturnType ret st.returnedGlobal stmts

structure LoopPost (env : Env) (stmts : AstNodeList) (loop loop' : BlockLoop) : Prop where
  tree : loop'.stmts = rewriteStmts env stmts
  methodReturnType : loop'.st.methodReturnType = loop.st.methodReturnType
  mainDefined : loop'.st.mainDefined = loop.st.mainDefined
  flag : loop'.st.returnedGlobal = flagAfterStmts env loop.st.returnedGlobal stmts
  returned : loop'.returned = (loop.returned || listReturns stmts)
  ret : loop'.ret = if listReturns stmts then loop.st.methodReturnType else loop.ret

theorem retAfterBlock_ne_null {env : Env} {methodReturnType : RetType} {flag : Bool}
    {stmts : AstNodeList} (known : methodReturnType ≠ .null) :
    retAfterBlock env methodReturnType .null flag stmts ≠ .null ↔ listReturns stmts = true := by
  unfold retAfterBlock
  cases listReturns stmts with
  | true => simpa using known
  | false => simp

theorem endBlock_ret {env : Env} {line : Int} {stmts : AstNodeList} {ret : RetType}
    {st : SemState} {loop : BlockLoop}
    (post : LoopPost env stmts ⟨.nil, ret, false, { st with line := line }⟩ loop) :
    (endBlock line loop).ret =
      retAfterBlock env st.methodReturnType ret st.returnedGlobal stmts := by
  unfold endBlock retAfterBlock
  simp only [post.returned, post.ret, post.flag, Bool.false_or]
  cases listReturns stmts with
  | true => simp
  | false => cases flagAfterStmts env st.returnedGlobal stmts <;> simp

theorem leaveBlock_flag (father : InfoType) (e : Evaluated) :
    (leaveBlock father e).st.returnedGlobal = (keepsFlag father && e.st.returnedGlobal) := by
  unfold leaveBlock keepsFlag
  cases flag : e.st.returnedGlobal <;> cases father <;> simp [flag]

theorem leaveBlock_kept (father : InfoType) (e : Evaluated) :
    (leaveBlock father e).tree = e.tree ∧ (leaveBlock father e).ret = e.ret ∧
      (leaveBlock father e).st.methodReturnType = e.st.methodReturnType ∧
      (leaveBlock father e).st.mainDefined = e.st.mainDefined := by
  unfold leaveBlock
  split <;> exact ⟨rfl, rfl, rfl, rfl⟩

theorem evalIf_eq {env : Env} {line : Int} {elseBlock : AstNode}
    {evalCondition evalThen evalElse : Evaluator} {ret : RetType} {st : SemState} {c : Evaluated}
    (evaluated : evalCondition env.uninitRet { st with line := line } = .ok c)
    (bool : c.ret = .bool) :
    evalIf env line elseBlock evalCondition evalThen evalElse ret st =
      match ifCase env c.tree elseBlock with
      | .both => evalBranches line c.tree elseBlock evalThen evalElse c.st
      | .thenOnly => evalThen .null c.st >>= promoteBranch line
      | .elseOnly => evalElse .null c.st >>= promoteBranch line := by
  unfold evalIf
  rw [evaluated, ok_bind]
  simp only [bool, ne_eq, not_true_eq_false, if_false, ifCase]
  cases c.tree with
  | leaf l value =>
    cases env.optimizations with
    | false => rfl
    | true =>
      by_cases one : value.intValue env = 1
      · simp only [if_true, if_pos one]
      · simp only [if_true, if_neg one]
        cases elseBlock.isNull <;> rfl
  | _ => rfl

theorem evalIf_conditional {env : Env} {line : Int} {evalCondition : Evaluator} {st : SemState}
    {c : Evaluated} (evaluated : evalCondition env.uninitRet { st with line := line } = .ok c)
    (other : c.ret ≠ .bool) (elseBlock : AstNode) (evalThen evalElse : Evaluator) (ret : RetType) :
    ∃ err, evalIf env line elseBlock evalCondition evalThen evalElse ret st = .error err := by
  unfold evalIf
  rw [evaluated, ok_bind]
  simp only [ne_eq, other, not_false_eq_true, if_true]
  exact ⟨_, rfl⟩

theorem isBranch_iff {tab : SymbolTable} {node : AstNode} :
    isBranch tab node = true ↔
      node = .null ∨ ∃ line stmts, node = .block line stmts ∧ areStmts tab stmts = true := by
  cases node <;> simp [isBranch, AstNode.isNull, AstNode.isBlock, isStmt]

theorem branch_ret {env : Env} {father : InfoType} {branch : AstNode} {st : SemState}
    {e : Evaluated} (post : StmtPost env father branch .null st e) (block : branch.isBlock = true)
    (known : st.methodReturnType ≠ .null) : e.ret ≠ .null ↔ branchReturns branch = true := by
  cases branch with
  | block line stmts =>
    rw [post.ret_block line stmts rfl]
    exact retAfterBlock_ne_null known
  | _ => cases block

/-- The part of `StmtPost` that an if leaves, with the flag it computes. -/
structure IfPost (node : AstNode) (flag : Bool) (st : SemState) (e : Evaluated) : Prop where
  tree : e.tree = node
  methodReturnType : e.st.methodReturnType = st.methodReturnType
  mainDefined : e.st.mainDefined = st.mainDefined
  flag : e.st.returnedGlobal = flag

theorem promoteBranch_outcome {env : Env} {line : Int} {branch : AstNode} {accepted : Bool}
    {st : SemState} {x : Except Error Evaluated} (block : accepted = true → branch.isBlock = true)
    (h : Outcome accepted (StmtPost env .ifStmt branch .null st) x) :
    Outcome (accepted && !(blockStmts branch).isEmpty)
      (IfPost (.block line (blockStmts (rewrite env branch))) true st)
      (x >>= promoteBranch line) := by
  cases accepted with
  | false =>
    obtain ⟨err, failed⟩ := h.error
    rw [failed]
    exact rfl
  | true =>
    have isBlock := block rfl
    refine h.bind fun e post => ?_
    cases branch with
    | block line' stmts =>
      unfold promoteBranch
      rw [post.tree]
      cases stmts with
      | nil => exact rfl
      | cons first next => exact ⟨rfl, rfl, post.methodReturnType, post.mainDefined, rfl⟩
    | _ => cases isBlock

theorem IfPost.since {node : AstNode} {flag : Bool} {st st' : SemState} {e : Evaluated}
    (h : IfPost node flag st' e) (methodReturnType : st'.methodReturnType = st.methodReturnType)
    (mainDefined : st'.mainDefined = st.mainDefined) : IfPost node flag st e :=
  ⟨h.tree, h.methodReturnType.trans methodReturnType, h.mainDefined.trans mainDefined, h.flag⟩

theorem joinBranches_post (tree : AstNode) {retThen retElse : RetType} {st st' : SemState}
    {returnsThen returnsElse : Bool} (hThen : retThen ≠ .null ↔ returnsThen = true)
    (hElse : retElse ≠ .null ↔ returnsElse = true)
    (methodReturnType : st'.methodReturnType = st.methodReturnType)
    (mainDefined : st'.mainDefined = st.mainDefined) :
    IfPost tree (st'.returnedGlobal || (returnsThen && returnsElse)) st
      (joinBranches tree retThen retElse st') := by
  unfold joinBranches
  by_cases thenReturns : retThen ≠ .null <;> by_cases elseReturns : retElse ≠ .null <;>
    simp only [thenReturns, elseReturns, if_true, if_false, not_false_eq_true, ne_eq, true_iff,
      false_iff, Bool.not_eq_true] at hThen hElse ⊢ <;>
    exact ⟨rfl, methodReturnType, mainDefined, by simp [hThen, hElse]⟩

theorem evalBranches_outcome {env : Env} {line : Int} {condition thenBlock elseBlock : AstNode}
    {evalThen evalElse : Evaluator} {accThen accElse : Bool} {st : SemState}
    (known : st.methodReturnType ≠ .null) (thenShape : accThen = true → thenBlock.isBlock = true)
    (elseShape : elseBlock.isNull = false → elseBlock.isBlock = true)
    (hThen : Outcome accThen (StmtPost env .ifStmt thenBlock .null st) (evalThen .null st))
    (hElse : ∀ st' : SemState, st'.methodReturnType = st.methodReturnType →
      Outcome accElse (StmtPost env .ifStmt elseBlock .null st') (evalElse .null st')) :
    Outcome (accThen && (elseBlock.isNull || accElse))
      (IfPost (.ifStmt line condition (rewrite env thenBlock) (rewrite env elseBlock))
        (flagAfter env (flagAfter env st.returnedGlobal thenBlock) elseBlock ||
          (branchReturns thenBlock && branchReturns elseBlock)) st)
      (evalBranches line condition elseBlock evalThen evalElse st) := by
  unfold evalBranches
  cases accThen with
  | false =>
    obtain ⟨err, failed⟩ := hThen.error
    rw [failed]
    exact rfl
  | true =>
    obtain ⟨t, evaluated, post⟩ := hThen.ok
    have thenReturns := branch_ret post (thenShape rfl) known
    have thenFlag : t.st.returnedGlobal = flagAfter env st.returnedGlobal thenBlock := by
      rw [post.flag]
      rfl
    rw [evaluated, ok_bind, Bool.true_and]
    cases elseNull : elseBlock.isNull with
    | true =>
      obtain rfl : elseBlock = .null := by cases elseBlock <;> first | rfl | cases elseNull
      have join := joinBranches_post (.ifStmt line condition t.tree .null) thenReturns
        (by simp : RetType.null ≠ .null ↔ false = true) post.methodReturnType post.mainDefined
      refine ⟨rfl, ?_⟩
      rw [post.tree, thenFlag] at join
      simpa [post.tree, rewrite, flagAfter, branchReturns, blockStmts, listReturns] using join
    | false =>
      rw [Bool.false_or]
      simp only [Bool.false_eq_true, if_false]
      cases accElse with
      | false =>
        obtain ⟨err, failed⟩ := (hElse t.st post.methodReturnType).error
        rw [failed]
        exact rfl
      | true =>
        obtain ⟨e, evaluated', post'⟩ := (hElse t.st post.methodReturnType).ok
        have elseReturns := branch_ret post' (elseShape elseNull)
          (post.methodReturnType ▸ known)
        have join := joinBranches_post (.ifStmt line condition t.tree e.tree) thenReturns
          elseReturns (post'.methodReturnType.trans post.methodReturnType)
          (post'.mainDefined.trans post.mainDefined)
        rw [evaluated', ok_bind]
        refine ⟨rfl, ?_⟩
        rw [post.tree, post'.tree, post'.flag, thenFlag] at join
        rw [post.tree, post'.tree]
        exact join

theorem rewriteWhile_outcome {env : Env} {line : Int} {block : AstNode} {c b : Evaluated}
    {ret : RetType} (isBlock : block.isBlock = true) (tree : b.tree = rewrite env block) :
    Outcome (!(testsLoop env c.tree && (blockStmts block).isEmpty))
      (fun e => e.tree = (if dropsLoop env c.tree then .block line .nil
          else .whileStmt line c.tree b.tree) ∧ Kept b.st e.st)
      (rewriteWhile env line c b ret) := by
  cases block with
  | block line' stmts =>
    unfold rewriteWhile
    rw [tree]
    cases c.tree with
    | leaf l value =>
      cases opt : env.optimizations with
      | false => exact ⟨by simp [testsLoop, opt], by simp [dropsLoop, opt], rfl, rfl, rfl⟩
      | true =>
        cases stmts with
        | nil =>
          simp [Outcome, testsLoop, opt, rewrite, rewriteStmts, blockStmts, AstNodeList.isEmpty]
        | cons first next =>
          simp only [if_true, rewrite, rewriteStmts, dropsLoop, opt, Bool.true_and,
            decide_eq_true_eq]
          split <;>
            exact ⟨by simp [blockStmts, AstNodeList.isEmpty], rfl, rfl, rfl, rfl⟩
    | _ => exact ⟨rfl, rfl, rfl, rfl, rfl⟩
  | _ => cases isBlock

theorem evalWhile_outcome {env : Env} {tab : SymbolTable} {line : Int} {condition block : AstNode}
    {evalCondition evalBody : Evaluator} {ret : RetType} {st : SemState} {accepted : Bool}
    (isBlock : accepted = true → block.isBlock = true)
    (hCondition : Outcome (exprType env tab condition).isSome
      (ExprPost env tab condition { st with line := line })
      (evalCondition env.uninitRet { st with line := line }))
    (hBody : ∀ st' : SemState, st'.methodReturnType = st.methodReturnType →
      Outcome accepted (StmtPost env .whileStmt block env.uninitRet st')
        (evalBody env.uninitRet st')) :
    Outcome ((exprType env tab condition == some .bool) && accepted &&
        !(testsLoop env (foldTree env condition) && (blockStmts block).isEmpty))
      (IfPost (rewrite env (.whileStmt line condition block)) false st)
      (evalWhile env line evalCondition evalBody ret st) := by
  unfold evalWhile
  cases type : exprType env tab condition with
  | none =>
    rw [type] at hCondition
    obtain ⟨err, failed⟩ := hCondition.error
    rw [failed]
    exact rfl
  | some type' =>
    rw [type] at hCondition
    obtain ⟨c, evaluated, cret, ctree, ckept⟩ := hCondition.ok
    rw [type, Option.some.injEq] at cret
    rw [evaluated, ok_bind]
    by_cases bool : c.ret = .bool
    · simp only [bool, ne_eq, not_true_eq_false, if_false]
      have isBool : (some type' == some RetType.bool) = true := by rw [cret, bool]; rfl
      rw [isBool, Bool.true_and]
      cases accepted with
      | false =>
        obtain ⟨err, failed⟩ := (hBody c.st ckept.line.methodReturnType).error
        simp only [failed]
        exact rfl
      | true =>
        obtain ⟨b, evaluated', post⟩ := (hBody c.st ckept.line.methodReturnType).ok
        simp only [evaluated', Bool.true_and]
        rw [← ctree]
        refine (rewriteWhile_outcome (isBlock rfl) post.tree).mono fun e ⟨tree, kept⟩ => ?_
        refine ⟨?_, ?_, ?_, ?_⟩
        · rw [tree, post.tree, ctree]
          rfl
        · rw [kept.methodReturnType, post.methodReturnType, ckept.line.methodReturnType]
        · rw [kept.mainDefined, post.mainDefined, ckept.line.mainDefined]
        · rw [kept.returnedGlobal, post.flag]
          rfl
    · simp only [ne_eq, bool, not_false_eq_true, if_true]
      have notBool : (some type' == some RetType.bool) = false := by
        rw [cret]
        simpa using bool
      rw [notBool]
      exact rfl

theorem isIdLeaf_iff {tab : SymbolTable} {node : AstNode} :
    isIdLeaf tab node = true ↔
      ∃ line p info, node = .leaf line (.id p) ∧ tab.entry p = some info := by
  rcases node with _ | _ | _ | _ | _ | _ | _ | ⟨line, _ | _ | p⟩ <;>
    simp [isIdLeaf, SymbolTable.hasEntry_iff]

theorem isIdLeaf_isExpr {tab : SymbolTable} {node : AstNode} (h : isIdLeaf tab node = true) :
    isExpr tab node = true := by
  obtain ⟨line, p, info, rfl, -⟩ := isIdLeaf_iff.mp h
  exact h

theorem foldTree_null (env : Env) : foldTree env .null = .null := by
  simp [foldTree]

theorem isNull_iff {node : AstNode} : node.isNull = true ↔ node = .null := by
  cases node <;> simp [AstNode.isNull]

theorem evalDecl_outcome {tab : SymbolTable} {line : Int} {arity : OperatorArity}
    {l r : Evaluated} {info : SymbolInfo} (leaf : leafSymbol tab l.tree = some info) :
    Outcome (declAccepted l.ret r.ret)
      (fun e => e.tree = .common line arity .decl l.tree r.tree ∧ e.st = r.st)
      (evalDecl tab line arity l r) := by
  unfold evalDecl declAccepted
  rw [leaf]
  by_cases int : l.ret ≠ r.ret ∧ r.ret = .int
  · simp [Outcome, int, int.2 ▸ int.1]
  · by_cases bool : l.ret ≠ r.ret ∧ r.ret = .bool
    · simp [Outcome, bool, bool.2 ▸ bool.1]
    · simp only [if_neg int, if_neg bool]
      exact ⟨by rw [decide_eq_true_eq]; tauto, rfl, rfl⟩

theorem evalAssign_outcome {tab : SymbolTable} {tree left : AstNode} {info : SymbolInfo}
    {lt rt : RetType} {st : SemState} (leaf : leafSymbol tab left = some info)
    (typed : symbolType info = some lt) :
    Outcome (decide (lt = rt)) (fun e => e.tree = tree ∧ e.st = st)
      (evalAssign tab tree left rt st) := by
  unfold evalAssign
  unfold symbolType at typed
  rw [leaf]
  by_cases int : info.idType = Ty.int.code
  · rw [if_pos int, Option.some.injEq] at typed
    have distinct : Ty.int.code ≠ Ty.bool.code := by decide
    by_cases same : rt = .int <;> simp [Outcome, int, distinct, ← typed, same, eq_comm]
  · by_cases bool : info.idType = Ty.bool.code
    · rw [if_neg int, if_pos bool, Option.some.injEq] at typed
      have distinct : Ty.bool.code ≠ Ty.int.code := by decide
      by_cases same : rt = .bool <;> simp [Outcome, bool, distinct, ← typed, same, eq_comm]
    · simp [int, bool] at typed

theorem evalReturn_outcome {line : Int} {arity : OperatorArity} {right : AstNode} {l : Evaluated} :
    Outcome (decide (l.ret = l.st.methodReturnType))
      (fun e => e.tree = .common line arity .ret l.tree right ∧ e.ret = l.st.methodReturnType ∧
        e.st = { l.st with returnedGlobal := true })
      (evalReturn line arity right l) := by
  unfold evalReturn
  by_cases same : l.ret = l.st.methodReturnType <;> simp [Outcome, same]

theorem IfPost.stmt {env : Env} {node : AstNode} {ret : RetType} {st : SemState} {e : Evaluated}
    (h : IfPost (rewrite env node) (flagAfter env st.returnedGlobal node) st e)
    (notReturn : node.isReturn = false) (notBlock : node.isBlock = false) :
    StmtPost env .block node ret st e := by
  refine ⟨h.tree, h.methodReturnType, h.mainDefined, h.flag, ?_, ?_⟩
  · simp [notReturn]
  · rintro line stmts rfl
    cases notBlock

theorem Kept.stmt {env : Env} {node : AstNode} {ret : RetType} {st : SemState} {e : Evaluated}
    (kept : Kept st e.st) (tree : e.tree = rewrite env node)
    (flag : flagAfter env st.returnedGlobal node = st.returnedGlobal)
    (notReturn : node.isReturn = false) (notBlock : node.isBlock = false) :
    StmtPost env .block node ret st e := by
  refine IfPost.stmt ⟨tree, kept.methodReturnType, kept.mainDefined, ?_⟩ notReturn notBlock
  rw [flag]
  exact kept.returnedGlobal

theorem evalCommon_stmt {env : Env} {tab : SymbolTable} (methods : tab.MethodsOk) {line : Int}
    {arity : OperatorArity} {op : Operator} {left right : AstNode} {ret : RetType} {st : SemState}
    (shape : isStmt tab (.common line arity op left right) = true) :
    Outcome (stmtAccepted env tab st.methodReturnType (.common line arity op left right))
      (StmtPost env .block (.common line arity op left right) ret st)
      (eval env tab .block (.common line arity op left right) ret st) := by
  rw [eval]
  unfold isStmt at shape
  unfold evalCommon stmtAccepted
  cases op with
  | decl =>
    simp only [Bool.and_eq_true, Bool.or_eq_true] at shape
    obtain ⟨isId, initialiser⟩ := shape
    obtain ⟨line', p, info, rfl, entry⟩ := isIdLeaf_iff.mp isId
    cases null : right.isNull with
    | true =>
      obtain rfl := isNull_iff.mp null
      exact ⟨rfl, by simp [rewrite, foldTree], rfl, rfl, rfl,
        fun h => absurd h Bool.false_ne_true, fun _ _ h => by cases h⟩
    | false =>
      have isExprRight : isExpr tab right = true := by simpa [null] using initialiser
      simp only [Bool.false_eq_true, if_false, Bool.false_or]
      refine operands_outcome _
        (eval_expr env methods _ .common env.uninitRet { st with line := line }
          (isIdLeaf_isExpr isId))
        (fun st' => eval_expr env methods right .common env.uninitRet st' isExprRight)
        fun l r _ _ ltree rtree kept => ?_
      have leaf : leafSymbol tab l.tree = some info := by
        rw [ltree]
        simpa [foldTree, leafSymbol] using entry
      refine (evalDecl_outcome leaf).mono fun e post => ?_
      obtain ⟨tree, st'⟩ := post
      rw [← st'] at kept
      refine kept.line.stmt ?_ rfl rfl rfl
      rw [tree, ltree, rtree]
      rfl
  | assign =>
    simp only [Bool.and_eq_true, decide_eq_true_eq] at shape
    obtain ⟨⟨rfl, isId⟩, isExprRight⟩ := shape
    obtain ⟨line', p, info, rfl, entry⟩ := isIdLeaf_iff.mp isId
    refine operands_outcome (fun l r => decide (l = r))
      (eval_expr env methods _ .common env.uninitRet { st with line := line }
        (isIdLeaf_isExpr isId))
      (fun st' => eval_expr env methods right .common env.uninitRet st' isExprRight)
      fun l r ltype _ ltree rtree kept => ?_
    have leaf : leafSymbol tab l.tree = some info := by
      rw [ltree]
      simpa [foldTree, leafSymbol] using entry
    have typed : symbolType info = some l.ret := by
      simpa [exprType, leafType, entry] using ltype
    refine (evalAssign_outcome leaf typed).mono fun e post => ?_
    obtain ⟨tree, st'⟩ := post
    rw [← st'] at kept
    refine kept.line.stmt ?_ rfl rfl rfl
    rw [tree, ltree, rtree]
    rfl
  | ret =>
    simp only [Bool.and_eq_true, Bool.or_eq_true] at shape
    obtain ⟨value, rightNull⟩ := shape
    obtain rfl := isNull_iff.mp rightNull
    cases null : left.isNull with
    | true =>
      obtain rfl := isNull_iff.mp null
      by_cases void : st.methodReturnType = .void
      · simp only [void, ne_eq, not_true_eq_false, if_false, if_true]
        exact ⟨rfl, by simp [rewrite, foldTree], void ▸ rfl, rfl, rfl, fun _ => void.symm,
          fun _ _ h => by cases h⟩
      · simp only [void, ne_eq, not_false_eq_true, if_true]
        exact rfl
    | false =>
      have isExprLeft : isExpr tab left = true := by simpa [null] using value
      simp only [Bool.false_eq_true, if_false]
      have ih := eval_expr env methods left .common env.uninitRet
        { st with line := line } isExprLeft
      cases type : exprType env tab left with
      | none =>
        rw [type] at ih
        obtain ⟨err, failed⟩ := ih.error
        rw [failed]
        exact rfl
      | some lt =>
        rw [type] at ih
        obtain ⟨l, evaluated, ltype, ltree, lkept⟩ := ih.ok
        obtain rfl := Option.some.inj (type.symm.trans ltype)
        rw [evaluated, ok_bind]
        have same : (some l.ret == some st.methodReturnType) =
            decide (l.ret = l.st.methodReturnType) := by
          rw [lkept.methodReturnType]
          simp [Bool.beq_eq_decide_eq]
        rw [same]
        refine evalReturn_outcome.mono fun e post => ?_
        obtain ⟨tree, ret', st'⟩ := post
        refine ⟨?_, ?_, ?_, ?_, fun _ => ret'.trans lkept.methodReturnType,
          fun _ _ h => by cases h⟩
        · rw [tree, ltree]
          simp [rewrite, foldTree]
        · rw [st']
          exact lkept.methodReturnType
        · rw [st']
          exact lkept.mainDefined
        · rw [st']
          rfl
  | _ => cases shape

theorem branch_outcome {env : Env} {tab : SymbolTable} {father : InfoType} {node : AstNode}
    {ret : RetType} {st : SemState} (shape : isBranch tab node = true)
    (ih : isStmt tab node = true → node.isBlock = true →
      Outcome (stmtAccepted env tab st.methodReturnType node) (StmtPost env father node ret st)
        (eval env tab father node ret st)) :
    Outcome (stmtAccepted env tab st.methodReturnType node) (StmtPost env father node ret st)
      (eval env tab father node ret st) := by
  rcases isBranch_iff.mp shape with rfl | ⟨line, stmts, rfl, areStmts⟩
  · rw [eval]
    simp only [stmtAccepted]
    exact rfl
  · exact ih (by simpa [isStmt] using areStmts) rfl

theorem accepted_isBlock {env : Env} {tab : SymbolTable} {methodReturnType : RetType}
    {node : AstNode} (shape : isBranch tab node = true)
    (accepted : stmtAccepted env tab methodReturnType node = true) : node.isBlock = true := by
  rcases isBranch_iff.mp shape with rfl | ⟨line, stmts, rfl, -⟩
  · simp [stmtAccepted] at accepted
  · rfl

theorem nonNull_isBlock {tab : SymbolTable} {node : AstNode} (shape : isBranch tab node = true)
    (notNull : node.isNull = false) : node.isBlock = true := by
  rcases isBranch_iff.mp shape with rfl | ⟨line, stmts, rfl, -⟩
  · cases notNull
  · rfl

mutual
/-- `eval` on a statement does what the checker says. -/
theorem eval_stmt (env : Env) {tab : SymbolTable} (methods : tab.MethodsOk) :
    ∀ (node : AstNode) (father : InfoType) (ret : RetType) (st : SemState),
      isStmt tab node = true → (father = .block ∨ node.isBlock = true) →
      st.methodReturnType ≠ .null →
      Outcome (stmtAccepted env tab st.methodReturnType node) (StmtPost env father node ret st)
        (eval env tab father node ret st)
  | .null, _, _, _, shape, _, _ | .methodDecl .., _, _, _, shape, _, _
  | .leaf .., _, _, _, shape, _, _ => by simp [isStmt] at shape
  | .common line arity op left right, father, ret, st, shape, place, _ => by
    obtain rfl : father = .block := by simpa [AstNode.isBlock] using place
    exact evalCommon_stmt methods shape
  | .ifStmt line condition thenBlock elseBlock, father, ret, st, shape, place, known => by
    obtain rfl : father = .block := by simpa [AstNode.isBlock] using place
    simp only [isStmt_ifStmt, Bool.and_eq_true] at shape
    obtain ⟨⟨conditionShape, thenShape⟩, elseShape⟩ := shape
    have hc := eval_expr env methods condition .ifStmt env.uninitRet { st with line := line }
      conditionShape
    have hThen : ∀ st' : SemState, st'.methodReturnType = st.methodReturnType →
        Outcome (stmtAccepted env tab st.methodReturnType thenBlock)
          (StmtPost env .ifStmt thenBlock .null st') (eval env tab .ifStmt thenBlock .null st') :=
      fun st' same => same ▸ branch_outcome thenShape fun isStmt isBlock =>
        eval_stmt env methods thenBlock .ifStmt .null st' isStmt (.inr isBlock) (same ▸ known)
    have hElse : ∀ st' : SemState, st'.methodReturnType = st.methodReturnType →
        Outcome (stmtAccepted env tab st.methodReturnType elseBlock)
          (StmtPost env .ifStmt elseBlock .null st') (eval env tab .ifStmt elseBlock .null st') :=
      fun st' same => same ▸ branch_outcome elseShape fun isStmt isBlock =>
        eval_stmt env methods elseBlock .ifStmt .null st' isStmt (.inr isBlock) (same ▸ known)
    rw [eval]
    simp only [stmtAccepted]
    cases type : exprType env tab condition with
    | none =>
      rw [type] at hc
      obtain ⟨err, failed⟩ := hc.error
      unfold evalIf
      rw [failed]
      exact rfl
    | some type' =>
      rw [type] at hc
      obtain ⟨c, evaluated, ctype, ctree, ckept⟩ := hc.ok
      obtain rfl := Option.some.inj (type.symm.trans ctype)
      by_cases bool : c.ret = .bool
      · have same := ckept.line.methodReturnType
        have known' : c.st.methodReturnType ≠ .null := same ▸ known
        rw [evalIf_eq evaluated bool, ctree, bool, beq_self_eq_true, Bool.true_and]
        cases branches : ifCase env (foldTree env condition) elseBlock with
        | both =>
          refine (evalBranches_outcome known' (accepted_isBlock thenShape)
            (nonNull_isBlock elseShape) (hThen c.st same)
            (fun st' same' => hElse st' (same'.trans same))).mono fun e post => ?_
          refine IfPost.stmt ?_ rfl rfl
          rw [rewrite, flagAfter, branches, ← ckept.line.returnedGlobal]
          exact post.since same ckept.line.mainDefined
        | thenOnly =>
          refine (promoteBranch_outcome (accepted_isBlock thenShape) (hThen c.st same)).mono
            fun e post => ?_
          refine IfPost.stmt ?_ rfl rfl
          rw [rewrite, flagAfter, branches]
          exact post.since same ckept.line.mainDefined
        | elseOnly =>
          refine (promoteBranch_outcome (accepted_isBlock elseShape) (hElse c.st same)).mono
            fun e post => ?_
          refine IfPost.stmt ?_ rfl rfl
          rw [rewrite, flagAfter, branches]
          exact post.since same ckept.line.mainDefined
      · obtain ⟨err, failed⟩ := evalIf_conditional evaluated bool elseBlock
          (eval env tab .ifStmt thenBlock) (eval env tab .ifStmt elseBlock) ret
        rw [failed]
        simp [Outcome, bool]
  | .whileStmt line condition block, father, ret, st, shape, place, known => by
    obtain rfl : father = .block := by simpa [AstNode.isBlock] using place
    simp only [isStmt_whileStmt, Bool.and_eq_true] at shape
    obtain ⟨conditionShape, blockShape⟩ := shape
    rw [eval]
    simp only [stmtAccepted]
    refine (evalWhile_outcome (accepted_isBlock blockShape)
      (eval_expr env methods condition .whileStmt env.uninitRet { st with line := line }
        conditionShape)
      fun st' same => same ▸ branch_outcome blockShape fun isStmt isBlock =>
        eval_stmt env methods block .whileStmt env.uninitRet st' isStmt (.inr isBlock)
          (same ▸ known)).mono fun e post => ?_
    exact IfPost.stmt post rfl rfl
  | .methodCall line name numArgs args, father, ret, st, shape, place, _ => by
    obtain rfl : father = .block := by simpa [AstNode.isBlock] using place
    have isExpr : isExpr tab (.methodCall line name numArgs args) = true := by
      simpa [isStmt, Ctds.isExpr] using shape
    refine (eval_expr env methods _ .block ret st isExpr).mono fun e ⟨type, tree, kept⟩ => ?_
    exact kept.stmt (by rw [tree, foldTree, rewrite]) rfl rfl rfl
  | .block line stmts, father, ret, st, shape, _, known => by
    simp only [isStmt] at shape
    have loop := evalStmts_stmts env methods stmts env.uninitRet
      ⟨.nil, ret, false, { st with line := line }⟩ shape rfl known
    rw [eval]
    simp only [stmtAccepted]
    cases accepted : stmtsAccepted env tab st.methodReturnType stmts with
    | false =>
      rw [accepted] at loop
      obtain ⟨err, failed⟩ := loop.error
      rw [failed]
      exact rfl
    | true =>
      rw [accepted] at loop
      obtain ⟨loop', evaluated, post⟩ := loop.ok
      rw [evaluated, ok_bind]
      obtain ⟨tree, ret', methodReturnType, mainDefined⟩ :=
        leaveBlock_kept father (endBlock line loop')
      refine ⟨rfl, ?_, ?_, ?_, ?_, nofun, ?_⟩
      · rw [tree, rewrite, ← post.tree]
        rfl
      · exact methodReturnType.trans post.methodReturnType
      · exact mainDefined.trans post.mainDefined
      · rw [leaveBlock_flag]
        have flag := post.flag
        simp only [flagAfter]
        rw [← flag]
        rfl
      · rintro _ _ ⟨⟩
        exact ret'.trans (endBlock_ret post)
theorem evalStmts_stmts (env : Env) {tab : SymbolTable} (methods : tab.MethodsOk) :
    ∀ (stmts : AstNodeList) (auxRet : RetType) (loop : BlockLoop),
      areStmts tab stmts = true → loop.stmts = .nil → loop.st.methodReturnType ≠ .null →
      Outcome (stmtsAccepted env tab loop.st.methodReturnType stmts) (LoopPost env stmts loop)
        (evalStmts env tab stmts auxRet loop)
  | .nil, auxRet, loop, _, start, _ =>
    ⟨rfl, start, rfl, rfl, rfl, (Bool.or_false _).symm, rfl⟩
  | .cons first next, auxRet, loop, shape, start, known => by
    simp only [areStmts, Bool.and_eq_true] at shape
    have one := eval_stmt env methods first .block auxRet loop.st shape.1 (.inl rfl) known
    rw [evalStmts]
    simp only [stmtsAccepted]
    refine one.bind fun e post => ?_
    have isReturn : e.tree.isReturn = first.isReturn := by rw [post.tree, rewrite_isReturn]
    have rest := evalStmts_stmts env methods next e.ret
      ⟨.nil, if e.tree.isReturn then e.ret else loop.ret, loop.returned || e.tree.isReturn, e.st⟩
      shape.2 rfl (post.methodReturnType ▸ known)
    rw [← post.methodReturnType]
    cases accepted : stmtsAccepted env tab e.st.methodReturnType next with
    | false =>
      rw [accepted] at rest
      obtain ⟨err, failed⟩ := rest.error
      rw [failed]
      exact rfl
    | true =>
      rw [accepted] at rest
      obtain ⟨loop', evaluated, post'⟩ := rest.ok
      rw [evaluated, ok_bind]
      refine ⟨rfl, ?_, ?_, ?_, ?_, ?_, ?_⟩
      · rw [rewriteStmts, post'.tree, post.tree]
      · exact post'.methodReturnType.trans post.methodReturnType
      · exact post'.mainDefined.trans post.mainDefined
      · rw [post'.flag, flagAfterStmts, post.flag]
        rfl
      · rw [post'.returned, listReturns, isReturn, Bool.or_assoc]
      · rw [post'.ret, isReturn, listReturns, post.methodReturnType]
        cases returns : first.isReturn with
        | true =>
          have := post.ret_isReturn returns
          cases listReturns next <;> simp [this]
        | false => simp
end

end Ctds
