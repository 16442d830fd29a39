import Ctds.TopLevel

/-! The verdict of the analyzer with and without `-opt`. Both runs make the same checks on
the nodes that `-opt` visits. Without it the branches that are eliminated are checked as
well; with it constants are folded, which may kill the compiler, and every elimination
raises `returned_global`. -/

namespace Ctds

open Fallible SymbolTable

/-- The same compiler without `-opt`. -/
def Env.plain (env : Env) : Env := { env with optimizations := false }

mutual
/-- No fold inside the expression faults. -/
def exprSafe (env : Env) : AstNode → Bool
  | .common _ .binary op left right =>
    exprSafe env left && exprSafe env right &&
      !foldFaults env op (foldTree env left) (foldTree env right)
  | .common _ .unary _ left _ => exprSafe env left
  | .methodCall _ _ _ args => exprsSafe env args
  | _ => true
def exprsSafe (env : Env) : AstNodeList → Bool
  | .nil => true
  | .cons first next => exprSafe env first && exprsSafe env next
end

mutual
theorem exprType_split (env : Env) {tab : SymbolTable} (methods : tab.MethodsOk) :
    ∀ (node : AstNode), isExpr tab node = true →
      exprType env tab node = if exprSafe env node then exprType env.plain tab node else none
  | .leaf line value, _ => by simp [exprType, exprSafe]
  | .common line .binary op left right, shape => by
    simp only [isExpr, Bool.and_eq_true] at shape
    have l := exprType_split env methods left shape.1.2
    have r := exprType_split env methods right shape.2
    have off : foldFaults env.plain op (foldTree env.plain left)
      (foldTree env.plain right) = false :=
      foldFaults_off rfl _ _ _
    simp only [exprType, exprSafe, l, r, off]
    cases exprSafe env left with
    | false => simp
    | true =>
      cases exprSafe env right with
      | false =>
        cases exprType env.plain tab left <;> simp
      | true =>
        cases exprType env.plain tab left <;> cases exprType env.plain tab right <;>
          cases foldFaults env op (foldTree env left) (foldTree env right) <;> simp
  | .common line .unary op left right, shape => by
    simp only [isExpr, Bool.and_eq_true] at shape
    have l := exprType_split env methods left shape.1.2
    simp only [exprType, exprSafe, l]
    by_cases safe : exprSafe env left = true <;> simp [safe]
  | .methodCall line name numArgs args, shape => by
    simp only [isExpr, Bool.and_eq_true, decide_eq_true_eq] at shape
    simp only [exprType, exprSafe]
    cases called : calledMethod tab line name numArgs with
    | error err => exact (ite_self none).symm
    | ok method =>
      obtain ⟨p, -, entry, counted⟩ := calledMethod_entry called
      have count : method.args.length = args.length :=
        (methods p method entry).1.symm.trans (counted.trans shape.1)
      have split := argsAccepted_split env methods args method.args shape.2 count
      simp only [split]
      by_cases safe : exprsSafe env args = true <;> simp [safe]
  | .null, shape | .ifStmt .., shape | .whileStmt .., shape | .methodDecl .., shape
  | .block .., shape => by simp [isExpr] at shape
theorem argsAccepted_split (env : Env) {tab : SymbolTable} (methods : tab.MethodsOk) :
    ∀ (args : AstNodeList) (params : List Args), areExprs tab args = true →
      params.length = args.length →
      argsAccepted env tab params args =
        (argsAccepted env.plain tab params args && exprsSafe env args)
  | .nil, [], _, _ => by simp [argsAccepted, exprsSafe]
  | .nil, _ :: _, _, count => by cases count
  | .cons first next, [], _, count => by cases count
  | .cons first next, param :: params, shape, count => by
    simp only [areExprs, Bool.and_eq_true] at shape
    have here := exprType_split env methods first shape.1
    have rest := argsAccepted_split env methods next params shape.2 (Nat.succ.inj count)
    simp only [argsAccepted, exprsSafe, here, rest]
    cases exprSafe env first with
    | false => simp
    | true => simp [Bool.and_assoc]
end

mutual
/-- The checks made with and without `-opt`. -/
def visitedOk (env : Env) (tab : SymbolTable) (methodReturnType : RetType) : AstNode → Bool
  | .ifStmt _ condition thenBlock elseBlock =>
    (exprType env.plain tab condition == some .bool) &&
      match ifCase env (foldTree env condition) elseBlock with
      | .both =>
        visitedOk env tab methodReturnType thenBlock &&
          (elseBlock.isNull || visitedOk env tab methodReturnType elseBlock)
      | .thenOnly => visitedOk env tab methodReturnType thenBlock
      | .elseOnly => visitedOk env tab methodReturnType elseBlock
  | .whileStmt _ condition block =>
    (exprType env.plain tab condition == some .bool) && visitedOk env tab methodReturnType block
  | .block _ stmts => visitedAllOk env tab methodReturnType stmts
  | node => stmtAccepted env.plain tab methodReturnType node
def visitedAllOk (env : Env) (tab : SymbolTable) (methodReturnType : RetType) : AstNodeList → Bool
  | .nil => true
  | .cons first next =>
    visitedOk env tab methodReturnType first && visitedAllOk env tab methodReturnType next
end

mutual
/-- The checks on the branches that `-opt` eliminates. -/
def skippedOk (env : Env) (tab : SymbolTable) (methodReturnType : RetType) : AstNode → Bool
  | .ifStmt _ condition thenBlock elseBlock =>
    match ifCase env (foldTree env condition) elseBlock with
    | .both =>
      skippedOk env tab methodReturnType thenBlock && skippedOk env tab methodReturnType elseBlock
    | .thenOnly =>
      skippedOk env tab methodReturnType thenBlock &&
        (elseBlock.isNull || stmtAccepted env.plain tab methodReturnType elseBlock)
    | .elseOnly =>
      stmtAccepted env.plain tab methodReturnType thenBlock &&
        skippedOk env tab methodReturnType elseBlock
  | .whileStmt _ _ block => skippedOk env tab methodReturnType block
  | .block _ stmts => skippedAllOk env tab methodReturnType stmts
  | _ => true
def skippedAllOk (env : Env) (tab : SymbolTable) (methodReturnType : RetType) : AstNodeList → Bool
  | .nil => true
  | .cons first next =>
    skippedOk env tab methodReturnType first && skippedAllOk env tab methodReturnType next
end

mutual
/-- With `-opt` nothing visited kills the compiler: no fold faults, and no branch that is
promoted and no loop body that is looked into is empty. -/
def stmtSafe (env : Env) : AstNode → Bool
  | .common _ _ _ left right => exprSafe env left && exprSafe env right
  | .methodCall _ _ _ args => exprsSafe env args
  | .ifStmt _ condition thenBlock elseBlock =>
    exprSafe env condition &&
      match ifCase env (foldTree env condition) elseBlock with
      | .both => stmtSafe env thenBlock && stmtSafe env elseBlock
      | .thenOnly => stmtSafe env thenBlock && !(blockStmts thenBlock).isEmpty
      | .elseOnly => stmtSafe env elseBlock && !(blockStmts elseBlock).isEmpty
  | .whileStmt _ condition block =>
    exprSafe env condition && stmtSafe env block &&
      !(testsLoop env (foldTree env condition) && (blockStmts block).isEmpty)
  | .block _ stmts => stmtsSafe env stmts
  | _ => true
def stmtsSafe (env : Env) : AstNodeList → Bool
  | .nil => true
  | .cons first next => stmtSafe env first && stmtsSafe env next
end

theorem exprType_bool_split (env : Env) {tab : SymbolTable} (methods : tab.MethodsOk)
    {node : AstNode} (shape : isExpr tab node = true) (type : RetType) :
    (exprType env tab node == some type) =
      ((exprType env.plain tab node == some type) && exprSafe env node) := by
  rw [exprType_split env methods node shape]
  by_cases safe : exprSafe env node = true <;> simp [safe]

theorem stmtAccepted_common_split (env : Env) {tab : SymbolTable} (methods : tab.MethodsOk)
    {methodReturnType : RetType} {line : Int} {arity : OperatorArity} {op : Operator}
    {left right : AstNode} (shape : isStmt tab (.common line arity op left right) = true) :
    stmtAccepted env tab methodReturnType (.common line arity op left right) =
      (stmtAccepted env.plain tab methodReturnType (.common line arity op left right) &&
        (exprSafe env left && exprSafe env right)) := by
  unfold isStmt at shape
  unfold stmtAccepted
  cases op with
  | decl =>
    simp only [Bool.and_eq_true, Bool.or_eq_true] at shape
    obtain ⟨line', p, info, rfl, -⟩ := isIdLeaf_iff.mp shape.1
    cases null : right.isNull with
    | true =>
      obtain rfl := isNull_iff.mp null
      simp [exprSafe]
    | false =>
      have isExprRight : isExpr tab right = true := by simpa [null] using shape.2
      simp only [exprType_split env methods right isExprRight, Bool.false_or]
      by_cases safe : exprSafe env right = true
      · simp [exprSafe, safe, exprType]
      · simp [exprSafe, safe]
  | assign =>
    simp only [Bool.and_eq_true, decide_eq_true_eq] at shape
    obtain ⟨line', p, info, rfl, -⟩ := isIdLeaf_iff.mp shape.1.2
    simp only [exprType_split env methods right shape.2]
    by_cases safe : exprSafe env right = true
    · simp [exprSafe, safe, exprType]
    · simp [exprSafe, safe]
  | ret =>
    simp only [Bool.and_eq_true, Bool.or_eq_true] at shape
    obtain rfl := isNull_iff.mp shape.2
    cases null : left.isNull with
    | true =>
      obtain rfl := isNull_iff.mp null
      simp [exprSafe]
    | false =>
      have isExprLeft : isExpr tab left = true := by simpa [null] using shape.1
      simp [exprType_bool_split env methods isExprLeft, exprSafe]
  | _ => cases shape

theorem branch_stmtOrNull {tab : SymbolTable} {node : AstNode}
    (h : node.isNull = true ∨ node.isBlock = true ∧ isStmt tab node = true) :
    (node.isNull || isStmt tab node) = true := by
  rw [Bool.or_eq_true]
  exact h.imp_right And.right

theorem ifCase_elseOnly {env : Env} {condition elseBlock : AstNode}
    (h : ifCase env condition elseBlock = .elseOnly) : elseBlock.isNull = false := by
  unfold ifCase at h
  split at h
  · split at h
    · split at h
      · cases h
      · split at h
        · cases h
        · next nonNull => exact Bool.eq_false_iff.mpr nonNull
    · cases h
  · cases h

mutual
/-- With `-opt`: the visited nodes pass, and nothing faults. -/
theorem stmtAccepted_split (env : Env) {tab : SymbolTable} (methods : tab.MethodsOk)
    (methodReturnType : RetType) :
    ∀ (node : AstNode), (node.isNull || isStmt tab node) = true →
      stmtAccepted env tab methodReturnType node =
        (visitedOk env tab methodReturnType node && stmtSafe env node)
  | .null, _ => by simp [stmtAccepted, visitedOk]
  | .common line arity op left right, shape => by
    rw [visitedOk, stmtSafe]
    exact stmtAccepted_common_split env methods shape
    all_goals simp
  | .ifStmt line condition thenBlock elseBlock, shape => by
    simp only [AstNode.isNull, Bool.false_or, isStmt, Bool.and_eq_true, Bool.or_eq_true] at shape
    obtain ⟨⟨conditionShape, thenShape⟩, elseShape⟩ := shape
    have t := stmtAccepted_split env methods methodReturnType
      thenBlock (branch_stmtOrNull thenShape)
    have e := stmtAccepted_split env methods methodReturnType
      elseBlock (branch_stmtOrNull elseShape)
    simp only [stmtAccepted, visitedOk, stmtSafe,
      exprType_bool_split env methods conditionShape, t, e]
    cases ifCase env (foldTree env condition) elseBlock with
    | both =>
      cases null : elseBlock.isNull with
      | true =>
        obtain rfl := isNull_iff.mp null
        simp only [Bool.true_or, stmtSafe]
        ac_rfl
      | false =>
        simp only [Bool.false_or]
        ac_rfl
    | thenOnly =>
      dsimp only
      ac_rfl
    | elseOnly =>
      dsimp only
      ac_rfl
  | .whileStmt line condition block, shape => by
    simp only [AstNode.isNull, Bool.false_or, isStmt, Bool.and_eq_true, Bool.or_eq_true] at shape
    have b := stmtAccepted_split env methods methodReturnType block
      (branch_stmtOrNull shape.2)
    simp only [stmtAccepted, visitedOk, stmtSafe,
      exprType_bool_split env methods shape.1, b]
    ac_rfl
  | .methodCall line name numArgs args, shape => by
    have typed := exprType_split env methods (.methodCall line name numArgs args) shape
    simp only [stmtAccepted, visitedOk, stmtSafe, typed, exprSafe]
    by_cases safe : exprsSafe env args = true <;> simp [safe]
  | .block line stmts, shape => by
    simp only [stmtAccepted, visitedOk, stmtSafe]
    exact stmtsAccepted_split env methods methodReturnType stmts shape
  | .methodDecl .., shape | .leaf .., shape => by simp [AstNode.isNull, isStmt] at shape
theorem stmtsAccepted_split (env : Env) {tab : SymbolTable} (methods : tab.MethodsOk)
    (methodReturnType : RetType) :
    ∀ (stmts : AstNodeList), areStmts tab stmts = true →
      stmtsAccepted env tab methodReturnType stmts =
        (visitedAllOk env tab methodReturnType stmts && stmtsSafe env stmts)
  | .nil, _ => rfl
  | .cons first next, shape => by
    simp only [areStmts, Bool.and_eq_true] at shape
    have f := stmtAccepted_split env methods methodReturnType first
      (by simp [shape.1])
    have n := stmtsAccepted_split env methods methodReturnType next
      shape.2
    simp only [stmtsAccepted, visitedAllOk, stmtsSafe, f, n]
    ac_rfl
end

mutual
/-- Without it: the visited nodes pass, and the eliminated branches too. -/
theorem stmtAccepted_plain (env : Env) (tab : SymbolTable) (methodReturnType : RetType) :
    ∀ (node : AstNode), (node.isNull || isStmt tab node) = true →
      stmtAccepted env.plain tab methodReturnType node =
        (visitedOk env tab methodReturnType node && skippedOk env tab methodReturnType node)
  | .null, _ => by simp [stmtAccepted, visitedOk]
  | .common line arity op left right, shape => by simp [visitedOk, skippedOk]
  | .ifStmt line condition thenBlock elseBlock, shape => by
    simp only [AstNode.isNull, Bool.false_or, isStmt, Bool.and_eq_true, Bool.or_eq_true] at shape
    obtain ⟨⟨-, thenShape⟩, elseShape⟩ := shape
    have t := stmtAccepted_plain env tab methodReturnType thenBlock
      (branch_stmtOrNull thenShape)
    have e := stmtAccepted_plain env tab methodReturnType elseBlock
      (branch_stmtOrNull elseShape)
    have both : ifCase env.plain (foldTree env.plain condition) elseBlock = .both :=
      ifCase_off rfl _ _
    rw [stmtAccepted, both, visitedOk, skippedOk]
    cases only : ifCase env (foldTree env condition) elseBlock with
    | both =>
      simp only [t, e]
      cases null : elseBlock.isNull with
      | true =>
        obtain rfl := isNull_iff.mp null
        simp only [Bool.true_or, skippedOk]
        ac_rfl
      | false =>
        simp only [Bool.false_or]
        ac_rfl
    | thenOnly =>
      simp only [t]
      ac_rfl
    | elseOnly =>
      have nonNull : elseBlock.isNull = false := ifCase_elseOnly only
      simp only [nonNull, Bool.false_or, e]
      ac_rfl
  | .whileStmt line condition block, shape => by
    simp only [AstNode.isNull, Bool.false_or, isStmt, Bool.and_eq_true, Bool.or_eq_true] at shape
    have b := stmtAccepted_plain env tab methodReturnType block
      (branch_stmtOrNull shape.2)
    have untested : testsLoop env.plain (foldTree env.plain condition) = false := by
      unfold testsLoop
      split <;> rfl
    simp only [stmtAccepted, visitedOk, skippedOk, b, untested, Bool.false_and, Bool.not_false,
      Bool.and_true]
    ac_rfl
  | .methodCall line name numArgs args, shape => by simp [visitedOk, skippedOk]
  | .block line stmts, shape => by
    simp only [stmtAccepted, visitedOk, skippedOk]
    exact stmtsAccepted_plain env tab methodReturnType stmts shape
  | .methodDecl .., shape | .leaf .., shape => by simp [AstNode.isNull, isStmt] at shape
theorem stmtsAccepted_plain (env : Env) (tab : SymbolTable) (methodReturnType : RetType) :
    ∀ (stmts : AstNodeList), areStmts tab stmts = true →
      stmtsAccepted env.plain tab methodReturnType stmts =
        (visitedAllOk env tab methodReturnType stmts && skippedAllOk env tab methodReturnType stmts)
  | .nil, _ => rfl
  | .cons first next, shape => by
    simp only [areStmts, Bool.and_eq_true] at shape
    have f := stmtAccepted_plain env tab methodReturnType first
      (by simp [shape.1])
    have n := stmtsAccepted_plain env tab methodReturnType next shape.2
    simp only [stmtsAccepted, visitedAllOk, skippedAllOk, f, n]
    ac_rfl
end

def methodAt (tab : SymbolTable) (sym : IdPtr) : Option MethodInfo :=
  match tab.entry sym with
  | some (.methodDecl method) => some method
  | _ => none

/-- A check on the bodies of methods and on the declarations of variables. -/
def checkSentence (tab : SymbolTable) (check : RetType → AstNode → Bool) : AstNode → Bool
  | .methodDecl _ sym block =>
    match methodAt tab sym with
    | some method => method.isExtern || check method.retType block
    | none => false
  | node => check .null node

/-- `*ret` after a sentence. -/
def sentenceRet (env : Env) (tab : SymbolTable) (ret : RetType) : AstNode → RetType
  | .methodDecl _ sym block =>
    match methodAt tab sym with
    | some method => retAfterMethod env method block ret
    | none => ret
  | .common _ _ _ _ right =>
    if right.isNull then .null else (exprType env.plain tab right).getD .null
  | _ => ret

/-- The check for a missing return fails. -/
def missesReturn (env : Env) (tab : SymbolTable) (ret : RetType) : AstNode → Bool
  | .methodDecl _ sym block =>
    match methodAt tab sym with
    | some method =>
      decide (retAfterMethod env method block ret = .null ∧ method.returnType ≠ .void)
    | none => false
  | _ => false

/-- The checks for missing returns, with one `ret` for all sentences. -/
def returnsOk (env : Env) (tab : SymbolTable) : List AstNode → RetType → Bool
  | [], _ => true
  | sentence :: rest, ret =>
    !missesReturn env tab ret sentence && returnsOk env tab rest (sentenceRet env tab ret sentence)

def definesMain (tab : SymbolTable) (sentences : List AstNode) : Bool :=
  sentences.any fun
    | .methodDecl _ sym _ => (methodAt tab sym).any fun method => method.name.text == "main".toList
    | _ => false

theorem methodAt_declared {tab : SymbolTable} {sym : IdPtr} {method : MethodInfo}
    (declared : tab.Declared sym method) : methodAt tab sym = some method := by
  simp [methodAt, declared.entry]

theorem eval_decl_ret {env : Env} {tab : SymbolTable} (methods : tab.MethodsOk) {line : Int}
    {arity : OperatorArity} {left right : AstNode} {ret : RetType} {st : SemState} {e : Evaluated}
    (shape : isSentence tab (.common line arity .decl left right) = true)
    (h : eval env tab .methodDecl (.common line arity .decl left right) ret st = .ok e) :
    e.ret = sentenceRet env tab ret (.common line arity .decl left right) := by
  rw [eval] at h
  simp only [isSentence, isStmt, Bool.and_eq_true, Bool.or_eq_true] at shape
  simp only [evalCommon] at h
  cases null : right.isNull with
  | true =>
    simp only [null, if_true, Except.ok.injEq] at h
    simp [sentenceRet, null, ← h]
  | false =>
    have isExprRight : isExpr tab right = true := by simpa [null] using shape.2
    simp only [null, Bool.false_eq_true, if_false, bind_eq_ok] at h
    obtain ⟨l, -, r, evaluated, checked⟩ := h
    have typed := ((eval_expr env methods right _ _ _ isExprRight).of_ok evaluated).2.1
    rw [exprType_split env methods right isExprRight] at typed
    have same : e.ret = r.ret := by
      unfold evalDecl at checked
      split at checked
      · cases checked
      · split at checked
        · cases checked
        · split at checked
          · cases checked
          · rw [← Except.ok.inj checked]
    by_cases safe : exprSafe env right = true
    · rw [if_pos safe] at typed
      simp [sentenceRet, null, typed, same]
    · simp [safe] at typed

theorem eval_sentence {env : Env} {tab : SymbolTable} (methods : tab.MethodsOk) {node : AstNode}
    (top : TopLevel tab node) (ret : RetType) {st : SemState} (idle : Idle st) :
    Outcome (checkSentence tab (stmtAccepted env tab) node && !missesReturn env tab ret node)
      (fun e => e.ret = sentenceRet env tab ret node ∧
        e.st.mainDefined = (st.mainDefined || definesMain tab [node]))
      (eval env tab .methodDecl node ret st) := by
  rcases topLevel_cases top with ⟨line, arity, left, right, rfl⟩ |
    ⟨line, sym, block, method, rfl, declared, shape⟩
  · have outcome : Outcome _ (StmtPost env .block (.common line arity .decl left right) ret st) _ :=
      eval_decl env methods top.shape
    have any : stmtAccepted env tab st.methodReturnType (.common line arity .decl left right) =
        stmtAccepted env tab .null (.common line arity .decl left right) := by
      simp only [stmtAccepted]
    rw [any] at outcome
    cases result : eval env tab .methodDecl (.common line arity .decl left right) ret st with
    | error err =>
      rw [result] at outcome
      have rejected : stmtAccepted env tab .null (.common line arity .decl left right) = false :=
        outcome
      simp [Outcome, checkSentence, rejected]
    | ok e =>
      rw [result] at outcome
      obtain ⟨accepted, post⟩ := outcome
      refine ⟨by simp [checkSentence, accepted, missesReturn],
        eval_decl_ret methods top.shape result, ?_⟩
      rw [post.mainDefined]
      simp [definesMain]
  · have outcome : Outcome _ (MethodPost env method line sym block ret st) _ :=
      eval_methodDecl env methods declared shape ret idle.down
    have named := methodAt_declared declared
    simp only [checkSentence, missesReturn, sentenceRet, named]
    unfold methodAccepted at outcome
    refine outcome.mono fun e post => ⟨post.ret, ?_⟩
    rw [post.mainDefined]
    simp [definesMain, named]

theorem evalSentences_verdict {env : Env} {tab : SymbolTable} (methods : tab.MethodsOk)
    {sentences : List AstNode} (top : ∀ node ∈ sentences, TopLevel tab node) (ret : RetType)
    {st : SemState} (idle : Idle st) :
    Outcome (sentences.all (checkSentence tab (stmtAccepted env tab)) &&
        returnsOk env tab sentences ret)
      (fun result => result.2.2.mainDefined = (st.mainDefined || definesMain tab sentences))
      (evalSentences env tab sentences ret st) := by
  induction sentences generalizing ret st with
  | nil => exact ⟨rfl, by simp [definesMain]⟩
  | cons sentence rest ih =>
    have here : Outcome (checkSentence tab (stmtAccepted env tab) sentence && _) _ _ :=
      eval_sentence methods (top sentence List.mem_cons_self) ret idle
    have combined : ((sentence :: rest).all (checkSentence tab (stmtAccepted env tab)) &&
        returnsOk env tab (sentence :: rest) ret) =
        ((checkSentence tab (stmtAccepted env tab) sentence &&
          !missesReturn env tab ret sentence) &&
          (rest.all (checkSentence tab (stmtAccepted env tab)) &&
            returnsOk env tab rest (sentenceRet env tab ret sentence))) := by
      rw [List.all_cons, returnsOk]
      ac_rfl
    rw [combined, evalSentences]
    cases result : eval env tab .methodDecl sentence ret st with
    | error err =>
      rw [result] at here
      have rejected : (checkSentence tab (stmtAccepted env tab) sentence &&
        !missesReturn env tab ret sentence) = false := here
      rw [rejected]
      exact rfl
    | ok e =>
      rw [result] at here
      obtain ⟨accepted, isRet, main⟩ := here
      have idle' := eval_topLevel_idle methods (top sentence List.mem_cons_self) idle result
      have later := ih (fun node mem => top node (List.mem_cons_of_mem _ mem)) e.ret idle'
      rw [accepted, Bool.true_and, ok_bind, ← isRet]
      refine later.map fun result post => ?_
      rw [post, main]
      simp [definesMain, Bool.or_assoc]

theorem semanticAnalyzer_isOk {env : Env} {tab : SymbolTable} (methods : tab.MethodsOk)
    {sentences : List AstNode} (top : ∀ node ∈ sentences, TopLevel tab node) :
    (semanticAnalyzer env tab sentences).isOk =
      (sentences.all (checkSentence tab (stmtAccepted env tab)) &&
        returnsOk env tab sentences env.uninitRet && definesMain tab sentences) := by
  have verdict : Outcome _ _ (evalSentences env tab sentences env.uninitRet .init) :=
    evalSentences_verdict methods top env.uninitRet idle_init
  unfold semanticAnalyzer
  cases result : evalSentences env tab sentences env.uninitRet .init with
  | error err =>
    rw [result] at verdict
    have rejected : (sentences.all (checkSentence tab (stmtAccepted env tab)) &&
      returnsOk env tab sentences env.uninitRet) = false := verdict
    rw [rejected, Bool.false_and]
    rfl
  | ok result' =>
    obtain ⟨out, ret, st⟩ := result'
    rw [result] at verdict
    obtain ⟨accepted, main⟩ := verdict
    have found : st.mainDefined = definesMain tab sentences := main
    rw [accepted, Bool.true_and, ← found, ok_bind]
    dsimp only
    cases st.mainDefined with
    | false => rfl
    | true => rfl

mutual
theorem flagAfter_mono (env : Env) {flag flag' : Bool} (le : flag = true → flag' = true) :
    ∀ (node : AstNode), flagAfter env.plain flag node = true → flagAfter env flag' node = true
  | .common line arity op left right, up => by
    cases op
    case ret => rfl
    all_goals exact le up
  | .ifStmt line condition thenBlock elseBlock, up => by
    have both : ifCase env.plain (foldTree env.plain condition) elseBlock = .both :=
      ifCase_off rfl _ _
    simp only [flagAfter, both, Bool.or_eq_true] at up
    unfold flagAfter
    cases ifCase env (foldTree env condition) elseBlock with
    | both =>
      have t := flagAfter_mono env le thenBlock
      have e := flagAfter_mono env t elseBlock
      simp only [Bool.or_eq_true]
      exact up.imp_left e
    | thenOnly => rfl
    | elseOnly => rfl
  | .whileStmt line condition block, up => by cases up
  | .block line stmts, up => flagAfterStmts_mono env le stmts up
  | .null, up | .methodDecl .., up | .methodCall .., up | .leaf .., up => le up
theorem flagAfterStmts_mono (env : Env) {flag flag' : Bool} (le : flag = true → flag' = true) :
    ∀ (stmts : AstNodeList), flagAfterStmts env.plain flag stmts = true →
      flagAfterStmts env flag' stmts = true
  | .nil, up => le up
  | .cons first next, up =>
    flagAfterStmts_mono env (flagAfter_mono env le first) next up
end

theorem retAfterMethod_mono (env : Env) (method : MethodInfo) (block : AstNode)
    {ret ret' : RetType} (le : ret ≠ .null → ret' = ret)
    (written : retAfterMethod env.plain method block ret ≠ .null) :
    retAfterMethod env method block ret' = retAfterMethod env.plain method block ret := by
  unfold retAfterMethod at written ⊢
  cases isExtern : method.isExtern with
  | true =>
    rw [isExtern, if_pos rfl] at written
    exact le written
  | false =>
    simp only [isExtern, Bool.false_eq_true, if_false, retAfterBlock] at written ⊢
    cases returns : listReturns (blockStmts block) with
    | true => rfl
    | false =>
      simp only [returns, Bool.false_eq_true, if_false] at written ⊢
      cases up : flagAfterStmts env.plain false (blockStmts block) with
      | false => simp [up] at written
      | true =>
        rw [up, if_pos rfl] at written
        rw [flagAfterStmts_mono env id _ up, if_pos rfl, if_pos rfl]
        exact le written

theorem sentenceRet_mono (env : Env) (tab : SymbolTable) {ret ret' : RetType}
    (le : ret ≠ .null → ret' = ret) (node : AstNode)
    (written : sentenceRet env.plain tab ret node ≠ .null) :
    sentenceRet env tab ret' node = sentenceRet env.plain tab ret node := by
  unfold sentenceRet at written ⊢
  split
  · next line sym block =>
    cases named : methodAt tab sym with
    | none => exact le (by simpa [named] using written)
    | some method => exact retAfterMethod_mono env method block le (by simpa [named] using written)
  · rfl
  · next other₁ other₂ => exact le (by simpa using written)

theorem missesReturn_mono (env : Env) (tab : SymbolTable) {ret ret' : RetType}
    (le : ret ≠ .null → ret' = ret) (node : AstNode)
    (misses : missesReturn env tab ret' node = true) :
    missesReturn env.plain tab ret node = true := by
  unfold missesReturn at misses ⊢
  split at misses
  · next line sym block =>
    cases named : methodAt tab sym with
    | none => simp [named] at misses
    | some method =>
      simp only [named, decide_eq_true_eq] at misses ⊢
      refine ⟨?_, misses.2⟩
      by_contra written
      exact written ((retAfterMethod_mono env method block le written).symm.trans misses.1)
  · cases misses

theorem returnsOk_mono (env : Env) (tab : SymbolTable) {sentences : List AstNode}
    {ret ret' : RetType} (le : ret ≠ .null → ret' = ret)
    (passes : returnsOk env.plain tab sentences ret = true) :
    returnsOk env tab sentences ret' = true := by
  induction sentences generalizing ret ret' with
  | nil => rfl
  | cons sentence rest ih =>
    simp only [returnsOk, Bool.and_eq_true, Bool.not_eq_true'] at passes ⊢
    refine ⟨?_, ih (sentenceRet_mono env tab le sentence) passes.2⟩
    by_contra misses
    rw [Bool.not_eq_false] at misses
    rw [missesReturn_mono env tab le sentence misses] at passes
    cases passes.1

theorem branch_shape {tab : SymbolTable} {block : AstNode} (shape : isBranch tab block = true) :
    (block.isNull || isStmt tab block) = true := by
  rcases isBranch_iff.mp shape with rfl | ⟨line, stmts, rfl, areStmts⟩
  · rfl
  · simp [isStmt, areStmts]

theorem checkSentence_and {tab : SymbolTable} {check first second : RetType → AstNode → Bool}
    (split : ∀ type node, (node.isNull || isStmt tab node) = true →
      check type node = (first type node && second type node))
    {node : AstNode} (top : TopLevel tab node) :
    checkSentence tab check node =
      (checkSentence tab first node && checkSentence tab second node) := by
  rcases topLevel_cases top with ⟨line, arity, left, right, rfl⟩ |
    ⟨line, sym, block, method, rfl, declared, shape⟩
  · have isStmt : isStmt tab (.common line arity .decl left right) = true := top.shape
    exact split .null _ (by simp [isStmt])
  · simp only [checkSentence, methodAt_declared declared, split _ _ (branch_shape shape)]
    cases method.isExtern with
    | true => rfl
    | false => rfl

theorem checkSentences_and {tab : SymbolTable} {check first second : RetType → AstNode → Bool}
    (split : ∀ type node, (node.isNull || isStmt tab node) = true →
      check type node = (first type node && second type node))
    {sentences : List AstNode} (top : ∀ node ∈ sentences, TopLevel tab node) :
    sentences.all (checkSentence tab check) =
      (sentences.all (checkSentence tab first) && sentences.all (checkSentence tab second)) := by
  induction sentences with
  | nil => rfl
  | cons sentence rest ih =>
    have here := checkSentence_and split (top sentence List.mem_cons_self)
    simp only [List.all_cons, here, ih fun node mem => top node (List.mem_cons_of_mem _ mem)]
    ac_rfl

/-- The checks that both runs make pass. -/
def CommonChecks (env : Env) (tab : SymbolTable) (sentences : List AstNode) : Prop :=
  sentences.all (checkSentence tab (visitedOk env tab)) = true ∧
    returnsOk env tab sentences env.uninitRet = true ∧ definesMain tab sentences = true

/-- Nothing that `-opt` visits kills the compiler. -/
def NothingFaults (env : Env) (tab : SymbolTable) (sentences : List AstNode) : Prop :=
  sentences.all (checkSentence tab fun _ => stmtSafe env) = true

/-- What only the run without `-opt` rejects is absent: an error in a branch that would be
eliminated, and a missing return whose check passes because of an elimination. -/
def NothingHidden (env : Env) (tab : SymbolTable) (sentences : List AstNode) : Prop :=
  sentences.all (checkSentence tab (skippedOk env tab)) = true ∧
    returnsOk env.plain tab sentences env.uninitRet = true

instance (env : Env) (tab : SymbolTable) (sentences : List AstNode) :
    Decidable (NothingFaults env tab sentences) := inferInstanceAs (Decidable (_ = _))

instance (env : Env) (tab : SymbolTable) (sentences : List AstNode) :
    Decidable (NothingHidden env tab sentences) := inferInstanceAs (Decidable (_ ∧ _))

theorem accepted_opt_iff {env : Env} {tab : SymbolTable} (methods : tab.MethodsOk)
    {sentences : List AstNode} (top : ∀ node ∈ sentences, TopLevel tab node) :
    (semanticAnalyzer env tab sentences).isOk = true ↔
      CommonChecks env tab sentences ∧ NothingFaults env tab sentences := by
  rw [semanticAnalyzer_isOk methods top,
    checkSentences_and (fun type node => stmtAccepted_split env methods type node) top]
  simp only [CommonChecks, NothingFaults, Bool.and_eq_true]
  constructor
  · rintro ⟨⟨⟨visited, safe⟩, returns⟩, main⟩
    exact ⟨⟨visited, returns, main⟩, safe⟩
  · rintro ⟨⟨visited, returns, main⟩, safe⟩
    exact ⟨⟨⟨visited, safe⟩, returns⟩, main⟩

theorem accepted_plain_iff {env : Env} {tab : SymbolTable} (methods : tab.MethodsOk)
    {sentences : List AstNode} (top : ∀ node ∈ sentences, TopLevel tab node) :
    (semanticAnalyzer env.plain tab sentences).isOk = true ↔
      CommonChecks env tab sentences ∧ NothingHidden env tab sentences := by
  rw [semanticAnalyzer_isOk methods top,
    checkSentences_and (fun type node => stmtAccepted_plain env tab type node) top]
  simp only [CommonChecks, NothingHidden, Bool.and_eq_true]
  constructor
  · rintro ⟨⟨⟨visited, skipped⟩, returns⟩, main⟩
    exact ⟨⟨visited, returnsOk_mono env tab (fun _ => rfl) returns, main⟩, skipped, returns⟩
  · rintro ⟨⟨visited, -, main⟩, skipped, returns⟩
    exact ⟨⟨⟨visited, skipped⟩, returns⟩, main⟩

/-- Where no fold faults and nothing is hidden in an eliminated branch, `-opt` leaves the
verdict alone. -/
theorem same_verdict (env : Env) {prog : ProgramSyn} {ps : ParserState}
    (parsed : parse prog = .ok ps) (safe : NothingFaults env ps.tab ps.headAst)
    (shown : NothingHidden env ps.tab ps.headAst) :
    (semanticAnalyzer env ps.tab ps.headAst).isOk =
      (semanticAnalyzer env.plain ps.tab ps.headAst).isOk := by
  have ok := parse_sentencesOk parsed
  have top := fun node (mem : node ∈ ps.headAst) => ok.topLevel mem
  rw [Bool.eq_iff_iff, accepted_opt_iff ok.wf.methods top, accepted_plain_iff ok.wf.methods top]
  exact and_congr_right fun _ => iff_of_true safe shown

/-- `-opt` leaves the verdict alone exactly if a check common to both runs fails, or faults
and hidden errors are both absent or both present. -/
theorem optimizations_verdict_iff (env : Env) {prog : ProgramSyn} {ps : ParserState}
    (parsed : parse prog = .ok ps) :
    (semanticAnalyzer env ps.tab ps.headAst).isOk =
        (semanticAnalyzer env.plain ps.tab ps.headAst).isOk ↔
      (CommonChecks env ps.tab ps.headAst →
        (NothingFaults env ps.tab ps.headAst ↔ NothingHidden env ps.tab ps.headAst)) := by
  have ok := parse_sentencesOk parsed
  have top := fun node (mem : node ∈ ps.headAst) => ok.topLevel mem
  rw [Bool.eq_iff_iff, accepted_opt_iff ok.wf.methods top, accepted_plain_iff ok.wf.methods top]
  exact and_congr_right_iff

/-- `integer main() { integer x; if (true) { x = 1; } else { x = v; } return x; }`. -/
def constantIf (otherwise : ExprSyn) : ProgramSyn :=
  [.methodDecl ⟨1, some .integer, .of "main", [],
    some (.mk 1 [⟨1, .integer, .of "x", none⟩]
      (.cons (.ifThenElse 2 (.trueLiteral 2)
          (.mk 2 [] (.cons (.assign 2 (.of "x") (.integerLiteral 2 1)) .nil))
          (.mk 3 [] (.cons (.assign 3 (.of "x") otherwise) .nil)))
        (.cons (.returnExpr 4 (.id 4 (.of "x"))) .nil)))⟩]

/-- The dead branch assigns a bool to `x`: only the run without `-opt` rejects this. -/
theorem optimizations_change_verdict :
    ∃ ps, parse (constantIf (.trueLiteral 3)) = .ok ps ∧
      (semanticAnalyzer (.sample true) ps.tab ps.headAst).isOk = true ∧
      (semanticAnalyzer (.sample false) ps.tab ps.headAst).isOk = false := by
  refine ⟨_, rfl, ?_, ?_⟩
  · decide +kernel
  · decide +kernel

/-- With a dead branch of the right type both runs accept. -/
theorem optimizations_verdict_constantIf :
    ∃ ps, parse (constantIf (.integerLiteral 3 2)) = .ok ps ∧
      (semanticAnalyzer (.sample true) ps.tab ps.headAst).isOk =
        (semanticAnalyzer (.sample false) ps.tab ps.headAst).isOk := by
  have parsed : ∃ ps, parse (constantIf (.integerLiteral 3 2)) = .ok ps ∧
      NothingFaults (.sample true) ps.tab ps.headAst ∧
      NothingHidden (.sample true) ps.tab ps.headAst := by
    refine ⟨_, rfl, ?_⟩
    decide +kernel
  obtain ⟨ps, parsed, safe, shown⟩ := parsed
  exact ⟨ps, parsed, (optimizations_verdict_iff (.sample true) parsed).mpr
    fun _ => iff_of_true safe shown⟩

end Ctds
