import Ctds.OptVerdict

/-! Where the analyzer comes to a null node. The grammar makes one of braces that hold no
statement; a method, a loop and the first branch of an `if` pass it on to `eval`, which stops
with `error_null_node`. Everything else that the grammar leaves out is never evaluated. -/

namespace Ctds

open Fallible Raises

def Error.isNullNode : Error → Bool
  | nullNode _ => true
  | _ => false

mutual
/-- A statement in whose evaluation a body without statements is come to: everything
evaluated in front of it passes its checks. -/
def reachesEmpty (env : Env) (tab : SymbolTable) (methodReturnType : RetType) : AstNode → Bool
  | .null => true
  | .ifStmt _ condition thenBlock elseBlock =>
    (exprType env tab condition == some .bool) &&
      match ifCase env (foldTree env condition) elseBlock with
      | .both =>
        reachesEmpty env tab methodReturnType thenBlock ||
          (stmtAccepted env tab methodReturnType thenBlock &&
            (!elseBlock.isNull && reachesEmpty env tab methodReturnType elseBlock))
      | .thenOnly => reachesEmpty env tab methodReturnType thenBlock
      | .elseOnly => reachesEmpty env tab methodReturnType elseBlock
  | .whileStmt _ condition block =>
    (exprType env tab condition == some .bool) && reachesEmpty env tab methodReturnType block
  | .block _ stmts => reachesEmptyIn env tab methodReturnType stmts
  | _ => false
def reachesEmptyIn (env : Env) (tab : SymbolTable) (methodReturnType : RetType) :
    AstNodeList → Bool
  | .nil => false
  | .cons first next =>
    reachesEmpty env tab methodReturnType first ||
      (stmtAccepted env tab methodReturnType first && reachesEmptyIn env tab methodReturnType next)
end

/-- A method whose own body has no statements, or comes to such a body. -/
def sentenceReachesEmpty (env : Env) (tab : SymbolTable) : AstNode → Bool
  | .methodDecl _ sym block =>
    match methodAt tab sym with
    | some method => !method.isExtern && reachesEmpty env tab method.retType block
    | none => false
  | _ => false

/-- The same for a program, behind sentences without errors. -/
def programReachesEmpty (env : Env) (tab : SymbolTable) : List AstNode → RetType → Bool
  | [], _ => false
  | sentence :: rest, ret =>
    sentenceReachesEmpty env tab sentence ||
      ((checkSentence tab (stmtAccepted env tab) sentence && !missesReturn env tab ret sentence) &&
        programReachesEmpty env tab rest (sentenceRet env tab ret sentence))

/-- No null node is come to. -/
def Quiet (x : Except Error Evaluated) : Prop := Raises Error.isNullNode false x

theorem binaryCase_quiet {line : Int} {tree : AstNode} {st : SemState} {operandsOk : Bool}
    {err : Error} {literals : Option (BitVec 32 × BitVec 32)}
    {fold : BitVec 32 → BitVec 32 → Option LeafValue} {type : RetType}
    (other : err.isNullNode = false) :
    Quiet (binaryCase line tree st operandsOk err literals fold type) := by
  unfold binaryCase
  cases operandsOk with
  | false => exact other
  | true =>
    cases literals with
    | none => exact rfl
    | some operands =>
      cases folded : fold operands.1 operands.2 <;>
        simp [folded, Quiet, Raises, Error.isNullNode]

theorem evalAssign_quiet {tab : SymbolTable} {tree left : AstNode} {rightType : RetType}
    {st : SemState} : Quiet (evalAssign tab tree left rightType st) := by
  unfold evalAssign
  split
  · exact rfl
  · split <;> exact rfl

theorem evalBinary_quiet {env : Env} {tab : SymbolTable} {line : Int} {op : Operator}
    {l r : Evaluated} : Quiet (evalBinary env tab line op l r) := by
  unfold evalBinary
  cases op with
  | assign => exact evalAssign_quiet
  | minus | neg | decl | ret => exact rfl
  | _ => exact binaryCase_quiet rfl

theorem evalUnary_quiet {line : Int} {op : Operator} {right : AstNode} {l : Evaluated} :
    Quiet (evalUnary line op right l) := by
  unfold evalUnary
  cases op with
  | minus | neg => dsimp only; split <;> exact rfl
  | _ => exact rfl

theorem evalLeaf_quiet (tab : SymbolTable) (line : Int) (value : LeafValue) (ret : RetType)
    (st : SemState) : Quiet (evalLeaf tab line value ret st) := by
  cases value with
  | int v | bool v => exact rfl
  | id p =>
    unfold evalLeaf
    dsimp only
    split
    · exact rfl
    · split
      · exact rfl
      · split <;> exact rfl

theorem calledMethod_quiet (tab : SymbolTable) (line : Int) (name : Ident) (numArgs : Nat) :
    Raises Error.isNullNode false (calledMethod tab line name numArgs) := by
  unfold calledMethod
  split
  · exact rfl
  · exact rfl
  · split <;> exact rfl

theorem callResult_quiet (tree : AstNode) (method : MethodInfo) (st : SemState) :
    Quiet (callResult tree method st) := by
  unfold callResult
  split <;> exact rfl

theorem checkArgument_quiet (param : Args) (arg : Evaluated) :
    Raises Error.isNullNode false (checkArgument param arg) := by
  unfold checkArgument
  split
  · exact rfl
  · split <;> exact rfl

mutual
/-- The operands of an expression are all there. -/
theorem eval_quiet (env : Env) (tab : SymbolTable) :
    ∀ (node : AstNode) (father : InfoType) (ret : RetType) (st : SemState),
      isExpr tab node = true → Quiet (eval env tab father node ret st)
  | .leaf line value, father, ret, st, _ => by
    rw [eval]
    exact evalLeaf_quiet tab line value ret st
  | .common line .binary op left right, father, ret, st, shape => by
    simp only [isExpr, Bool.and_eq_true] at shape
    obtain ⟨⟨binary, shapeLeft⟩, shapeRight⟩ := shape
    rw [eval_binary env tab binary]
    refine (eval_quiet env tab left _ _ _ shapeLeft).before fun l _ => ?_
    exact (eval_quiet env tab right _ _ _ shapeRight).before fun r _ => evalBinary_quiet
  | .common line .unary op left right, father, ret, st, shape => by
    simp only [isExpr, Bool.and_eq_true] at shape
    obtain ⟨⟨unary, shapeLeft⟩, -⟩ := shape
    rw [eval_unary env tab unary]
    exact (eval_quiet env tab left _ _ _ shapeLeft).before fun l _ => evalUnary_quiet
  | .methodCall line name numArgs args, father, ret, st, shape => by
    simp only [isExpr, Bool.and_eq_true] at shape
    rw [eval]
    refine (calledMethod_quiet tab line name numArgs).before fun method _ => ?_
    refine (evalCallArgs_quiet env tab args method.args ret _ shape.2).before fun result _ => ?_
    exact callResult_quiet _ method _
  | .null, _, _, _, shape | .ifStmt .., _, _, _, shape | .whileStmt .., _, _, _, shape
  | .methodDecl .., _, _, _, shape | .block .., _, _, _, shape => by simp [isExpr] at shape
theorem evalCallArgs_quiet (env : Env) (tab : SymbolTable) :
    ∀ (args : AstNodeList) (params : List Args) (ret : RetType) (st : SemState),
      areExprs tab args = true →
      Raises Error.isNullNode false (evalCallArgs env tab params args ret st)
  | .nil, [], _, _, _ | .nil, _ :: _, _, _, _ | .cons _ _, [], _, _, _ => by
    rw [evalCallArgs]
    · exact rfl
    · simp
  | .cons first next, param :: params, ret, st, shape => by
    simp only [areExprs, Bool.and_eq_true] at shape
    rw [evalCallArgs]
    refine (eval_quiet env tab first _ _ _ shape.1).before fun e _ => ?_
    refine (checkArgument_quiet param e).before fun _ _ => ?_
    exact (evalCallArgs_quiet env tab next params e.ret e.st shape.2).before fun _ _ => rfl
end

theorem evalCommon_quiet (env : Env) {tab : SymbolTable} {line : Int} {arity : OperatorArity}
    {op : Operator} {left right : AstNode}
    (shape : isStmt tab (.common line arity op left right) = true)
    (father : InfoType) (ret : RetType) (st : SemState) :
    Quiet (eval env tab father (.common line arity op left right) ret st) := by
  rw [eval]
  cases op with
  | decl =>
    simp only [isStmt, Bool.and_eq_true, Bool.or_eq_true] at shape
    unfold evalCommon
    dsimp only
    by_cases null : right.isNull = true
    · rw [if_pos null]
      exact rfl
    · rw [if_neg null]
      refine (eval_quiet env tab left _ _ _ (isIdLeaf_isExpr shape.1)).before fun l _ => ?_
      refine (eval_quiet env tab right _ _ _ (shape.2.resolve_left null)).before fun r _ => ?_
      unfold evalDecl
      split
      · exact rfl
      · split
        · exact rfl
        · split <;> exact rfl
  | assign =>
    simp only [isStmt, Bool.and_eq_true, decide_eq_true_eq] at shape
    obtain ⟨⟨rfl, shapeLeft⟩, shapeRight⟩ := shape
    refine (eval_quiet env tab left _ _ _ (isIdLeaf_isExpr shapeLeft)).before fun l _ => ?_
    exact (eval_quiet env tab right _ _ _ shapeRight).before fun r _ => evalBinary_quiet
  | ret =>
    simp only [isStmt, Bool.and_eq_true, Bool.or_eq_true] at shape
    unfold evalCommon
    dsimp only
    by_cases null : left.isNull = true
    · rw [if_pos null]
      split <;> exact rfl
    · rw [if_neg null]
      refine (eval_quiet env tab left _ _ _ (shape.1.resolve_left null)).before fun l _ => ?_
      unfold evalReturn
      split <;> exact rfl
  | _ => simp [isStmt] at shape

theorem branch_raises {env : Env} {tab : SymbolTable} {father : InfoType} {node : AstNode}
    {ret : RetType} {st : SemState} {methodReturnType : RetType} (shape : isBranch tab node = true)
    (ih : isStmt tab node = true → node.isBlock = true →
      Raises Error.isNullNode (reachesEmpty env tab methodReturnType node)
        (eval env tab father node ret st)) :
    Raises Error.isNullNode (reachesEmpty env tab methodReturnType node)
      (eval env tab father node ret st) := by
  rcases isBranch_iff.mp shape with rfl | ⟨line, stmts, rfl, areStmts⟩
  · rw [eval, reachesEmpty]
    exact rfl
  · exact ih (by simpa [isStmt] using areStmts) rfl

theorem condition_raises (env : Env) {tab : SymbolTable} (methods : tab.MethodsOk)
    {condition : AstNode} (shape : isExpr tab condition = true) {father : InfoType} {line : Int}
    {st : SemState} {raised : Bool} {rest : Evaluated → Except Error Evaluated}
    (next : ∀ c, ExprPost env tab condition { st with line := line } c → c.ret = .bool →
      Raises Error.isNullNode raised (rest c)) :
    Raises Error.isNullNode ((exprType env tab condition == some .bool) && raised)
      (eval env tab father condition env.uninitRet { st with line := line } >>= fun c =>
        if c.ret ≠ .bool then throw (.conditional c.st.line) else rest c) := by
  have quiet : Quiet _ :=
    eval_quiet env tab condition father env.uninitRet { st with line := line } shape
  have outcome := eval_expr env methods condition father env.uninitRet
    { st with line := line } shape
  cases type : exprType env tab condition with
  | none =>
    rw [type] at outcome
    obtain ⟨err, failed⟩ := outcome.error
    rw [failed] at quiet ⊢
    exact quiet
  | some type' =>
    rw [type] at outcome
    obtain ⟨c, evaluated, post⟩ := outcome.ok
    obtain rfl := Option.some.inj (type.symm.trans post.1)
    rw [evaluated, ok_bind]
    by_cases bool : c.ret = .bool
    · rw [if_neg (not_not.mpr bool), bool, beq_self_eq_true, Bool.true_and]
      exact next c post bool
    · rw [if_pos bool, show (some c.ret == some RetType.bool) = false by simpa using bool]
      exact rfl

/-- The branches of an `if` whose condition is a bool. -/
def evalTaken (env : Env) (line : Int) (elseBlock : AstNode) (evalThen evalElse : Evaluator)
    (c : Evaluated) : Except Error Evaluated :=
  match ifCase env c.tree elseBlock with
  | .both => evalBranches line c.tree elseBlock evalThen evalElse c.st
  | .thenOnly => evalThen .null c.st >>= promoteBranch line
  | .elseOnly => evalElse .null c.st >>= promoteBranch line

theorem evalIf_bind (env : Env) (line : Int) (elseBlock : AstNode)
    (evalCondition evalThen evalElse : Evaluator) (ret : RetType) (st : SemState) :
    evalIf env line elseBlock evalCondition evalThen evalElse ret st =
      evalCondition env.uninitRet { st with line := line } >>= fun c =>
        if c.ret ≠ .bool then throw (.conditional c.st.line)
        else evalTaken env line elseBlock evalThen evalElse c := by
  cases evaluated : evalCondition env.uninitRet { st with line := line } with
  | error err =>
    unfold evalIf
    rw [evaluated]
    rfl
  | ok c =>
    rw [ok_bind]
    by_cases bool : c.ret = .bool
    · rw [evalIf_eq evaluated bool, if_neg (not_not.mpr bool)]
      rfl
    · unfold evalIf
      rw [evaluated, ok_bind, if_pos bool, if_pos bool]
      rfl

theorem evalWhile_bind (env : Env) (line : Int) (evalCondition evalBody : Evaluator)
    (ret : RetType) (st : SemState) :
    evalWhile env line evalCondition evalBody ret st =
      evalCondition env.uninitRet { st with line := line } >>= fun c =>
        if c.ret ≠ .bool then throw (.conditional c.st.line)
        else evalBody env.uninitRet c.st >>= fun b => rewriteWhile env line c b ret := rfl

theorem evalBranches_raises (env : Env) {line : Int} {condition : AstNode} (thenBlock : AstNode)
    {elseBlock : AstNode}
    {evalThen evalElse : Evaluator} {st : SemState} {emptyThen accepted emptyElse : Bool}
    (hThen : Raises Error.isNullNode emptyThen (evalThen .null st))
    (outcome : Outcome accepted (StmtPost env .ifStmt thenBlock .null st) (evalThen .null st))
    (hElse : ∀ st' : SemState, st'.methodReturnType = st.methodReturnType →
      Raises Error.isNullNode emptyElse (evalElse .null st')) :
    Raises Error.isNullNode (emptyThen || (accepted && (!elseBlock.isNull && emptyElse)))
      (evalBranches line condition elseBlock evalThen evalElse st) := by
  unfold evalBranches
  refine hThen.bind outcome fun t post => ?_
  by_cases null : elseBlock.isNull = true
  · rw [if_pos null, null]
    exact rfl
  · rw [if_neg null, eq_false_of_ne_true null]
    exact (hElse t.st post.methodReturnType).before fun e _ => rfl

theorem promoteBranch_quiet (line : Int) (branch : Evaluated) :
    Quiet (promoteBranch line branch) := by
  unfold promoteBranch
  split <;> exact rfl

theorem rewriteWhile_quiet (env : Env) (line : Int) (c b : Evaluated) (ret : RetType) :
    Quiet (rewriteWhile env line c b ret) := by
  unfold rewriteWhile
  split
  · split
    · split
      · dsimp only
        split <;> exact rfl
      · exact rfl
    · exact rfl
  · exact rfl

mutual
theorem eval_raises (env : Env) {tab : SymbolTable} (methods : tab.MethodsOk) :
    ∀ (node : AstNode) (father : InfoType) (ret : RetType) (st : SemState),
      isStmt tab node = true → (father = .block ∨ node.isBlock = true) →
      st.methodReturnType ≠ .null →
      Raises Error.isNullNode (reachesEmpty env tab st.methodReturnType node)
        (eval env tab father node ret st)
  | .null, _, _, _, shape, _, _ | .methodDecl .., _, _, _, shape, _, _
  | .leaf .., _, _, _, shape, _, _ => by simp [isStmt] at shape
  | .common line arity op left right, father, ret, st, shape, _, _ => by
    have none : reachesEmpty env tab st.methodReturnType (.common line arity op left right) =
        false := by simp [reachesEmpty]
    rw [none]
    exact evalCommon_quiet env shape father ret st
  | .methodCall line name numArgs args, father, ret, st, shape, _, _ => by
    have none : reachesEmpty env tab st.methodReturnType (.methodCall line name numArgs args) =
        false := by simp [reachesEmpty]
    rw [none]
    exact eval_quiet env tab _ father ret st (by simpa [isStmt, isExpr] using shape)
  | .ifStmt line condition thenBlock elseBlock, father, ret, st, shape, _, known => by
    simp only [isStmt_ifStmt, Bool.and_eq_true] at shape
    obtain ⟨⟨conditionShape, thenShape⟩, elseShape⟩ := shape
    have hThen : ∀ st' : SemState, st'.methodReturnType = st.methodReturnType →
        Raises Error.isNullNode (reachesEmpty env tab st.methodReturnType thenBlock)
          (eval env tab .ifStmt thenBlock .null st') :=
      fun st' same => same ▸ branch_raises thenShape fun isStmt isBlock =>
        eval_raises env methods thenBlock .ifStmt .null st' isStmt (.inr isBlock) (same ▸ known)
    have hElse : ∀ st' : SemState, st'.methodReturnType = st.methodReturnType →
        Raises Error.isNullNode (reachesEmpty env tab st.methodReturnType elseBlock)
          (eval env tab .ifStmt elseBlock .null st') :=
      fun st' same => same ▸ branch_raises elseShape fun isStmt isBlock =>
        eval_raises env methods elseBlock .ifStmt .null st' isStmt (.inr isBlock) (same ▸ known)
    rw [eval, reachesEmpty, evalIf_bind]
    refine condition_raises env methods conditionShape fun c ⟨_, tree, kept⟩ _ => ?_
    have same := kept.line.methodReturnType
    rw [evalTaken, tree]
    cases ifCase env (foldTree env condition) elseBlock with
    | both =>
      refine evalBranches_raises env thenBlock (hThen c.st same) ?_
        fun st' same' => hElse st' (same'.trans same)
      exact same ▸ branch_outcome thenShape fun isStmt isBlock =>
        eval_stmt env methods thenBlock .ifStmt .null c.st isStmt (.inr isBlock) (same ▸ known)
    | thenOnly => exact (hThen c.st same).before fun t _ => promoteBranch_quiet line t
    | elseOnly => exact (hElse c.st same).before fun e _ => promoteBranch_quiet line e
  | .whileStmt line condition block, father, ret, st, shape, _, known => by
    simp only [isStmt_whileStmt, Bool.and_eq_true] at shape
    rw [eval, reachesEmpty, evalWhile_bind]
    refine condition_raises env methods shape.1 fun c ⟨_, _, kept⟩ _ => ?_
    have same := kept.line.methodReturnType
    have body : Raises Error.isNullNode (reachesEmpty env tab st.methodReturnType block)
        (eval env tab .whileStmt block env.uninitRet c.st) :=
      same ▸ branch_raises shape.2 fun isStmt isBlock =>
        eval_raises env methods block .whileStmt env.uninitRet c.st isStmt (.inr isBlock)
          (same ▸ known)
    exact body.before fun b _ => rewriteWhile_quiet env line c b ret
  | .block line stmts, father, ret, st, shape, _, known => by
    simp only [isStmt] at shape
    rw [eval, reachesEmpty]
    exact (evalStmts_raises env methods stmts env.uninitRet
      ⟨.nil, ret, false, { st with line := line }⟩ shape rfl known).before fun loop _ => rfl
theorem evalStmts_raises (env : Env) {tab : SymbolTable} (methods : tab.MethodsOk) :
    ∀ (stmts : AstNodeList) (auxRet : RetType) (loop : BlockLoop),
      areStmts tab stmts = true → loop.stmts = .nil → loop.st.methodReturnType ≠ .null →
      Raises Error.isNullNode (reachesEmptyIn env tab loop.st.methodReturnType stmts)
        (evalStmts env tab stmts auxRet loop)
  | .nil, auxRet, loop, _, _, _ => by
    rw [evalStmts, reachesEmptyIn]
    exact rfl
  | .cons first next, auxRet, loop, shape, start, known => by
    simp only [areStmts, Bool.and_eq_true] at shape
    rw [evalStmts, reachesEmptyIn]
    refine (eval_raises env methods first .block auxRet loop.st shape.1 (.inl rfl) known).bind
      (eval_stmt env methods first .block auxRet loop.st shape.1 (.inl rfl) known) fun e post => ?_
    rw [← post.methodReturnType]
    exact (evalStmts_raises env methods next e.ret
      ⟨.nil, if e.tree.isReturn then e.ret else loop.ret, loop.returned || e.tree.isReturn, e.st⟩
      shape.2 rfl (post.methodReturnType ▸ known)).before fun rest _ => rfl
end

theorem checkMissingReturn_quiet (name : Ident) (e : Evaluated) :
    Quiet (checkMissingReturn name e) := by
  unfold checkMissingReturn
  split <;> exact rfl

theorem eval_sentence_raises (env : Env) {tab : SymbolTable} (methods : tab.MethodsOk)
    {node : AstNode}
    (top : TopLevel tab node) (ret : RetType) (st : SemState) :
    Raises Error.isNullNode (sentenceReachesEmpty env tab node)
      (eval env tab .methodDecl node ret st) := by
  rcases topLevel_cases top with ⟨line, arity, left, right, rfl⟩ |
    ⟨line, sym, block, method, rfl, declared, shape⟩
  · have shape : isStmt tab (.common line arity .decl left right) = true := top.shape
    exact evalCommon_quiet env shape .methodDecl ret st
  · have entered : (enterMethod method { st with line := line }).methodReturnType =
      method.retType := by
      simp [enterMethod, declared.toRetType]
    rw [eval, sentenceReachesEmpty, methodAt_declared declared]
    dsimp only [evalMethodDecl]
    simp only [declared.entry, SymbolInfo.name, declared.found, Option.bind_some,
      SymbolInfo.methodView]
    refine before ?_ fun e _ => rfl
    rcases Bool.eq_false_or_eq_true method.isExtern with isExtern | isExtern
    · simp only [isExtern, if_true, pure_bind, Bool.not_true, Bool.false_and]
      exact checkMissingReturn_quiet _ _
    · simp only [isExtern, Bool.false_eq_true, if_false, Bool.not_false, Bool.true_and]
      have body : Raises Error.isNullNode (reachesEmpty env tab method.retType block)
          (eval env tab .methodDecl block ret (enterMethod method { st with line := line })) :=
        entered ▸ branch_raises shape fun isStmt isBlock =>
          eval_raises env methods block .methodDecl ret _ isStmt (.inr isBlock)
            (entered ▸ declared.retType_ne_null)
      exact body.before fun e _ => checkMissingReturn_quiet _ _

theorem evalSentences_raises (env : Env) {tab : SymbolTable} (methods : tab.MethodsOk)
    {sentences : List AstNode} (top : ∀ node ∈ sentences, TopLevel tab node) (ret : RetType)
    {st : SemState} (idle : Idle st) :
    Raises Error.isNullNode (programReachesEmpty env tab sentences ret)
      (evalSentences env tab sentences ret st) := by
  induction sentences generalizing ret st with
  | nil => exact rfl
  | cons sentence rest ih =>
    have here := top sentence List.mem_cons_self
    rw [evalSentences, programReachesEmpty]
    refine (eval_sentence_raises env methods here ret st).bind
      (eval_sentence methods here ret idle).value fun e post => ?_
    obtain ⟨⟨isRet, -⟩, evaluated⟩ := post
    have idle' := eval_topLevel_idle methods here idle evaluated
    rw [← isRet]
    exact (ih (fun node mem => top node (List.mem_cons_of_mem _ mem)) e.ret idle').before
      fun result _ => rfl

theorem semanticAnalyzer_raises (env : Env) {prog : ProgramSyn} {ps : ParserState}
    (parsed : parse prog = .ok ps) :
    Raises Error.isNullNode (programReachesEmpty env ps.tab ps.headAst env.uninitRet)
      (semanticAnalyzer env ps.tab ps.headAst) := by
  have ok := parse_sentencesOk parsed
  refine (evalSentences_raises env ok.wf.methods (fun node mem => ok.topLevel mem) env.uninitRet
    idle_init).before fun result _ => ?_
  dsimp only
  split <;> exact rfl

/-- No call of `eval` receives a null node exactly if the analysis does not come to a method, a
loop or a branch whose braces hold no statement. -/
theorem null_node_iff (env : Env) {prog : ProgramSyn} {ps : ParserState}
    (parsed : parse prog = .ok ps) :
    (∀ line, semanticAnalyzer env ps.tab ps.headAst ≠ .error (.nullNode line)) ↔
      programReachesEmpty env ps.tab ps.headAst env.uninitRet = false := by
  rw [← Bool.not_eq_true, ← (semanticAnalyzer_raises env parsed).iff]
  constructor
  · rintro never ⟨err, failed, isNull⟩
    cases err with
    | nullNode line => exact never line failed
    | _ => cases isNull
  · intro never line failed
    exact never ⟨_, failed, rfl⟩

/-- A `main` with this body. -/
def mainWith (statements : StmtListSyn) : ProgramSyn :=
  [.methodDecl ⟨1, none, .of "main", [], some (.mk 1 [] statements)⟩]

/-- `void main() { while (true) { } return; }`. -/
theorem null_node_reached :
    ∃ ps, parse (mainWith (.cons (.whileLoop 1 (.trueLiteral 1) (.mk 1 [] .nil))
        (.cons (.returnVoid 1) .nil))) = .ok ps ∧
      ¬ ∀ line, semanticAnalyzer (.sample false) ps.tab ps.headAst ≠ .error (.nullNode line) := by
  refine ⟨_, rfl, fun never => never (-1) ?_⟩
  decide +kernel

/-- `void main() { ; if (true) { return; } else { } { } return; }`: the empty statement, the empty
else and the empty block are never evaluated. -/
theorem null_node_filtered :
    ∃ ps, parse (mainWith (.cons .empty (.cons (.ifThenElse 1 (.trueLiteral 1)
        (.mk 1 [] (.cons (.returnVoid 1) .nil)) (.mk 1 [] .nil))
        (.cons (.block (.mk 1 [] .nil)) (.cons (.returnVoid 1) .nil))))) = .ok ps ∧
      ∀ line, semanticAnalyzer (.sample false) ps.tab ps.headAst ≠ .error (.nullNode line) := by
  have parsed : ∃ ps, parse (mainWith (.cons .empty (.cons (.ifThenElse 1 (.trueLiteral 1)
        (.mk 1 [] (.cons (.returnVoid 1) .nil)) (.mk 1 [] .nil))
        (.cons (.block (.mk 1 [] .nil)) (.cons (.returnVoid 1) .nil))))) = .ok ps ∧
      programReachesEmpty (.sample false) ps.tab ps.headAst
        (Env.sample false).uninitRet = false := by
    refine ⟨_, rfl, ?_⟩
    decide +kernel
  obtain ⟨ps, parsed, full⟩ := parsed
  exact ⟨ps, parsed, (null_node_iff (.sample false) parsed).mpr full⟩

end Ctds
