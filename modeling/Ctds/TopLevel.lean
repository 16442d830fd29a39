import Ctds.CheckerSpec

/-! The loop of `semantic_analyzer` over the top-level sentences. Between sentences the
flag is down; what one declaration hands to the next is the variable `ret`. -/

namespace Ctds

open Fallible SymbolTable

/-- What a top-level declaration is, against a symbol table. -/
structure TopLevel (tab : SymbolTable) (node : AstNode) : Prop where
  shape : isSentence tab node = true
  method : ∀ line sym block, node = .methodDecl line sym block →
    ∃ method, tab.Declared sym method

theorem SentencesOk.topLevel {ps : ParserState} (h : SentencesOk ps) {node : AstNode}
    (mem : node ∈ ps.headAst) : TopLevel ps.tab node :=
  ⟨h.shape node mem, fun line sym block eq => by
    obtain ⟨method, declared, -⟩ := h.methods line sym block (eq ▸ mem)
    exact ⟨method, declared⟩⟩

/-- `method_return_type` while this method is checked. -/
def MethodInfo.retType (method : MethodInfo) : RetType := method.returnType.toRetType.getD .null

theorem SymbolTable.Declared.retType_ne_null {tab : SymbolTable} {sym : IdPtr} {method : MethodInfo}
    (h : tab.Declared sym method) : method.retType ≠ .null := by
  unfold MethodInfo.retType
  have known := h.returnType
  cases returnType : method.returnType <;> simp_all [ReturnType.toRetType]

theorem SymbolTable.Declared.toRetType {tab : SymbolTable} {sym : IdPtr} {method : MethodInfo}
    (h : tab.Declared sym method) : method.returnType.toRetType = some method.retType := by
  unfold MethodInfo.retType
  have known := h.returnType
  cases returnType : method.returnType <;> simp_all [ReturnType.toRetType]

theorem SymbolTable.Declared.retType_void_iff {tab : SymbolTable} {sym : IdPtr}
    {method : MethodInfo}
    (h : tab.Declared sym method) : method.retType = .void ↔ method.returnType = .void := by
  unfold MethodInfo.retType
  have known := h.returnType
  cases returnType : method.returnType <;> simp_all [ReturnType.toRetType]

/-- `*ret` at the check for a missing return. -/
def retAfterMethod (env : Env) (method : MethodInfo) (block : AstNode) (ret : RetType) : RetType :=
  if method.isExtern then ret
  else retAfterBlock env method.retType ret false (blockStmts block)

def methodAccepted (env : Env) (tab : SymbolTable) (method : MethodInfo) (block : AstNode)
    (ret : RetType) : Bool :=
  (method.isExtern || stmtAccepted env tab method.retType block) &&
    !decide (retAfterMethod env method block ret = .null ∧ method.returnType ≠ .void)

def rewriteBody (env : Env) (method : MethodInfo) (block : AstNode) : AstNode :=
  if method.isExtern then block else rewrite env block

structure MethodPost (env : Env) (method : MethodInfo) (line : Int) (sym : IdPtr) (block : AstNode)
    (ret : RetType) (st : SemState) (e : Evaluated) : Prop where
  tree : e.tree = .methodDecl line sym (rewriteBody env method block)
  ret : e.ret = retAfterMethod env method block ret
  methodReturnType : e.st.methodReturnType = method.retType
  mainDefined : e.st.mainDefined = (st.mainDefined || method.name.text == "main".toList)
  flag : e.st.returnedGlobal = false

theorem checkMissingReturn_outcome {name : Ident} {e : Evaluated} :
    Outcome (!decide (e.ret = .null ∧ e.st.methodReturnType ≠ .void)) (fun e' => e' = e)
      (checkMissingReturn name e) := by
  unfold checkMissingReturn
  by_cases missing : e.ret = .null ∧ e.st.methodReturnType ≠ .void
  · simp [Outcome, missing]
  · simp only [if_neg missing, decide_eq_false missing]
    exact ⟨rfl, rfl⟩

theorem methodEnd_outcome {env : Env} {tab : SymbolTable} {line : Int} {sym : IdPtr}
    {block : AstNode} {method : MethodInfo} (declared : tab.Declared sym method) {ret : RetType}
    {st : SemState} (body : Evaluated) (tree : body.tree = rewriteBody env method block)
    (bodyRet : body.ret = retAfterMethod env method block ret)
    (methodReturnType : body.st.methodReturnType = method.retType)
    (mainDefined : body.st.mainDefined = (st.mainDefined || method.name.text == "main".toList)) :
    Outcome (!decide (retAfterMethod env method block ret = .null ∧ method.returnType ≠ .void))
      (MethodPost env method line sym block ret st)
      (checkMissingReturn method.name { body with tree := .methodDecl line sym body.tree } >>=
        fun e => pure { e with st := { e.st with returnedGlobal := false } }) := by
  have check := @checkMissingReturn_outcome method.name
    { body with tree := .methodDecl line sym body.tree }
  simp only [bodyRet, methodReturnType, ne_eq, declared.retType_void_iff] at check
  rw [bodyRet]
  refine check.map ?_
  rintro e rfl
  exact ⟨by rw [tree], rfl, methodReturnType, mainDefined, rfl⟩

theorem eval_methodDecl (env : Env) {tab : SymbolTable} (methods : tab.MethodsOk) {line : Int}
    {sym : IdPtr} {block : AstNode} {method : MethodInfo} (declared : tab.Declared sym method)
    (shape : isBranch tab block = true) (ret : RetType) {st : SemState}
    (down : st.returnedGlobal = false) :
    Outcome (methodAccepted env tab method block ret) (MethodPost env method line sym block ret st)
      (eval env tab .methodDecl (.methodDecl line sym block) ret st) := by
  have entered : (enterMethod method { st with line := line }).methodReturnType =
    method.retType := by
    simp [enterMethod, declared.toRetType]
  rw [eval]
  dsimp only [evalMethodDecl]
  simp only [declared.entry, SymbolInfo.name, declared.found, Option.bind_some,
    SymbolInfo.methodView]
  unfold methodAccepted
  rcases Bool.eq_false_or_eq_true method.isExtern with isExtern | isExtern
  · simp only [isExtern, if_true, Bool.true_or, Bool.true_and, pure_bind]
    exact methodEnd_outcome declared ⟨block, ret, enterMethod method { st with line := line }⟩
      (by simp [rewriteBody, isExtern]) (by simp [retAfterMethod, isExtern]) entered rfl
  · simp only [isExtern, Bool.false_eq_true, if_false, Bool.false_or, bind_assoc]
    have body : Outcome _ (StmtPost env .methodDecl block ret _) (eval env tab .methodDecl block ret
        (enterMethod method { st with line := line })) := branch_outcome shape fun isStmt isBlock =>
        eval_stmt env methods block .methodDecl ret _ isStmt (.inr isBlock)
          (entered ▸ declared.retType_ne_null)
    rw [entered] at body
    cases accepted : stmtAccepted env tab method.retType block with
    | false =>
      rw [accepted] at body
      obtain ⟨err, failed⟩ := body.error
      rw [failed]
      exact rfl
    | true =>
      rw [accepted] at body
      obtain ⟨e, evaluated, post⟩ := body.ok
      obtain ⟨line', stmts, rfl⟩ : ∃ line' stmts, block = .block line' stmts := by
        rcases isBranch_iff.mp shape with rfl | ⟨line', stmts, rfl, -⟩
        · simp [stmtAccepted] at accepted
        · exact ⟨line', stmts, rfl⟩
      rw [evaluated, ok_bind, Bool.true_and]
      refine methodEnd_outcome declared _ ?_ ?_
        (post.methodReturnType.trans entered) post.mainDefined
      · rw [post.tree, rewriteBody, isExtern]
        rfl
      · rw [post.ret_block line' stmts rfl, entered, retAfterMethod, isExtern]
        simp [enterMethod, down, blockStmts]

/-- The state between two sentences. -/
structure Idle (st : SemState) : Prop where
  down : st.returnedGlobal = false
  known : st.methodReturnType ≠ .null

theorem idle_init : Idle .init := ⟨rfl, nofun⟩

theorem eval_decl (env : Env) {tab : SymbolTable} (methods : tab.MethodsOk) {line : Int}
    {arity : OperatorArity} {left right : AstNode} {ret : RetType} {st : SemState}
    (shape : isSentence tab (.common line arity .decl left right) = true) :
    Outcome (stmtAccepted env tab st.methodReturnType (.common line arity .decl left right))
      (StmtPost env .block (.common line arity .decl left right) ret st)
      (eval env tab .methodDecl (.common line arity .decl left right) ret st) := by
  have isStmt : isStmt tab (.common line arity .decl left right) = true := shape
  have h : Outcome (stmtAccepted env tab st.methodReturnType _) (StmtPost env .block _ ret st)
      (eval env tab .block _ ret st) := evalCommon_stmt methods isStmt
  rw [eval] at h ⊢
  exact h

theorem topLevel_cases {tab : SymbolTable} {node : AstNode} (top : TopLevel tab node) :
    (∃ line arity left right, node = .common line arity .decl left right) ∨
      ∃ line sym block method, node = .methodDecl line sym block ∧ tab.Declared sym method ∧
        isBranch tab block = true := by
  have shape := top.shape
  unfold isSentence at shape
  split at shape
  · exact .inl ⟨_, _, _, _, rfl⟩
  · next line sym block =>
    obtain ⟨method, declared⟩ := top.method line sym block rfl
    rw [Bool.and_eq_true] at shape
    exact .inr ⟨line, sym, block, method, rfl, declared, shape.2⟩
  · cases shape

theorem eval_topLevel_idle {env : Env} {tab : SymbolTable} (methods : tab.MethodsOk)
    {node : AstNode} (top : TopLevel tab node) {ret : RetType} {st : SemState} {e : Evaluated}
    (idle : Idle st) (h : eval env tab .methodDecl node ret st = .ok e) : Idle e.st := by
  rcases topLevel_cases top with ⟨line, arity, left, right, rfl⟩ |
    ⟨line, sym, block, method, rfl, declared, shape⟩
  · have post := ((eval_decl env methods top.shape).of_ok h).2
    exact ⟨post.flag.trans idle.down, post.methodReturnType ▸ idle.known⟩
  · have post := ((eval_methodDecl env methods declared shape ret idle.down).of_ok h).2
    exact ⟨post.flag, post.methodReturnType ▸ declared.retType_ne_null⟩

theorem evalSentences_idle {env : Env} {tab : SymbolTable} (methods : tab.MethodsOk)
    {sentences out : List AstNode} (top : ∀ node ∈ sentences, TopLevel tab node)
    {ret ret' : RetType} {st st' : SemState} (idle : Idle st)
    (h : evalSentences env tab sentences ret st = .ok (out, ret', st')) : Idle st' := by
  induction sentences generalizing ret st out with
  | nil =>
    simp only [evalSentences, Except.ok.injEq, Prod.mk.injEq] at h
    exact h.2.2 ▸ idle
  | cons sentence rest ih =>
    simp only [evalSentences, bind_eq_ok, pure_eq_ok, Prod.mk.injEq] at h
    obtain ⟨e, first, ⟨out', ret₁, st₁⟩, others, -, rfl, rfl⟩ := h
    exact ih (fun node mem => top node (List.mem_cons_of_mem sentence mem))
      (eval_topLevel_idle methods (top sentence List.mem_cons_self) idle first) others

theorem evalSentences_append {env : Env} {tab : SymbolTable} {pre rest out : List AstNode}
    {ret ret' : RetType} {st st' : SemState}
    (h : evalSentences env tab (pre ++ rest) ret st = .ok (out, ret', st')) :
    ∃ out₁ ret₁ st₁ out₂, evalSentences env tab pre ret st = .ok (out₁, ret₁, st₁) ∧
      evalSentences env tab rest ret₁ st₁ = .ok (out₂, ret', st') ∧ out = out₁ ++ out₂ := by
  induction pre generalizing ret st out with
  | nil => exact ⟨[], ret, st, out, rfl, h, rfl⟩
  | cons sentence pre ih =>
    simp only [List.cons_append, evalSentences, bind_eq_ok, pure_eq_ok, Prod.mk.injEq] at h
    obtain ⟨e, first, ⟨out', ret₁, st₁⟩, others, rfl, rfl, rfl⟩ := h
    obtain ⟨out₁, ret₂, st₂, out₂, before, after, rfl⟩ := ih others
    refine ⟨e.tree :: out₁, ret₂, st₂, out₂, ?_, after, rfl⟩
    simp only [evalSentences, first, ok_bind, before]
    rfl

theorem before_of_accepted {env : Env} {tab : SymbolTable}
    {headAst sentences pre rest : List AstNode}
    (accepted : semanticAnalyzer env tab headAst = .ok sentences) (split : headAst = pre ++ rest) :
    ∃ out ret st, evalSentences env tab pre env.uninitRet .init = .ok (out, ret, st) := by
  simp only [semanticAnalyzer, bind_eq_ok] at accepted
  obtain ⟨⟨out, ret, st⟩, all, -⟩ := accepted
  rw [split] at all
  obtain ⟨out₁, ret₁, st₁, out₂, before, -⟩ := evalSentences_append all
  exact ⟨out₁, ret₁, st₁, before⟩

/-- In an accepted program each sentence is accepted in the state it is reached in. -/
theorem eval_of_accepted {env : Env} {tab : SymbolTable}
    {headAst sentences pre post out : List AstNode} {node : AstNode} {ret : RetType} {st : SemState}
    (accepted : semanticAnalyzer env tab headAst = .ok sentences)
    (split : headAst = pre ++ node :: post)
    (before : evalSentences env tab pre env.uninitRet .init = .ok (out, ret, st)) :
    ∃ e, eval env tab .methodDecl node ret st = .ok e := by
  simp only [semanticAnalyzer, bind_eq_ok] at accepted
  obtain ⟨⟨out', ret', st'⟩, all, -⟩ := accepted
  rw [split] at all
  obtain ⟨out₁, ret₁, st₁, out₂, before', rest, -⟩ := evalSentences_append all
  rw [before, Except.ok.injEq, Prod.mk.injEq, Prod.mk.injEq] at before'
  obtain ⟨rfl, rfl, rfl⟩ := before'
  simp only [evalSentences, bind_eq_ok] at rest
  obtain ⟨e, checked, -⟩ := rest
  exact ⟨e, checked⟩

theorem body_accepted {env : Env} {ps : ParserState} {sentences : List AstNode}
    (ok : SentencesOk ps) (accepted : semanticAnalyzer env ps.tab ps.headAst = .ok sentences)
    {line : Int} {sym : IdPtr} {block : AstNode} {method : MethodInfo}
    (mem : AstNode.methodDecl line sym block ∈ ps.headAst)
    (declared : ps.tab.Declared sym method) (own : method.isExtern = false) :
    isBranch ps.tab block = true ∧ stmtAccepted env ps.tab method.retType block = true := by
  obtain ⟨pre, post, split⟩ := List.append_of_mem mem
  obtain ⟨out, ret, st, before⟩ := before_of_accepted accepted split
  obtain ⟨e, checked⟩ := eval_of_accepted accepted split before
  have idle := evalSentences_idle ok.wf.methods
    (fun node mem => ok.topLevel (split ▸ List.mem_append_left _ mem)) idle_init before
  have shape := ok.shape _ mem
  simp only [isSentence, Bool.and_eq_true] at shape
  have verdict :=
    ((eval_methodDecl env ok.wf.methods declared shape.2 ret idle.down).of_ok checked).1
  simp only [methodAccepted, own, Bool.false_or, Bool.and_eq_true] at verdict
  exact ⟨shape.2, verdict.1⟩

theorem method_accepted {env : Env} {ps : ParserState} {sentences : List AstNode}
    (ok : SentencesOk ps) (accepted : semanticAnalyzer env ps.tab ps.headAst = .ok sentences)
    {line : Int} {sym : IdPtr} {block : AstNode}
    (mem : AstNode.methodDecl line sym block ∈ ps.headAst) :
    ∃ method, ps.tab.Declared sym method ∧ BodyOk method block ∧
      (block = .null ∨ (isStmt ps.tab block = true ∧
        stmtAccepted env ps.tab method.retType block = true)) := by
  obtain ⟨method, declared, body⟩ := ok.methods line sym block mem
  refine ⟨method, declared, body, ?_⟩
  rcases Bool.eq_false_or_eq_true method.isExtern with isExtern | own
  · exact .inl (body.externDecl isExtern)
  · obtain ⟨shape, checked⟩ := body_accepted ok accepted mem declared own
    rcases isBranch_iff.mp shape with null | ⟨line', stmts, rfl, areStmts⟩
    · exact .inl null
    · exact .inr ⟨areStmts, checked⟩

theorem decl_accepted {env : Env} {ps : ParserState} {sentences : List AstNode}
    (ok : SentencesOk ps) (accepted : semanticAnalyzer env ps.tab ps.headAst = .ok sentences)
    {line : Int} {arity : OperatorArity} {left right : AstNode}
    (mem : AstNode.common line arity .decl left right ∈ ps.headAst) :
    isStmt ps.tab (.common line arity .decl left right) = true ∧ ∃ methodReturnType,
      stmtAccepted env ps.tab methodReturnType (.common line arity .decl left right) = true := by
  obtain ⟨pre, post, split⟩ := List.append_of_mem mem
  obtain ⟨out, ret, st, before⟩ := before_of_accepted accepted split
  obtain ⟨e, checked⟩ := eval_of_accepted accepted split before
  have shape := ok.shape _ mem
  exact ⟨shape, _, ((eval_decl env ok.wf.methods shape).of_ok checked).1⟩

end Ctds
