import Ctds.TopLevel

/-! Whether the verdict on a method depends on the declarations checked before it. The
only thing they hand over is `ret`, and `eval_method_decl` reads it unless the body
wrote it first. -/

namespace Ctds

open Fallible SymbolTable

/-- The body sets `ret` itself: a return of its own, or no return left flagged. -/
def bodyWritesRet (env : Env) (block : AstNode) : Bool :=
  listReturns (blockStmts block) || !flagAfterStmts env false (blockStmts block)

/-- Two lists of accepted declarations, each checked from the start. -/
structure AcceptedBefore (env : Env) (tab : SymbolTable) (sentences : List AstNode)
    (start ret : RetType) (st : SemState) : Prop where
  top : ∀ node ∈ sentences, TopLevel tab node
  accepted : ∃ out, evalSentences env tab sentences start .init = .ok (out, ret, st)

/-- The verdict on a method in the state that the earlier declarations left. -/
def verdict (env : Env) (tab : SymbolTable) (method : AstNode) (ret : RetType) (st : SemState) :
    Bool := (eval env tab .methodDecl method ret st).isOk

def VerdictIndependent (env : Env) (tab : SymbolTable) (method : AstNode) : Prop :=
  ∀ start before before' ret ret' st st', AcceptedBefore env tab before start ret st →
    AcceptedBefore env tab before' start ret' st' →
    verdict env tab method ret st = verdict env tab method ret' st'

theorem retAfterMethod_written {env : Env} {method : MethodInfo} {block : AstNode}
    (own : method.isExtern = false) (writes : bodyWritesRet env block = true) (ret ret' : RetType) :
    retAfterMethod env method block ret = retAfterMethod env method block ret' := by
  unfold bodyWritesRet at writes
  simp only [retAfterMethod, own, Bool.false_eq_true, if_false, retAfterBlock]
  cases returns : listReturns (blockStmts block) with
  | true => rfl
  | false =>
    have down : flagAfterStmts env false (blockStmts block) = false := by
      simpa [returns] using writes
    rw [down]
    rfl

theorem retAfterMethod_passed {env : Env} {method : MethodInfo} {block : AstNode}
    (passes : method.isExtern = true ∨ bodyWritesRet env block = false) (ret : RetType) :
    retAfterMethod env method block ret = ret := by
  rcases Bool.eq_false_or_eq_true method.isExtern with isExtern | own
  · rw [retAfterMethod, if_pos isExtern]
  · have passes : bodyWritesRet env block = false := by simpa [own] using passes
    unfold bodyWritesRet at passes
    simp only [Bool.or_eq_false_iff, Bool.not_eq_false'] at passes
    simp [retAfterMethod, own, retAfterBlock, passes.1, passes.2]

theorem verdict_eq {env : Env} {tab : SymbolTable} (methods : tab.MethodsOk) {line : Int}
    {sym : IdPtr} {block : AstNode} {method : MethodInfo} (declared : tab.Declared sym method)
    (shape : isBranch tab block = true) {before : List AstNode} {start ret : RetType}
    {st : SemState} (h : AcceptedBefore env tab before start ret st) :
    verdict env tab (.methodDecl line sym block) ret st =
      methodAccepted env tab method block ret := by
  obtain ⟨out, accepted⟩ := h.accepted
  have idle := evalSentences_idle methods h.top idle_init accepted
  exact (eval_methodDecl env methods declared shape ret idle.down).isOk

theorem nothing_before (env : Env) (tab : SymbolTable) (start : RetType) :
    AcceptedBefore env tab [] start start .init := ⟨by simp, [], rfl⟩

/-- A declaration without initialiser: accepted in every state, and it leaves `ret` at
NULL_TYPE. -/
def emptyDecl (sym : IdPtr) : AstNode := .common 0 .unary .decl (.leaf 0 (.id sym)) .null

theorem emptyDecl_before (env : Env) {tab : SymbolTable} {sym : IdPtr} {method : MethodInfo}
    (declared : tab.Declared sym method) (start : RetType) :
    AcceptedBefore env tab [emptyDecl sym] start .null .init := by
  refine ⟨?_, [emptyDecl sym], ?_⟩
  · intro node mem
    obtain rfl := List.mem_singleton.mp mem
    refine ⟨?_, nofun⟩
    have entry : tab.hasEntry sym = true := hasEntry_iff.mpr ⟨_, declared.entry⟩
    simp [emptyDecl, isSentence, isStmt, isIdLeaf, AstNode.isNull, entry]
  · simp only [evalSentences, emptyDecl, eval]
    rfl

/-- The verdict is independent of what came before exactly if `ret` is not consulted. -/
theorem verdict_independent_iff (env : Env) {tab : SymbolTable} (methods : tab.MethodsOk)
    (line : Int) {sym : IdPtr} {block : AstNode} {method : MethodInfo}
    (declared : tab.Declared sym method) (shape : isBranch tab block = true) :
    VerdictIndependent env tab (.methodDecl line sym block) ↔
      method.returnType = .void ∨ (method.isExtern = false ∧
        (bodyWritesRet env block = true ∨ stmtAccepted env tab method.retType block = false)) := by
  constructor
  · intro independent
    have same := independent .int [] [emptyDecl sym] .int .null .init .init
      (nothing_before env tab .int) (emptyDecl_before env declared .int)
    rw [verdict_eq methods declared shape (nothing_before env tab .int),
      verdict_eq methods declared shape (emptyDecl_before env declared .int)] at same
    by_contra dependent
    simp only [not_or, not_and, Bool.not_eq_true, Bool.not_eq_false] at dependent
    obtain ⟨value, body⟩ := dependent
    have passes : method.isExtern = true ∨ bodyWritesRet env block = false := by
      rcases Bool.eq_false_or_eq_true method.isExtern with isExtern | own
      · exact .inl isExtern
      · exact .inr (body own).1
    have checks : (method.isExtern || stmtAccepted env tab method.retType block) = true := by
      rcases Bool.eq_false_or_eq_true method.isExtern with isExtern | own
      · rw [isExtern, Bool.true_or]
      · rw [(body own).2, Bool.or_true]
    simp [methodAccepted, retAfterMethod_passed passes, checks, value] at same
  · intro condition start before before' ret ret' st st' h h'
    rw [verdict_eq methods declared shape h, verdict_eq methods declared shape h']
    rcases condition with void | ⟨own, writes | rejected⟩
    · simp [methodAccepted, void]
    · rw [methodAccepted, methodAccepted, retAfterMethod_written own writes ret ret']
    · simp [methodAccepted, own, rejected]

/-- `integer x; integer y = 1; integer get_int() extern; integer main() { return 0; }`. -/
def externAfterDecls : ProgramSyn :=
  [.varDecl ⟨1, .integer, .of "x", none⟩,
    .varDecl ⟨2, .integer, .of "y", some (.integerLiteral 2 1)⟩,
    .methodDecl ⟨3, some .integer, .of "get_int", [], none⟩,
    .methodDecl ⟨4, some .integer, .of "main", [],
      some (.mk 4 [] (.cons (.returnExpr 4 (.integerLiteral 4 0)) .nil))⟩]

/-- `get_int` is rejected after `x` alone and accepted after `x` and `y`. -/
theorem verdict_depends_on_prefix :
    ∃ ps, parse externAfterDecls = .ok ps ∧
      ∃ method ∈ ps.headAst, ¬ VerdictIndependent (.sample false) ps.tab method := by
  refine ⟨_, rfl, _, .tail _ (.tail _ (.head _)), fun independent => ?_⟩
  have ok := parse_sentencesOk (rfl : parse externAfterDecls = .ok _)
  have top := fun node (mem : node ∈ _) => ok.topLevel mem
  have same := independent .int _ _ .null .int _ _
    ⟨fun node mem => top node (List.mem_of_mem_take (i := 1) mem), _, rfl⟩
    ⟨fun node mem => top node (List.mem_of_mem_take (i := 2) mem), _, rfl⟩
  revert same
  decide

/-- The verdict on `main`, whose body returns, is the same after any declarations. -/
theorem verdict_independent_main :
    ∃ ps, parse externAfterDecls = .ok ps ∧ ∃ line sym block,
      AstNode.methodDecl line sym block ∈ ps.headAst ∧
      VerdictIndependent (.sample false) ps.tab (.methodDecl line sym block) := by
  refine ⟨_, rfl, _, _, _, .tail _ (.tail _ (.tail _ (.head _))), ?_⟩
  have wf := (parse_sentencesOk (rfl : parse externAfterDecls = .ok _)).wf
  exact (verdict_independent_iff (.sample false) wf.methods 4 ⟨rfl, rfl, by decide⟩ rfl).mpr
    (.inr ⟨rfl, .inl rfl⟩)

end Ctds
