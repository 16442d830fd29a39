import Ctds.Codegen
import Ctds.DeadBranches

/-! What the code generator gets from an accepted program: the sentences the parser built,
with their expressions folded and dead branches gone, in the same shape. -/

namespace Ctds

open Fallible SymbolTable

theorem foldOperator_isExpr {tab : SymbolTable} {op : Operator} {a b : BitVec 32}
    {value : LeafValue} (h : foldOperator op a b = some value) (line : Int) :
    isExpr tab (.leaf line value) = true := by
  rcases foldOperator_value h with ⟨-, v, rfl⟩ | ⟨-, v, rfl, bit⟩
  · rfl
  · simpa [isExpr] using bit

theorem foldNode_isExpr {env : Env} {tab : SymbolTable} {op : Operator} {left right : AstNode}
    (binary : op.isBinary = true) (leftShape : isExpr tab left = true)
    (rightShape : isExpr tab right = true) (line : Int) :
    isExpr tab (foldNode env line op left right) = true := by
  unfold foldNode
  split
  · simp [isExpr, binary, leftShape, rightShape]
  · split
    · simp [isExpr, binary, leftShape, rightShape]
    · next folded => exact foldOperator_isExpr folded line

theorem foldTrees_length (env : Env) (args : AstNodeList) :
    (foldTrees env args).length = args.length := by
  induction args using AstNodeList.list_induction with
  | nil => rfl
  | cons first next ih => simp [foldTrees, AstNodeList.length, ih]

mutual
theorem foldTree_isExpr (env : Env) (tab : SymbolTable) :
    ∀ (node : AstNode), isExpr tab node = true → isExpr tab (foldTree env node) = true
  | .leaf line value, shape => by simpa only [foldTree] using shape
  | .common line .binary op left right, shape => by
    simp only [isExpr, Bool.and_eq_true] at shape
    rw [foldTree]
    exact foldNode_isExpr shape.1.1 (foldTree_isExpr env tab left shape.1.2)
      (foldTree_isExpr env tab right shape.2) line
  | .common line .unary op left right, shape => by
    simp only [isExpr, Bool.and_eq_true] at shape
    simp only [foldTree, isExpr, Bool.and_eq_true]
    exact ⟨⟨shape.1.1, foldTree_isExpr env tab left shape.1.2⟩, shape.2⟩
  | .methodCall line name numArgs args, shape => by
    simp only [isExpr, Bool.and_eq_true] at shape
    simp only [foldTree, isExpr, Bool.and_eq_true, foldTrees_length]
    exact ⟨shape.1, foldTrees_areExprs env tab args shape.2⟩
  | .null, shape | .ifStmt .., shape | .whileStmt .., shape | .methodDecl .., shape
  | .block .., shape => by simp [isExpr] at shape
theorem foldTrees_areExprs (env : Env) (tab : SymbolTable) :
    ∀ (args : AstNodeList), areExprs tab args = true → areExprs tab (foldTrees env args) = true
  | .nil, _ => rfl
  | .cons first next, shape => by
    simp only [areExprs, Bool.and_eq_true] at shape
    simp only [foldTrees, areExprs, Bool.and_eq_true]
    exact ⟨foldTree_isExpr env tab first shape.1, foldTrees_areExprs env tab next shape.2⟩
end

theorem foldTree_isIdLeaf {env : Env} {tab : SymbolTable} {node : AstNode}
    (shape : isIdLeaf tab node = true) : foldTree env node = node := by
  unfold isIdLeaf at shape
  split at shape
  · simp [foldTree]
  · cases shape

theorem foldTree_exprOrNull {env : Env} {tab : SymbolTable} {node : AstNode}
    (shape : (node.isNull || isExpr tab node) = true) :
    ((foldTree env node).isNull || isExpr tab (foldTree env node)) = true := by
  rw [Bool.or_eq_true] at shape ⊢
  rcases shape with null | shape
  · rw [isNull_iff.mp null, foldTree_null]
    exact .inl rfl
  · exact .inr (foldTree_isExpr env tab node shape)

theorem blockStmts_areStmts {tab : SymbolTable} {node : AstNode}
    (shape : isBranch tab node = true) :
    areStmts tab (blockStmts node) = true := by
  rcases isBranch_iff.mp shape with rfl | ⟨line, stmts, rfl, stmtShapes⟩
  · rfl
  · exact stmtShapes

mutual
theorem rewrite_isStmt (env : Env) (tab : SymbolTable) :
    ∀ (node : AstNode), isStmt tab node = true → isStmt tab (rewrite env node) = true
  | .common line arity op left right, shape => by
    cases op with
    | decl =>
      simp only [isStmt, Bool.and_eq_true] at shape
      simp only [rewrite, isStmt, Bool.and_eq_true, foldTree_isIdLeaf shape.1]
      exact ⟨shape.1, foldTree_exprOrNull shape.2⟩
    | assign =>
      simp only [isStmt, Bool.and_eq_true] at shape
      simp only [rewrite, isStmt, Bool.and_eq_true, foldTree_isIdLeaf shape.1.2]
      exact ⟨shape.1, foldTree_isExpr env tab right shape.2⟩
    | ret =>
      simp only [isStmt, Bool.and_eq_true] at shape
      simp only [rewrite, isStmt, Bool.and_eq_true, isNull_iff.mp shape.2, foldTree_null]
      exact ⟨foldTree_exprOrNull shape.1, rfl⟩
    | _ => simp [isStmt] at shape
  | .ifStmt line condition thenBlock elseBlock, shape => by
    rw [isStmt_ifStmt] at shape
    simp only [Bool.and_eq_true] at shape
    have thenShape := rewrite_isBranch env tab thenBlock shape.1.2
    have elseShape := rewrite_isBranch env tab elseBlock shape.2
    simp only [rewrite]
    split
    · rw [isStmt_ifStmt, foldTree_isExpr env tab condition shape.1.1, thenShape, elseShape]
      rfl
    · rw [isStmt]
      exact blockStmts_areStmts thenShape
    · rw [isStmt]
      exact blockStmts_areStmts elseShape
  | .whileStmt line condition block, shape => by
    rw [isStmt_whileStmt] at shape
    simp only [Bool.and_eq_true] at shape
    simp only [rewrite]
    split
    · rfl
    · rw [isStmt_whileStmt, foldTree_isExpr env tab condition shape.1,
        rewrite_isBranch env tab block shape.2]
      rfl
  | .methodCall line name numArgs args, shape => by
    simp only [isStmt, Bool.and_eq_true] at shape
    simp only [rewrite, isStmt, Bool.and_eq_true, foldTrees_length]
    exact ⟨shape.1, foldTrees_areExprs env tab args shape.2⟩
  | .block line stmts, shape => by
    simp only [isStmt] at shape
    simp only [rewrite, isStmt]
    exact rewriteStmts_areStmts env tab stmts shape
  | .null, shape | .methodDecl .., shape | .leaf .., shape => by simp [isStmt] at shape
theorem rewrite_isBranch (env : Env) (tab : SymbolTable) :
    ∀ (node : AstNode), isBranch tab node = true → isBranch tab (rewrite env node) = true
  | .null, _ => by simp [rewrite, isBranch, AstNode.isNull]
  | .block line stmts, shape => by
    simp only [isBranch, AstNode.isNull, AstNode.isBlock, isStmt, Bool.false_or,
      Bool.true_and] at shape
    simp only [rewrite, isBranch, AstNode.isNull, AstNode.isBlock, isStmt, Bool.false_or,
      Bool.true_and]
    exact rewriteStmts_areStmts env tab stmts shape
  | .common .., shape | .ifStmt .., shape | .whileStmt .., shape | .methodDecl .., shape
  | .methodCall .., shape | .leaf .., shape => by
    simp [isBranch, AstNode.isNull, AstNode.isBlock] at shape
theorem rewriteStmts_areStmts (env : Env) (tab : SymbolTable) :
    ∀ (stmts : AstNodeList), areStmts tab stmts = true →
      areStmts tab (rewriteStmts env stmts) = true
  | .nil, _ => rfl
  | .cons first next, shape => by
    simp only [areStmts, Bool.and_eq_true] at shape
    simp only [rewriteStmts, areStmts, Bool.and_eq_true]
    exact ⟨rewrite_isStmt env tab first shape.1, rewriteStmts_areStmts env tab next shape.2⟩
end

/-- What the analyzer leaves of a top-level sentence. -/
def rewriteSentence (env : Env) (tab : SymbolTable) : AstNode → AstNode
  | .methodDecl line sym block =>
    match tab.entry sym with
    | none => .methodDecl line sym block
    | some info => .methodDecl line sym (rewriteBody env info.methodView block)
  | node => rewrite env node

theorem eval_topLevel_tree {env : Env} {tab : SymbolTable} (methods : tab.MethodsOk)
    {node : AstNode} (top : TopLevel tab node) {ret : RetType} {st : SemState} {e : Evaluated}
    (idle : Idle st) (h : eval env tab .methodDecl node ret st = .ok e) :
    e.tree = rewriteSentence env tab node := by
  rcases topLevel_cases top with ⟨line, arity, left, right, rfl⟩ |
    ⟨line, sym, block, method, rfl, declared, shape⟩
  · exact ((eval_decl env methods top.shape).of_ok h).2.tree
  · rw [((eval_methodDecl env methods declared shape ret idle.down).of_ok h).2.tree]
    simp [rewriteSentence, declared.entry, SymbolInfo.methodView]

theorem evalSentences_trees {env : Env} {tab : SymbolTable} (methods : tab.MethodsOk)
    {sentences out : List AstNode} (top : ∀ node ∈ sentences, TopLevel tab node)
    {ret ret' : RetType} {st st' : SemState} (idle : Idle st)
    (h : evalSentences env tab sentences ret st = .ok (out, ret', st')) :
    out = sentences.map (rewriteSentence env tab) := by
  induction sentences generalizing ret st out with
  | nil =>
    simp only [evalSentences, Except.ok.injEq, Prod.mk.injEq] at h
    exact h.1.symm
  | cons sentence rest ih =>
    simp only [evalSentences, bind_eq_ok, pure_eq_ok, Prod.mk.injEq] at h
    obtain ⟨e, first, ⟨out', ret₁, st₁⟩, others, rfl, rfl, rfl⟩ := h
    have here := top sentence List.mem_cons_self
    rw [List.map_cons, ← eval_topLevel_tree methods here idle first,
      ih (fun node mem => top node (List.mem_cons_of_mem sentence mem))
        (eval_topLevel_idle methods here idle first) others]

/-- What holds of every program that reaches code generation. -/
structure Compilable (checked : Checked) : Prop where
  wf : checked.tab.WellFormed
  shape : ∀ node ∈ checked.headAst, isSentence checked.tab node = true
  methods : ∀ line sym block, AstNode.methodDecl line sym block ∈ checked.headAst →
    ∃ method, checked.tab.Declared sym method ∧ BodyOk method block
  distinct : (checked.headAst.filterMap methodSym?).Nodup

theorem rewriteSentence_isSentence {env : Env} {tab : SymbolTable} {node : AstNode}
    (shape : isSentence tab node = true) :
    isSentence tab (rewriteSentence env tab node) = true := by
  unfold isSentence at shape
  split at shape
  · exact rewrite_isStmt env tab _ shape
  · next line sym block =>
    rw [Bool.and_eq_true] at shape
    obtain ⟨info, entry⟩ := hasEntry_iff.mp shape.1
    simp only [rewriteSentence, entry, isSentence, rewriteBody, shape.1, Bool.true_and]
    split
    · exact shape.2
    · exact rewrite_isBranch env tab block shape.2
  · cases shape

theorem rewriteSentence_methodDecl {env : Env} {tab : SymbolTable} {node : AstNode}
    (shape : isSentence tab node = true) {line : Int} {sym : IdPtr} {block : AstNode}
    (eq : rewriteSentence env tab node = .methodDecl line sym block) :
    ∃ info body, tab.entry sym = some info ∧ node = .methodDecl line sym body ∧
      block = rewriteBody env info.methodView body := by
  unfold isSentence at shape
  split at shape
  · simp [rewriteSentence, rewrite] at eq
  · rw [Bool.and_eq_true] at shape
    obtain ⟨info, entry⟩ := hasEntry_iff.mp shape.1
    simp only [rewriteSentence, entry, AstNode.methodDecl.injEq] at eq
    obtain ⟨rfl, rfl, rfl⟩ := eq
    exact ⟨info, _, entry, rfl, rfl⟩
  · cases shape

theorem rewriteSentence_methodSym {env : Env} {tab : SymbolTable} {node : AstNode}
    (shape : isSentence tab node = true) :
    methodSym? (rewriteSentence env tab node) = methodSym? node := by
  unfold isSentence at shape
  split at shape
  · simp [rewriteSentence, rewrite, methodSym?]
  · rw [Bool.and_eq_true] at shape
    obtain ⟨info, entry⟩ := hasEntry_iff.mp shape.1
    simp [rewriteSentence, entry, methodSym?]
  · cases shape

theorem frontEnd_compilable {env : Env} {prog : ProgramSyn} {checked : Checked}
    (h : frontEnd env prog = .ok checked) : Compilable checked := by
  obtain ⟨ps, parsed, tab, analyzed⟩ := frontEnd_ok h
  have ok := parse_sentencesOk parsed
  simp only [semanticAnalyzer, bind_eq_ok] at analyzed
  obtain ⟨⟨out, ret, st⟩, all, last⟩ := analyzed
  have trees := evalSentences_trees ok.wf.methods (fun node mem => ok.topLevel mem) idle_init all
  have head : checked.headAst = ps.headAst.map (rewriteSentence env ps.tab) := by
    rw [← trees]
    dsimp only at last
    split at last
    · exact (Except.ok.inj last).symm
    · cases last
  refine ⟨tab ▸ ok.wf, ?_, ?_, ?_⟩
  · intro node mem
    rw [head] at mem
    obtain ⟨old, here, rfl⟩ := List.mem_map.mp mem
    rw [tab]
    exact rewriteSentence_isSentence (ok.shape old here)
  · intro line sym block mem
    rw [head] at mem
    obtain ⟨old, here, eq⟩ := List.mem_map.mp mem
    obtain ⟨info, body, entry, rfl, rfl⟩ := rewriteSentence_methodDecl (ok.shape old here) eq
    obtain ⟨method, declared, bodyOk⟩ := ok.methods line sym body here
    rw [declared.entry, Option.some.injEq] at entry
    subst entry
    refine ⟨method, tab ▸ declared, fun isExtern => ?_, bodyOk.args⟩
    exact (if_pos isExtern).trans (bodyOk.externDecl isExtern)
  · rw [head, List.filterMap_map]
    have same : ∀ node ∈ ps.headAst, (methodSym? ∘ rewriteSentence env ps.tab) node =
        methodSym? node := fun node mem => rewriteSentence_methodSym (ok.shape node mem)
    rw [List.filterMap_congr same]
    exact ok.distinct

end Ctds
