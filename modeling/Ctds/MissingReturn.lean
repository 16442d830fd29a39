import Ctds.TopLevel

/-! The check for a missing return against the paths through a body. A path takes either
branch of an if, an absent branch is empty, and a loop runs any number of times. -/

namespace Ctds

open Fallible SymbolTable

mutual
/-- The paths through a statement; the flag tells whether the path executes a return. -/
inductive Path : AstNode → Bool → Prop
  | absent : Path .null false
  | ret {line arity left right} : Path (.common line arity .ret left right) true
  | common {line arity op left right} : op ≠ .ret → Path (.common line arity op left right) false
  | call {line name numArgs args} : Path (.methodCall line name numArgs args) false
  | thenBranch {line condition thenBlock elseBlock returned} : Path thenBlock returned →
      Path (.ifStmt line condition thenBlock elseBlock) returned
  | elseBranch {line condition thenBlock elseBlock returned} : Path elseBlock returned →
      Path (.ifStmt line condition thenBlock elseBlock) returned
  | skip {line condition block} : Path (.whileStmt line condition block) false
  | leave {line condition block} : Path block true → Path (.whileStmt line condition block) true
  | again {line condition block returned} : Path block false →
      Path (.whileStmt line condition block) returned →
      Path (.whileStmt line condition block) returned
  | block {line stmts returned} : PathList stmts returned → Path (.block line stmts) returned
inductive PathList : AstNodeList → Bool → Prop
  | nil : PathList .nil false
  | returns {first next} : Path first true → PathList (.cons first next) true
  | falls {first next returned} : Path first false → PathList next returned →
      PathList (.cons first next) returned
end

mutual
/-- A return in the list itself, or in a nested block, or in both branches of an if. -/
def covers : AstNode → Bool
  | .common _ _ op _ _ => decide (op = .ret)
  | .ifStmt _ _ thenBlock elseBlock => covers thenBlock && covers elseBlock
  | .block _ stmts => coversList stmts
  | _ => false
def coversList : AstNodeList → Bool
  | .nil => false
  | .cons first next => covers first || coversList next
end

mutual
theorem path_of_not_covers {tab : SymbolTable} :
    ∀ (node : AstNode), (node.isNull || isStmt tab node) = true → covers node = false →
      Path node false
  | .null, _, _ => .absent
  | .common _ _ op _ _, _, open' => .common (by simpa [covers] using open')
  | .ifStmt _ _ thenBlock elseBlock, shape, open' => by
    simp only [AstNode.isNull, Bool.false_or, isStmt_ifStmt, Bool.and_eq_true] at shape
    simp only [covers, Bool.and_eq_false_iff] at open'
    have branch : ∀ node, isBranch tab node = true → (node.isNull || isStmt tab node) = true := by
      intro node h
      simp only [isBranch, Bool.or_eq_true, Bool.and_eq_true] at h ⊢
      exact h.imp_right And.right
    rcases open' with open' | open'
    · exact .thenBranch (path_of_not_covers thenBlock (branch _ shape.1.2) open')
    · exact .elseBranch (path_of_not_covers elseBlock (branch _ shape.2) open')
  | .whileStmt .., _, _ => .skip
  | .methodDecl .., shape, _ => by simp [AstNode.isNull, isStmt] at shape
  | .methodCall .., _, _ => .call
  | .block _ stmts, shape, open' => by
    simp only [AstNode.isNull, Bool.false_or, isStmt] at shape
    exact .block (pathList_of_not_covers stmts shape (by simpa [covers] using open'))
  | .leaf .., shape, _ => by simp [AstNode.isNull, isStmt] at shape
theorem pathList_of_not_covers {tab : SymbolTable} :
    ∀ (stmts : AstNodeList), areStmts tab stmts = true → coversList stmts = false →
      PathList stmts false
  | .nil, _, _ => .nil
  | .cons first next, shape, open' => by
    simp only [areStmts, Bool.and_eq_true] at shape
    simp only [coversList, Bool.or_eq_false_iff] at open'
    exact .falls (path_of_not_covers first
      (by simp [shape.1] : (first.isNull || isStmt tab first) = true) open'.1)
      (pathList_of_not_covers next shape.2 open'.2)
end

mutual
theorem not_path_of_covers :
    ∀ (node : AstNode), covers node = true → ¬ Path node false
  | .common _ _ op _ _, covered, path => by
    cases path with
    | common notRet => simp [covers, notRet] at covered
  | .ifStmt _ _ thenBlock elseBlock, covered, path => by
    simp only [covers, Bool.and_eq_true] at covered
    cases path with
    | thenBranch path => exact not_path_of_covers thenBlock covered.1 path
    | elseBranch path => exact not_path_of_covers elseBlock covered.2 path
  | .block _ stmts, covered, path => by
    simp only [covers] at covered
    cases path with
    | block path => exact not_pathList_of_covers stmts covered path
  | .null, covered, _ | .whileStmt .., covered, _ | .methodDecl .., covered, _
  | .methodCall .., covered, _ | .leaf .., covered, _ => by simp [covers] at covered
theorem not_pathList_of_covers :
    ∀ (stmts : AstNodeList), coversList stmts = true → ¬ PathList stmts false
  | .nil, covered, _ => by simp [coversList] at covered
  | .cons first next, covered, path => by
    simp only [coversList, Bool.or_eq_true] at covered
    cases path with
    | falls head tail =>
      rcases covered with covered | covered
      · exact not_path_of_covers first covered head
      · exact not_pathList_of_covers next covered tail
end

theorem coversList_of_returns {stmts : AstNodeList} (h : listReturns stmts = true) :
    coversList stmts = true := by
  induction stmts using AstNodeList.list_induction with
  | nil => simp [listReturns] at h
  | cons first next ih =>
    simp only [listReturns, Bool.or_eq_true] at h
    simp only [coversList, Bool.or_eq_true]
    refine h.imp (fun returns => ?_) ih
    unfold AstNode.isReturn at returns
    split at returns
    · simp [covers]
    · cases returns

/-- What acceptance says of a body: it returns itself, or a nested return left the flag up
while `ret` still held what an earlier declaration had put there. -/
theorem accepted_returns {env : Env} {tab : SymbolTable} {method : MethodInfo} {block : AstNode}
    {ret : RetType} (own : method.isExtern = false) (value : method.returnType ≠ .void)
    (accepted : methodAccepted env tab method block ret = true) :
    listReturns (blockStmts block) = true ∨
      (flagAfterStmts env false (blockStmts block) = true ∧ ret ≠ .null) := by
  simp only [methodAccepted, retAfterMethod, own, Bool.false_eq_true, if_false, Bool.false_or,
    Bool.and_eq_true, Bool.not_eq_true', decide_eq_false_iff_not, value, ne_eq, not_false_eq_true,
    and_true, retAfterBlock] at accepted
  obtain ⟨-, notNull⟩ := accepted
  cases returns : listReturns (blockStmts block) with
  | true => exact .inl rfl
  | false =>
    cases up : flagAfterStmts env false (blockStmts block) with
    | false => simp [returns, up] at notNull
    | true => exact .inr ⟨rfl, by simpa [returns, up] using notNull⟩

section Checked

variable {env : Env} {prog : ProgramSyn} {ps : ParserState}
  {sentences pre post out : List AstNode} {line : Int} {sym : IdPtr} {block : AstNode}
  {method : MethodInfo} {ret : RetType} {st : SemState} (parsed : parse prog = .ok ps)
  (accepted : semanticAnalyzer env ps.tab ps.headAst = .ok sentences)
  (split : ps.headAst = pre ++ .methodDecl line sym block :: post)
  (declared : ps.tab.Declared sym method) (own : method.isExtern = false)

include parsed split

theorem method_isBranch : isBranch ps.tab block = true := by
  have shape := (parse_sentencesOk parsed).shape (.methodDecl line sym block) (split ▸ by simp)
  simp only [isSentence, Bool.and_eq_true] at shape
  exact shape.2

include accepted declared

theorem method_verdict (before : evalSentences env ps.tab pre env.uninitRet .init =
    .ok (out, ret, st)) : methodAccepted env ps.tab method block ret = true := by
  have ok := parse_sentencesOk parsed
  have idle := evalSentences_idle ok.wf.methods
    (fun node mem => ok.topLevel (split ▸ List.mem_append_left _ mem)) idle_init before
  obtain ⟨e, checked⟩ := eval_of_accepted accepted split before
  exact ((eval_methodDecl env ok.wf.methods declared (method_isBranch parsed split) ret
    idle.down).of_ok checked).1

include own

theorem method_block (before : evalSentences env ps.tab pre env.uninitRet .init =
    .ok (out, ret, st)) :
    ∃ line' stmts, block = .block line' stmts ∧ areStmts ps.tab stmts = true := by
  have verdict := method_verdict parsed accepted split declared before
  rcases isBranch_iff.mp (method_isBranch parsed split) with rfl | ⟨line', stmts, rfl, shape⟩
  · simp [methodAccepted, own, stmtAccepted] at verdict
  · exact ⟨line', stmts, rfl, shape⟩

/-- The check does its work where nothing is left from an earlier declaration: if `ret` comes
in as NULL_TYPE, or the flag is down after the body's statements, every path returns. -/
theorem every_path_returns (value : method.returnType ≠ .void)
    (before : evalSentences env ps.tab pre env.uninitRet .init = .ok (out, ret, st))
    (clean : ret = .null ∨ flagAfterStmts env false (blockStmts block) = false) :
    ¬ Path block false := by
  have verdict := method_verdict parsed accepted split declared before
  obtain ⟨line', stmts, rfl, -⟩ := method_block parsed accepted split declared own before
  have returns : listReturns stmts = true := by
    rcases accepted_returns own value verdict with returns | ⟨up, passed⟩
    · exact returns
    · rcases clean with null | down
      · exact absurd null passed
      · rw [up] at down
        cases down
  intro path
  cases path with
  | block path => exact not_pathList_of_covers stmts (coversList_of_returns returns) path

end Checked

/-- In an accepted program every path of a method returns exactly if `ret` came in as
NULL_TYPE, or the flag is down after the body's statements, or the returns cover. -/
theorem missing_return_iff {env : Env} {prog : ProgramSyn} {ps : ParserState}
    {sentences pre post out : List AstNode} {line : Int} {sym : IdPtr} {block : AstNode}
    {method : MethodInfo} {ret : RetType} {st : SemState} (parsed : parse prog = .ok ps)
    (accepted : semanticAnalyzer env ps.tab ps.headAst = .ok sentences)
    (split : ps.headAst = pre ++ .methodDecl line sym block :: post)
    (declared : ps.tab.Declared sym method) (own : method.isExtern = false)
    (value : method.returnType ≠ .void)
    (before : evalSentences env ps.tab pre env.uninitRet .init = .ok (out, ret, st)) :
    ¬ Path block false ↔
      ret = .null ∨ flagAfterStmts env false (blockStmts block) = false ∨
        coversList (blockStmts block) = true := by
  constructor
  · intro noPath
    obtain ⟨line', stmts, rfl, shape⟩ := method_block parsed accepted split declared own before
    by_contra none
    simp only [not_or, Bool.not_eq_true] at none
    exact noPath (.block (pathList_of_not_covers stmts shape none.2.2))
  · rintro (null | down | covered)
    · exact every_path_returns parsed accepted split declared own value before (.inl null)
    · exact every_path_returns parsed accepted split declared own value before (.inr down)
    · intro path
      obtain ⟨line', stmts, rfl, -⟩ := method_block parsed accepted split declared own before
      cases path with
      | block path => exact not_pathList_of_covers stmts covered path

/-- `integer f() { return 1; } integer g(bool b) { if (b) { return 1; } }` and a `main`. -/
def staleRet : ProgramSyn :=
  [.methodDecl ⟨1, some .integer, .of "f", [],
      some (.mk 1 [] (.cons (.returnExpr 1 (.integerLiteral 1 1)) .nil))⟩,
    .methodDecl ⟨2, some .integer, .of "g", [⟨2, .bool, .of "b"⟩],
      some (.mk 2 [] (.cons (.ifThen 2 (.id 2 (.of "b"))
        (.mk 2 [] (.cons (.returnExpr 2 (.integerLiteral 2 1)) .nil))) .nil))⟩,
    .methodDecl ⟨3, some .integer, .of "main", [],
      some (.mk 3 [] (.cons (.returnExpr 3 (.integerLiteral 3 0)) .nil))⟩]

def staleRetBody : AstNode :=
  .block 2 (.cons (.ifStmt 2 (.leaf 2 (.id 1))
    (.block 2 (.cons (.common 2 .unary .ret (.leaf 2 (.int 1)) .null) .nil)) .null) .nil)

def staleRetMethod : MethodInfo :=
  ⟨.of "g", 1, .int, [⟨.of "b", .bool⟩], some 0, false⟩

/-- The program is accepted, and `g` ends without a return when `b` is false. -/
theorem missing_return_unsound :
    ∃ ps sentences, parse staleRet = .ok ps ∧
      semanticAnalyzer (.sample false) ps.tab ps.headAst = .ok sentences ∧
      ∃ line sym block method, AstNode.methodDecl line sym block ∈ ps.headAst ∧
        ps.tab.Declared sym method ∧ method.isExtern = false ∧ method.returnType ≠ .void ∧
        Path block false := by
  obtain ⟨checked, accepted⟩ :=
    isOk_iff.mp (by decide +kernel : (frontEnd (.sample false) staleRet).isOk = true)
  obtain ⟨ps, parsed, -, analyzed⟩ := frontEnd_ok accepted
  have facts : (parse staleRet).toOption.map
        (fun ps => (ps.headAst[1]?, ps.tab.entry 2, ps.tab.findGlobal staleRetMethod.name)) =
      some (some (.methodDecl 2 2 staleRetBody), some (.methodDecl staleRetMethod), some 2) := by
    decide +kernel
  simp only [parsed, Except.toOption, Option.map_some, Option.some.injEq, Prod.mk.injEq] at facts
  obtain ⟨node, entry, found⟩ := facts
  refine ⟨ps, _, parsed, analyzed, 2, 2, staleRetBody, staleRetMethod, List.mem_of_getElem? node,
    ⟨entry, found, by decide⟩, rfl, by decide, ?_⟩
  exact .block (.falls (.elseBranch .absent) .nil)

def staleRetMain : AstNode :=
  .block 3 (.cons (.common 3 .unary .ret (.leaf 3 (.int 0)) .null) .nil)

def staleRetMainMethod : MethodInfo := ⟨.of "main", 0, .int, [], some 4, false⟩

/-- In `main` of the same program, checked after `f` and `g`, every path returns. -/
theorem missing_return_main :
    ∃ ps, parse staleRet = .ok ps ∧ AstNode.methodDecl 3 3 staleRetMain ∈ ps.headAst ∧
      ¬ Path staleRetMain false := by
  obtain ⟨checked, accepted⟩ :=
    isOk_iff.mp (by decide +kernel : (frontEnd (.sample false) staleRet).isOk = true)
  obtain ⟨ps, parsed, -, analyzed⟩ := frontEnd_ok accepted
  have facts : (parse staleRet).toOption.map
        (fun ps => (ps.headAst.drop 2, ps.tab.entry 3, ps.tab.findGlobal staleRetMainMethod.name)) =
      some ([.methodDecl 3 3 staleRetMain], some (.methodDecl staleRetMainMethod), some 3) := by
    decide +kernel
  simp only [parsed, Except.toOption, Option.map_some, Option.some.injEq, Prod.mk.injEq] at facts
  obtain ⟨last, entry, found⟩ := facts
  have split : ps.headAst = ps.headAst.take 2 ++ .methodDecl 3 3 staleRetMain :: [] := by
    rw [← last, List.take_append_drop]
  obtain ⟨out, ret, st, before⟩ := before_of_accepted analyzed split
  refine ⟨ps, parsed, split ▸ by simp, ?_⟩
  exact (missing_return_iff parsed analyzed split ⟨entry, found, by decide⟩ rfl (by decide)
    before).mpr (.inr (.inr (by decide)))

end Ctds
