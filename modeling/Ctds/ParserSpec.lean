import Ctds.Scopes

/-! What the parser's actions establish: the table stays a stack of frames, the trees
have the shape of `isStmt`, and every method node leads to the symbol of its method. -/

namespace Ctds

open Fallible SymbolTable

theorem findFrom_hasEntry {tab : SymbolTable} {name : Ident} {fuel : Nat} {start : Option IdPtr}
    {p : IdPtr} (h : tab.findFrom name fuel start = some p) : tab.hasEntry p = true := by
  induction fuel generalizing start with
  | zero => cases start <;> simp [findFrom] at h
  | succ fuel ih =>
    cases start with
    | none => simp [findFrom] at h
    | some q =>
      rw [findFrom] at h
      split at h
      · cases h
      · next cell here =>
        split at h
        · obtain rfl := Option.some.inj h
          exact hasEntry_iff.mpr ⟨cell.info, by simp [SymbolTable.entry, here]⟩
        · exact ih h

theorem findUp_hasEntry {tab : SymbolTable} {name : Ident} {fuel : Nat} {level : Option ScopePtr}
    {p : IdPtr} (h : tab.findUp name fuel level = some p) : tab.hasEntry p = true := by
  induction fuel generalizing level with
  | zero => cases level <;> simp [findUp] at h
  | succ fuel ih =>
    cases level with
    | none => simp [findUp] at h
    | some level =>
      rw [findUp] at h
      split at h
      · next q found =>
        obtain rfl := Option.some.inj h
        rw [findInBlock] at found
        split at found
        · cases found
        · exact findFrom_hasEntry found
      · exact ih h

theorem findVariable_hasEntry {tab : SymbolTable} {line : Int} {name : Ident} {p : IdPtr}
    (h : findVariable tab line name = .ok p) : tab.hasEntry p = true := by
  unfold findVariable at h
  split at h
  · cases h
  · next dir found =>
    obtain rfl := Except.ok.inj h
    exact findUp_hasEntry found

theorem toOperator_isBinary (op : BinarySyn) : op.toOperator.isBinary = true := by
  cases op <;> rfl

mutual
theorem exprAction_isExpr (tab : SymbolTable) :
    ∀ (expr : ExprSyn) {node : AstNode}, exprAction tab expr = .ok node → isExpr tab node = true
  | .id line name, node, h => by
    simp only [exprAction, bind_eq_ok, pure_eq_ok] at h
    obtain ⟨dir, found, rfl⟩ := h
    exact findVariable_hasEntry found
  | .methodCall line name callArgs, node, h => by
    simp only [exprAction, bind_eq_ok, pure_eq_ok] at h
    obtain ⟨args, built, rfl⟩ := h
    simp only [newMethodCallNode, isExpr, decide_true, Bool.true_and]
    exact exprListAction_areExprs tab callArgs built
  | .integerLiteral _ _, node, h => by
    simp only [exprAction, pure_eq_ok] at h
    exact h ▸ rfl
  | .trueLiteral _, node, h => by
    simp only [exprAction, pure_eq_ok] at h
    exact h ▸ rfl
  | .falseLiteral _, node, h => by
    simp only [exprAction, pure_eq_ok] at h
    exact h ▸ rfl
  | .binary line op left right, node, h => by
    simp only [exprAction, bind_eq_ok, pure_eq_ok] at h
    obtain ⟨l, hl, r, hr, rfl⟩ := h
    simp only [isExpr, Bool.and_eq_true]
    exact ⟨⟨toOperator_isBinary op, exprAction_isExpr tab left hl⟩, exprAction_isExpr tab right hr⟩
  | .uminus line expr, node, h => by
    simp only [exprAction, bind_eq_ok, pure_eq_ok] at h
    obtain ⟨e, he, rfl⟩ := h
    simp only [isExpr, exprAction_isExpr tab expr he, Bool.and_eq_true]
    exact ⟨⟨rfl, trivial⟩, rfl⟩
  | .neg line expr, node, h => by
    simp only [exprAction, bind_eq_ok, pure_eq_ok] at h
    obtain ⟨e, he, rfl⟩ := h
    simp only [isExpr, exprAction_isExpr tab expr he, Bool.and_eq_true]
    exact ⟨⟨rfl, trivial⟩, rfl⟩
  | .paren expr, node, h => exprAction_isExpr tab expr h
theorem exprListAction_areExprs (tab : SymbolTable) :
    ∀ (list : ExprListSyn) {nodes : AstNodeList}, exprListAction tab list = .ok nodes →
      areExprs tab nodes = true
  | .nil, nodes, h => by
    simp only [exprListAction, pure_eq_ok] at h
    exact h ▸ rfl
  | .cons expr rest, nodes, h => by
    simp only [exprListAction, bind_eq_ok, pure_eq_ok] at h
    obtain ⟨e, he, es, hes, rfl⟩ := h
    simp only [areExprs, Bool.and_eq_true]
    exact ⟨exprAction_isExpr tab expr he, exprListAction_areExprs tab rest hes⟩
end

/-- What every action does to the shared state. -/
structure Parsed (ps ps' : ParserState) : Prop where
  wf : ps'.tab.WellFormed
  ext : ps.tab.Extends ps'.tab
  head : ps'.headAst = ps.headAst
  args : ps'.currentArgsList = ps.currentArgsList

theorem Parsed.refl {ps : ParserState} (wf : ps.tab.WellFormed) : Parsed ps ps :=
  ⟨wf, .refl _, rfl, rfl⟩

theorem Parsed.trans {ps ps' ps'' : ParserState} (h : Parsed ps ps') (g : Parsed ps' ps'') :
    Parsed ps ps'' :=
  ⟨g.wf, h.ext.trans g.ext, g.head.trans h.head, g.args.trans h.args⟩

theorem varDeclAction_parsed {decl : VarDeclSyn} {ps ps' : ParserState} {node : AstNode}
    (h : varDeclAction decl ps = .ok (node, ps')) (wf : ps.tab.WellFormed) :
    Parsed ps ps' ∧ ∃ line arity left right, node = .common line arity .decl left right ∧
      isStmt ps'.tab node = true := by
  unfold varDeclAction at h
  cases init : decl.init with
  | some expr =>
    simp only [init, bind_eq_ok, pure_eq_ok, Prod.mk.injEq] at h
    obtain ⟨e, he, ⟨tab, dir⟩, added, rfl, rfl⟩ := h
    obtain ⟨wf', ext, entry⟩ := addId_keeps added wf
    refine ⟨⟨wf', ext, rfl, rfl⟩, _, _, _, _, rfl, ?_⟩
    have shaped := isExpr_mono ext.grows e (exprAction_isExpr ps.tab expr he)
    simp only [isStmt, isIdLeaf, shaped, Bool.or_true, Bool.and_true]
    exact hasEntry_iff.mpr ⟨_, entry⟩
  | none =>
    simp only [init, bind_eq_ok, pure_eq_ok, Prod.mk.injEq] at h
    obtain ⟨⟨tab, dir⟩, added, rfl, rfl⟩ := h
    obtain ⟨wf', ext, entry⟩ := addId_keeps added wf
    refine ⟨⟨wf', ext, rfl, rfl⟩, _, _, _, _, rfl, ?_⟩
    simp only [isStmt, isIdLeaf, AstNode.isNull, Bool.true_or, Bool.and_true]
    exact hasEntry_iff.mpr ⟨_, entry⟩

theorem varDeclsAction_parsed {decls : List VarDeclSyn} {ps ps' : ParserState}
    {nodes : AstNodeList} (h : varDeclsAction decls ps = .ok (nodes, ps'))
    (wf : ps.tab.WellFormed) : Parsed ps ps' ∧ areStmts ps'.tab nodes = true := by
  induction decls generalizing ps nodes with
  | nil =>
    simp only [varDeclsAction, pure_eq_ok, Prod.mk.injEq] at h
    obtain ⟨rfl, rfl⟩ := h
    exact ⟨.refl wf, rfl⟩
  | cons decl rest ih =>
    simp only [varDeclsAction, bind_eq_ok, pure_eq_ok, Prod.mk.injEq] at h
    obtain ⟨⟨node, ps₁⟩, first, ⟨more, ps₂⟩, next, rfl, rfl⟩ := h
    obtain ⟨one, -, -, -, -, -, shaped⟩ := varDeclAction_parsed first wf
    obtain ⟨others, shapes⟩ := ih next one.wf
    refine ⟨one.trans others, ?_⟩
    simp only [areStmts, Bool.and_eq_true]
    exact ⟨isStmt_mono others.ext.grows node shaped, shapes⟩

theorem openBlock_parsed {ps : ParserState} (wf : ps.tab.WellFormed) :
    Parsed ps (openBlock ps) := by
  unfold openBlock
  split
  · exact ⟨wf, .refl _, rfl, rfl⟩
  · obtain ⟨wf', ext⟩ := pushScope_keeps ps.tab wf
    exact ⟨wf', ext, rfl, rfl⟩

theorem closeBlock_parsed {ps : ParserState} (wf : ps.tab.WellFormed) :
    Parsed ps (closeBlock ps) := by
  unfold closeBlock
  split
  · obtain ⟨wf', ext⟩ := popScope_keeps ps.tab wf
    exact ⟨wf', ext, rfl, rfl⟩
  · exact .refl wf

theorem appendExpr_areStmts {tab : SymbolTable} {list : AstNodeList} {node : AstNode}
    (h : areStmts tab list = true) (g : isStmt tab node = true) :
    areStmts tab (appendExpr list node) = true := by
  induction list using AstNodeList.list_induction with
  | nil => cases node <;> simp_all [appendExpr, areStmts]
  | cons first next ih =>
    simp only [areStmts, Bool.and_eq_true] at h
    cases node <;> simp_all [appendExpr, areStmts]

theorem mergeBlock_isBranch {tab : SymbolTable} (line : Int) {decls stmts : AstNodeList}
    (h : areStmts tab decls = true) (g : areStmts tab stmts = true) :
    isBranch tab (mergeBlock line decls stmts) = true := by
  induction stmts using AstNodeList.list_induction generalizing decls with
  | nil =>
    cases decls with
    | nil => rfl
    | cons first next =>
      simpa [mergeBlock, isBranch, AstNode.isNull, AstNode.isBlock, isStmt] using h
  | cons it next ih =>
    simp only [areStmts, Bool.and_eq_true] at g
    have rest := ih (appendExpr_areStmts h g.1) g.2
    cases decls <;> exact rest

mutual
theorem statementAction_parsed :
    ∀ (statement : StmtSyn) {ps ps' : ParserState} {node : AstNode},
      statementAction statement ps = .ok (node, ps') → ps.tab.WellFormed →
      Parsed ps ps' ∧ (node.isNull || isStmt ps'.tab node) = true
  | .assign line name expr, ps, ps', node, h, wf => by
    simp only [statementAction, bind_eq_ok, pure_eq_ok, Prod.mk.injEq] at h
    obtain ⟨e, he, dir, found, rfl, rfl⟩ := h
    refine ⟨.refl wf, ?_⟩
    simp [isStmt, isIdLeaf, findVariable_hasEntry found, exprAction_isExpr _ expr he]
  | .methodCall line name callArgs, ps, ps', node, h, wf => by
    simp only [statementAction, bind_eq_ok, pure_eq_ok, Prod.mk.injEq] at h
    obtain ⟨args, built, rfl, rfl⟩ := h
    refine ⟨.refl wf, ?_⟩
    simp [newMethodCallNode, isStmt, exprListAction_areExprs _ callArgs built]
  | .ifThen line cond thenBlock, ps, ps', node, h, wf => by
    simp only [statementAction, bind_eq_ok, pure_eq_ok, Prod.mk.injEq] at h
    obtain ⟨c, hc, ⟨t, ps₁⟩, built, rfl, rfl⟩ := h
    obtain ⟨one, branch⟩ := blockAction_parsed thenBlock built wf
    refine ⟨one, ?_⟩
    have condition := isExpr_mono one.ext.grows c (exprAction_isExpr _ cond hc)
    rw [isStmt_ifStmt, condition, branch]
    rfl
  | .ifThenElse line cond thenBlock elseBlock, ps, ps', node, h, wf => by
    simp only [statementAction, bind_eq_ok, pure_eq_ok, Prod.mk.injEq] at h
    obtain ⟨c, hc, ⟨t, ps₁⟩, built, ⟨e, ps₂⟩, built', rfl, rfl⟩ := h
    obtain ⟨one, branch⟩ := blockAction_parsed thenBlock built wf
    obtain ⟨two, branch'⟩ := blockAction_parsed elseBlock built' one.wf
    have both := one.trans two
    refine ⟨both, ?_⟩
    have condition := isExpr_mono both.ext.grows c (exprAction_isExpr _ cond hc)
    rw [isStmt_ifStmt, condition, isBranch_mono two.ext.grows branch, branch']
    rfl
  | .whileLoop line cond block, ps, ps', node, h, wf => by
    simp only [statementAction, bind_eq_ok, pure_eq_ok, Prod.mk.injEq] at h
    obtain ⟨c, hc, ⟨b, ps₁⟩, built, rfl, rfl⟩ := h
    obtain ⟨one, branch⟩ := blockAction_parsed block built wf
    refine ⟨one, ?_⟩
    have condition := isExpr_mono one.ext.grows c (exprAction_isExpr _ cond hc)
    rw [isStmt_whileStmt, condition, branch]
    rfl
  | .returnExpr line expr, ps, ps', node, h, wf => by
    simp only [statementAction, bind_eq_ok, pure_eq_ok, Prod.mk.injEq] at h
    obtain ⟨e, he, rfl, rfl⟩ := h
    refine ⟨.refl wf, ?_⟩
    simp [isStmt, AstNode.isNull, exprAction_isExpr _ expr he]
  | .returnVoid line, ps, ps', node, h, wf => by
    simp only [statementAction, pure_eq_ok, Prod.mk.injEq] at h
    obtain ⟨rfl, rfl⟩ := h
    exact ⟨.refl wf, rfl⟩
  | .empty, ps, ps', node, h, wf => by
    simp only [statementAction, pure_eq_ok, Prod.mk.injEq] at h
    obtain ⟨rfl, rfl⟩ := h
    exact ⟨.refl wf, rfl⟩
  | .block block, ps, ps', node, h, wf => by
    simp only [statementAction] at h
    obtain ⟨one, branch⟩ := blockAction_parsed block h wf
    refine ⟨one, ?_⟩
    simp only [isBranch, Bool.or_eq_true, Bool.and_eq_true] at branch ⊢
    exact branch.imp_right And.right
theorem blockAction_parsed :
    ∀ (block : BlockSyn) {ps ps' : ParserState} {node : AstNode},
      blockAction block ps = .ok (node, ps') → ps.tab.WellFormed →
      Parsed ps ps' ∧ isBranch ps'.tab node = true
  | .mk line varDecls statements, ps, ps', node, h, wf => by
    simp only [blockAction, bind_eq_ok, pure_eq_ok, Prod.mk.injEq] at h
    obtain ⟨⟨decls, ps₁⟩, declared, ⟨stmts, ps₂⟩, stated, rfl, rfl⟩ := h
    have opened := openBlock_parsed wf
    obtain ⟨one, declShapes⟩ := varDeclsAction_parsed declared opened.wf
    obtain ⟨two, stmtShapes⟩ := statementsAction_parsed statements stated one.wf
    have closed := closeBlock_parsed two.wf
    refine ⟨((opened.trans one).trans two).trans closed, ?_⟩
    exact isBranch_mono closed.ext.grows
      (mergeBlock_isBranch line (areStmts_mono two.ext.grows decls declShapes) stmtShapes)
theorem statementsAction_parsed :
    ∀ (list : StmtListSyn) {ps ps' : ParserState} {nodes : AstNodeList},
      statementsAction list ps = .ok (nodes, ps') → ps.tab.WellFormed →
      Parsed ps ps' ∧ areStmts ps'.tab nodes = true
  | .nil, ps, ps', nodes, h, wf => by
    simp only [statementsAction, pure_eq_ok, Prod.mk.injEq] at h
    obtain ⟨rfl, rfl⟩ := h
    exact ⟨.refl wf, rfl⟩
  | .cons statement rest, ps, ps', nodes, h, wf => by
    simp only [statementsAction, bind_eq_ok, pure_eq_ok, Prod.mk.injEq] at h
    obtain ⟨⟨node, ps₁⟩, first, ⟨more, ps₂⟩, next, rfl, rfl⟩ := h
    obtain ⟨one, shape⟩ := statementAction_parsed statement first wf
    obtain ⟨two, shapes⟩ := statementsAction_parsed rest next one.wf
    refine ⟨one.trans two, ?_⟩
    cases null : node.isNull with
    | true => simpa [null] using shapes
    | false =>
      rw [null, Bool.false_or] at shape
      simp [areStmts, shapes, isStmt_mono two.ext.grows node shape]
end

/-- What the parameter list does: every name on it was new to the method's scope. -/
structure ArgsParsed (ps ps' : ParserState) : Prop where
  wf : ps'.tab.WellFormed
  ext : ps.tab.Extends ps'.tab
  head : ps'.headAst = ps.headAst
  distinct : (ps'.currentArgsList.map Args.name).Nodup

theorem argListAction_parsed {args : List ArgSyn} {ps ps' : ParserState}
    (h : argListAction args ps = .ok ps') (wf : ps.tab.WellFormed)
    (found : ∀ arg ∈ ps.currentArgsList, (ps.tab.findInCurrentScope arg.name).isSome)
    (distinct : (ps.currentArgsList.map Args.name).Nodup) : ArgsParsed ps ps' := by
  induction args generalizing ps with
  | nil =>
    simp only [argListAction, pure_eq_ok] at h
    exact h ▸ ⟨wf, .refl _, rfl, distinct⟩
  | cons arg rest ih =>
    simp only [argListAction, bind_eq_ok] at h
    obtain ⟨⟨tab, dir⟩, added, next⟩ := h
    obtain ⟨wf', ext, -⟩ := addId_keeps added wf
    obtain ⟨absent, current⟩ := addId_current added wf
    have rest' := ih next wf' ?_ ?_
    · exact ⟨rest'.wf, ext.trans rest'.ext, rest'.head, rest'.distinct⟩
    · intro other mem
      simp only [addArgCurrentList, List.mem_append, List.mem_singleton] at mem
      rcases mem with mem | rfl
      · exact current other.name (.inl (found other mem))
      · exact current arg.name (.inr rfl)
    · simp only [addArgCurrentList, List.map_append, List.map_cons, List.map_nil]
      refine List.nodup_append.mpr ⟨distinct, List.nodup_singleton _, fun name mem other same => ?_⟩
      rintro rfl
      obtain rfl := List.mem_singleton.mp same
      obtain ⟨old, mem, same⟩ := List.mem_map.mp mem
      have := found old mem
      rw [same, absent] at this
      cases this

theorem methodArgsAction_parsed {args : List ArgSyn} {ps ps' : ParserState}
    (h : methodArgsAction args ps = .ok ps') (wf : ps.tab.WellFormed)
    (none : ps.currentArgsList = []) : ArgsParsed ps ps' ∧ ps'.tab.globalLevel = some 0 := by
  obtain ⟨wf', ext⟩ := pushScope_keeps ps.tab wf
  have rest := argListAction_parsed h wf' (by simp [ParserState.pushScope, none])
    (by simp [ParserState.pushScope, none])
  exact ⟨⟨rest.wf, ext.trans rest.ext, rest.head, rest.distinct⟩,
    rest.ext.global (pushScope_global wf)⟩

theorem methodBodyAction_parsed {body : Option BlockSyn} {ps ps' : ParserState} {node : AstNode}
    (h : methodBodyAction body ps = .ok (node, ps')) (wf : ps.tab.WellFormed) :
    Parsed ps ps' ∧ isBranch ps'.tab node = true := by
  cases body with
  | some block => exact blockAction_parsed block h wf
  | none =>
    simp only [methodBodyAction, pure_eq_ok, Prod.mk.injEq] at h
    obtain ⟨rfl, rfl⟩ := h
    exact ⟨.refl wf, rfl⟩

theorem returnTypeOf_ne_null (type : Option TypeSyn) : returnTypeOf type ≠ .null := by
  rcases type with _ | _ | _ <;> simp [returnTypeOf, TypeSyn.toReturnType]

def methodSym? : AstNode → Option IdPtr
  | .methodDecl _ sym _ => some sym
  | _ => none

/-- An extern method has no body; the parameters of a method have distinct names. -/
structure BodyOk (method : MethodInfo) (block : AstNode) : Prop where
  externDecl : method.isExtern = true → block = .null
  args : (method.args.map Args.name).Nodup

theorem declareMethod_symbol {tab tab' tab'' : SymbolTable} {line : Int} {name : Ident}
    {retType : ReturnType} {methodScope : Option ScopePtr} {isExtern : Bool} {list : List Args}
    {block node : AstNode}
    (added : tab.addMethod line name retType methodScope isExtern = .ok tab')
    (listed : tab'.addCurrentList name list = .ok tab'')
    (built : newMethodDeclNode tab'' line name block = .ok node) (wf : tab.WellFormed)
    (global : tab.globalLevel = some 0) (known : retType ≠ .null) :
    node = .methodDecl line tab.ids.length block ∧ tab'' = tab'.withArgs tab.ids.length list ∧
      tab''.entry tab.ids.length =
        some (.methodDecl ⟨name, list.length, retType, list, methodScope, isExtern⟩) ∧
      tab''.findGlobal name = some tab.ids.length := by
  obtain ⟨wf', -, -, found, entry⟩ := addMethod_keeps added wf global known
  obtain ⟨p, found', rfl⟩ := addCurrentList_eq listed
  obtain rfl : tab.ids.length = p := Option.some.inj (found.symm.trans found')
  have found'' := (withArgs_findGlobal wf' tab.ids.length list name).trans found
  simp only [newMethodDeclNode, found'', Except.ok.injEq] at built
  refine ⟨built.symm, rfl, ?_, found''⟩
  rw [withArgs_entry, entry, Option.map_some, if_pos rfl]
  rfl

theorem methodDeclAction_parsed {decl : MethodDeclSyn} {ps ps' : ParserState} {node : AstNode}
    (h : methodDeclAction decl ps = .ok (node, ps')) (wf : ps.tab.WellFormed)
    (noArgs : ps.currentArgsList = []) :
    Parsed ps ps' ∧ ∃ line sym block method, node = .methodDecl line sym block ∧
      isBranch ps'.tab block = true ∧ ps'.tab.Declared sym method ∧
      BodyOk method block ∧ ps.tab.ids.length ≤ sym := by
  simp only [methodDeclAction, bind_eq_ok, pure_eq_ok, Prod.mk.injEq] at h
  obtain ⟨ps₁, args, ⟨block, ps₂⟩, body, tab₃, added, tab₄, listed, node', built, rfl, rfl⟩ := h
  obtain ⟨one, global⟩ := methodArgsAction_parsed args wf noArgs
  obtain ⟨two, shape⟩ := methodBodyAction_parsed body one.wf
  have before := one.ext.trans two.ext
  obtain ⟨wf₃, ext₃, -, -, -⟩ :=
    addMethod_keeps added two.wf (two.ext.global global) (returnTypeOf_ne_null decl.type)
  obtain ⟨rfl, rfl, entry₄, found₄⟩ := declareMethod_symbol added listed built two.wf
    (two.ext.global global) (returnTypeOf_ne_null decl.type)
  have wf₄ := wf₃.withArgs ps₂.tab.ids.length ps₂.currentArgsList
  have young : ps.tab.ids.length ≤ ps₂.tab.ids.length := before.grows
  have ext₄ : ps.tab.Extends (tab₃.withArgs ps₂.tab.ids.length ps₂.currentArgsList) :=
    (before.trans ext₃).withArgs wf₃ young _
  obtain ⟨wf₅, ext₅⟩ := popScope_keeps _ wf₄
  refine ⟨⟨wf₅, ext₄.trans ext₅, two.head.trans one.head, noArgs.symm⟩, ?_⟩
  refine ⟨_, _, _, _, rfl, ?_,
    Declared.extends ⟨entry₄, found₄, returnTypeOf_ne_null decl.type⟩ ext₅,
    ⟨?_, ?_⟩, young⟩
  · have grows : ps₂.tab.Grows (tab₃.withArgs ps₂.tab.ids.length ps₂.currentArgsList) :=
      ((ext₃.withArgs wf₃ (Nat.le_refl _) ps₂.currentArgsList)).grows
    exact isBranch_mono (Nat.le_trans grows ext₅.grows) shape
  · intro isExtern
    have none : decl.body = none := Option.isNone_iff_eq_none.mp isExtern
    rw [none, methodBodyAction, pure_eq_ok, Prod.mk.injEq] at body
    exact body.1.symm
  · have distinct := one.distinct
    rwa [← two.args] at distinct

/-- The list of top-level sentences, against the table. -/
structure SentencesOk (ps : ParserState) : Prop where
  wf : ps.tab.WellFormed
  shape : ∀ node ∈ ps.headAst, isSentence ps.tab node = true
  methods : ∀ line sym block, AstNode.methodDecl line sym block ∈ ps.headAst →
    ∃ method, ps.tab.Declared sym method ∧ BodyOk method block
  distinct : (ps.headAst.filterMap methodSym?).Nodup
  args : ps.currentArgsList = []

theorem SentencesOk.append {ps ps' : ParserState} {node : AstNode} (h : SentencesOk ps)
    (step : Parsed ps ps') (shape : isSentence ps'.tab node = true)
    (method : ∀ line sym block, node = .methodDecl line sym block →
      (∃ method, ps'.tab.Declared sym method ∧ BodyOk method block) ∧
        ps.tab.ids.length ≤ sym) :
    SentencesOk { ps' with headAst := ps'.headAst ++ [node] } := by
  refine ⟨step.wf, ?_, ?_, ?_, step.args.trans h.args⟩
  · intro other mem
    rw [step.head, List.mem_append, List.mem_singleton] at mem
    rcases mem with mem | rfl
    · exact isSentence_mono step.ext.grows (h.shape other mem)
    · exact shape
  · intro line sym block mem
    rw [step.head, List.mem_append, List.mem_singleton] at mem
    rcases mem with mem | eq
    · obtain ⟨method, declared, body⟩ := h.methods line sym block mem
      exact ⟨method, declared.extends step.ext, body⟩
    · exact (method line sym block eq.symm).1
  · rw [step.head, List.filterMap_append]
    refine List.nodup_append.mpr ⟨h.distinct, ?_, ?_⟩
    · cases node <;> simp [methodSym?, List.filterMap_cons]
    · intro p mem q here
      obtain ⟨other, mem', isMethod⟩ := List.mem_filterMap.mp mem
      obtain ⟨line, block, rfl⟩ : ∃ line block, other = .methodDecl line p block := by
        cases other <;> simp_all [methodSym?]
      obtain ⟨line', block', rfl⟩ : ∃ line' block', node = .methodDecl line' q block' := by
        cases node <;> simp_all [methodSym?]
      obtain ⟨old, declared, -⟩ := h.methods line p block mem'
      rintro rfl
      exact Nat.not_lt_of_le (method line' p block' rfl).2 (entry_lt declared.entry)

theorem declAction_sentencesOk {decl : DeclSyn} {ps ps' : ParserState} {node : AstNode}
    (h : declAction decl ps = .ok (node, ps')) (ok : SentencesOk ps) :
    SentencesOk { ps' with headAst := ps'.headAst ++ [node] } := by
  cases decl with
  | varDecl decl =>
    obtain ⟨step, line, arity, left, right, rfl, shape⟩ := varDeclAction_parsed h ok.wf
    exact ok.append step shape fun _ _ _ eq => by cases eq
  | methodDecl decl =>
    obtain ⟨step, line, sym, block, method, rfl, shape, declared, body, young⟩ :=
      methodDeclAction_parsed h ok.wf ok.args
    refine ok.append step ?_ ?_
    · simp only [isSentence, shape, Bool.and_true]
      exact hasEntry_iff.mpr ⟨_, declared.entry⟩
    · rintro _ _ _ ⟨⟩
      exact ⟨⟨method, declared, body⟩, young⟩

theorem declsAction_sentencesOk {prog : ProgramSyn} {ps ps' : ParserState}
    (h : declsAction prog ps = .ok ps') (ok : SentencesOk ps) : SentencesOk ps' := by
  induction prog generalizing ps with
  | nil =>
    simp only [declsAction, pure_eq_ok] at h
    exact h ▸ ok
  | cons decl rest ih =>
    simp only [declsAction, bind_eq_ok] at h
    obtain ⟨⟨node, ps₁⟩, first, next⟩ := h
    exact ih next (declAction_sentencesOk first ok)

/-- What holds of every program that parses. -/
theorem parse_sentencesOk {prog : ProgramSyn} {ps : ParserState} (h : parse prog = .ok ps) :
    SentencesOk ps :=
  declsAction_sentencesOk h
    ⟨wellFormed_empty, by simp [ParserState.init], by simp [ParserState.init], List.nodup_nil, rfl⟩

end Ctds
