import Ctds.Redeclaration

/-! Which scope a method's symbol records. `add_method` is given the current scope behind
the body. The positions of the open scopes are followed through the actions: declarations
go to the innermost scope, and the blocks of a body are closed again, but with the last of
them the flag stays raised on which the method's own block closes a scope too. -/

namespace Ctds

open Fallible SymbolTable LinkedCells Scoping

namespace SymbolTable

/-- The names on a list of entries. -/
def namesFrom (tab : SymbolTable) : Nat → Option IdPtr → List Ident
  | _, none => []
  | 0, some _ => []
  | fuel + 1, some p =>
    match tab.ids[p]? with
    | none => []
    | some cell => cell.info.name :: namesFrom tab fuel cell.next

/-- The names that a scope holds, in the order of their declarations. -/
def namesOf (tab : SymbolTable) (level : ScopePtr) : List Ident :=
  match tab.scopes[level]? with
  | none => []
  | some scope => tab.namesFrom tab.ids.length scope.headBlock

theorem namesFrom_linked {tab : SymbolTable} {start : Option IdPtr} {scope : Scope Ident IdPtr}
    (h : Linked IdTable.next tab.ids start (scope.map Prod.snd)) {fuel : Nat}
    (enough : scope.length ≤ fuel)
    (names : ∀ b ∈ scope, (tab.entry b.2).map SymbolInfo.name = some b.1) :
    tab.namesFrom fuel start = scope.map Prod.fst := by
  induction scope generalizing fuel start with
  | nil =>
    cases h
    cases fuel <;> rfl
  | cons b rest ih =>
    cases fuel with
    | zero => exact absurd enough (Nat.not_succ_le_zero _)
    | succ fuel =>
      have name := names b List.mem_cons_self
      cases h with
      | @cons _ cell _ here linked =>
        simp only [SymbolTable.entry, here, Option.map_some, Option.some.injEq] at name
        rw [namesFrom, here]
        exact congrArg₂ (· :: ·) name (ih linked (Nat.le_of_succ_le_succ enough)
          fun c mem => names c (List.mem_cons_of_mem b mem))

theorem Tracks.namesOf {tab : SymbolTable} {s : SymbolStack} (h : tab.Tracks s) {k : Nat}
    (inside : k < s.scopes.length) : tab.namesOf k = (s.scopes.getD k []).map Prod.fst := by
  have scopeAt := List.getElem?_eq_getElem (h.count.symm ▸ inside)
  have frame : (framesOf s)[k]? = some (s.scopes[k].map Prod.snd) := by
    rw [framesOf, List.getElem?_map, List.getElem?_eq_getElem inside, Option.map_some]
  have linked := (h.rep.linked scopeAt frame).1
  have enough := linked.length_le (h.rep.nodup frame)
  rw [List.length_map] at enough
  rw [SymbolTable.namesOf, scopeAt, List.getD_eq_getElem?_getD, List.getElem?_eq_getElem inside,
    Option.getD_some]
  exact namesFrom_linked linked enough (h.names _ (List.getElem_mem inside))

theorem Tracks.scoped {tab : SymbolTable} {s : SymbolStack} (h : tab.Tracks s) :
    Scoped tab s.view.opened tab.declarations := ⟨⟨s, h, rfl⟩, rfl⟩

end SymbolTable

theorem Scoped.namesOf {tab : SymbolTable} {scope : Scope Ident IdPtr} {outer : LexEnv}
    {decls : List DeclaredSymbol} (h : Scoped tab (scope :: outer) decls) {k : ScopePtr}
    (current : tab.stackLevel = some k) : tab.namesOf k = scope.map Prod.fst := by
  obtain ⟨s, tracks, view⟩ := h.stack
  have head := tracks.chain.head
  rw [current] at head
  have inside := s.inside k (List.mem_of_head? head.symm)
  obtain ⟨rest, chain⟩ := List.head?_eq_some_iff.mp head.symm
  simp only [ScopeStack.view, chain, List.map_cons, Environment.opened, List.cons.injEq] at view
  rw [tracks.namesOf inside, view.1]

theorem varDeclAction_declares {decl : VarDeclSyn} {ps ps' : ParserState} {node : AstNode}
    {s : SymbolStack} (h : varDeclAction decl ps = .ok (node, ps')) (tracks : ps.tab.Tracks s) :
    ∃ s', ps'.tab.Tracks s' ∧ s.opened.Declares s' := by
  unfold varDeclAction at h
  cases init : decl.init with
  | some expr =>
    simp only [init, bind_eq_ok, pure_eq_ok, Prod.mk.injEq] at h
    obtain ⟨e, -, ⟨tab, dir⟩, added, -, rfl⟩ := h
    exact ⟨_, (tracks.addId added).1, s.declares_declare _ _⟩
  | none =>
    simp only [init, bind_eq_ok, pure_eq_ok, Prod.mk.injEq] at h
    obtain ⟨⟨tab, dir⟩, added, -, rfl⟩ := h
    exact ⟨_, (tracks.addId added).1, s.declares_declare _ _⟩

theorem varDeclsAction_declares {list : List VarDeclSyn} {ps ps' : ParserState}
    {nodes : AstNodeList} {s : SymbolStack} (h : varDeclsAction list ps = .ok (nodes, ps'))
    (tracks : ps.tab.Tracks s) (isOpen : s.scopes.length ≠ 0) :
    ∃ s', ps'.tab.Tracks s' ∧ s.Declares s' := by
  induction list generalizing ps nodes s with
  | nil =>
    simp only [varDeclsAction, pure_eq_ok, Prod.mk.injEq] at h
    obtain ⟨-, rfl⟩ := h
    exact ⟨s, tracks, .refl s⟩
  | cons decl rest ih =>
    simp only [varDeclsAction, bind_eq_ok, pure_eq_ok, Prod.mk.injEq] at h
    obtain ⟨⟨node, ps₁⟩, first, ⟨more, ps₂⟩, next, -, rfl⟩ := h
    obtain ⟨s₁, tracks₁, declares⟩ := varDeclAction_declares first tracks
    rw [ScopeStack.opened_of_open isOpen] at declares
    obtain ⟨s₂, tracks₂, declares'⟩ := ih next tracks₁ (declares.count.symm ▸ isOpen)
    exact ⟨s₂, tracks₂, declares.trans declares'⟩

theorem argListAction_declares {args : List ArgSyn} {ps ps' : ParserState} {s : SymbolStack}
    (h : argListAction args ps = .ok ps') (tracks : ps.tab.Tracks s)
    (isOpen : s.scopes.length ≠ 0) : ∃ s', ps'.tab.Tracks s' ∧ s.Declares s' := by
  induction args generalizing ps s with
  | nil =>
    simp only [argListAction, pure_eq_ok] at h
    exact ⟨s, h ▸ tracks, .refl s⟩
  | cons arg rest ih =>
    simp only [argListAction, bind_eq_ok] at h
    obtain ⟨⟨tab, dir⟩, added, next⟩ := h
    have declares := s.declares_declare arg.name dir
    rw [ScopeStack.opened_of_open isOpen] at declares
    obtain ⟨s', tracks', declares'⟩ :=
      ih next (tracks.addId added).1 (declares.count.symm ▸ isOpen)
    exact ⟨s', tracks', declares.trans declares'⟩

theorem push_isOpen (s : SymbolStack) : s.push.scopes.length ≠ 0 := by
  simp [ScopeStack.push]

mutual
theorem statementAction_closes :
    ∀ (statement : StmtSyn) {ps ps' : ParserState} {node : AstNode} {s : SymbolStack},
      statementAction statement ps = .ok (node, ps') → ps.tab.Tracks s →
      s.scopes.length ≠ 0 → ps.suppressNextBlockPush = false →
      ∃ s', ps'.tab.Tracks s' ∧ s.Closes s'
  | .assign line name expr, ps, ps', node, s, h, tracks, isOpen, down => by
    simp only [statementAction, bind_eq_ok, pure_eq_ok, Prod.mk.injEq] at h
    obtain ⟨e, -, dir, -, -, rfl⟩ := h
    exact ⟨s, tracks, .refl s⟩
  | .methodCall line name callArgs, ps, ps', node, s, h, tracks, isOpen, down => by
    simp only [statementAction, bind_eq_ok, pure_eq_ok, Prod.mk.injEq] at h
    obtain ⟨args, -, -, rfl⟩ := h
    exact ⟨s, tracks, .refl s⟩
  | .ifThen line cond thenBlock, ps, ps', node, s, h, tracks, isOpen, down => by
    simp only [statementAction, bind_eq_ok, pure_eq_ok, Prod.mk.injEq] at h
    obtain ⟨c, -, ⟨t, ps₁⟩, built, -, rfl⟩ := h
    exact blockAction_closes thenBlock built tracks isOpen down
  | .ifThenElse line cond thenBlock elseBlock, ps, ps', node, s, h, tracks, isOpen, down => by
    simp only [statementAction, bind_eq_ok, pure_eq_ok, Prod.mk.injEq] at h
    obtain ⟨c, -, ⟨t, ps₁⟩, built, ⟨e, ps₂⟩, built', -, rfl⟩ := h
    obtain ⟨decls₁, -, -, inner⟩ := blockAction_lex thenBlock built tracks.scoped down
    obtain ⟨s₁, tracks₁, closes⟩ := blockAction_closes thenBlock built tracks isOpen down
    obtain ⟨s₂, tracks₂, closes'⟩ := blockAction_closes elseBlock built' tracks₁
      (closes.retains.isOpen isOpen) inner.suppress
    exact ⟨s₂, tracks₂, closes.trans closes'⟩
  | .whileLoop line cond block, ps, ps', node, s, h, tracks, isOpen, down => by
    simp only [statementAction, bind_eq_ok, pure_eq_ok, Prod.mk.injEq] at h
    obtain ⟨c, -, ⟨b, ps₁⟩, built, -, rfl⟩ := h
    exact blockAction_closes block built tracks isOpen down
  | .returnExpr line expr, ps, ps', node, s, h, tracks, isOpen, down => by
    simp only [statementAction, bind_eq_ok, pure_eq_ok, Prod.mk.injEq] at h
    obtain ⟨e, -, -, rfl⟩ := h
    exact ⟨s, tracks, .refl s⟩
  | .returnVoid line, ps, ps', node, s, h, tracks, isOpen, down => by
    simp only [statementAction, pure_eq_ok, Prod.mk.injEq] at h
    obtain ⟨-, rfl⟩ := h
    exact ⟨s, tracks, .refl s⟩
  | .empty, ps, ps', node, s, h, tracks, isOpen, down => by
    simp only [statementAction, pure_eq_ok, Prod.mk.injEq] at h
    obtain ⟨-, rfl⟩ := h
    exact ⟨s, tracks, .refl s⟩
  | .block block, ps, ps', node, s, h, tracks, isOpen, down => by
    simp only [statementAction] at h
    exact blockAction_closes block h tracks isOpen down
theorem blockAction_closes :
    ∀ (block : BlockSyn) {ps ps' : ParserState} {node : AstNode} {s : SymbolStack},
      blockAction block ps = .ok (node, ps') → ps.tab.Tracks s →
      s.scopes.length ≠ 0 → ps.suppressNextBlockPush = false →
      ∃ s', ps'.tab.Tracks s' ∧ s.Closes s'
  | .mk line varDecls statements, ps, ps', node, s, h, tracks, isOpen, down => by
    have last : ps'.lastBlockPushed = true := blockAction_raises h tracks.scoped down
    simp only [blockAction, bind_eq_ok, pure_eq_ok, Prod.mk.injEq] at h
    obtain ⟨⟨ds, ps₁⟩, declared, ⟨stmts, ps₂⟩, stated, -, rfl⟩ := h
    have opened := openBlock_nested down
    have tracks₀ : (openBlock ps).tab.Tracks s.push := by
      rw [opened]
      exact tracks.pushScope
    obtain ⟨s₁, tracks₁, declares⟩ := varDeclsAction_declares declared tracks₀ (push_isOpen s)
    obtain ⟨scope, rest, isCons⟩ := tracks₀.scoped.env_cons
    obtain ⟨-, -, -, -, flags⟩ := varDeclsAction_lex declared (isCons ▸ tracks₀.scoped)
    obtain ⟨s₂, tracks₂, closes⟩ := statementsAction_closes statements stated tracks₁
      (declares.count.symm ▸ push_isOpen s) (by
        rw [flags.suppress, opened]
        exact down)
    have raised : ps₂.lastBlockPushed = true := by
      unfold closeBlock at last
      split at last
      · assumption
      · exact last
    refine ⟨s₂.pop, ?_, ScopeStack.closes_block isOpen declares closes⟩
    rw [closeBlock, if_pos raised]
    exact tracks₂.popScope
theorem statementsAction_closes :
    ∀ (list : StmtListSyn) {ps ps' : ParserState} {nodes : AstNodeList} {s : SymbolStack},
      statementsAction list ps = .ok (nodes, ps') → ps.tab.Tracks s →
      s.scopes.length ≠ 0 → ps.suppressNextBlockPush = false →
      ∃ s', ps'.tab.Tracks s' ∧ s.Closes s'
  | .nil, ps, ps', nodes, s, h, tracks, isOpen, down => by
    simp only [statementsAction, pure_eq_ok, Prod.mk.injEq] at h
    obtain ⟨-, rfl⟩ := h
    exact ⟨s, tracks, .refl s⟩
  | .cons statement rest, ps, ps', nodes, s, h, tracks, isOpen, down => by
    simp only [statementsAction, bind_eq_ok, pure_eq_ok, Prod.mk.injEq] at h
    obtain ⟨⟨node, ps₁⟩, first, ⟨more, ps₂⟩, next, -, rfl⟩ := h
    obtain ⟨decls₁, -, -, inner⟩ := statementAction_lex statement first tracks.scoped down
    obtain ⟨s₁, tracks₁, closes⟩ := statementAction_closes statement first tracks isOpen down
    obtain ⟨s₂, tracks₂, closes'⟩ := statementsAction_closes rest next tracks₁
      (closes.retains.isOpen isOpen) inner.suppress
    exact ⟨s₂, tracks₂, closes.trans closes'⟩
end

theorem opened_chain_ne_nil (s : SymbolStack) : s.opened.chain ≠ [] := fun none =>
  s.opened_scopes (ScopeStack.chain_eq_nil.mp none)

theorem methodBody_tracks {decl : MethodDeclSyn} {ps atBody done : ParserState} {block : AstNode}
    {s : SymbolStack} (tracks : ps.tab.Tracks s)
    (args : methodArgsAction decl.methodArgs ps = .ok atBody)
    (body : methodBodyAction decl.body atBody = .ok (block, done)) :
    ∃ s', done.tab.Tracks s' ∧ s.push.Retains 0 s.opened.scopes.length s' ∧
      s'.chain = if decl.opensBlock then s.opened.chain
        else s.opened.scopes.length :: s.opened.chain := by
  have opened : ps.pushScope.tab.Tracks s.push := tracks.pushScope
  obtain ⟨scope, outer, isCons⟩ := opened.scoped.env_cons
  obtain ⟨-, -, -, -, suppress, -⟩ := argListAction_lex args (isCons ▸ opened.scoped)
  have raised : atBody.suppressNextBlockPush = true := suppress
  obtain ⟨s₁, tracks₁, declares⟩ := argListAction_declares args opened (push_isOpen s)
  have retains : s.push.Retains 0 s.opened.scopes.length s₁ :=
    declares.retains rfl (.inr (Nat.le_refl _))
  have chain : s₁.chain = s.opened.scopes.length :: s.opened.chain := declares.chain
  cases isBody : decl.body with
  | none =>
    simp only [isBody, methodBodyAction, pure_eq_ok, Prod.mk.injEq] at body
    obtain ⟨-, rfl⟩ := body
    refine ⟨s₁, tracks₁, retains, ?_⟩
    rw [chain]
    simp only [MethodDeclSyn.opensBlock, isBody, Bool.false_eq_true, if_false]
  | some own =>
    obtain ⟨line, varDecls, statements⟩ := own
    simp only [isBody, methodBodyAction] at body
    obtain ⟨scope₁, outer₁, isCons₁⟩ := tracks₁.scoped.env_cons
    have last := ownBlock_raises body (isCons₁ ▸ tracks₁.scoped) raised
    simp only [blockAction, bind_eq_ok, pure_eq_ok, Prod.mk.injEq] at body
    obtain ⟨⟨ds, ps₁⟩, declared, ⟨stmts, ps₂⟩, stated, -, rfl⟩ := body
    have own := openBlock_raised raised
    have tracks₀ : (openBlock atBody).tab.Tracks s₁ := by
      rw [own]
      exact tracks₁
    have isOpen : s₁.scopes.length ≠ 0 := retains.isOpen (push_isOpen s)
    obtain ⟨s₂, tracks₂, declares'⟩ := varDeclsAction_declares declared tracks₀ isOpen
    obtain ⟨-, -, -, -, flags⟩ := varDeclsAction_lex declared (isCons₁ ▸ tracks₀.scoped)
    obtain ⟨s₃, tracks₃, closes⟩ := statementsAction_closes statements stated tracks₂
      (declares'.count.symm ▸ isOpen) (by rw [flags.suppress, own])
    have before := retains.trans
      (declares'.retains (by rw [chain, List.head?_cons]) (.inr (Nat.le_refl _)))
    have inner := before.trans (closes.retains.within (Nat.le_refl 0)
      (s.retains_push.grows.trans before.grows))
    have chain₃ : s₃.chain = s.opened.scopes.length :: s.opened.chain := by
      rw [closes.chain, declares'.chain, chain]
    have opens : decl.opensBlock = statements.opensBlock := by
      simp only [MethodDeclSyn.opensBlock, isBody]
    rw [opens, ← last]
    by_cases pushed : ps₂.lastBlockPushed = true
    · have closed : closeBlock ps₂ = ps₂.popScope := if_pos pushed
      rw [closed]
      refine ⟨s₃.pop, tracks₃.popScope, inner.trans (s₃.retains_pop _ _), ?_⟩
      rw [ScopeStack.pop_chain, chain₃, show ps₂.popScope.lastBlockPushed = true from pushed,
        if_pos rfl]
      cases outer : s.opened.chain with
      | nil => exact absurd outer (opened_chain_ne_nil s)
      | cons k rest => rfl
    · have closed : closeBlock ps₂ = ps₂ := if_neg pushed
      rw [closed, if_neg pushed]
      exact ⟨s₃, tracks₃, inner, chain₃⟩

/-- Only the global scope is open, or none was opened yet. -/
structure GlobalOnly (tab : SymbolTable) (s : SymbolStack) : Prop where
  tracks : tab.Tracks s
  chain : s.opened.chain = [0]

theorem GlobalOnly.scoped {tab : SymbolTable} {s : SymbolStack} (h : GlobalOnly tab s) :
    Scoped tab [s.opened.scopes.getD 0 []] tab.declarations := by
  have view : s.view.opened = [s.opened.scopes.getD 0 []] := by
    rw [← ScopeStack.view_opened, ScopeStack.view, h.chain]
    rfl
  exact view ▸ h.tracks.scoped

theorem methodDeclAction_scope {decl : MethodDeclSyn} {ps ps' : ParserState} {node : AstNode}
    {s : SymbolStack} (h : methodDeclAction decl ps = .ok (node, ps')) (ok : SentencesOk ps)
    (top : GlobalOnly ps.tab s) :
    ∃ s' sym block method, GlobalOnly ps'.tab s' ∧
      s.opened.Retains 1 s.opened.scopes.length s' ∧
      s.opened.scopes.length < s'.scopes.length ∧ node = .methodDecl decl.line sym block ∧
      ps'.tab.entry sym = some (.methodDecl method) ∧
      method.scope = some (if decl.opensBlock then 0 else s.opened.scopes.length) ∧
      (decl.opensBlock = false → ps'.tab.namesOf s.opened.scopes.length = decl.ownNames) := by
  simp only [methodDeclAction, bind_eq_ok, pure_eq_ok, Prod.mk.injEq] at h
  obtain ⟨ps₁, args, ⟨block, ps₂⟩, body, tab₃, added, tab₄, listed, node', built, rfl, rfl⟩ := h
  obtain ⟨one, global⟩ := methodArgsAction_parsed args ok.wf ok.args
  obtain ⟨two, -⟩ := methodBodyAction_parsed body one.wf
  obtain ⟨rfl, rfl, entry, -⟩ := declareMethod_symbol added listed built two.wf
    (two.ext.global global) (returnTypeOf_ne_null decl.type)
  obtain ⟨s₂, tracks₂, retains, chain⟩ := methodBody_tracks top.tracks args body
  have grows : s.opened.scopes.length < s₂.scopes.length := by
    have push := retains.grows
    rw [ScopeStack.push, List.length_append] at push
    exact push
  have isOpen : s₂.opened = s₂ := ScopeStack.opened_of_open (Nat.ne_of_gt (Nat.zero_lt_of_lt grows))
  have current : ps₂.tab.getThisScope =
      some (if decl.opensBlock then 0 else s.opened.scopes.length) := by
    rw [getThisScope, tracks₂.chain.head, chain, top.chain]
    cases decl.opensBlock <;> rfl
  let s₃ := s₂.declareGlobal decl.name ps₂.tab.ids.length
  have tracks₃ := (((tracks₂.addMethod added).1.withArgs ps₂.tab.ids.length
    ps₂.currentArgsList).popScope)
  have after : ∀ high, s₂.Retains 1 high s₃.pop := by
    intro high
    have declared := s₂.retains_declareGlobal high decl.name ps₂.tab.ids.length Nat.zero_lt_one
    rw [isOpen] at declared
    exact declared.trans (s₃.retains_pop _ _)
  have chain₃ : s₃.pop.chain = [0] := by
    rw [ScopeStack.pop_chain, ScopeStack.declareGlobal_chain, isOpen, chain, top.chain]
    cases decl.opensBlock <;> rfl
  have isOpen₃ : s₃.pop.opened = s₃.pop :=
    ScopeStack.opened_of_open ((after 0).isOpen (Nat.ne_of_gt (Nat.zero_lt_of_lt grows)))
  refine ⟨s₃.pop, _, block, _, ⟨tracks₃, (congrArg ScopeStack.chain isOpen₃).trans chain₃⟩, ?_,
    Nat.lt_of_lt_of_le grows (after 0).grows, rfl,
    (popScope_entry _ _).trans entry, current, fun flat => ?_⟩
  · exact ((s.retains_push.trans retains).within (Nat.zero_le 1) (Nat.le_refl _)).trans (after _)
  · obtain ⟨scope, decls', own, holds⟩ := methodBody_scopes top.scoped args body
    rw [flat, if_neg Bool.false_ne_true] at holds current
    have kept := (after (s.opened.scopes.length + 1)).same s.opened.scopes.length
      (Nat.pos_of_ne_zero s.opened_scopes) (Nat.lt_succ_self _)
    have inside := Nat.lt_of_lt_of_le grows (after 0).grows
    calc _ = (s₃.pop.scopes.getD s.opened.scopes.length []).map Prod.fst := tracks₃.namesOf inside
      _ = (s₂.scopes.getD s.opened.scopes.length []).map Prod.fst := by
        rw [List.getD_eq_getElem?_getD, kept, List.getD_eq_getElem?_getD]
      _ = ps₂.tab.namesOf s.opened.scopes.length := (tracks₂.namesOf grows).symm
      _ = decl.ownNames := (holds.namesOf current).trans own

theorem globalOnly_init : GlobalOnly ParserState.init.tab .empty := ⟨tracks_empty, rfl⟩

theorem declAction_parsed {decl : DeclSyn} {ps ps' : ParserState} {node : AstNode}
    (h : declAction decl ps = .ok (node, ps')) (ok : SentencesOk ps) : Parsed ps ps' := by
  cases decl with
  | varDecl decl => exact (varDeclAction_parsed h ok.wf).1
  | methodDecl decl => exact (methodDeclAction_parsed h ok.wf ok.args).1

theorem declAction_tracks {decl : DeclSyn} {ps ps' : ParserState} {node : AstNode}
    {s : SymbolStack} (h : declAction decl ps = .ok (node, ps')) (ok : SentencesOk ps)
    (top : GlobalOnly ps.tab s) :
    ∃ s', GlobalOnly ps'.tab s' ∧ s.opened.Retains 1 s.opened.scopes.length s'.opened := by
  cases decl with
  | varDecl decl =>
    obtain ⟨s', tracks, declares⟩ := varDeclAction_declares h top.tracks
    have isOpen : s'.opened = s' :=
      ScopeStack.opened_of_open (declares.count.symm ▸ s.opened_scopes)
    refine ⟨s', ⟨tracks, ?_⟩, ?_⟩
    · rw [isOpen, declares.chain, top.chain]
    · rw [isOpen]
      exact declares.retains (by rw [top.chain, List.head?_cons]) (.inl Nat.zero_lt_one)
  | methodDecl decl =>
    obtain ⟨s', -, -, -, top', retains, -, -⟩ := methodDeclAction_scope h ok top
    refine ⟨s', top', ?_⟩
    rw [ScopeStack.opened_of_open (retains.isOpen s.opened_scopes)]
    exact retains

/-- What the declarations behind a state add to it: entries, nodes, and scopes. -/
structure Continues (ps ps' : ParserState) (s : SymbolStack) (count : Nat) : Prop where
  entry : ∀ {p : IdPtr} {info : SymbolInfo}, ps.tab.entry p = some info →
    ps'.tab.entry p = some info
  nodes : ∃ nodes, nodes.length = count ∧ ps'.headAst = ps.headAst ++ nodes
  scopes : ∃ s', GlobalOnly ps'.tab s' ∧ s.opened.Retains 1 s.opened.scopes.length s'.opened

theorem declsAction_continues {prog : ProgramSyn} {ps ps' : ParserState} {s : SymbolStack}
    (h : declsAction prog ps = .ok ps') (ok : SentencesOk ps) (top : GlobalOnly ps.tab s) :
    Continues ps ps' s prog.length := by
  induction prog generalizing ps s with
  | nil =>
    simp only [declsAction, pure_eq_ok] at h
    subst h
    exact ⟨id, ⟨[], rfl, (List.append_nil _).symm⟩, s, top, .refl _ _ _⟩
  | cons decl rest ih =>
    simp only [declsAction, bind_eq_ok] at h
    obtain ⟨⟨node, ps₁⟩, first, next⟩ := h
    have parsed := declAction_parsed first ok
    obtain ⟨s₁, top₁, retains⟩ := declAction_tracks first ok top
    obtain ⟨entry, ⟨nodes, count, head⟩, s₂, top₂, retains'⟩ :=
      ih next (declAction_sentencesOk first ok) top₁
    refine ⟨fun here => entry (parsed.ext.entry here), ⟨node :: nodes, ?_, ?_⟩, s₂, top₂,
      retains.trans (retains'.within (Nat.le_refl 1) retains.grows)⟩
    · rw [List.length_cons, List.length_cons, count]
    · rw [head, parsed.head, List.append_assoc, List.singleton_append]

/-- The scope that `method_args` opens for a declaration of the program. -/
def ownScope (prog : ProgramSyn) (k : Nat) : Option ScopePtr :=
  match parse (prog.take k) with
  | .ok ps => ps.pushScope.tab.getThisScope
  | .error _ => none

/-- `method_decl.scope`, in the symbol that a declaration's node points to. -/
def recordedScope (ps : ParserState) (k : Nat) : Option ScopePtr :=
  match ps.headAst[k]? with
  | some (.methodDecl _ sym _) => (ps.tab.entry sym).bind fun info => info.methodView.scope
  | _ => none

/-- The symbol of the method declared there points to the method's own scope: the one that
was opened for it, that holds its parameters and the locals of its body, and that no other
method's symbol points to. -/
def PointsToOwnScope (prog : ProgramSyn) (ps : ParserState) (k : Nat) (decl : MethodDeclSyn) :
    Prop :=
  ∃ scope, recordedScope ps k = some scope ∧ ownScope prog k = some scope ∧
    ps.tab.namesOf scope = decl.ownNames ∧
    ∀ l other, prog[l]? = some (.methodDecl other) → l ≠ k → recordedScope ps l ≠ some scope

theorem parse_split {prog : ProgramSyn} {ps : ParserState} (parsed : parse prog = .ok ps) {k : Nat}
    {decl : DeclSyn} (at' : prog[k]? = some decl) :
    ∃ before s node mid, parse (prog.take k) = .ok before ∧ SentencesOk before ∧
      GlobalOnly before.tab s ∧ before.headAst.length = k ∧
      declAction decl before = .ok (node, mid) ∧
      declsAction (prog.drop (k + 1)) { mid with headAst := mid.headAst ++ [node] } = .ok ps := by
  obtain ⟨inside, isDecl⟩ := List.getElem?_eq_some_iff.mp at'
  have start := parse_sentencesOk (rfl : parse [] = .ok .init)
  rw [← List.take_append_drop k prog, List.drop_eq_getElem_cons inside, isDecl] at parsed
  obtain ⟨before, first, rest⟩ := declsAction_append parsed
  obtain ⟨-, ⟨nodes, count, head⟩, s, top, -⟩ := declsAction_continues first start globalOnly_init
  simp only [declsAction, bind_eq_ok] at rest
  obtain ⟨⟨node, mid⟩, here, next⟩ := rest
  refine ⟨before, s, node, mid, first, parse_sentencesOk first, top, ?_, here, next⟩
  rw [head, List.length_append, count, List.length_take, Nat.min_eq_left (Nat.le_of_lt inside)]
  exact Nat.zero_add k

theorem ownScope_eq {prog : ProgramSyn} {k : Nat} {before : ParserState} {s : SymbolStack}
    (parsed : parse (prog.take k) = .ok before) (tracks : before.tab.Tracks s) :
    ownScope prog k = some s.opened.scopes.length := by
  have level : before.pushScope.tab.stackLevel = s.push.chain.head? := tracks.pushScope.chain.head
  rw [ownScope, parsed]
  exact level

/-- What the symbol of a method records, and what the method's scope holds in the end. -/
theorem method_recorded {prog : ProgramSyn} {ps : ParserState} (parsed : parse prog = .ok ps)
    {k : Nat} {decl : MethodDeclSyn} (at' : prog[k]? = some (.methodDecl decl)) :
    ∃ own s, ownScope prog k = some own ∧ 0 < own ∧
      recordedScope ps k = some (if decl.opensBlock then 0 else own) ∧
      (decl.opensBlock = false → ps.tab.namesOf own = decl.ownNames) ∧
      GlobalOnly ps.tab s ∧ own < s.opened.scopes.length := by
  obtain ⟨before, s, node, mid, first, ok, top, length, here, next⟩ := parse_split parsed at'
  obtain ⟨s₁, sym, block, method, top₁, -, grows, rfl, entry, scope, names⟩ :=
    methodDeclAction_scope here ok top
  have isOpen : s₁.opened = s₁ :=
    ScopeStack.opened_of_open (Nat.ne_of_gt (Nat.zero_lt_of_lt grows))
  have head := (declAction_parsed here ok).head
  obtain ⟨entries, ⟨nodes, -, head'⟩, s₂, top₂, retains⟩ :=
    declsAction_continues next (declAction_sentencesOk here ok) top₁
  rw [isOpen] at retains
  have later : s.opened.scopes.length < s₂.opened.scopes.length :=
    Nat.lt_of_lt_of_le grows retains.grows
  refine ⟨_, s₂, ownScope_eq first top.tracks, Nat.pos_of_ne_zero s.opened_scopes, ?_,
    fun flat => ?_, top₂, later⟩
  · have nodeAt : ps.headAst[k]? = some (.methodDecl decl.line sym block) := by
      rw [head', head, List.append_assoc, List.getElem?_append_right (Nat.le_of_eq length), length,
        Nat.sub_self]
      rfl
    simp only [recordedScope, nodeAt]
    rw [entries entry]
    exact scope
  · have isOpen₂ : s₂.opened = s₂ := ScopeStack.opened_of_open fun none => by
      rw [ScopeStack.opened_of_empty none] at later
      exact s.opened_scopes (Nat.lt_one_iff.mp later)
    rw [isOpen₂] at later retains
    have kept := (retains.within (Nat.le_refl 1) (Nat.succ_le_of_lt grows)).same
      s.opened.scopes.length (Nat.pos_of_ne_zero s.opened_scopes) (Nat.lt_succ_self _)
    calc _ = (s₂.scopes.getD s.opened.scopes.length []).map Prod.fst :=
          top₂.tracks.namesOf later
      _ = (s₁.scopes.getD s.opened.scopes.length []).map Prod.fst := by
        rw [List.getD_eq_getElem?_getD, kept, List.getD_eq_getElem?_getD]
      _ = mid.tab.namesOf s.opened.scopes.length := (top₁.tracks.namesOf grows).symm
      _ = decl.ownNames := names flat

theorem ownScope_lt {prog : ProgramSyn} {ps : ParserState} (parsed : parse prog = .ok ps)
    {k l : Nat} (lt : k < l) {decl decl' : MethodDeclSyn}
    (at' : prog[k]? = some (.methodDecl decl)) (later : prog[l]? = some (.methodDecl decl'))
    {own own' : ScopePtr} (first : ownScope prog k = some own)
    (second : ownScope prog l = some own') : own < own' := by
  obtain ⟨before, s, -, -, parsed', -, top, -⟩ := parse_split parsed later
  have inside : (prog.take l)[k]? = some (.methodDecl decl) := by
    rw [List.getElem?_take_of_lt lt, at']
  obtain ⟨own₁, s₁, own₁_eq, -, -, -, top₁, below⟩ := method_recorded parsed' inside
  have same : ownScope (prog.take l) k = ownScope prog k := by
    rw [ownScope, ownScope, List.take_take, Nat.min_eq_left (Nat.le_of_lt lt)]
  rw [same, first, Option.some.injEq] at own₁_eq
  rw [ownScope_eq parsed' top₁.tracks, Option.some.injEq] at second
  rw [← second, own₁_eq]
  exact below

/-- A method's symbol points to the method's own scope if and only if no block stands in
the method's body. -/
theorem method_scope_own_iff {prog : ProgramSyn} {ps : ParserState} (parsed : parse prog = .ok ps)
    {k : Nat} {decl : MethodDeclSyn} (at' : prog[k]? = some (.methodDecl decl)) :
    PointsToOwnScope prog ps k decl ↔ decl.opensBlock = false := by
  obtain ⟨own, -, isOwn, pos, recorded, names, -⟩ := method_recorded parsed at'
  constructor
  · rintro ⟨scope, here, isOwn', -⟩
    rw [isOwn, Option.some.injEq] at isOwn'
    subst isOwn'
    rw [recorded, Option.some.injEq] at here
    cases opens : decl.opensBlock with
    | false => rfl
    | true =>
      rw [opens, if_pos rfl] at here
      exact absurd here (Nat.ne_of_lt pos)
  · intro flat
    rw [flat, if_neg Bool.false_ne_true] at recorded
    refine ⟨own, recorded, isOwn, names flat, fun l other otherAt ne => ?_⟩
    obtain ⟨own', -, isOwn', -, recorded', -⟩ := method_recorded parsed otherAt
    rw [recorded', ne_eq, Option.some.injEq]
    cases other.opensBlock with
    | true => exact Nat.ne_of_lt pos
    | false =>
      rcases Nat.lt_or_gt_of_ne ne with lt | gt
      · exact Nat.ne_of_lt (ownScope_lt parsed lt otherAt at' isOwn' isOwn)
      · exact Nat.ne_of_gt (ownScope_lt parsed gt at' otherAt isOwn isOwn')

/-- `void f(integer a) { integer b; }`. -/
def flatMethod : MethodDeclSyn :=
  ⟨2, none, .of "f", [⟨2, .integer, .of "a"⟩], some (.mk 2 [⟨2, .integer, .of "b", none⟩] .nil)⟩

/-- Behind `integer g;`. -/
theorem method_scope_own_flat :
    ∃ ps, parse [.varDecl ⟨1, .integer, .of "g", none⟩, .methodDecl flatMethod] = .ok ps ∧
      PointsToOwnScope [.varDecl ⟨1, .integer, .of "g", none⟩, .methodDecl flatMethod] ps 1
        flatMethod :=
  ⟨_, rfl, (method_scope_own_iff (rfl : parse _ = .ok _) rfl).mpr rfl⟩

/-- `void f(integer a) { { } }`, for any name of the method. -/
def nestedMethod (name : Ident) : MethodDeclSyn :=
  ⟨1, none, name, [⟨1, .integer, .of "a"⟩], some (.mk 1 [] (.cons (.block (.mk 1 [] .nil)) .nil))⟩

/-- Both methods record the global scope, though scopes 1 and 3 were opened for them. -/
theorem method_scope_global :
    ∃ ps, parse [.methodDecl (nestedMethod (.of "f")), .methodDecl (nestedMethod (.of "h"))] =
        .ok ps ∧
      recordedScope ps 0 = some 0 ∧ recordedScope ps 1 = some 0 ∧
      ¬PointsToOwnScope
        [.methodDecl (nestedMethod (.of "f")), .methodDecl (nestedMethod (.of "h"))] ps 0
          (nestedMethod (.of "f")) := by
  have own : ownScope
      [.methodDecl (nestedMethod (.of "f")), .methodDecl (nestedMethod (.of "h"))] 0 = some 1 := rfl
  refine ⟨_, rfl, rfl, rfl, ?_⟩
  rintro ⟨scope, recorded, isOwn, -⟩
  obtain rfl : 0 = scope := Option.some.inj recorded
  rw [own] at isOwn
  cases isOwn

end Ctds
