import Ctds.Lexical
import Ctds.ParserSpec
import Ctds.TableStack

/-! The parser's actions resolve names lexically. Whatever the two flags about pushing
scopes hold, the open scopes of the table are the environment that the resolver of
`Lexical` works in, so both build the same trees and make the same declarations. -/

namespace Ctds

open Fallible SymbolTable Scoping

def SymbolTable.declarations (tab : SymbolTable) : List DeclaredSymbol :=
  (tab.ids.map IdTable.info).map SymbolInfo.declaration

/-- The open scopes of the table, and its entries. -/
structure Scoped (tab : SymbolTable) (env : LexEnv) (decls : List DeclaredSymbol) : Prop where
  stack : ∃ s : SymbolStack, tab.Tracks s ∧ s.view.opened = env
  decls : tab.declarations = decls

theorem Scoped.find {tab : SymbolTable} {env : LexEnv} {decls : List DeclaredSymbol}
    (h : Scoped tab env decls) (name : Ident) : tab.find name = env.lookup name := by
  obtain ⟨s, tracks, rfl⟩ := h.stack
  rw [tracks.find, Environment.lookup_opened]

theorem Scoped.env_cons {tab : SymbolTable} {env : LexEnv} {decls : List DeclaredSymbol}
    (h : Scoped tab env decls) : ∃ scope rest, env = scope :: rest := by
  obtain ⟨s, -, rfl⟩ := h.stack
  cases s.view with
  | nil => exact ⟨[], [], rfl⟩
  | cons scope rest => exact ⟨scope, rest, rfl⟩

theorem Scoped.length {tab : SymbolTable} {env : LexEnv} {decls : List DeclaredSymbol}
    (h : Scoped tab env decls) : tab.ids.length = decls.length := by
  rw [← h.decls, SymbolTable.declarations, List.length_map, List.length_map]

theorem scoped_empty : Scoped .empty [[]] [] := ⟨⟨_, tracks_empty, rfl⟩, rfl⟩

theorem Scoped.addId {tab tab' : SymbolTable} {env : LexEnv} {decls : List DeclaredSymbol}
    (h : Scoped tab env decls) {line : Int} {name : Ident} {type : Ty} {dir : IdPtr}
    (added : tab.addId line name type = .ok (tab', dir)) :
    dir = decls.length ∧
      Scoped tab' (env.declare name decls.length) (decls ++ [.var name type]) := by
  obtain ⟨scope, rest, isCons⟩ := h.env_cons
  obtain ⟨s, tracks, view⟩ := h.stack
  obtain ⟨tracks', rfl, infos, -⟩ := tracks.addId added
  rw [h.length] at tracks' ⊢
  refine ⟨rfl, ⟨_, tracks', ?_⟩, ?_⟩
  · rw [ScopeStack.view_declare, view, isCons]
    rfl
  · rw [SymbolTable.declarations, infos, List.map_append]
    exact congrArg (· ++ [DeclaredSymbol.var name type]) h.decls

theorem Scoped.pushScope {tab : SymbolTable} {env : LexEnv} {decls : List DeclaredSymbol}
    (h : Scoped tab env decls) : Scoped tab.pushScope env.push decls := by
  obtain ⟨scope, rest, isCons⟩ := h.env_cons
  obtain ⟨s, tracks, view⟩ := h.stack
  refine ⟨⟨_, tracks.pushScope, ?_⟩, ?_⟩
  · rw [ScopeStack.view_push, Environment.push, view, isCons]
    rfl
  · rw [SymbolTable.declarations, pushScope_infos]
    exact h.decls

theorem Scoped.popScope {tab : SymbolTable} {env : LexEnv} {decls : List DeclaredSymbol}
    (h : Scoped tab env decls) : Scoped tab.popScope env.pop decls := by
  obtain ⟨s, tracks, rfl⟩ := h.stack
  refine ⟨⟨_, tracks.popScope, ?_⟩, ?_⟩
  · rw [ScopeStack.view_pop]
    rcases s.view with _ | ⟨scope, _ | ⟨outer, rest⟩⟩ <;> rfl
  · rw [SymbolTable.declarations, popScope_infos]
    exact h.decls

theorem Scoped.findGlobal {tab : SymbolTable} {env : LexEnv} {decls : List DeclaredSymbol}
    (h : Scoped tab env decls) (name : Ident) :
    tab.findGlobal name = env.getLast?.bind (·.lookup name) := by
  obtain ⟨s, tracks, rfl⟩ := h.stack
  rw [tracks.findGlobal]
  cases s.view <;> rfl

theorem Scoped.withArgs {tab : SymbolTable} {env : LexEnv} {decls : List DeclaredSymbol}
    {name : Ident} {returnType : ReturnType} {old : List Args} {isExtern : Bool}
    (h : Scoped tab env (decls ++ [.method name returnType old isExtern])) (list : List Args) :
    Scoped (tab.withArgs decls.length list) env
      (decls ++ [.method name returnType list isExtern]) := by
  obtain ⟨s, tracks, view⟩ := h.stack
  refine ⟨⟨s, tracks.withArgs _ _, view⟩, ?_⟩
  have infos : (tab.withArgs decls.length list).ids.map IdTable.info =
      (tab.ids.map IdTable.info).modify decls.length (setArgs list) := by
    refine List.ext_getElem? fun k => ?_
    have entry := withArgs_entry tab decls.length list k
    simp only [SymbolTable.entry] at entry
    rw [List.getElem?_map, entry, List.getElem?_modify, List.getElem?_map]
    by_cases same : decls.length = k
    · simp [same]
    · simp only [same, if_false]
      cases tab.ids[k]? <;> rfl
  have before := h.decls
  rw [SymbolTable.declarations, List.map_eq_append_iff] at before
  obtain ⟨infos₁, infos₂, all, first, last⟩ := before
  obtain ⟨info, rest, rfl, isMethod, noMore⟩ := List.map_eq_cons_iff.mp last
  obtain rfl := List.map_eq_nil_iff.mp noMore
  have count : decls.length = infos₁.length := by rw [← first, List.length_map]
  cases info with
  | id name type => cases isMethod
  | methodDecl method =>
    cases isMethod
    rw [SymbolTable.declarations, infos, all, count, ← first]
    have changed : (infos₁ ++ [SymbolInfo.methodDecl method]).modify infos₁.length
      (setArgs list) =
        infos₁ ++ [setArgs list (.methodDecl method)] :=
      List.modifyTailIdx_add _ 0 infos₁ _
    rw [changed, List.map_append]
    rfl

theorem Scoped.addMethod {tab tab' : SymbolTable} {env : LexEnv} {decls : List DeclaredSymbol}
    (h : Scoped tab env decls) {line : Int} {name : Ident} {retType : ReturnType}
    {methodScope : Option ScopePtr} {isExtern : Bool}
    (added : tab.addMethod line name retType methodScope isExtern = .ok tab') :
    env.lookup name = none ∧ Scoped tab' (env.declareGlobal name decls.length)
      (decls ++ [.method name retType [] isExtern]) := by
  obtain ⟨s, tracks, rfl⟩ := h.stack
  obtain ⟨tracks', absent, infos⟩ := tracks.addMethod added
  rw [h.length] at tracks'
  refine ⟨by rw [Environment.lookup_opened, absent], ⟨_, tracks', ?_⟩, ?_⟩
  · rw [ScopeStack.view_declareGlobal]
    rcases s.view with _ | ⟨scope, _ | ⟨outer, rest⟩⟩ <;> rfl
  · rw [SymbolTable.declarations, infos, List.map_append]
    exact congrArg (· ++ [DeclaredSymbol.method name retType [] isExtern]) h.decls

theorem findVariable_lex {tab : SymbolTable} {env : LexEnv} {decls : List DeclaredSymbol}
    (holds : Scoped tab env decls) {line : Int} {name : Ident} {p : IdPtr}
    (h : findVariable tab line name = .ok p) : env.lookup name = some p := by
  rw [← holds.find]
  unfold findVariable at h
  split at h
  · cases h
  · next found => rw [found, Except.ok.inj h]

mutual
theorem exprAction_lex {tab : SymbolTable} {env : LexEnv} {decls : List DeclaredSymbol}
    (holds : Scoped tab env decls) :
    ∀ (expr : ExprSyn) {node : AstNode}, exprAction tab expr = .ok node →
      lexExpr env expr = some node
  | .id line name, node, h => by
    simp only [exprAction, bind_eq_ok, pure_eq_ok] at h
    obtain ⟨dir, found, rfl⟩ := h
    rw [lexExpr, findVariable_lex holds found]
    rfl
  | .methodCall line name callArgs, node, h => by
    simp only [exprAction, bind_eq_ok, pure_eq_ok] at h
    obtain ⟨args, built, rfl⟩ := h
    rw [lexExpr, exprListAction_lex holds callArgs built]
    rfl
  | .integerLiteral _ _, node, h => by
    simp only [exprAction, pure_eq_ok] at h
    exact congrArg some h
  | .trueLiteral _, node, h => by
    simp only [exprAction, pure_eq_ok] at h
    exact congrArg some h
  | .falseLiteral _, node, h => by
    simp only [exprAction, pure_eq_ok] at h
    exact congrArg some h
  | .binary line op left right, node, h => by
    simp only [exprAction, bind_eq_ok, pure_eq_ok] at h
    obtain ⟨l, hl, r, hr, rfl⟩ := h
    rw [lexExpr, exprAction_lex holds left hl, exprAction_lex holds right hr]
    rfl
  | .uminus line expr, node, h => by
    simp only [exprAction, bind_eq_ok, pure_eq_ok] at h
    obtain ⟨e, he, rfl⟩ := h
    rw [lexExpr, exprAction_lex holds expr he]
    rfl
  | .neg line expr, node, h => by
    simp only [exprAction, bind_eq_ok, pure_eq_ok] at h
    obtain ⟨e, he, rfl⟩ := h
    rw [lexExpr, exprAction_lex holds expr he]
    rfl
  | .paren expr, node, h => exprAction_lex holds expr h
theorem exprListAction_lex {tab : SymbolTable} {env : LexEnv} {decls : List DeclaredSymbol}
    (holds : Scoped tab env decls) :
    ∀ (list : ExprListSyn) {nodes : AstNodeList}, exprListAction tab list = .ok nodes →
      lexExprs env list = some nodes
  | .nil, nodes, h => by
    simp only [exprListAction, pure_eq_ok] at h
    exact congrArg some h
  | .cons expr rest, nodes, h => by
    simp only [exprListAction, bind_eq_ok, pure_eq_ok] at h
    obtain ⟨e, he, es, hes, rfl⟩ := h
    rw [lexExprs, exprAction_lex holds expr he, exprListAction_lex holds rest hes]
    rfl
end

/-- What declarations and statements do to the flags and the parameter list. -/
structure SameFlags (ps ps' : ParserState) : Prop where
  suppress : ps'.suppressNextBlockPush = ps.suppressNextBlockPush
  last : ps'.lastBlockPushed = ps.lastBlockPushed
  args : ps'.currentArgsList = ps.currentArgsList

theorem varDeclAction_lex {decl : VarDeclSyn} {ps ps' : ParserState} {node : AstNode}
    {env : LexEnv} {decls : List DeclaredSymbol} (h : varDeclAction decl ps = .ok (node, ps'))
    (holds : Scoped ps.tab env decls) :
    ∃ env' decls', lexVarDecl decl env decls = some (node, env', decls') ∧
      env' = env.declare decl.name decls.length ∧ Scoped ps'.tab env' decls' ∧
      SameFlags ps ps' := by
  unfold varDeclAction at h
  cases init : decl.init with
  | some expr =>
    simp only [init, bind_eq_ok, pure_eq_ok, Prod.mk.injEq] at h
    obtain ⟨e, he, ⟨tab, dir⟩, added, rfl, rfl⟩ := h
    obtain ⟨rfl, holds'⟩ := holds.addId added
    refine ⟨_, _, ?_, rfl, holds', rfl, rfl, rfl⟩
    rw [lexVarDecl, init]
    simp only [exprAction_lex holds expr he]
    rfl
  | none =>
    simp only [init, bind_eq_ok, pure_eq_ok, Prod.mk.injEq] at h
    obtain ⟨⟨tab, dir⟩, added, rfl, rfl⟩ := h
    obtain ⟨rfl, holds'⟩ := holds.addId added
    refine ⟨_, _, ?_, rfl, holds', rfl, rfl, rfl⟩
    rw [lexVarDecl, init]
    rfl

theorem varDeclsAction_lex {list : List VarDeclSyn} {ps ps' : ParserState} {nodes : AstNodeList}
    {scope : Scope Ident IdPtr} {outer : LexEnv} {decls : List DeclaredSymbol}
    (h : varDeclsAction list ps = .ok (nodes, ps')) (holds : Scoped ps.tab (scope :: outer) decls) :
    ∃ scope' decls', lexVarDecls list (scope :: outer) decls =
      some (nodes, scope' :: outer, decls') ∧
      Scoped ps'.tab (scope' :: outer) decls' ∧ SameFlags ps ps' := by
  induction list generalizing ps nodes scope decls with
  | nil =>
    simp only [varDeclsAction, pure_eq_ok, Prod.mk.injEq] at h
    obtain ⟨rfl, rfl⟩ := h
    exact ⟨scope, decls, rfl, holds, rfl, rfl, rfl⟩
  | cons decl rest ih =>
    simp only [varDeclsAction, bind_eq_ok, pure_eq_ok, Prod.mk.injEq] at h
    obtain ⟨⟨node, ps₁⟩, first, ⟨more, ps₂⟩, next, rfl, rfl⟩ := h
    obtain ⟨env₁, decls₁, lexed, rfl, holds₁, flags⟩ := varDeclAction_lex first holds
    obtain ⟨scope₂, decls₂, lexed', holds₂, flags'⟩ := ih next holds₁
    refine ⟨scope₂, decls₂, ?_, holds₂, flags'.suppress.trans flags.suppress,
      flags'.last.trans flags.last, flags'.args.trans flags.args⟩
    rw [lexVarDecls, lexed, Option.bind_eq_bind, Option.bind_some]
    simp only [Environment.declare] at lexed' ⊢
    rw [lexed']
    rfl

/-- Inside a method every block opens its own scope: the flag that suppresses this is
down, and whoever opened a block since has raised the other one. -/
structure InBody (ps ps' : ParserState) : Prop where
  suppress : ps'.suppressNextBlockPush = false
  last : ps'.lastBlockPushed = ps.lastBlockPushed ∨ ps'.lastBlockPushed = true
  args : ps'.currentArgsList = ps.currentArgsList

theorem InBody.refl {ps : ParserState} (down : ps.suppressNextBlockPush = false) : InBody ps ps :=
  ⟨down, .inl rfl, rfl⟩

theorem InBody.trans {ps ps' ps'' : ParserState} (h : InBody ps ps') (g : InBody ps' ps'') :
    InBody ps ps'' :=
  ⟨g.suppress, g.last.elim (fun same => h.last.imp same.trans same.trans) .inr,
    g.args.trans h.args⟩

theorem openBlock_nested {ps : ParserState} (down : ps.suppressNextBlockPush = false) :
    openBlock ps = { ps.pushScope with lastBlockPushed := true } := by
  simp [openBlock, down]

theorem openBlock_raised {ps : ParserState} (raised : ps.suppressNextBlockPush = true) :
    openBlock ps = { ps with lastBlockPushed := false, suppressNextBlockPush := false } := by
  simp [openBlock, raised]

theorem blockAction_nested {line : Int} {varDecls : List VarDeclSyn} {statements : StmtListSyn}
    {ps ps' : ParserState} {node : AstNode} {env : LexEnv} {decls : List DeclaredSymbol}
    (h : blockAction (.mk line varDecls statements) ps = .ok (node, ps'))
    (holds : Scoped ps.tab env decls) (down : ps.suppressNextBlockPush = false)
    (ih : ∀ {ps₁ ps₂ : ParserState} {nodes : AstNodeList} {env₁ : LexEnv}
    {decls₁ : List DeclaredSymbol},
      statementsAction statements ps₁ = .ok (nodes, ps₂) → Scoped ps₁.tab env₁ decls₁ →
      ps₁.suppressNextBlockPush = false → ∃ decls₂,
        lexStmts statements env₁ decls₁ = some (nodes, decls₂) ∧ Scoped ps₂.tab env₁ decls₂ ∧
          InBody ps₁ ps₂) :
    ∃ decls', lexBlock (.mk line varDecls statements) env.push decls = some (node, decls') ∧
      Scoped ps'.tab env decls' ∧ InBody ps ps' := by
  simp only [blockAction, bind_eq_ok, pure_eq_ok, Prod.mk.injEq] at h
  obtain ⟨⟨ds, ps₁⟩, declared, ⟨stmts, ps₂⟩, stated, rfl, rfl⟩ := h
  obtain ⟨scope, rest, isCons⟩ := holds.env_cons
  have opened := openBlock_nested down
  have push : env.push = [] :: env := by
    rw [Environment.push, isCons]
    rfl
  have holds₀ : Scoped (openBlock ps).tab ([] :: env) decls := by
    rw [opened, ← push]
    exact holds.pushScope
  obtain ⟨scope', decls₁, lexed, holds₁, flags⟩ := varDeclsAction_lex declared holds₀
  have down₁ : ps₁.suppressNextBlockPush = false := by
    rw [flags.suppress, opened]
    exact down
  obtain ⟨decls₂, lexed', holds₂, body⟩ := ih stated holds₁ down₁
  have last : ps₂.lastBlockPushed = true := by
    rcases body.last with same | raised
    · rw [same, flags.last, opened]
    · exact raised
  have closed : closeBlock ps₂ = ps₂.popScope := by simp [closeBlock, last]
  refine ⟨decls₂, ?_, ?_, ?_⟩
  · rw [lexBlock, push, lexed, Option.bind_eq_bind, Option.bind_some]
    simp only [lexed']
    rfl
  · rw [closed]
    have popped := holds₂.popScope
    rw [isCons] at popped ⊢
    exact popped
  · rw [closed]
    refine ⟨body.suppress, .inr last, body.args.trans (flags.args.trans ?_)⟩
    rw [opened]
    rfl

mutual
theorem statementAction_lex :
    ∀ (statement : StmtSyn) {ps ps' : ParserState} {node : AstNode} {env : LexEnv}
      {decls : List DeclaredSymbol}, statementAction statement ps = .ok (node, ps') →
      Scoped ps.tab env decls → ps.suppressNextBlockPush = false →
      ∃ decls', lexStmt statement env decls = some (node, decls') ∧ Scoped ps'.tab env decls' ∧
        InBody ps ps'
  | .assign line name expr, ps, ps', node, env, decls, h, holds, down => by
    simp only [statementAction, bind_eq_ok, pure_eq_ok, Prod.mk.injEq] at h
    obtain ⟨e, he, dir, found, rfl, rfl⟩ := h
    refine ⟨decls, ?_, holds, .refl down⟩
    rw [lexStmt, exprAction_lex holds expr he, findVariable_lex holds found]
    rfl
  | .methodCall line name callArgs, ps, ps', node, env, decls, h, holds, down => by
    simp only [statementAction, bind_eq_ok, pure_eq_ok, Prod.mk.injEq] at h
    obtain ⟨args, built, rfl, rfl⟩ := h
    refine ⟨decls, ?_, holds, .refl down⟩
    rw [lexStmt, exprListAction_lex holds callArgs built]
    rfl
  | .ifThen line cond thenBlock, ps, ps', node, env, decls, h, holds, down => by
    simp only [statementAction, bind_eq_ok, pure_eq_ok, Prod.mk.injEq] at h
    obtain ⟨c, hc, ⟨t, ps₁⟩, built, rfl, rfl⟩ := h
    obtain ⟨decls₁, lexed, holds₁, body⟩ := blockAction_lex thenBlock built holds down
    refine ⟨decls₁, ?_, holds₁, body⟩
    rw [lexStmt, exprAction_lex holds cond hc, Option.bind_eq_bind, Option.bind_some, lexed]
    rfl
  | .ifThenElse line cond thenBlock elseBlock, ps, ps', node, env, decls, h, holds, down => by
    simp only [statementAction, bind_eq_ok, pure_eq_ok, Prod.mk.injEq] at h
    obtain ⟨c, hc, ⟨t, ps₁⟩, built, ⟨e, ps₂⟩, built', rfl, rfl⟩ := h
    obtain ⟨decls₁, lexed, holds₁, body⟩ := blockAction_lex thenBlock built holds down
    obtain ⟨decls₂, lexed', holds₂, body'⟩ := blockAction_lex elseBlock built' holds₁ body.suppress
    refine ⟨decls₂, ?_, holds₂, body.trans body'⟩
    rw [lexStmt, exprAction_lex holds cond hc, Option.bind_eq_bind, Option.bind_some, lexed,
      Option.bind_eq_bind, Option.bind_some]
    simp only [lexed']
    rfl
  | .whileLoop line cond block, ps, ps', node, env, decls, h, holds, down => by
    simp only [statementAction, bind_eq_ok, pure_eq_ok, Prod.mk.injEq] at h
    obtain ⟨c, hc, ⟨b, ps₁⟩, built, rfl, rfl⟩ := h
    obtain ⟨decls₁, lexed, holds₁, body⟩ := blockAction_lex block built holds down
    refine ⟨decls₁, ?_, holds₁, body⟩
    rw [lexStmt, exprAction_lex holds cond hc, Option.bind_eq_bind, Option.bind_some, lexed]
    rfl
  | .returnExpr line expr, ps, ps', node, env, decls, h, holds, down => by
    simp only [statementAction, bind_eq_ok, pure_eq_ok, Prod.mk.injEq] at h
    obtain ⟨e, he, rfl, rfl⟩ := h
    refine ⟨decls, ?_, holds, .refl down⟩
    rw [lexStmt, exprAction_lex holds expr he]
    rfl
  | .returnVoid line, ps, ps', node, env, decls, h, holds, down => by
    simp only [statementAction, pure_eq_ok, Prod.mk.injEq] at h
    obtain ⟨rfl, rfl⟩ := h
    exact ⟨decls, rfl, holds, .refl down⟩
  | .empty, ps, ps', node, env, decls, h, holds, down => by
    simp only [statementAction, pure_eq_ok, Prod.mk.injEq] at h
    obtain ⟨rfl, rfl⟩ := h
    exact ⟨decls, rfl, holds, .refl down⟩
  | .block block, ps, ps', node, env, decls, h, holds, down => by
    simp only [statementAction] at h
    rw [lexStmt]
    exact blockAction_lex block h holds down
theorem blockAction_lex :
    ∀ (block : BlockSyn) {ps ps' : ParserState} {node : AstNode} {env : LexEnv}
      {decls : List DeclaredSymbol}, blockAction block ps = .ok (node, ps') →
      Scoped ps.tab env decls → ps.suppressNextBlockPush = false →
      ∃ decls', lexBlock block env.push decls = some (node, decls') ∧ Scoped ps'.tab env decls' ∧
        InBody ps ps'
  | .mk _ _ statements, _, _, _, _, _, h, holds, down =>
    blockAction_nested h holds down fun stated holds' down' =>
      statementsAction_lex statements stated holds' down'
theorem statementsAction_lex :
    ∀ (list : StmtListSyn) {ps ps' : ParserState} {nodes : AstNodeList} {env : LexEnv}
      {decls : List DeclaredSymbol}, statementsAction list ps = .ok (nodes, ps') →
      Scoped ps.tab env decls → ps.suppressNextBlockPush = false →
      ∃ decls', lexStmts list env decls = some (nodes, decls') ∧ Scoped ps'.tab env decls' ∧
        InBody ps ps'
  | .nil, ps, ps', nodes, env, decls, h, holds, down => by
    simp only [statementsAction, pure_eq_ok, Prod.mk.injEq] at h
    obtain ⟨rfl, rfl⟩ := h
    exact ⟨decls, rfl, holds, .refl down⟩
  | .cons statement rest, ps, ps', nodes, env, decls, h, holds, down => by
    simp only [statementsAction, bind_eq_ok, pure_eq_ok, Prod.mk.injEq] at h
    obtain ⟨⟨node, ps₁⟩, first, ⟨more, ps₂⟩, next, rfl, rfl⟩ := h
    obtain ⟨decls₁, lexed, holds₁, body⟩ := statementAction_lex statement first holds down
    obtain ⟨decls₂, lexed', holds₂, body'⟩ := statementsAction_lex rest next holds₁ body.suppress
    refine ⟨decls₂, ?_, holds₂, body.trans body'⟩
    rw [lexStmts, lexed, Option.bind_eq_bind, Option.bind_some]
    simp only [lexed']
    rfl
end

theorem argListAction_lex {args : List ArgSyn} {ps ps' : ParserState} {scope : Scope Ident IdPtr}
    {outer : LexEnv} {decls : List DeclaredSymbol} (h : argListAction args ps = .ok ps')
    (holds : Scoped ps.tab (scope :: outer) decls) :
    ∃ scope' decls', lexArgs args (scope :: outer) decls = (scope' :: outer, decls') ∧
      Scoped ps'.tab (scope' :: outer) decls' ∧
      ps'.suppressNextBlockPush = ps.suppressNextBlockPush ∧
      ps'.currentArgsList = ps.currentArgsList ++ args.map ArgSyn.toArgs := by
  induction args generalizing ps scope decls with
  | nil =>
    simp only [argListAction, pure_eq_ok] at h
    exact ⟨scope, decls, rfl, h ▸ holds, h ▸ rfl, by simp [h]⟩
  | cons arg rest ih =>
    simp only [argListAction, bind_eq_ok] at h
    obtain ⟨⟨tab, dir⟩, added, next⟩ := h
    obtain ⟨rfl, holds₁⟩ := holds.addId added
    obtain ⟨scope', decls', lexed, holds', suppress, list⟩ := ih next holds₁
    refine ⟨scope', decls', lexed, holds', suppress, ?_⟩
    rw [list]
    simp [addArgCurrentList, ArgSyn.toArgs]

theorem ownBlock_lex {line : Int} {varDecls : List VarDeclSyn} {statements : StmtListSyn}
    {ps ps' : ParserState} {node : AstNode} {scope global : Scope Ident IdPtr}
    {decls : List DeclaredSymbol}
    (h : blockAction (.mk line varDecls statements) ps = .ok (node, ps'))
    (holds : Scoped ps.tab [scope, global] decls) (raised : ps.suppressNextBlockPush = true) :
    ∃ nodes scope' decls₁ decls', lexVarDecls varDecls [scope, global] decls =
        some (nodes, [scope', global], decls₁) ∧
      lexBlock (.mk line varDecls statements) [scope, global] decls = some (node, decls') ∧
      Scoped ps'.tab (if ps'.lastBlockPushed then [global] else [scope', global]) decls' ∧
      ps'.currentArgsList = ps.currentArgsList := by
  simp only [blockAction, bind_eq_ok, pure_eq_ok, Prod.mk.injEq] at h
  obtain ⟨⟨ds, ps₁⟩, declared, ⟨stmts, ps₂⟩, stated, rfl, rfl⟩ := h
  have opened := openBlock_raised raised
  have holds₀ : Scoped (openBlock ps).tab [scope, global] decls := by
    rw [opened]
    exact holds
  obtain ⟨scope', decls₁, lexed, holds₁, flags⟩ := varDeclsAction_lex declared holds₀
  obtain ⟨decls₂, lexed', holds₂, inBody⟩ := statementsAction_lex statements stated holds₁
    (by rw [flags.suppress, opened])
  have args : ps₂.currentArgsList = ps.currentArgsList := by
    rw [inBody.args, flags.args, opened]
  refine ⟨ds, scope', decls₁, decls₂, lexed, ?_, ?_, ?_⟩
  · rw [lexBlock, lexed, Option.bind_eq_bind, Option.bind_some]
    simp only [lexed']
    rfl
  · by_cases pushed : ps₂.lastBlockPushed = true
    · simp only [closeBlock, pushed, if_true, ParserState.popScope]
      exact holds₂.popScope
    · simp only [closeBlock, pushed, Bool.false_eq_true, if_false]
      exact holds₂
  · unfold closeBlock
    split <;> exact args

/-- The body of a method works in the method's scope; it leaves this scope only if it
opened a block. -/
theorem bodyAction_lex {body : Option BlockSyn} {ps ps' : ParserState} {node : AstNode}
    {scope global : Scope Ident IdPtr} {decls : List DeclaredSymbol}
    (h : methodBodyAction body ps = .ok (node, ps'))
    (holds : Scoped ps.tab [scope, global] decls) (raised : ps.suppressNextBlockPush = true) :
    ∃ decls', lexBody body [scope, global] decls = some (node, decls') ∧
      ((∃ scope', Scoped ps'.tab [scope', global] decls') ∨ Scoped ps'.tab [global] decls') ∧
      ps'.currentArgsList = ps.currentArgsList := by
  cases body with
  | none =>
    simp only [methodBodyAction, pure_eq_ok, Prod.mk.injEq] at h
    obtain ⟨rfl, rfl⟩ := h
    exact ⟨decls, rfl, .inl ⟨scope, holds⟩, rfl⟩
  | some block =>
    obtain ⟨line, varDecls, statements⟩ := block
    obtain ⟨-, scope', -, decls', -, lexed, holds', args⟩ := ownBlock_lex h holds raised
    refine ⟨decls', lexed, ?_, args⟩
    by_cases pushed : ps'.lastBlockPushed
    · rw [if_pos pushed] at holds'
      exact .inr holds'
    · rw [if_neg pushed] at holds'
      exact .inl ⟨scope', holds'⟩

theorem declareMethod_lex {decl : MethodDeclSyn} {ps ps' : ParserState} {node block : AstNode}
    (inner : LexEnv) {global : Scope Ident IdPtr} {decls : List DeclaredSymbol}
    (h : (do
      let tab ← ps.tab.addMethod decl.line decl.name (returnTypeOf decl.type)
        ps.tab.getThisScope decl.body.isNone
      let tab ← tab.addCurrentList decl.name ps.currentArgsList
      let node ← newMethodDeclNode tab decl.line decl.name block
      return (node, { ps with tab := tab, currentArgsList := [] }.popScope)) = .ok (node, ps'))
    (holds : Scoped ps.tab (inner ++ [global]) decls) (few : inner.length ≤ 1) :
    node = .methodDecl decl.line decls.length block ∧
      Scoped ps'.tab [global ++ [(decl.name, decls.length)]]
        (decls ++ [.method decl.name (returnTypeOf decl.type) ps.currentArgsList
          decl.body.isNone]) ∧
      ps'.currentArgsList = [] := by
  simp only [bind_eq_ok, pure_eq_ok, Prod.mk.injEq] at h
  obtain ⟨tab₁, added, tab₂, listed, node', built, rfl, rfl⟩ := h
  obtain ⟨absent, holds₁⟩ := holds.addMethod added
  rw [Environment.declareGlobal_concat] at holds₁
  have notGlobal : global.lookup decl.name = none := by
    rw [Environment.lookup, List.findSome?_eq_none_iff] at absent
    exact absent global (by simp)
  have here : (global ++ [(decl.name, decls.length)]).lookup decl.name = some decls.length := by
    rw [List.lookup_append, notGlobal, List.lookup_cons_self]
    rfl
  have found : tab₁.findGlobal decl.name = some decls.length := by
    rw [holds₁.findGlobal, List.getLast?_concat, Option.bind_some, here]
  obtain ⟨p, found', rfl⟩ := addCurrentList_eq listed
  obtain rfl := Option.some.inj (found.symm.trans found')
  have holds₂ := holds₁.withArgs ps.currentArgsList
  have found₂ : (tab₁.withArgs decls.length ps.currentArgsList).findGlobal decl.name =
      some decls.length := by
    rw [holds₂.findGlobal, List.getLast?_concat, Option.bind_some, here]
  simp only [newMethodDeclNode, found₂, Except.ok.injEq] at built
  refine ⟨built.symm, ?_, rfl⟩
  have popped := holds₂.popScope
  rcases inner with _ | ⟨scope, _ | ⟨other, rest⟩⟩
  · exact popped
  · exact popped
  · simp at few

theorem methodDeclAction_lex {decl : MethodDeclSyn} {ps ps' : ParserState} {node : AstNode}
    {global : Scope Ident IdPtr} {decls : List DeclaredSymbol}
    (h : methodDeclAction decl ps = .ok (node, ps')) (holds : Scoped ps.tab [global] decls)
    (noArgs : ps.currentArgsList = []) :
    ∃ global' decls', lexMethodDecl decl [global] decls = some (node, [global'], decls') ∧
      Scoped ps'.tab [global'] decls' ∧ ps'.currentArgsList = [] := by
  rw [methodDeclAction] at h
  simp only [bind_eq_ok] at h
  obtain ⟨ps₁, args, ⟨block, ps₂⟩, body, rest⟩ := h
  obtain ⟨scope, decls₁, lexed, holds₁, suppress, list⟩ := argListAction_lex args holds.pushScope
  obtain ⟨decls₂, lexed', holds₂, list'⟩ := bodyAction_lex body holds₁ (suppress.trans rfl)
  have params : ps₂.currentArgsList = decl.methodArgs.map ArgSyn.toArgs := by
    rw [list', list]
    simp [ParserState.pushScope, noArgs]
  obtain ⟨rfl, holds₃, cleared⟩ : node = .methodDecl decl.line decls₂.length block ∧
      Scoped ps'.tab [global ++ [(decl.name, decls₂.length)]]
        (decls₂ ++ [.method decl.name (returnTypeOf decl.type) ps₂.currentArgsList
          decl.body.isNone]) ∧
      ps'.currentArgsList = [] := by
    rcases holds₂ with ⟨scope', holds₂⟩ | holds₂
    · exact declareMethod_lex [scope'] (by simpa only [bind_eq_ok] using rest) holds₂
        (Nat.le_refl 1)
    · exact declareMethod_lex [] (by simpa only [bind_eq_ok] using rest) holds₂
        (Nat.zero_le 1)
  refine ⟨_, _, ?_, holds₃, cleared⟩
  rw [lexMethodDecl]
  have args' : lexArgs decl.methodArgs (Environment.push [global]) decls =
      ([scope, global], decls₁) := lexed
  rw [args', params]
  simp only [lexed']
  rfl

theorem declAction_lex {decl : DeclSyn} {ps ps' : ParserState} {node : AstNode}
    {global : Scope Ident IdPtr} {decls : List DeclaredSymbol}
    (h : declAction decl ps = .ok (node, ps')) (holds : Scoped ps.tab [global] decls)
    (noArgs : ps.currentArgsList = []) :
    ∃ global' decls', lexDecl decl [global] decls = some (node, [global'], decls') ∧
      Scoped ps'.tab [global'] decls' ∧ ps'.currentArgsList = [] := by
  cases decl with
  | varDecl decl =>
    obtain ⟨env', decls', lexed, rfl, holds', flags⟩ := varDeclAction_lex h holds
    exact ⟨_, decls', lexed, holds', flags.args.trans noArgs⟩
  | methodDecl decl => exact methodDeclAction_lex h holds noArgs

/-- Between two declarations only the global scope is open. -/
structure AtTop (ps : ParserState) (global : Scope Ident IdPtr) (decls : List DeclaredSymbol) :
    Prop where
  holds : Scoped ps.tab [global] decls
  noArgs : ps.currentArgsList = []

theorem atTop_init : AtTop .init [] [] := ⟨scoped_empty, rfl⟩

theorem AtTop.balanced {ps : ParserState} {global : Scope Ident IdPtr} {decls : List DeclaredSymbol}
    (h : AtTop ps global decls) : ps.tab.stackLevel = ps.tab.globalLevel := by
  obtain ⟨s, tracks, view⟩ := h.holds.stack
  rw [tracks.chain.head, tracks.global]
  have one : s.chain.length ≤ 1 := by
    have length := congrArg List.length view
    cases chain : s.chain with
    | nil => exact Nat.zero_le 1
    | cons k rest =>
      simp only [ScopeStack.view, chain, List.map_cons, Environment.opened, List.length_cons,
        List.length_map, List.length_nil] at length
      rw [List.length_cons]
      exact Nat.le_of_eq length
  rcases chain : s.chain with _ | ⟨k, _ | ⟨outer, rest⟩⟩
  · rfl
  · rfl
  · simp [chain] at one

theorem declAction_head {decl : DeclSyn} {ps ps' : ParserState} {node : AstNode}
    (h : declAction decl ps = .ok (node, ps')) (ok : SentencesOk ps) :
    ps'.headAst = ps.headAst := by
  cases decl with
  | varDecl decl => exact (varDeclAction_parsed h ok.wf).1.head
  | methodDecl decl => exact (methodDeclAction_parsed h ok.wf ok.args).1.head

theorem declsAction_lex {prog : ProgramSyn} {ps ps' : ParserState} {global : Scope Ident IdPtr}
    {decls : List DeclaredSymbol} (h : declsAction prog ps = .ok ps') (ok : SentencesOk ps)
    (top : AtTop ps global decls) :
    ∃ nodes global' decls', lexDecls prog [global] decls = some (nodes, decls') ∧
      ps'.headAst = ps.headAst ++ nodes ∧ AtTop ps' global' decls' := by
  induction prog generalizing ps global decls with
  | nil =>
    simp only [declsAction, pure_eq_ok] at h
    exact ⟨[], global, decls, rfl, by simp [h], h ▸ top⟩
  | cons decl rest ih =>
    simp only [declsAction, bind_eq_ok] at h
    obtain ⟨⟨node, ps₁⟩, first, next⟩ := h
    obtain ⟨global₁, decls₁, lexed, holds₁, noArgs⟩ := declAction_lex first top.holds top.noArgs
    obtain ⟨nodes, global₂, decls₂, lexed', head, top'⟩ :=
      ih next (declAction_sentencesOk first ok) ⟨holds₁, noArgs⟩
    have same : ps₁.headAst = ps.headAst := declAction_head first ok
    refine ⟨node :: nodes, global₂, decls₂, ?_, ?_, top'⟩
    · rw [lexDecls, lexed, Option.bind_eq_bind, Option.bind_some]
      simp only [lexed']
      rfl
    · rw [head, same, List.append_assoc, List.singleton_append]

/-- Declarations added inside a method are variables. -/
def AddsVars (decls decls' : List DeclaredSymbol) : Prop :=
  ∃ more, decls' = decls ++ more ∧ ∀ d ∈ more, ∃ name type, d = .var name type

theorem AddsVars.refl (decls : List DeclaredSymbol) : AddsVars decls decls :=
  ⟨[], by simp, by simp⟩

theorem AddsVars.trans {decls decls' decls'' : List DeclaredSymbol} (h : AddsVars decls decls')
    (g : AddsVars decls' decls'') : AddsVars decls decls'' := by
  obtain ⟨more, rfl, vars⟩ := h
  obtain ⟨more', rfl, vars'⟩ := g
  refine ⟨more ++ more', List.append_assoc _ _ _, fun d mem => ?_⟩
  exact (List.mem_append.mp mem).elim (vars d) (vars' d)

theorem AddsVars.var (decls : List DeclaredSymbol) (name : Ident) (type : Ty) :
    AddsVars decls (decls ++ [.var name type]) :=
  ⟨_, rfl, fun _ mem => ⟨name, type, List.mem_singleton.mp mem⟩⟩

theorem lexVarDecl_adds {decl : VarDeclSyn} {env env' : LexEnv} {decls decls' : List DeclaredSymbol}
    {node : AstNode} (h : lexVarDecl decl env decls = some (node, env', decls')) :
    AddsVars decls decls' := by
  cases init : decl.init with
  | some expr =>
    simp only [lexVarDecl, init, Option.bind_eq_bind, Option.bind_eq_some_iff, Option.pure_def,
      Option.some.injEq, Prod.mk.injEq] at h
    obtain ⟨-, -, -, -, rfl⟩ := h
    exact .var decls decl.name decl.type.toTy
  | none =>
    simp only [lexVarDecl, init, Option.pure_def, Option.some.injEq, Prod.mk.injEq] at h
    obtain ⟨-, -, rfl⟩ := h
    exact .var decls decl.name decl.type.toTy

theorem lexVarDecls_adds {list : List VarDeclSyn} {env env' : LexEnv}
    {decls decls' : List DeclaredSymbol} {nodes : AstNodeList}
    (h : lexVarDecls list env decls = some (nodes, env', decls')) : AddsVars decls decls' := by
  induction list generalizing env decls nodes with
  | nil =>
    simp only [lexVarDecls, Option.pure_def, Option.some.injEq, Prod.mk.injEq] at h
    exact h.2.2 ▸ .refl decls
  | cons decl rest ih =>
    simp only [lexVarDecls, Option.bind_eq_bind, Option.bind_eq_some_iff, Option.pure_def,
      Option.some.injEq, Prod.mk.injEq] at h
    obtain ⟨⟨node, env₁, decls₁⟩, first, ⟨more, env₂, decls₂⟩, next, -, rfl, rfl⟩ := h
    exact (lexVarDecl_adds first).trans (ih next)

mutual
theorem lexStmt_adds :
    ∀ (statement : StmtSyn) {env : LexEnv} {decls decls' : List DeclaredSymbol} {node : AstNode},
      lexStmt statement env decls = some (node, decls') → AddsVars decls decls'
  | .assign line name expr, env, decls, decls', node, h => by
    simp only [lexStmt, Option.bind_eq_bind, Option.bind_eq_some_iff, Option.pure_def,
      Option.some.injEq, Prod.mk.injEq] at h
    obtain ⟨-, -, -, -, -, rfl⟩ := h
    exact .refl decls
  | .methodCall line name callArgs, env, decls, decls', node, h => by
    simp only [lexStmt, Option.bind_eq_bind, Option.bind_eq_some_iff, Option.pure_def,
      Option.some.injEq, Prod.mk.injEq] at h
    obtain ⟨-, -, -, rfl⟩ := h
    exact .refl decls
  | .ifThen line cond thenBlock, env, decls, decls', node, h => by
    simp only [lexStmt, Option.bind_eq_bind, Option.bind_eq_some_iff, Option.pure_def,
      Option.some.injEq, Prod.mk.injEq] at h
    obtain ⟨-, -, ⟨t, decls₁⟩, lexed, -, rfl⟩ := h
    exact lexBlock_adds thenBlock lexed
  | .ifThenElse line cond thenBlock elseBlock, env, decls, decls', node, h => by
    simp only [lexStmt, Option.bind_eq_bind, Option.bind_eq_some_iff, Option.pure_def,
      Option.some.injEq, Prod.mk.injEq] at h
    obtain ⟨-, -, ⟨t, decls₁⟩, lexed, ⟨e, decls₂⟩, lexed', -, rfl⟩ := h
    exact (lexBlock_adds thenBlock lexed).trans (lexBlock_adds elseBlock lexed')
  | .whileLoop line cond block, env, decls, decls', node, h => by
    simp only [lexStmt, Option.bind_eq_bind, Option.bind_eq_some_iff, Option.pure_def,
      Option.some.injEq, Prod.mk.injEq] at h
    obtain ⟨-, -, ⟨b, decls₁⟩, lexed, -, rfl⟩ := h
    exact lexBlock_adds block lexed
  | .returnExpr line expr, env, decls, decls', node, h => by
    simp only [lexStmt, Option.bind_eq_bind, Option.bind_eq_some_iff, Option.pure_def,
      Option.some.injEq, Prod.mk.injEq] at h
    obtain ⟨-, -, -, rfl⟩ := h
    exact .refl decls
  | .returnVoid line, env, decls, decls', node, h => by
    simp only [lexStmt, Option.pure_def, Option.some.injEq, Prod.mk.injEq] at h
    exact h.2 ▸ .refl decls
  | .empty, env, decls, decls', node, h => by
    simp only [lexStmt, Option.pure_def, Option.some.injEq, Prod.mk.injEq] at h
    exact h.2 ▸ .refl decls
  | .block block, env, decls, decls', node, h => by
    rw [lexStmt] at h
    exact lexBlock_adds block h
theorem lexBlock_adds :
    ∀ (block : BlockSyn) {env : LexEnv} {decls decls' : List DeclaredSymbol} {node : AstNode},
      lexBlock block env decls = some (node, decls') → AddsVars decls decls'
  | .mk line varDecls statements, env, decls, decls', node, h => by
    simp only [lexBlock, Option.bind_eq_bind, Option.bind_eq_some_iff, Option.pure_def,
      Option.some.injEq, Prod.mk.injEq] at h
    obtain ⟨⟨ds, env₁, decls₁⟩, declared, ⟨stmts, decls₂⟩, stated, -, rfl⟩ := h
    exact (lexVarDecls_adds declared).trans (lexStmts_adds statements stated)
theorem lexStmts_adds :
    ∀ (list : StmtListSyn) {env : LexEnv} {decls decls' : List DeclaredSymbol}
    {nodes : AstNodeList},
      lexStmts list env decls = some (nodes, decls') → AddsVars decls decls'
  | .nil, env, decls, decls', nodes, h => by
    simp only [lexStmts, Option.pure_def, Option.some.injEq, Prod.mk.injEq] at h
    exact h.2 ▸ .refl decls
  | .cons statement rest, env, decls, decls', nodes, h => by
    simp only [lexStmts, Option.bind_eq_bind, Option.bind_eq_some_iff, Option.pure_def,
      Option.some.injEq, Prod.mk.injEq] at h
    obtain ⟨⟨node, decls₁⟩, first, ⟨more, decls₂⟩, next, -, rfl⟩ := h
    exact (lexStmt_adds statement first).trans (lexStmts_adds rest next)
end

theorem lexArgs_adds (args : List ArgSyn) (env : LexEnv) (decls : List DeclaredSymbol) :
    AddsVars decls (lexArgs args env decls).2 := by
  induction args generalizing env decls with
  | nil => exact .refl decls
  | cons arg rest ih => exact (AddsVars.var decls arg.name arg.type.toTy).trans (ih _ _)

theorem lexBody_adds {body : Option BlockSyn} {env : LexEnv} {decls decls' : List DeclaredSymbol}
    {node : AstNode} (h : lexBody body env decls = some (node, decls')) :
    AddsVars decls decls' := by
  cases body with
  | none =>
    simp only [lexBody, Option.pure_def, Option.some.injEq, Prod.mk.injEq] at h
    exact h.2 ▸ .refl decls
  | some block => exact lexBlock_adds block h

theorem lexDecls_methods {prog : ProgramSyn} {env : LexEnv} {decls decls' : List DeclaredSymbol}
    {nodes : List AstNode} (h : lexDecls prog env decls = some (nodes, decls')) {name : Ident}
    {returnType : ReturnType} {params : List Args} {isExtern : Bool}
    (mem : .method name returnType params isExtern ∈ decls') :
    .method name returnType params isExtern ∈ decls ∨ ∃ decl, .methodDecl decl ∈ prog ∧
      name = decl.name ∧ params = decl.methodArgs.map ArgSyn.toArgs := by
  have older : ∀ {before after : List DeclaredSymbol}, AddsVars before after →
      DeclaredSymbol.method name returnType params isExtern ∈ after →
      DeclaredSymbol.method name returnType params isExtern ∈ before := by
    rintro before after ⟨more, rfl, vars⟩ mem
    rcases List.mem_append.mp mem with mem | mem
    · exact mem
    · obtain ⟨_, _, same⟩ := vars _ mem
      cases same
  induction prog generalizing env decls nodes with
  | nil =>
    simp only [lexDecls, Option.pure_def, Option.some.injEq, Prod.mk.injEq] at h
    exact .inl (h.2 ▸ mem)
  | cons decl rest ih =>
    simp only [lexDecls, Option.bind_eq_bind, Option.bind_eq_some_iff, Option.pure_def,
      Option.some.injEq, Prod.mk.injEq] at h
    obtain ⟨⟨node, env₁, decls₁⟩, first, ⟨more, decls₂⟩, next, -, rfl⟩ := h
    rcases ih next with mem | ⟨decl', inRest, same⟩
    · cases decl with
      | varDecl decl => exact .inl (older (lexVarDecl_adds first) mem)
      | methodDecl decl =>
        simp only [lexDecl, lexMethodDecl, Option.bind_eq_bind, Option.bind_eq_some_iff,
          Option.pure_def, Option.some.injEq, Prod.mk.injEq] at first
        obtain ⟨⟨block, inner⟩, body, -, -, rfl⟩ := first
        rcases List.mem_append.mp mem with mem | mem
        · exact .inl (older ((lexArgs_adds _ _ _).trans (lexBody_adds body)) mem)
        · obtain ⟨rfl, -, rfl, -⟩ := DeclaredSymbol.method.inj (List.mem_singleton.mp mem)
          exact .inr ⟨decl, List.mem_cons_self, rfl, rfl⟩
    · exact .inr ⟨decl', List.mem_cons_of_mem _ inRest, same⟩

theorem declsAction_append {pre rest : ProgramSyn} {ps ps' : ParserState}
    (h : declsAction (pre ++ rest) ps = .ok ps') :
    ∃ ps₁, declsAction pre ps = .ok ps₁ ∧ declsAction rest ps₁ = .ok ps' := by
  induction pre generalizing ps with
  | nil => exact ⟨ps, rfl, h⟩
  | cons decl pre ih =>
    simp only [List.cons_append, declsAction, bind_eq_ok] at h
    obtain ⟨⟨node, ps₁⟩, first, next⟩ := h
    obtain ⟨ps₂, before, after⟩ := ih next
    refine ⟨ps₂, ?_, after⟩
    simp only [declsAction, first, ok_bind, before]

/-- The parser builds the trees of lexical scoping; between declarations it is back in the
global scope with no parameters pending; and a method has the parameters it was declared
with. -/
theorem names_resolved_lexically {prog : ProgramSyn} {ps : ParserState}
    (parsed : parse prog = .ok ps) :
    lexProgram prog = some (ps.headAst, ps.tab.declarations) ∧
    (∀ pre rest, prog = pre ++ rest → ∃ ps', parse pre = .ok ps' ∧
      declsAction rest ps' = .ok ps ∧ ps'.tab.stackLevel = ps'.tab.globalLevel ∧
      ps'.currentArgsList = []) ∧
    ∀ p method, ps.tab.entry p = some (.methodDecl method) →
      method.numArgs = method.args.length ∧ ∃ decl, .methodDecl decl ∈ prog ∧
        method.name = decl.name ∧ method.args = decl.methodArgs.map ArgSyn.toArgs := by
  have start := parse_sentencesOk (rfl : parse [] = .ok .init)
  obtain ⟨nodes, global, decls, lexed, head, top⟩ := declsAction_lex parsed start atTop_init
  have tree : ps.headAst = nodes := head
  refine ⟨?_, ?_, ?_⟩
  · rw [tree, top.holds.decls]
    exact lexed
  · rintro pre rest rfl
    obtain ⟨ps', before, after⟩ := declsAction_append parsed
    obtain ⟨-, global', decls', -, -, top'⟩ := declsAction_lex before start atTop_init
    exact ⟨ps', before, after, top'.balanced, top'.noArgs⟩
  · intro p method entry
    refine ⟨((parse_sentencesOk parsed).wf.methods p method entry).1, ?_⟩
    have here : (ps.tab.ids.map IdTable.info)[p]? = some (.methodDecl method) := by
      rw [List.getElem?_map]
      exact entry
    have mem : DeclaredSymbol.method method.name method.returnType method.args method.isExtern ∈
        decls := by
      rw [← top.holds.decls, SymbolTable.declarations, List.mem_map]
      exact ⟨.methodDecl method, List.mem_of_getElem? here, rfl⟩
    rcases lexDecls_methods lexed mem with mem | own
    · cases mem
    · exact own

/-- `integer x; integer main() { integer y = x; { integer x = y; x = x; } return x; }`. -/
def innerName : ProgramSyn :=
  let x : Ident := .of "x"
  let y : Ident := .of "y"
  [.varDecl ⟨1, .integer, x, none⟩,
    .methodDecl ⟨2, some .integer, .of "main", [],
      some (.mk 2 [⟨2, .integer, y, some (.id 2 x)⟩]
        (.cons (.block (.mk 3 [⟨3, .integer, x, some (.id 3 y)⟩]
          (.cons (.assign 3 x (.id 3 x)) .nil)))
        (.cons (.returnExpr 4 (.id 4 x)) .nil)))⟩]

theorem names_resolved_innerName :
    ∃ ps, parse innerName = .ok ps ∧ lexProgram innerName = some (ps.headAst, ps.tab.declarations) ∧
      ps.headAst.map leafIds = [[0], [1, 0, 2, 1, 2, 2, 0]] :=
  ⟨_, rfl, (names_resolved_lexically (rfl : parse innerName = .ok _)).1, by decide⟩

end Ctds
