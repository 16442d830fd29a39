import Ctds.LexicalSpec

/-! When `add_method` reports a redeclaration. It runs behind the body and searches from
the current scope outwards, and the current scope is still that of the method unless the
body has opened a block: one flag tells every block whether to pop, and the last block
that was opened has set it. -/

namespace Ctds

open Fallible SymbolTable Scoping

def StmtSyn.opensBlock : StmtSyn → Bool
  | .ifThen .. | .ifThenElse .. | .whileLoop .. | .block .. => true
  | _ => false

def StmtListSyn.opensBlock : StmtListSyn → Bool
  | .nil => false
  | .cons statement rest => statement.opensBlock || rest.opensBlock

namespace MethodDeclSyn

/-- Whether a block stands inside the body of the method. -/
def opensBlock (decl : MethodDeclSyn) : Bool :=
  match decl.body with
  | none => false
  | some (.mk _ _ statements) => statements.opensBlock

/-- The locals of the method that no inner block declares. -/
def localNames (decl : MethodDeclSyn) : List Ident :=
  match decl.body with
  | none => []
  | some (.mk _ varDecls _) => varDecls.map VarDeclSyn.name

/-- The names that the method's own scope declares. -/
def ownNames (decl : MethodDeclSyn) : List Ident :=
  decl.methodArgs.map ArgSyn.name ++ decl.localNames

end MethodDeclSyn

def DeclSyn.name : DeclSyn → Ident
  | .varDecl decl => decl.name
  | .methodDecl decl => decl.name

/-- `add_method` as `method_decl` calls it behind the parameters and the body. -/
def ReportsRedeclaration (decl : MethodDeclSyn) (ps : ParserState) : Prop :=
  ps.tab.addMethod decl.line decl.name (returnTypeOf decl.type) ps.tab.getThisScope
    decl.body.isNone = .error (.variableRedeclaration decl.line decl.name)

theorem lexArgs_names {args : List ArgSyn} {scope scope' : Scope Ident IdPtr} {outer : LexEnv}
    {decls decls' : List DeclaredSymbol}
    (h : lexArgs args (scope :: outer) decls = (scope' :: outer, decls')) :
    scope'.map Prod.fst = scope.map Prod.fst ++ args.map ArgSyn.name := by
  induction args generalizing scope decls with
  | nil =>
    simp only [lexArgs, Prod.mk.injEq, List.cons.injEq, and_true] at h
    rw [← h.1, List.map_nil, List.append_nil]
  | cons arg rest ih =>
    rw [ih h, List.map_append, List.append_assoc]
    rfl

theorem lexVarDecl_env {decl : VarDeclSyn} {env env' : LexEnv} {decls decls' : List DeclaredSymbol}
    {node : AstNode} (h : lexVarDecl decl env decls = some (node, env', decls')) :
    env' = env.declare decl.name decls.length := by
  unfold lexVarDecl at h
  cases init : decl.init with
  | none =>
    simp only [init] at h
    cases h
    rfl
  | some expr =>
    simp only [init, Option.bind_eq_bind, Option.bind_eq_some_iff] at h
    obtain ⟨e, -, h⟩ := h
    cases h
    rfl

theorem lexVarDecls_names {list : List VarDeclSyn} {scope scope' : Scope Ident IdPtr}
    {outer : LexEnv} {decls decls' : List DeclaredSymbol} {nodes : AstNodeList}
    (h : lexVarDecls list (scope :: outer) decls = some (nodes, scope' :: outer, decls')) :
    scope'.map Prod.fst = scope.map Prod.fst ++ list.map VarDeclSyn.name := by
  induction list generalizing scope decls nodes with
  | nil =>
    simp only [lexVarDecls, Option.pure_def, Option.some.injEq, Prod.mk.injEq, List.cons.injEq,
      and_true] at h
    rw [← h.2.1, List.map_nil, List.append_nil]
  | cons decl rest ih =>
    simp only [lexVarDecls, Option.bind_eq_bind, Option.bind_eq_some_iff] at h
    obtain ⟨⟨node, env₁, decls₁⟩, first, ⟨more, env₂, decls₂⟩, next, last⟩ := h
    obtain rfl := lexVarDecl_env first
    simp only [Option.pure_def, Option.some.injEq, Prod.mk.injEq] at last
    obtain ⟨-, rfl, rfl⟩ := last
    rw [ih next, List.map_append, List.append_assoc]
    rfl

theorem blockAction_raises {block : BlockSyn} {ps ps' : ParserState} {node : AstNode} {env : LexEnv}
    {decls : List DeclaredSymbol} (h : blockAction block ps = .ok (node, ps'))
    (holds : Scoped ps.tab env decls) (down : ps.suppressNextBlockPush = false) :
    ps'.lastBlockPushed = true := by
  obtain ⟨line, varDecls, statements⟩ := block
  simp only [blockAction, bind_eq_ok, pure_eq_ok, Prod.mk.injEq] at h
  obtain ⟨⟨nodes, ps₁⟩, declared, ⟨stmts, ps₂⟩, stated, rfl, rfl⟩ := h
  have opened := openBlock_nested down
  have holds₀ : Scoped (openBlock ps).tab env.push decls := by
    rw [opened]
    exact holds.pushScope
  obtain ⟨scope', decls₁, -, holds₁, flags⟩ := varDeclsAction_lex declared holds₀
  obtain ⟨decls₂, -, -, inner⟩ := statementsAction_lex statements stated holds₁ (by
    rw [flags.suppress, opened]
    exact down)
  have last : ps₂.lastBlockPushed = true := by
    rcases inner.last with same | raised
    · rw [same, flags.last, opened]
    · exact raised
  simp only [closeBlock, last, if_true]
  exact last

theorem statementAction_raises {statement : StmtSyn} {ps ps' : ParserState} {node : AstNode}
    {env : LexEnv} {decls : List DeclaredSymbol}
    (h : statementAction statement ps = .ok (node, ps')) (holds : Scoped ps.tab env decls)
    (down : ps.suppressNextBlockPush = false) :
    ps'.lastBlockPushed = (ps.lastBlockPushed || statement.opensBlock) := by
  cases statement with
  | assign line name expr =>
    simp only [statementAction, bind_eq_ok, pure_eq_ok, Prod.mk.injEq] at h
    obtain ⟨e, -, dir, -, -, rfl⟩ := h
    exact (Bool.or_false _).symm
  | methodCall line name callArgs =>
    simp only [statementAction, bind_eq_ok, pure_eq_ok, Prod.mk.injEq] at h
    obtain ⟨args, -, -, rfl⟩ := h
    exact (Bool.or_false _).symm
  | ifThen line cond thenBlock =>
    simp only [statementAction, bind_eq_ok, pure_eq_ok, Prod.mk.injEq] at h
    obtain ⟨c, -, ⟨t, ps₁⟩, built, -, rfl⟩ := h
    rw [blockAction_raises built holds down]
    exact (Bool.or_true _).symm
  | ifThenElse line cond thenBlock elseBlock =>
    simp only [statementAction, bind_eq_ok, pure_eq_ok, Prod.mk.injEq] at h
    obtain ⟨c, -, ⟨t, ps₁⟩, built, ⟨e, ps₂⟩, built', -, rfl⟩ := h
    obtain ⟨decls₁, -, holds₁, inner⟩ := blockAction_lex thenBlock built holds down
    rw [blockAction_raises built' holds₁ inner.suppress]
    exact (Bool.or_true _).symm
  | whileLoop line cond block =>
    simp only [statementAction, bind_eq_ok, pure_eq_ok, Prod.mk.injEq] at h
    obtain ⟨c, -, ⟨b, ps₁⟩, built, -, rfl⟩ := h
    rw [blockAction_raises built holds down]
    exact (Bool.or_true _).symm
  | returnExpr line expr =>
    simp only [statementAction, bind_eq_ok, pure_eq_ok, Prod.mk.injEq] at h
    obtain ⟨e, -, -, rfl⟩ := h
    exact (Bool.or_false _).symm
  | returnVoid line =>
    simp only [statementAction, pure_eq_ok, Prod.mk.injEq] at h
    obtain ⟨-, rfl⟩ := h
    exact (Bool.or_false _).symm
  | empty =>
    simp only [statementAction, pure_eq_ok, Prod.mk.injEq] at h
    obtain ⟨-, rfl⟩ := h
    exact (Bool.or_false _).symm
  | block block =>
    simp only [statementAction] at h
    rw [blockAction_raises h holds down]
    exact (Bool.or_true _).symm

theorem statementsAction_raises {list : StmtListSyn} {ps ps' : ParserState} {nodes : AstNodeList}
    {env : LexEnv} {decls : List DeclaredSymbol} (h : statementsAction list ps = .ok (nodes, ps'))
    (holds : Scoped ps.tab env decls) (down : ps.suppressNextBlockPush = false) :
    ps'.lastBlockPushed = (ps.lastBlockPushed || list.opensBlock) := by
  cases list with
  | nil =>
    simp only [statementsAction, pure_eq_ok, Prod.mk.injEq] at h
    obtain ⟨-, rfl⟩ := h
    exact (Bool.or_false _).symm
  | cons statement rest =>
    simp only [statementsAction, bind_eq_ok, pure_eq_ok, Prod.mk.injEq] at h
    obtain ⟨⟨node, ps₁⟩, first, ⟨more, ps₂⟩, next, -, rfl⟩ := h
    obtain ⟨decls₁, -, holds₁, inner⟩ := statementAction_lex statement first holds down
    rw [statementsAction_raises next holds₁ inner.suppress,
      statementAction_raises first holds down, StmtListSyn.opensBlock, Bool.or_assoc]

theorem ownBlock_raises {line : Int} {varDecls : List VarDeclSyn} {statements : StmtListSyn}
    {ps ps' : ParserState} {node : AstNode} {scope : Scope Ident IdPtr} {outer : LexEnv}
    {decls : List DeclaredSymbol}
    (h : blockAction (.mk line varDecls statements) ps = .ok (node, ps'))
    (holds : Scoped ps.tab (scope :: outer) decls) (raised : ps.suppressNextBlockPush = true) :
    ps'.lastBlockPushed = statements.opensBlock := by
  simp only [blockAction, bind_eq_ok, pure_eq_ok, Prod.mk.injEq] at h
  obtain ⟨⟨ds, ps₁⟩, declared, ⟨stmts, ps₂⟩, stated, rfl, rfl⟩ := h
  have opened := openBlock_raised raised
  have holds₀ : Scoped (openBlock ps).tab (scope :: outer) decls := by
    rw [opened]
    exact holds
  obtain ⟨scope', decls₁, -, holds₁, flags⟩ := varDeclsAction_lex declared holds₀
  have down : ps₁.suppressNextBlockPush = false := by rw [flags.suppress, opened]
  have low : ps₁.lastBlockPushed = false := by rw [flags.last, opened]
  have last := statementsAction_raises stated holds₁ down
  rw [low, Bool.false_or] at last
  by_cases pushed : ps₂.lastBlockPushed = true
  · simpa only [closeBlock, pushed, if_true, ParserState.popScope] using last
  · simpa only [closeBlock, pushed, Bool.false_eq_true, if_false] using last

theorem methodBody_scopes {decl : MethodDeclSyn} {ps atBody done : ParserState} {block : AstNode}
    {global : Scope Ident IdPtr} {decls : List DeclaredSymbol}
    (holds : Scoped ps.tab [global] decls)
    (args : methodArgsAction decl.methodArgs ps = .ok atBody)
    (body : methodBodyAction decl.body atBody = .ok (block, done)) :
    ∃ scope decls', scope.map Prod.fst = decl.ownNames ∧
      Scoped done.tab (if decl.opensBlock then [global] else [scope, global]) decls' := by
  have opened : Scoped ps.pushScope.tab [[], global] decls := holds.pushScope
  obtain ⟨inner, decls₁, lexed, holds₁, suppress, -⟩ := argListAction_lex args opened
  have params : inner.map Prod.fst = decl.methodArgs.map ArgSyn.name := lexArgs_names lexed
  have raised : atBody.suppressNextBlockPush = true := suppress
  cases isBody : decl.body with
  | none =>
    simp only [isBody, methodBodyAction, pure_eq_ok, Prod.mk.injEq] at body
    obtain ⟨-, rfl⟩ := body
    refine ⟨inner, decls₁, ?_, ?_⟩
    · simp only [MethodDeclSyn.ownNames, MethodDeclSyn.localNames, isBody, params, List.append_nil]
    · simpa only [MethodDeclSyn.opensBlock, isBody, Bool.false_eq_true, if_false] using holds₁
  | some own =>
    obtain ⟨line, varDecls, statements⟩ := own
    simp only [isBody, methodBodyAction] at body
    obtain ⟨nodes, scope, decls₂, decls', declared, -, holds', -⟩ := ownBlock_lex body holds₁ raised
    rw [ownBlock_raises body holds₁ raised] at holds'
    refine ⟨scope, decls', ?_, ?_⟩
    · simp only [MethodDeclSyn.ownNames, MethodDeclSyn.localNames, isBody,
        lexVarDecls_names declared, params]
    · simpa only [MethodDeclSyn.opensBlock, isBody] using holds'

theorem declAction_names {decl : DeclSyn} {ps ps' : ParserState} {node : AstNode}
    {global : Scope Ident IdPtr} {decls : List DeclaredSymbol}
    (h : declAction decl ps = .ok (node, ps')) (top : AtTop ps global decls) :
    ∃ global' decls', AtTop ps' global' decls' ∧
      global'.map Prod.fst = global.map Prod.fst ++ [decl.name] := by
  obtain ⟨global', decls', lexed, holds, noArgs⟩ := declAction_lex h top.holds top.noArgs
  refine ⟨global', decls', ⟨holds, noArgs⟩, ?_⟩
  cases decl with
  | varDecl decl =>
    have env := lexVarDecl_env lexed
    simp only [Environment.declare, List.cons.injEq, and_true] at env
    rw [env, List.map_append]
    rfl
  | methodDecl decl =>
    simp only [lexDecl, lexMethodDecl, Option.bind_eq_bind, Option.bind_eq_some_iff] at lexed
    obtain ⟨⟨block, decls₂⟩, -, last⟩ := lexed
    simp only [Option.pure_def, Option.some.injEq, Prod.mk.injEq, Environment.declareGlobal,
      List.cons.injEq, and_true] at last
    rw [← last.2.1, List.map_append]
    rfl

/-- Between two declarations the global scope holds the names declared so far. -/
theorem declsAction_names {prog : ProgramSyn} {ps ps' : ParserState} {global : Scope Ident IdPtr}
    {decls : List DeclaredSymbol} (h : declsAction prog ps = .ok ps')
    (top : AtTop ps global decls) :
    ∃ global' decls', AtTop ps' global' decls' ∧
      global'.map Prod.fst = global.map Prod.fst ++ prog.map DeclSyn.name := by
  induction prog generalizing ps global decls with
  | nil =>
    simp only [declsAction, pure_eq_ok] at h
    exact ⟨global, decls, h ▸ top, (List.append_nil _).symm⟩
  | cons decl rest ih =>
    simp only [declsAction, bind_eq_ok] at h
    obtain ⟨⟨node, ps₁⟩, first, next⟩ := h
    obtain ⟨global₁, decls₁, top₁, names₁⟩ := declAction_names first top
    obtain ⟨global₂, decls₂, top₂, names₂⟩ := ih next ⟨top₁.holds, top₁.noArgs⟩
    refine ⟨global₂, decls₂, top₂, ?_⟩
    rw [names₂, names₁, List.append_assoc]
    rfl

theorem reportsRedeclaration_iff (decl : MethodDeclSyn) (ps : ParserState) :
    ReportsRedeclaration decl ps ↔ (ps.tab.find decl.name).isSome := by
  unfold ReportsRedeclaration SymbolTable.addMethod
  split
  · next found => exact iff_of_true rfl found
  · next absent => exact iff_of_false (fun h => nomatch h) absent

/-- A redeclaration is reported exactly for the names of the global scope if a block stands
in the body, if the name is global, or if the method's own scope does not declare it. -/
theorem redeclaration_when {pre : ProgramSyn} {decl : MethodDeclSyn} {ps atBody done : ParserState}
    {block : AstNode} (before : parse pre = .ok ps)
    (args : methodArgsAction decl.methodArgs ps = .ok atBody)
    (body : methodBodyAction decl.body atBody = .ok (block, done)) :
    (ReportsRedeclaration decl done ↔ (done.tab.findGlobal decl.name).isSome) ↔
      (decl.opensBlock = true ∨ decl.name ∈ pre.map DeclSyn.name ∨ decl.name ∉ decl.ownNames) := by
  obtain ⟨global, decls, top, names⟩ := declsAction_names before atTop_init
  obtain ⟨scope, decls', own, holds⟩ := methodBody_scopes top.holds args body
  have inGlobal : (done.tab.findGlobal decl.name).isSome ↔ decl.name ∈ pre.map DeclSyn.name := by
    rw [holds.findGlobal]
    have last : (if decl.opensBlock then [global] else [scope, global]).getLast? = some global := by
      split <;> rfl
    rw [last, Option.bind_some, Environment.lookup_isSome_names, names]
    simp
  rw [reportsRedeclaration_iff, inGlobal, holds.find]
  by_cases opens : decl.opensBlock = true
  · have here : (Environment.lookup [global] decl.name).isSome ↔
        decl.name ∈ pre.map DeclSyn.name := by
      rw [Environment.lookup, List.findSome?_singleton, Environment.lookup_isSome_names, names]
      simp
    rw [if_pos opens, here]
    exact iff_of_true Iff.rfl (.inl opens)
  · have here : (Environment.lookup [scope, global] decl.name).isSome ↔
        decl.name ∈ decl.ownNames ∨ decl.name ∈ pre.map DeclSyn.name := by
      rw [Environment.lookup, List.findSome?_cons, ← own, ← Environment.lookup_isSome_names]
      cases List.lookup decl.name scope with
      | some p => simp
      | none =>
        rw [List.findSome?_singleton, Environment.lookup_isSome_names, names]
        simp
    rw [if_neg opens, here]
    tauto

/-- `void f(integer f) { ; }`. -/
def ownParameter : MethodDeclSyn :=
  ⟨1, none, .of "f", [⟨1, .integer, .of "f"⟩], some (.mk 1 [] (.cons .empty .nil))⟩

theorem redeclaration_not_global :
    ∃ ps atBody done block, parse [] = .ok ps ∧
      methodArgsAction ownParameter.methodArgs ps = .ok atBody ∧
      methodBodyAction ownParameter.body atBody = .ok (block, done) ∧
      ¬(ReportsRedeclaration ownParameter done ↔
        (done.tab.findGlobal ownParameter.name).isSome) := by
  refine ⟨_, _, _, _, rfl, rfl, rfl, ?_⟩
  rw [reportsRedeclaration_iff]
  decide

/-- `void f(integer f) { { } }`: with a block in the body the parameter does not count. -/
def ownParameterNested : MethodDeclSyn :=
  ⟨1, none, .of "f", [⟨1, .integer, .of "f"⟩],
    some (.mk 1 [] (.cons (.block (.mk 1 [] .nil)) .nil))⟩

theorem redeclaration_when_nested :
    ∃ ps atBody done block, parse [] = .ok ps ∧
      methodArgsAction ownParameterNested.methodArgs ps = .ok atBody ∧
      methodBodyAction ownParameterNested.body atBody = .ok (block, done) ∧
      (ReportsRedeclaration ownParameterNested done ↔
        (done.tab.findGlobal ownParameterNested.name).isSome) :=
  ⟨_, _, _, _, rfl, rfl, rfl, (redeclaration_when (rfl : parse [] = .ok _) rfl rfl).mpr
    (.inl rfl)⟩

end Ctds
