import Ctds.Ast
import Ctds.Grammar
import Ctds.SymbolTable

/-! The actions of `parser.y`, run over a derivation in the order in which the parser
reduces its productions. The state holds what the actions share: the symbol table, the
parameter list under construction, the two flags about pushing scopes, and the list of
top-level sentences. -/

namespace Ctds

structure ParserState where
  tab : SymbolTable
  currentArgsList : List Args
  suppressNextBlockPush : Bool
  lastBlockPushed : Bool
  headAst : List AstNode

namespace ParserState

def init : ParserState := ⟨.empty, [], false, false, []⟩

def pushScope (ps : ParserState) : ParserState := { ps with tab := ps.tab.pushScope }

def popScope (ps : ParserState) : ParserState := { ps with tab := ps.tab.popScope }

end ParserState

/-- `new_method_call_node` counts the arguments it is given. -/
def newMethodCallNode (line : Int) (name : Ident) (args : AstNodeList) : AstNode :=
  .methodCall line name args.length args

def findVariable (tab : SymbolTable) (line : Int) (name : Ident) : Except Error IdPtr :=
  match tab.find name with
  | none => .error (.variableNotDeclared line name)
  | some dir => .ok dir

mutual
/-- The actions of `expr`, `literal` and `method_call`: they read the table only. -/
def exprAction (tab : SymbolTable) : ExprSyn → Except Error AstNode
  | .id line name => do
    let dir ← findVariable tab line name
    return .leaf line (.id dir)
  | .methodCall line name callArgs => do
    let args ← exprListAction tab callArgs
    return newMethodCallNode line name args
  | .integerLiteral line ival => return .leaf line (.int ival)
  | .trueLiteral line => return .leaf line (.bool 1)
  | .falseLiteral line => return .leaf line (.bool 0)
  | .binary line op left right => do
    let l ← exprAction tab left
    let r ← exprAction tab right
    return .common line .binary op.toOperator l r
  | .uminus line expr => do
    let e ← exprAction tab expr
    return .common line .unary .minus e .null
  | .neg line expr => do
    let e ← exprAction tab expr
    return .common line .unary .neg e .null
  | .paren expr => exprAction tab expr
def exprListAction (tab : SymbolTable) : ExprListSyn → Except Error AstNodeList
  | .nil => return .nil
  | .cons expr rest => do
    let e ← exprAction tab expr
    let es ← exprListAction tab rest
    return .cons e es
end

/-- The initialiser is built before the variable is added, so it cannot name it. -/
def varDeclAction (decl : VarDeclSyn) (ps : ParserState) :
    Except Error (AstNode × ParserState) := do
  match decl.init with
  | some expr =>
    let e ← exprAction ps.tab expr
    let (tab, dir) ← ps.tab.addId decl.line decl.name decl.type.toTy
    return (.common decl.line .binary .decl (.leaf decl.line (.id dir)) e, { ps with tab := tab })
  | none =>
    let (tab, dir) ← ps.tab.addId decl.line decl.name decl.type.toTy
    return (.common decl.line .unary .decl (.leaf decl.line (.id dir)) .null,
      { ps with tab := tab })

def varDeclsAction : List VarDeclSyn → ParserState → Except Error (AstNodeList × ParserState)
  | [], ps => return (.nil, ps)
  | decl :: rest, ps => do
    let (node, ps) ← varDeclAction decl ps
    let (nodes, ps) ← varDeclsAction rest ps
    return (.cons node nodes, ps)

/-- The action in front of `var_decls`: a method's own block opens no scope. -/
def openBlock (ps : ParserState) : ParserState :=
  if ps.suppressNextBlockPush then
    { ps with lastBlockPushed := false, suppressNextBlockPush := false }
  else { ps.pushScope with lastBlockPushed := true }

def closeBlock (ps : ParserState) : ParserState :=
  if ps.lastBlockPushed then ps.popScope else ps

/-- `merged`: the declarations, then the statements; an empty block is a null pointer. -/
def mergeBlock (line : Int) : AstNodeList → AstNodeList → AstNode
  | .nil, .nil => .null
  | decls, .nil => .block line decls
  | decls, .cons it next => mergeBlock line (appendExpr decls it) next

mutual
def statementAction : StmtSyn → ParserState → Except Error (AstNode × ParserState)
  | .assign line name expr, ps => do
    let e ← exprAction ps.tab expr
    let dir ← findVariable ps.tab line name
    return (.common line .binary .assign (.leaf line (.id dir)) e, ps)
  | .methodCall line name callArgs, ps => do
    let args ← exprListAction ps.tab callArgs
    return (newMethodCallNode line name args, ps)
  | .ifThen line cond thenBlock, ps => do
    let c ← exprAction ps.tab cond
    let (t, ps) ← blockAction thenBlock ps
    return (.ifStmt line c t .null, ps)
  | .ifThenElse line cond thenBlock elseBlock, ps => do
    let c ← exprAction ps.tab cond
    let (t, ps) ← blockAction thenBlock ps
    let (e, ps) ← blockAction elseBlock ps
    return (.ifStmt line c t e, ps)
  | .whileLoop line cond block, ps => do
    let c ← exprAction ps.tab cond
    let (b, ps) ← blockAction block ps
    return (.whileStmt line c b, ps)
  | .returnExpr line expr, ps => do
    let e ← exprAction ps.tab expr
    return (.common line .unary .ret e .null, ps)
  | .returnVoid line, ps => return (.common line .unary .ret .null .null, ps)
  | .empty, ps => return (.null, ps)
  | .block block, ps => blockAction block ps
def blockAction : BlockSyn → ParserState → Except Error (AstNode × ParserState)
  | .mk line varDecls statements, ps => do
    let (decls, ps) ← varDeclsAction varDecls (openBlock ps)
    let (stmts, ps) ← statementsAction statements ps
    return (mergeBlock line decls stmts, closeBlock ps)
/-- `statements`: `append_expr` drops the empty ones. -/
def statementsAction : StmtListSyn → ParserState → Except Error (AstNodeList × ParserState)
  | .nil, ps => return (.nil, ps)
  | .cons statement rest, ps => do
    let (node, ps) ← statementAction statement ps
    let (nodes, ps) ← statementsAction rest ps
    return (if node.isNull then nodes else .cons node nodes, ps)
end

def argListAction : List ArgSyn → ParserState → Except Error ParserState
  | [], ps => return ps
  | arg :: rest, ps => do
    let (tab, _) ← ps.tab.addId arg.line arg.name arg.type.toTy
    argListAction rest
      { ps with
        tab := tab
        currentArgsList := addArgCurrentList ps.currentArgsList arg.name arg.type.toTy }

/-- Both alternatives of `method_args` open the method's scope first. -/
def methodArgsAction (args : List ArgSyn) (ps : ParserState) : Except Error ParserState :=
  argListAction args { ps.pushScope with suppressNextBlockPush := true }

def methodBodyAction : Option BlockSyn → ParserState → Except Error (AstNode × ParserState)
  | some block, ps => blockAction block ps
  | none, ps => return (.null, ps)

def newMethodDeclNode (tab : SymbolTable) (line : Int) (name : Ident) (block : AstNode) :
    Except Error AstNode :=
  match tab.findGlobal name with
  | none => .error (.methodNotFound name)
  | some p => .ok (.methodDecl line p block)

def returnTypeOf : Option TypeSyn → ReturnType
  | none => .void
  | some type => type.toReturnType

/-- The four alternatives of `method_decl` differ in the return type and in whether a
block or EXTERN follows the parameters. -/
def methodDeclAction (decl : MethodDeclSyn) (ps : ParserState) :
    Except Error (AstNode × ParserState) := do
  let ps ← methodArgsAction decl.methodArgs ps
  let (block, ps) ← methodBodyAction decl.body ps
  let tab ← ps.tab.addMethod decl.line decl.name (returnTypeOf decl.type)
    ps.tab.getThisScope decl.body.isNone
  let tab ← tab.addCurrentList decl.name ps.currentArgsList
  let node ← newMethodDeclNode tab decl.line decl.name block
  return (node, { ps with tab := tab, currentArgsList := [] }.popScope)

def declAction : DeclSyn → ParserState → Except Error (AstNode × ParserState)
  | .varDecl decl, ps => varDeclAction decl ps
  | .methodDecl decl, ps => methodDeclAction decl ps

def declsAction : ProgramSyn → ParserState → Except Error ParserState
  | [], ps => return ps
  | decl :: rest, ps => do
    let (node, ps) ← declAction decl ps
    declsAction rest { ps with headAst := ps.headAst ++ [node] }

/-- `yyparse` on the derivation of a whole program. -/
def parse (prog : ProgramSyn) : Except Error ParserState := declsAction prog .init

end Ctds
