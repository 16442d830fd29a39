import Ctds.Lib.ScopeStack
import Ctds.Parser

/-! Lexical scoping, by recursion on the syntax and without a table: an expression is
resolved in the environment of the scopes around it, and a block works in a scope of its
own that nothing after it sees. Declarations are numbered in the order in which they end. -/

namespace Ctds

open Scoping

abbrev LexEnv := Environment Ident IdPtr

/-- What a declaration says of the symbol it makes. -/
inductive DeclaredSymbol where
  | var (name : Ident) (type : Ty)
  | method (name : Ident) (returnType : ReturnType) (params : List Args) (isExtern : Bool)
deriving DecidableEq

def SymbolInfo.declaration : SymbolInfo → DeclaredSymbol
  | .id name type => .var name type
  | .methodDecl method => .method method.name method.returnType method.args method.isExtern

mutual
def lexExpr (env : LexEnv) : ExprSyn → Option AstNode
  | .id line name => do
    let p ← env.lookup name
    return .leaf line (.id p)
  | .methodCall line name callArgs => do
    let args ← lexExprs env callArgs
    return newMethodCallNode line name args
  | .integerLiteral line ival => return .leaf line (.int ival)
  | .trueLiteral line => return .leaf line (.bool 1)
  | .falseLiteral line => return .leaf line (.bool 0)
  | .binary line op left right => do
    let l ← lexExpr env left
    let r ← lexExpr env right
    return .common line .binary op.toOperator l r
  | .uminus line expr => do
    let e ← lexExpr env expr
    return .common line .unary .minus e .null
  | .neg line expr => do
    let e ← lexExpr env expr
    return .common line .unary .neg e .null
  | .paren expr => lexExpr env expr
def lexExprs (env : LexEnv) : ExprListSyn → Option AstNodeList
  | .nil => return .nil
  | .cons expr rest => do
    let e ← lexExpr env expr
    let es ← lexExprs env rest
    return .cons e es
end

/-- The initialiser is resolved before the name is declared. -/
def lexVarDecl (decl : VarDeclSyn) (env : LexEnv) (decls : List DeclaredSymbol) :
    Option (AstNode × LexEnv × List DeclaredSymbol) := do
  let leaf := AstNode.leaf decl.line (.id decls.length)
  match decl.init with
  | some expr =>
    let e ← lexExpr env expr
    return (.common decl.line .binary .decl leaf e, env.declare decl.name decls.length,
      decls ++ [.var decl.name decl.type.toTy])
  | none =>
    return (.common decl.line .unary .decl leaf .null, env.declare decl.name decls.length,
      decls ++ [.var decl.name decl.type.toTy])

def lexVarDecls : List VarDeclSyn → LexEnv → List DeclaredSymbol →
    Option (AstNodeList × LexEnv × List DeclaredSymbol)
  | [], env, decls => return (.nil, env, decls)
  | decl :: rest, env, decls => do
    let (node, env, decls) ← lexVarDecl decl env decls
    let (nodes, env, decls) ← lexVarDecls rest env decls
    return (.cons node nodes, env, decls)

mutual
/-- A statement declares nothing around it. -/
def lexStmt : StmtSyn → LexEnv → List DeclaredSymbol → Option (AstNode × List DeclaredSymbol)
  | .assign line name expr, env, decls => do
    let e ← lexExpr env expr
    let p ← env.lookup name
    return (.common line .binary .assign (.leaf line (.id p)) e, decls)
  | .methodCall line name callArgs, env, decls => do
    let args ← lexExprs env callArgs
    return (newMethodCallNode line name args, decls)
  | .ifThen line cond thenBlock, env, decls => do
    let c ← lexExpr env cond
    let (t, decls) ← lexBlock thenBlock env.push decls
    return (.ifStmt line c t .null, decls)
  | .ifThenElse line cond thenBlock elseBlock, env, decls => do
    let c ← lexExpr env cond
    let (t, decls) ← lexBlock thenBlock env.push decls
    let (e, decls) ← lexBlock elseBlock env.push decls
    return (.ifStmt line c t e, decls)
  | .whileLoop line cond block, env, decls => do
    let c ← lexExpr env cond
    let (b, decls) ← lexBlock block env.push decls
    return (.whileStmt line c b, decls)
  | .returnExpr line expr, env, decls => do
    let e ← lexExpr env expr
    return (.common line .unary .ret e .null, decls)
  | .returnVoid line, _, decls => return (.common line .unary .ret .null .null, decls)
  | .empty, _, decls => return (.null, decls)
  | .block block, env, decls => lexBlock block env.push decls
/-- A block, in the environment with its own scope: its declarations, then its statements. -/
def lexBlock : BlockSyn → LexEnv → List DeclaredSymbol → Option (AstNode × List DeclaredSymbol)
  | .mk line varDecls statements, env, decls => do
    let (nodes, env, decls) ← lexVarDecls varDecls env decls
    let (stmts, decls) ← lexStmts statements env decls
    return (mergeBlock line nodes stmts, decls)
def lexStmts : StmtListSyn → LexEnv → List DeclaredSymbol →
    Option (AstNodeList × List DeclaredSymbol)
  | .nil, _, decls => return (.nil, decls)
  | .cons statement rest, env, decls => do
    let (node, decls) ← lexStmt statement env decls
    let (nodes, decls) ← lexStmts rest env decls
    return (if node.isNull then nodes else .cons node nodes, decls)
end

def ArgSyn.toArgs (arg : ArgSyn) : Args := ⟨arg.name, arg.type.toTy⟩

/-- The parameters are the first declarations of the method's scope. -/
def lexArgs : List ArgSyn → LexEnv → List DeclaredSymbol → LexEnv × List DeclaredSymbol
  | [], env, decls => (env, decls)
  | arg :: rest, env, decls =>
    lexArgs rest (env.declare arg.name decls.length) (decls ++ [.var arg.name arg.type.toTy])

def lexBody : Option BlockSyn → LexEnv → List DeclaredSymbol →
    Option (AstNode × List DeclaredSymbol)
  | some block, env, decls => lexBlock block env decls
  | none, _, decls => return (.null, decls)

/-- The body sees the parameters and its own locals in one scope; the method itself is
declared behind it. -/
def lexMethodDecl (decl : MethodDeclSyn) (env : LexEnv) (decls : List DeclaredSymbol) :
    Option (AstNode × LexEnv × List DeclaredSymbol) := do
  let (inner, decls) := lexArgs decl.methodArgs env.push decls
  let (block, decls) ← lexBody decl.body inner decls
  return (.methodDecl decl.line decls.length block, env.declareGlobal decl.name decls.length,
    decls ++ [.method decl.name (returnTypeOf decl.type) (decl.methodArgs.map ArgSyn.toArgs)
      decl.body.isNone])

def lexDecl : DeclSyn → LexEnv → List DeclaredSymbol →
    Option (AstNode × LexEnv × List DeclaredSymbol)
  | .varDecl decl, env, decls => lexVarDecl decl env decls
  | .methodDecl decl, env, decls => lexMethodDecl decl env decls

def lexDecls : ProgramSyn → LexEnv → List DeclaredSymbol →
    Option (List AstNode × List DeclaredSymbol)
  | [], _, decls => return ([], decls)
  | decl :: rest, env, decls => do
    let (node, env, decls) ← lexDecl decl env decls
    let (nodes, decls) ← lexDecls rest env decls
    return (node :: nodes, decls)

/-- The sentences of a program and all its declarations; the global scope is empty at first. -/
def lexProgram (prog : ProgramSyn) : Option (List AstNode × List DeclaredSymbol) :=
  lexDecls prog [[]] []

end Ctds
