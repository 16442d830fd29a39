import Ctds.Symbol

/-! Derivations of the grammar of `parser.y`, one constructor for each production that
has an action. A `line` is the value of `yylineno` when the production is reduced. -/

namespace Ctds

/-- The nonterminal `type`: the token INTEGER or BOOL. -/
inductive TypeSyn where
  | integer | bool
deriving DecidableEq, Repr

/-- `($1 == INTEGER) ? TYPE_INT : TYPE_BOOL`. -/
def TypeSyn.toTy : TypeSyn → Ty
  | integer => .int
  | bool => .bool

def TypeSyn.toReturnType : TypeSyn → ReturnType
  | integer => .int
  | bool => .bool

/-- The operators of the productions `expr: expr op expr`. -/
inductive BinarySyn where
  | plus | minus | times | slash | percent
  | les | grt | eq | neq | leq | geq | and | or
deriving DecidableEq, Repr

def BinarySyn.toOperator : BinarySyn → Operator
  | plus => .addition | minus => .subtraction | times => .multiplication
  | slash => .division | percent => .mod
  | les => .les | grt => .grt | eq => .eq | neq => .neq | leq => .leq | geq => .geq
  | and => .and | or => .or

mutual
inductive ExprSyn where
  | id (line : Int) (name : Ident)
  | methodCall (line : Int) (name : Ident) (callArgs : ExprListSyn)
  | integerLiteral (line : Int) (ival : BitVec 32)
  | trueLiteral (line : Int)
  | falseLiteral (line : Int)
  | binary (line : Int) (op : BinarySyn) (left right : ExprSyn)
  | uminus (line : Int) (expr : ExprSyn)
  | neg (line : Int) (expr : ExprSyn)
  | paren (expr : ExprSyn)
/-- `call_args`: a list of expressions separated by commas, or nothing. -/
inductive ExprListSyn where
  | nil
  | cons (expr : ExprSyn) (rest : ExprListSyn)
end

structure VarDeclSyn where
  line : Int
  type : TypeSyn
  name : Ident
  init : Option ExprSyn

mutual
inductive StmtSyn where
  | assign (line : Int) (name : Ident) (expr : ExprSyn)
  | methodCall (line : Int) (name : Ident) (callArgs : ExprListSyn)
  | ifThen (line : Int) (cond : ExprSyn) (thenBlock : BlockSyn)
  | ifThenElse (line : Int) (cond : ExprSyn) (thenBlock elseBlock : BlockSyn)
  | whileLoop (line : Int) (cond : ExprSyn) (block : BlockSyn)
  | returnExpr (line : Int) (expr : ExprSyn)
  | returnVoid (line : Int)
  | empty
  | block (block : BlockSyn)
inductive BlockSyn where
  | mk (line : Int) (varDecls : List VarDeclSyn) (statements : StmtListSyn)
inductive StmtListSyn where
  | nil
  | cons (statement : StmtSyn) (rest : StmtListSyn)
end

structure ArgSyn where
  line : Int
  type : TypeSyn
  name : Ident

/-- The nonterminal `method_decl`: VOID or a type, and a block or EXTERN. The line of
`add_method` and of the node is that of the whole production. -/
structure MethodDeclSyn where
  line : Int
  type : Option TypeSyn
  name : Ident
  methodArgs : List ArgSyn
  body : Option BlockSyn

inductive DeclSyn where
  | varDecl (decl : VarDeclSyn)
  | methodDecl (decl : MethodDeclSyn)

abbrev ProgramSyn := List DeclSyn

end Ctds
