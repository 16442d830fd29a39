import Ctds.Grammar
import Ctds.Lexer
import Ctds.Lib.Precedence

/-! The terminals of a derivation, from left to right, and the derivations that the precedence
declarations of `parser.y` leave. The grammar alone gives `a - b - c` two derivations. -/

namespace Ctds

def TypeSyn.terminal : TypeSyn → Token
  | integer => .kwInteger
  | bool => .kwBool

def BinarySyn.terminal : BinarySyn → Token
  | plus => .char '+' | minus => .char '-' | times => .char '*' | slash => .char '/'
  | percent => .char '%'
  | les => .les | grt => .grt | eq => .eq | neq => .neq | leq => .leq | geq => .geq
  | and => .and | or => .or

mutual
def ExprSyn.terminals : ExprSyn → List Token
  | .id _ name => [.id name]
  | .methodCall _ name callArgs => .id name :: .char '(' :: callArgs.terminals ++ [.char ')']
  | .integerLiteral _ ival => [.integerLiteral ival]
  | .trueLiteral _ => [.kwTrue]
  | .falseLiteral _ => [.kwFalse]
  | .binary _ op left right => left.terminals ++ op.terminal :: right.terminals
  | .uminus _ expr => .char '-' :: expr.terminals
  | .neg _ expr => .neg :: expr.terminals
  | .paren expr => .char '(' :: expr.terminals ++ [.char ')']
def ExprListSyn.terminals : ExprListSyn → List Token
  | .nil => []
  | .cons expr rest => expr.terminals ++ rest.commaTerminals
/-- A comma in front of each expression. -/
def ExprListSyn.commaTerminals : ExprListSyn → List Token
  | .nil => []
  | .cons expr rest => .char ',' :: expr.terminals ++ rest.commaTerminals
end

def initTerminals : Option ExprSyn → List Token
  | some expr => .char '=' :: expr.terminals ++ [.char ';']
  | none => [.char ';']

def VarDeclSyn.terminals (decl : VarDeclSyn) : List Token :=
  decl.type.terminal :: .id decl.name :: initTerminals decl.init

mutual
def StmtSyn.terminals : StmtSyn → List Token
  | .assign _ name expr => .id name :: .char '=' :: expr.terminals ++ [.char ';']
  | .methodCall _ name callArgs =>
    .id name :: .char '(' :: callArgs.terminals ++ [.char ')', .char ';']
  | .ifThen _ cond thenBlock =>
    .kwIf :: .char '(' :: cond.terminals ++ .char ')' :: .kwThen :: thenBlock.terminals
  | .ifThenElse _ cond thenBlock elseBlock =>
    .kwIf :: .char '(' :: cond.terminals ++ .char ')' :: .kwThen :: thenBlock.terminals ++
      .kwElse :: elseBlock.terminals
  | .whileLoop _ cond block =>
    .kwWhile :: .char '(' :: cond.terminals ++ .char ')' :: block.terminals
  | .returnExpr _ expr => .kwReturn :: expr.terminals ++ [.char ';']
  | .returnVoid _ => [.kwReturn, .char ';']
  | .empty => [.char ';']
  | .block block => block.terminals
def BlockSyn.terminals : BlockSyn → List Token
  | .mk _ varDecls statements =>
    .char '{' :: (varDecls.map VarDeclSyn.terminals).flatten ++ statements.terminals ++ [.char '}']
def StmtListSyn.terminals : StmtListSyn → List Token
  | .nil => []
  | .cons statement rest => statement.terminals ++ rest.terminals
end

def ArgSyn.terminals (arg : ArgSyn) : List Token := [arg.type.terminal, .id arg.name]

def commaArgTerminals (args : List ArgSyn) : List Token :=
  (args.map fun arg => .char ',' :: arg.terminals).flatten

/-- `arg_list`, or nothing. -/
def argTerminals : List ArgSyn → List Token
  | [] => []
  | arg :: rest => arg.terminals ++ commaArgTerminals rest

def returnTerminal : Option TypeSyn → Token
  | some type => type.terminal
  | none => .kwVoid

def bodyTerminals : Option BlockSyn → List Token
  | some block => block.terminals
  | none => [.kwExtern, .char ';']

def MethodDeclSyn.terminals (decl : MethodDeclSyn) : List Token :=
  returnTerminal decl.type :: .id decl.name :: .char '(' :: argTerminals decl.methodArgs ++
    .char ')' :: bodyTerminals decl.body

def DeclSyn.terminals : DeclSyn → List Token
  | .varDecl decl => decl.terminals
  | .methodDecl decl => decl.terminals

def programTerminals (prog : ProgramSyn) : List Token :=
  .kwProgram :: .char '{' :: (prog.map DeclSyn.terminals).flatten ++ [.char '}']

/-- The lines `%left`, from the first to the last. -/
def BinarySyn.prec : BinarySyn → Nat
  | and | or => 1
  | eq | neq => 2
  | les | grt | leq | geq => 3
  | plus | minus => 4
  | times | slash | percent => 5

/-- `%right UMINUS` and `%right NEG`. -/
def uminusPrec : Nat := 6
def negPrec : Nat := 7

/-- No operator of a lower level is open in the expression. -/
def ExprSyn.AtLeast (n : Nat) : ExprSyn → Prop
  | .binary _ op _ _ => n ≤ op.prec
  | _ => True

mutual
/-- A conflict between a rule and the operator behind it is decided by their levels, and within a
level for the rule. -/
def ExprSyn.Respects : ExprSyn → Prop
  | .methodCall _ _ callArgs => callArgs.Respects
  | .binary _ op left right =>
    left.Respects ∧ right.Respects ∧ left.AtLeast op.prec ∧ right.AtLeast (op.prec + 1)
  | .uminus _ expr => expr.Respects ∧ expr.AtLeast uminusPrec
  | .neg _ expr => expr.Respects ∧ expr.AtLeast negPrec
  | .paren expr => expr.Respects
  | .id _ _ | .integerLiteral _ _ | .trueLiteral _ | .falseLiteral _ => True
def ExprListSyn.Respects : ExprListSyn → Prop
  | .nil => True
  | .cons expr rest => expr.Respects ∧ rest.Respects
end

def VarDeclSyn.Respects (decl : VarDeclSyn) : Prop := ∀ expr ∈ decl.init, expr.Respects

mutual
def StmtSyn.Respects : StmtSyn → Prop
  | .assign _ _ expr | .returnExpr _ expr => expr.Respects
  | .methodCall _ _ callArgs => callArgs.Respects
  | .ifThen _ cond thenBlock => cond.Respects ∧ thenBlock.Respects
  | .ifThenElse _ cond thenBlock elseBlock =>
    cond.Respects ∧ thenBlock.Respects ∧ elseBlock.Respects
  | .whileLoop _ cond block => cond.Respects ∧ block.Respects
  | .returnVoid _ | .empty => True
  | .block block => block.Respects
def BlockSyn.Respects : BlockSyn → Prop
  | .mk _ varDecls statements => (∀ decl ∈ varDecls, decl.Respects) ∧ statements.Respects
def StmtListSyn.Respects : StmtListSyn → Prop
  | .nil => True
  | .cons statement rest => statement.Respects ∧ rest.Respects
end

def DeclSyn.Respects : DeclSyn → Prop
  | .varDecl decl => decl.Respects
  | .methodDecl decl => ∀ block ∈ decl.body, block.Respects

mutual
/-- The derivation with every line set to 0. -/
def ExprSyn.unlined : ExprSyn → ExprSyn
  | .id _ name => .id 0 name
  | .methodCall _ name callArgs => .methodCall 0 name callArgs.unlined
  | .integerLiteral _ ival => .integerLiteral 0 ival
  | .trueLiteral _ => .trueLiteral 0
  | .falseLiteral _ => .falseLiteral 0
  | .binary _ op left right => .binary 0 op left.unlined right.unlined
  | .uminus _ expr => .uminus 0 expr.unlined
  | .neg _ expr => .neg 0 expr.unlined
  | .paren expr => .paren expr.unlined
def ExprListSyn.unlined : ExprListSyn → ExprListSyn
  | .nil => .nil
  | .cons expr rest => .cons expr.unlined rest.unlined
end

def VarDeclSyn.unlined (decl : VarDeclSyn) : VarDeclSyn :=
  { decl with line := 0, init := decl.init.map ExprSyn.unlined }

mutual
def StmtSyn.unlined : StmtSyn → StmtSyn
  | .assign _ name expr => .assign 0 name expr.unlined
  | .methodCall _ name callArgs => .methodCall 0 name callArgs.unlined
  | .ifThen _ cond thenBlock => .ifThen 0 cond.unlined thenBlock.unlined
  | .ifThenElse _ cond thenBlock elseBlock =>
    .ifThenElse 0 cond.unlined thenBlock.unlined elseBlock.unlined
  | .whileLoop _ cond block => .whileLoop 0 cond.unlined block.unlined
  | .returnExpr _ expr => .returnExpr 0 expr.unlined
  | .returnVoid _ => .returnVoid 0
  | .empty => .empty
  | .block block => .block block.unlined
def BlockSyn.unlined : BlockSyn → BlockSyn
  | .mk _ varDecls statements => .mk 0 (varDecls.map VarDeclSyn.unlined) statements.unlined
def StmtListSyn.unlined : StmtListSyn → StmtListSyn
  | .nil => .nil
  | .cons statement rest => .cons statement.unlined rest.unlined
end

def ArgSyn.unlined (arg : ArgSyn) : ArgSyn := { arg with line := 0 }

def MethodDeclSyn.unlined (decl : MethodDeclSyn) : MethodDeclSyn :=
  { decl with
    line := 0
    methodArgs := decl.methodArgs.map ArgSyn.unlined
    body := decl.body.map BlockSyn.unlined }

def DeclSyn.unlined : DeclSyn → DeclSyn
  | .varDecl decl => .varDecl decl.unlined
  | .methodDecl decl => .methodDecl decl.unlined

end Ctds
