import Ctds.ParserSpec

/-! What the analyzer decides, without its state: the type of an expression, the tree
left by folding and by the elimination of dead branches, whether a statement is
accepted, and what the flag `returned_global` and `ret` hold after it. Every function
here is by recursion on the tree alone. -/

namespace Ctds

def symbolType (info : SymbolInfo) : Option RetType :=
  if info.idType = Ty.int.code then some .int
  else if info.idType = Ty.bool.code then some .bool
  else none

def leafType (tab : SymbolTable) : LeafValue → Option RetType
  | .int _ => some .int
  | .bool _ => some .bool
  | .id p => (tab.entry p).bind symbolType

def binaryType (op : Operator) (l r : RetType) : Option RetType :=
  match op with
  | .addition | .subtraction | .multiplication | .division | .mod =>
    if l = .int ∧ r = .int then some .int else none
  | .les | .grt | .neq | .leq | .geq => if l = .int ∧ r = .int then some .bool else none
  | .eq => if l = r then some .bool else none
  | .and | .or => if l = .bool ∧ r = .bool then some .bool else none
  | _ => none

def unaryType (op : Operator) (l : RetType) : Option RetType :=
  match op with
  | .minus => if l = .int then some .int else none
  | .neg => if l = .bool then some .bool else none
  | _ => none

/-- The leaf a binary operator makes of two literals; `none` where C faults. -/
def foldOperator (op : Operator) : BitVec 32 → BitVec 32 → Option LeafValue :=
  match op with
  | .addition => foldInt (· + ·)
  | .subtraction => foldInt (· - ·)
  | .multiplication => foldInt (· * ·)
  | .division => foldDivision
  | .mod => foldMod
  | .les => foldBool BitVec.slt
  | .grt => foldBool fun x y => y.slt x
  | .eq => foldBool (· == ·)
  | .neq => foldBool (· != ·)
  | .leq => foldBool BitVec.sle
  | .geq => foldBool fun x y => y.sle x
  | .and => foldBool fun x y => x != 0 && y != 0
  | .or => foldBool fun x y => x != 0 || y != 0
  | _ => fun _ _ => none

/-- The node left of a binary operator whose operands are already folded. -/
def foldNode (env : Env) (line : Int) (op : Operator) (left right : AstNode) : AstNode :=
  match literalOperands env left right with
  | none => .common line .binary op left right
  | some (l, r) =>
    match foldOperator op l r with
    | none => .common line .binary op left right
    | some value => .leaf line value

def foldFaults (env : Env) (op : Operator) (left right : AstNode) : Bool :=
  match literalOperands env left right with
  | none => false
  | some (l, r) => (foldOperator op l r).isNone

mutual
/-- The expression that constant folding leaves. -/
def foldTree (env : Env) : AstNode → AstNode
  | .common line .binary op left right =>
    foldNode env line op (foldTree env left) (foldTree env right)
  | .common line .unary op left right => .common line .unary op (foldTree env left) right
  | .methodCall line name numArgs args => .methodCall line name numArgs (foldTrees env args)
  | node => node
def foldTrees (env : Env) : AstNodeList → AstNodeList
  | .nil => .nil
  | .cons first next => .cons (foldTree env first) (foldTrees env next)
end

mutual
/-- The type of an expression, unless a check on it fails. -/
def exprType (env : Env) (tab : SymbolTable) : AstNode → Option RetType
  | .leaf _ value => leafType tab value
  | .common _ .binary op left right =>
    match exprType env tab left, exprType env tab right with
    | some l, some r =>
      if foldFaults env op (foldTree env left) (foldTree env right) then none else binaryType op l r
    | _, _ => none
  | .common _ .unary op left _ => (exprType env tab left).bind (unaryType op)
  | .methodCall line name numArgs args =>
    match calledMethod tab line name numArgs with
    | .ok method =>
      if argsAccepted env tab method.args args then method.returnType.toRetType else none
    | .error _ => none
  | _ => none
def argsAccepted (env : Env) (tab : SymbolTable) : List Args → AstNodeList → Bool
  | param :: params, .cons first next =>
    ((exprType env tab first).bind RetType.toTy? == some param.type) &&
      argsAccepted env tab params next
  | _, _ => true
end

/-- Which branches of an if survive the elimination of dead branches. -/
inductive IfCase where
  | both | thenOnly | elseOnly
deriving DecidableEq, Repr

def ifCase (env : Env) (condition elseBlock : AstNode) : IfCase :=
  match condition with
  | .leaf _ value =>
    if env.optimizations then
      if value.intValue env = 1 then .thenOnly
      else if elseBlock.isNull then .both
      else .elseOnly
    else .both
  | _ => .both

/-- The test of `eval_while` that looks into the loop body. -/
def testsLoop (env : Env) : AstNode → Bool
  | .leaf _ _ => env.optimizations
  | _ => false

def dropsLoop (env : Env) : AstNode → Bool
  | .leaf _ value => env.optimizations && decide (value.intValue env = 0)
  | _ => false

def blockStmts : AstNode → AstNodeList
  | .block _ stmts => stmts
  | _ => .nil

def AstNodeList.isEmpty : AstNodeList → Bool
  | nil => true
  | cons _ _ => false

mutual
/-- The statement that the analyzer leaves in the tree. -/
def rewrite (env : Env) : AstNode → AstNode
  | .common line arity op left right =>
    match op with
    | .decl | .assign | .ret => .common line arity op (foldTree env left) (foldTree env right)
    | _ => .common line arity op left right
  | .ifStmt line condition thenBlock elseBlock =>
    let condition := foldTree env condition
    match ifCase env condition elseBlock with
    | .both => .ifStmt line condition (rewrite env thenBlock) (rewrite env elseBlock)
    | .thenOnly => .block line (blockStmts (rewrite env thenBlock))
    | .elseOnly => .block line (blockStmts (rewrite env elseBlock))
  | .whileStmt line condition block =>
    let condition := foldTree env condition
    if dropsLoop env condition then .block line .nil
    else .whileStmt line condition (rewrite env block)
  | .methodCall line name numArgs args => .methodCall line name numArgs (foldTrees env args)
  | .block line stmts => .block line (rewriteStmts env stmts)
  | node => node
def rewriteStmts (env : Env) : AstNodeList → AstNodeList
  | .nil => .nil
  | .cons first next => .cons (rewrite env first) (rewriteStmts env next)
end

/-- A block with a return among its own statements. -/
def listReturns : AstNodeList → Bool
  | .nil => false
  | .cons first next => first.isReturn || listReturns next

def branchReturns (branch : AstNode) : Bool := listReturns (blockStmts branch)

mutual
/-- `returned_global` after a statement of a block, given its value before. A loop
clears it; an if raises it when both branches return, or when a branch left it up. -/
def flagAfter (env : Env) (flag : Bool) : AstNode → Bool
  | .common _ _ op _ _ =>
    match op with
    | .ret => true
    | _ => flag
  | .ifStmt _ condition thenBlock elseBlock =>
    match ifCase env (foldTree env condition) elseBlock with
    | .both =>
      let flag := flagAfter env flag thenBlock
      let flag := flagAfter env flag elseBlock
      flag || (branchReturns thenBlock && branchReturns elseBlock)
    | _ => true
  | .whileStmt _ _ _ => false
  | .block _ stmts => flagAfterStmts env flag stmts
  | _ => flag
def flagAfterStmts (env : Env) (flag : Bool) : AstNodeList → Bool
  | .nil => flag
  | .cons first next => flagAfterStmts env (flagAfter env flag first) next
end

/-- `*ret` after `eval_block`, given what it held before. -/
def retAfterBlock (env : Env) (methodReturnType ret : RetType) (flag : Bool)
    (stmts : AstNodeList) : RetType :=
  if listReturns stmts then methodReturnType
  else if flagAfterStmts env flag stmts then ret
  else .null

def declAccepted (l r : RetType) : Bool := decide (l = r ∨ (r ≠ .int ∧ r ≠ .bool))

mutual
/-- Whether every check on a statement passes, in a method of the given return type. -/
def stmtAccepted (env : Env) (tab : SymbolTable) (methodReturnType : RetType) : AstNode → Bool
  | .common _ _ op left right =>
    match op with
    | .decl =>
      right.isNull ||
        match exprType env tab left, exprType env tab right with
        | some l, some r => declAccepted l r
        | _, _ => false
    | .assign =>
      match exprType env tab left, exprType env tab right with
      | some l, some r => decide (l = r)
      | _, _ => false
    | .ret =>
      if left.isNull then decide (methodReturnType = .void)
      else exprType env tab left == some methodReturnType
    | _ => false
  | .ifStmt _ condition thenBlock elseBlock =>
    (exprType env tab condition == some .bool) &&
      match ifCase env (foldTree env condition) elseBlock with
      | .both =>
        stmtAccepted env tab methodReturnType thenBlock &&
          (elseBlock.isNull || stmtAccepted env tab methodReturnType elseBlock)
      | .thenOnly =>
        stmtAccepted env tab methodReturnType thenBlock && !(blockStmts thenBlock).isEmpty
      | .elseOnly =>
        stmtAccepted env tab methodReturnType elseBlock && !(blockStmts elseBlock).isEmpty
  | .whileStmt _ condition block =>
    (exprType env tab condition == some .bool) &&
      stmtAccepted env tab methodReturnType block &&
      !(testsLoop env (foldTree env condition) && (blockStmts block).isEmpty)
  | .methodCall line name numArgs args =>
    (exprType env tab (.methodCall line name numArgs args)).isSome
  | .block _ stmts => stmtsAccepted env tab methodReturnType stmts
  | _ => false
def stmtsAccepted (env : Env) (tab : SymbolTable) (methodReturnType : RetType) :
    AstNodeList → Bool
  | .nil => true
  | .cons first next =>
    stmtAccepted env tab methodReturnType first && stmtsAccepted env tab methodReturnType next
end

end Ctds
