import Ctds.Ast
import Ctds.SymbolTable

/-! `semantic_analyzer.c`. The four global variables are the state; `ret` is the out
parameter, passed in with what it holds and returned with what it holds afterwards, so
that an evaluator which does not write it leaves it as it was. The tree is rewritten in
place by constant folding and by the elimination of dead branches, so every evaluator
also returns the tree it leaves behind. -/

namespace Ctds

structure SemState where
  line : Int
  returnedGlobal : Bool
  methodReturnType : RetType
  mainDefined : Bool

structure Evaluated where
  tree : AstNode
  ret : RetType
  st : SemState

abbrev Evaluator := RetType → SemState → Except Error Evaluated

/-- The texts `error_return_type` prints for a `RET_TYPE`. -/
def RetType.text : RetType → CString
  | int => "INT".toList
  | bool => "BOOL".toList
  | void => "VOID".toList
  | null => "NULL".toList

def Ty.text : Ty → CString
  | int => "INT".toList
  | _ => "BOOL".toList

def ReturnType.toRetType : ReturnType → Option RetType
  | int => some .int
  | bool => some .bool
  | void => some .void
  | null => none

/-- The symbol an identifier leaf points to. -/
def leafSymbol (tab : SymbolTable) : AstNode → Option SymbolInfo
  | .leaf _ (.id p) => tab.entry p
  | _ => none

/-- The flag `literal`: both operands are leaves of a literal and `-opt` is on. -/
def literalOperands (env : Env) (left right : AstNode) : Option (BitVec 32 × BitVec 32) :=
  if env.optimizations then
    match left.literal?, right.literal? with
    | some l, some r => some (l.intValue env, r.intValue env)
    | _, _ => none
  else none

/-- `/` on C ints; dividing by zero or overflowing kills the process. -/
def foldDivision (l r : BitVec 32) : Option LeafValue :=
  if r = 0 ∨ (l = BitVec.intMin 32 ∧ r = -1) then none else some (.int (l.sdiv r))

def foldMod (l r : BitVec 32) : Option LeafValue :=
  if r = 0 ∨ (l = BitVec.intMin 32 ∧ r = -1) then none else some (.int (l.srem r))

def foldInt (f : BitVec 32 → BitVec 32 → BitVec 32) (l r : BitVec 32) : Option LeafValue :=
  some (.int (f l r))

def foldBool (f : BitVec 32 → BitVec 32 → Bool) (l r : BitVec 32) : Option LeafValue :=
  some (.bool (if f l r then 1 else 0))

/-- One case of the switch over binary operators: the check of the operand types, the
folding of two literals into a leaf, and the type of the result. -/
def binaryCase (line : Int) (tree : AstNode) (st : SemState) (operandsOk : Bool) (err : Error)
    (literals : Option (BitVec 32 × BitVec 32))
    (fold : BitVec 32 → BitVec 32 → Option LeafValue) (type : RetType) : Except Error Evaluated :=
  if operandsOk then
    match literals with
    | none => .ok ⟨tree, type, st⟩
    | some (l, r) =>
      match fold l r with
      | none => .error .fault
      | some value => .ok ⟨.leaf line value, type, st⟩
  else .error err

def evalAssign (tab : SymbolTable) (tree left : AstNode) (rightType : RetType) (st : SemState) :
    Except Error Evaluated :=
  match leafSymbol tab left with
  | none => .error .fault
  | some info =>
    if (info.idType = Ty.int.code ∧ rightType ≠ .int) ∨
        (info.idType = Ty.bool.code ∧ rightType ≠ .bool) then
      .error (.typeMismatch st.line info.name.text
        (if info.idType = Ty.int.code then "INT".toList else "BOOL".toList))
    else .ok ⟨tree, rightType, st⟩

/-- The switch for arity BINARY; `l` and `r` are the evaluated operands. -/
def evalBinary (env : Env) (tab : SymbolTable) (line : Int) (op : Operator) (l r : Evaluated) :
    Except Error Evaluated :=
  let tree := AstNode.common line .binary op l.tree r.tree
  let literals := literalOperands env l.tree r.tree
  let ints := l.ret == .int && r.ret == .int
  let bools := l.ret == .bool && r.ret == .bool
  let at' := r.st.line
  match op with
  | .addition => binaryCase line tree r.st ints (.additional at') literals (foldInt (· + ·)) .int
  | .subtraction =>
    binaryCase line tree r.st ints (.substraction at') literals (foldInt (· - ·)) .int
  | .multiplication =>
    binaryCase line tree r.st ints (.multiplication at') literals (foldInt (· * ·)) .int
  | .division => binaryCase line tree r.st ints (.division at') literals foldDivision .int
  | .mod => binaryCase line tree r.st ints (.division at') literals foldMod .int
  | .les => binaryCase line tree r.st ints (.less at') literals (foldBool BitVec.slt) .bool
  | .grt =>
    binaryCase line tree r.st ints (.greater at') literals (foldBool fun x y => y.slt x) .bool
  | .eq =>
    binaryCase line tree r.st (l.ret == r.ret) (.equal at') literals (foldBool (· == ·)) .bool
  | .neq => binaryCase line tree r.st ints (.notEqual at') literals (foldBool (· != ·)) .bool
  | .leq => binaryCase line tree r.st ints (.lessEqual at') literals (foldBool BitVec.sle) .bool
  | .geq =>
    binaryCase line tree r.st ints (.greaterEqual at') literals (foldBool fun x y => y.sle x) .bool
  | .and =>
    binaryCase line tree r.st bools (.and at') literals (foldBool fun x y => x != 0 && y != 0) .bool
  | .or =>
    binaryCase line tree r.st bools (.or at') literals (foldBool fun x y => x != 0 || y != 0) .bool
  | .assign => evalAssign tab tree l.tree r.ret r.st
  | _ => .error (.unknownOperator at')

def evalUnary (line : Int) (op : Operator) (right : AstNode) (l : Evaluated) :
    Except Error Evaluated :=
  let tree := AstNode.common line .unary op l.tree right
  match op with
  | .minus => if l.ret = .int then .ok ⟨tree, .int, l.st⟩ else .error (.minus l.st.line)
  | .neg => if l.ret = .bool then .ok ⟨tree, .bool, l.st⟩ else .error (.neg l.st.line)
  | _ => .error (.unknownOperator l.st.line)

def evalDecl (tab : SymbolTable) (line : Int) (arity : OperatorArity) (l r : Evaluated) :
    Except Error Evaluated :=
  match leafSymbol tab l.tree with
  | none => .error .fault
  | some info =>
    if l.ret ≠ r.ret ∧ r.ret = .int then
      .error (.typeMismatch r.st.line info.name.text "INT".toList)
    else if l.ret ≠ r.ret ∧ r.ret = .bool then
      .error (.typeMismatch r.st.line info.name.text "BOOL".toList)
    else .ok ⟨.common line arity .decl l.tree r.tree, r.ret, r.st⟩

/-- The value of a return, already evaluated, against the method's return type. -/
def evalReturn (line : Int) (arity : OperatorArity) (right : AstNode) (l : Evaluated) :
    Except Error Evaluated :=
  if l.ret ≠ l.st.methodReturnType then
    .error (.returnType line l.ret.text l.st.methodReturnType.text)
  else .ok ⟨.common line arity .ret l.tree right, l.ret, { l.st with returnedGlobal := true }⟩

def evalCommon (env : Env) (tab : SymbolTable) (line : Int) (arity : OperatorArity)
    (op : Operator) (left right : AstNode) (evalLeft evalRight : Evaluator) : Evaluator :=
  fun _ st =>
    let st := { st with line := line }
    match op with
    | .decl =>
      if right.isNull then .ok ⟨.common line arity op left right, .null, st⟩
      else do
        let l ← evalLeft env.uninitRet st
        let r ← evalRight env.uninitRet l.st
        evalDecl tab line arity l r
    | .ret =>
      if left.isNull then
        if st.methodReturnType ≠ .void then
          .error (.returnTypeVoid line st.methodReturnType.text)
        else .ok ⟨.common line arity op left right, .void, { st with returnedGlobal := true }⟩
      else do
        let l ← evalLeft env.uninitRet st
        evalReturn line arity right l
    | _ =>
      match arity with
      | .binary => do
        let l ← evalLeft env.uninitRet st
        let r ← evalRight env.uninitRet l.st
        evalBinary env tab line op l r
      | .unary => do
        let l ← evalLeft env.uninitRet st
        evalUnary line op right l

/-- The end of `eval_while`, with the condition and the block evaluated. -/
def rewriteWhile (env : Env) (line : Int) (c b : Evaluated) (ret : RetType) :
    Except Error Evaluated :=
  match c.tree with
  | .leaf _ value =>
    if env.optimizations then
      match b.tree with
      | .block _ (.cons first _) =>
        let st := { b.st with line := first.line - 1 }
        if value.intValue env = 0 then .ok ⟨.block line .nil, ret, st⟩
        else .ok ⟨.whileStmt line c.tree b.tree, ret, st⟩
      | _ => .error .fault
    else .ok ⟨.whileStmt line c.tree b.tree, ret, b.st⟩
  | _ => .ok ⟨.whileStmt line c.tree b.tree, ret, b.st⟩

/-- `eval_while` has no out parameter: `ret` stays what it was. -/
def evalWhile (env : Env) (line : Int) (evalCondition evalBody : Evaluator) : Evaluator :=
  fun ret st => do
    let c ← evalCondition env.uninitRet { st with line := line }
    if c.ret ≠ .bool then throw (.conditional c.st.line)
    let b ← evalBody env.uninitRet c.st
    rewriteWhile env line c b ret

/-- What the loop of `eval_block` carries from statement to statement. -/
structure BlockLoop where
  stmts : AstNodeList
  ret : RetType
  returned : Bool
  st : SemState

/-- The end of `eval_block`: `ret` is written by the last return of the block, or set
to NULL_TYPE when no return is flagged at all, and left alone otherwise. -/
def endBlock (line : Int) (loop : BlockLoop) : Evaluated :=
  ⟨.block line loop.stmts,
    if !loop.returned && !loop.st.returnedGlobal then .null else loop.ret, loop.st⟩

/-- The case AST_BLOCK of `eval`: the flag outlives the block only under a block or an if. -/
def leaveBlock (father : InfoType) (e : Evaluated) : Evaluated :=
  if father ≠ .block ∧ e.st.returnedGlobal = true ∧ father ≠ .ifStmt then
    { e with st := { e.st with returnedGlobal := false } }
  else e

def evalLeaf (tab : SymbolTable) (line : Int) (value : LeafValue) : Evaluator :=
  fun _ st =>
    let st := { st with line := line }
    match value with
    | .int _ => .ok ⟨.leaf line value, .int, st⟩
    | .bool _ => .ok ⟨.leaf line value, .bool, st⟩
    | .id p =>
      match tab.entry p with
      | none => .error (.nonExistentId line)
      | some info =>
        if info.idType = Ty.int.code then .ok ⟨.leaf line value, .int, st⟩
        else if info.idType = Ty.bool.code then .ok ⟨.leaf line value, .bool, st⟩
        else .error (.idUnknownType line info.name)

/-- The statement list of a branch that replaces its if; an empty one is dereferenced
for the warning and kills the process. -/
def promoteBranch (line : Int) (branch : Evaluated) : Except Error Evaluated :=
  match branch.tree with
  | .block _ (.cons first next) =>
    .ok ⟨.block line (.cons first next), branch.ret,
      { branch.st with returnedGlobal := true }⟩
  | _ => .error .fault

/-- What an if returns from the types of its two branches. -/
def joinBranches (tree : AstNode) (retThen retElse : RetType) (st : SemState) : Evaluated :=
  if retThen ≠ .null then
    ⟨tree, retThen, if retElse ≠ .null then { st with returnedGlobal := true } else st⟩
  else if retElse ≠ .null then ⟨tree, retElse, st⟩
  else ⟨tree, .null, st⟩

/-- Both branches are evaluated and the if is kept. -/
def evalBranches (line : Int) (condition : AstNode) (elseBlock : AstNode)
    (evalThen evalElse : Evaluator) (st : SemState) : Except Error Evaluated := do
  let t ← evalThen .null st
  if elseBlock.isNull then
    return joinBranches (.ifStmt line condition t.tree .null) t.ret .null t.st
  else
    let e ← evalElse .null t.st
    return joinBranches (.ifStmt line condition t.tree e.tree) t.ret e.ret e.st

def evalIf (env : Env) (line : Int) (elseBlock : AstNode)
    (evalCondition evalThen evalElse : Evaluator) : Evaluator :=
  fun _ st => do
    let c ← evalCondition env.uninitRet { st with line := line }
    if c.ret ≠ .bool then throw (.conditional c.st.line)
    match c.tree with
    | .leaf _ value =>
      if env.optimizations then
        if value.intValue env = 1 then
          let t ← evalThen .null c.st
          promoteBranch line t
        else if elseBlock.isNull then evalBranches line c.tree elseBlock evalThen evalElse c.st
        else
          let e ← evalElse .null c.st
          promoteBranch line e
      else evalBranches line c.tree elseBlock evalThen evalElse c.st
    | _ => evalBranches line c.tree elseBlock evalThen evalElse c.st

def RetType.toTy? : RetType → Option Ty
  | int => some .int
  | bool => some .bool
  | _ => none

/-- One argument, already evaluated, against the parameter it is passed to. -/
def checkArgument (param : Args) (arg : Evaluated) : Except Error Unit :=
  match arg.ret.toTy? with
  | none => .error (.typeMismatch arg.st.line param.name.text "INT or BOOL \n".toList)
  | some type =>
    if param.type ≠ type then .error (.typeParameter arg.st.line param.name param.type.text)
    else .ok ()

/-- The method a call names, with the checks made before its arguments are looked at. -/
def calledMethod (tab : SymbolTable) (line : Int) (name : Ident) (numArgs : Nat) :
    Except Error MethodInfo :=
  match (tab.findGlobal name).bind tab.entry with
  | none => .error (.methodNotFound name)
  | some (.id _ _) => .error (.typeMismatch line name.text "METHOD".toList)
  | some (.methodDecl method) =>
    if method.numArgs ≠ numArgs then .error (.argsNumber line method.name method.numArgs)
    else .ok method

def callResult (tree : AstNode) (method : MethodInfo) (st : SemState) : Except Error Evaluated :=
  match method.returnType.toRetType with
  | none => .error (.typeMismatchMethod st.line method.name method.returnType)
  | some type => .ok ⟨tree, type, st⟩

/-- `method_return_type` and `main_defined` when a declaration is entered. -/
def enterMethod (method : MethodInfo) (st : SemState) : SemState :=
  { st with
    mainDefined := st.mainDefined || method.name.text == "main".toList
    methodReturnType := method.returnType.toRetType.getD st.methodReturnType }

/-- The check at the end of `eval_method_decl`, on the `ret` that was passed in from
`semantic_analyzer` unless the body wrote it. -/
def checkMissingReturn (name : Ident) (e : Evaluated) : Except Error Evaluated :=
  if e.ret = .null ∧ e.st.methodReturnType ≠ .void then
    .error (.missingReturn name
      (if e.st.methodReturnType = .int then "int".toList else "bool".toList))
  else .ok e

def evalMethodDecl (tab : SymbolTable) (line : Int) (sym : IdPtr) (block : AstNode)
    (evalBody : Evaluator) : Evaluator :=
  fun ret st =>
    let st := { st with line := line }
    match tab.entry sym with
    | none => .error .fault
    | some treeInfo =>
      match (tab.findGlobal treeInfo.name).bind tab.entry with
      | none => .error (.methodNotFound treeInfo.name)
      | some info => do
        let st := enterMethod info.methodView st
        let body ← if treeInfo.methodView.isExtern then pure ⟨block, ret, st⟩ else evalBody ret st
        checkMissingReturn treeInfo.name
          { body with tree := .methodDecl line sym body.tree }

mutual
/-- `eval`, told the tag of the node's father. -/
def eval (env : Env) (tab : SymbolTable) (father : InfoType) : AstNode → Evaluator
  | .null => fun _ _ => .error (.nullNode (-1))
  | .common line arity op left right =>
    evalCommon env tab line arity op left right
      (eval env tab .common left) (eval env tab .common right)
  | .ifStmt line condition thenBlock elseBlock =>
    evalIf env line elseBlock (eval env tab .ifStmt condition)
      (eval env tab .ifStmt thenBlock) (eval env tab .ifStmt elseBlock)
  | .whileStmt line condition block =>
    evalWhile env line (eval env tab .whileStmt condition) (eval env tab .whileStmt block)
  | .methodDecl line sym block => fun ret st => do
    let e ← evalMethodDecl tab line sym block (eval env tab .methodDecl block) ret st
    return { e with st := { e.st with returnedGlobal := false } }
  | .methodCall line name numArgs args => fun ret st => do
    let method ← calledMethod tab line name numArgs
    let (args, st) ← evalCallArgs env tab method.args args ret { st with line := line }
    callResult (.methodCall line name numArgs args) method st
  | .block line stmts => fun ret st => do
    let loop ← evalStmts env tab stmts env.uninitRet ⟨.nil, ret, false, { st with line := line }⟩
    return leaveBlock father (endBlock line loop)
  | .leaf line value => evalLeaf tab line value
/-- The loop of `eval_block`, with `auxRet` and the statements evaluated so far. -/
def evalStmts (env : Env) (tab : SymbolTable) :
    AstNodeList → RetType → BlockLoop → Except Error BlockLoop
  | .nil, _, loop => .ok loop
  | .cons first next, auxRet, loop => do
    let e ← eval env tab .block first auxRet loop.st
    let rest ← evalStmts env tab next e.ret
      ⟨.nil, if e.tree.isReturn then e.ret else loop.ret, loop.returned || e.tree.isReturn, e.st⟩
    return { rest with stmts := .cons e.tree rest.stmts }
/-- The loop of `eval_method_call` over parameters and arguments. -/
def evalCallArgs (env : Env) (tab : SymbolTable) :
    List Args → AstNodeList → RetType → SemState → Except Error (AstNodeList × SemState)
  | param :: params, .cons first next, ret, st => do
    let e ← eval env tab .methodCall first ret st
    checkArgument param e
    let (args, st) ← evalCallArgs env tab params next e.ret e.st
    return (.cons e.tree args, st)
  | _, args, _, st => .ok (args, st)
end

/-- The loop of `semantic_analyzer`: one `ret` for all top-level sentences. -/
def evalSentences (env : Env) (tab : SymbolTable) :
    List AstNode → RetType → SemState → Except Error (List AstNode × RetType × SemState)
  | [], ret, st => .ok ([], ret, st)
  | sentence :: rest, ret, st => do
    let e ← eval env tab .methodDecl sentence ret st
    let (sentences, ret, st) ← evalSentences env tab rest e.ret e.st
    return (e.tree :: sentences, ret, st)

def SemState.init : SemState := ⟨0, false, .int, false⟩

/-- `semantic_analyzer`: the sentences it leaves in the tree. -/
def semanticAnalyzer (env : Env) (tab : SymbolTable) (tree : List AstNode) :
    Except Error (List AstNode) := do
  let (sentences, _, st) ← evalSentences env tab tree env.uninitRet .init
  if st.mainDefined then return sentences else throw .mainMissing

end Ctds
