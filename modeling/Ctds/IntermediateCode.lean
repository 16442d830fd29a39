import Ctds.Ast
import Ctds.SymbolTable

/-! `intermediate_code.c`: the instruction buffer, the two counters, the occurrence list
of the temporaries, and `gen_code`. A name in an instruction is a pointer to characters:
the n-th string `new_temp` allocated, or a string nothing ever writes to. All INFO copies
of one temporary share its string. -/

namespace Ctds

open Decimal

inductive NamePtr where
  | temp (alloc : Nat)
  | str (text : CString)
deriving DecidableEq

/-- What `new_temp` prints into the string it allocates. -/
def tempText (n : Nat) : CString := '$' :: 'T' :: natText n

def labelText (n : Nat) : CString := '_' :: 'L' :: natText n

/-- The characters behind a pointer, given the contents of the temporaries' strings. -/
def NamePtr.text (heap : Nat → CString) : NamePtr → CString
  | temp n => heap n
  | str text => text

def startsWith (c : Char) (name : CString) : Bool := name.head? == some c

/-- An entry of the code buffer; an operand is the name in its INFO, or a null pointer. -/
structure Instr (α : Type) where
  instruct : InstrType
  var1 : Option α
  var2 : Option α
  reg : Option α
deriving DecidableEq

namespace Instr

/-- The operands in the order in which `emit` and `optimize_memory` look at them. -/
def operands {α : Type} (i : Instr α) : List α :=
  i.var1.toList ++ i.var2.toList ++ i.reg.toList

def sources {α : Type} (i : Instr α) : List α := i.var1.toList ++ i.var2.toList

def map {α β : Type} (f : α → β) (i : Instr α) : Instr β :=
  ⟨i.instruct, i.var1.map f, i.var2.map f, i.reg.map f⟩

theorem sources_map {α β : Type} (f : α → β) (i : Instr α) :
    (i.map f).sources = i.sources.map f := by
  simp only [map, sources, List.map_append, Option.toList_map]

theorem operands_map {α β : Type} (f : α → β) (i : Instr α) :
    (i.map f).operands = i.operands.map f := by
  simp only [map, operands, List.map_append, Option.toList_map]

end Instr

structure CantApTemp where
  cantAp : Int
  temp : CString
  locked : Bool
  list : List NamePtr
deriving DecidableEq

/-- `cantApH` is `none` once `append_new_instance` has followed a word that is no list; what is
emitted does not depend on it. -/
structure GenState where
  code : List (Instr NamePtr)
  cantApH : Option (List CantApTemp)
  tempCounter : Nat
  labelCounter : Nat
deriving DecidableEq

def appendNewInstance (cur : CantApTemp) (temp : NamePtr) : CantApTemp :=
  { cur with list := cur.list ++ [temp] }

/-- What a word found in a new entry leads to: nothing, if it is null. Any other leads out
of the memory that the compiler has written, and what the process does there is not defined. -/
def freshInstances (word : BitVec 64) : Option (List NamePtr) := if word = 0 then some [] else none

/-- The search compares texts; while code is generated each string is as `new_temp` left it.
A new entry is used as `malloc` returns it: its `list` is not set before it is read. -/
def increaseTempAp (fresh : BitVec 64) (name : NamePtr) :
    List CantApTemp → Option (List CantApTemp)
  | [] => (freshInstances fresh).map fun list =>
    [appendNewInstance ⟨1, name.text tempText, false, list⟩ name]
  | current :: next =>
    if current.temp = name.text tempText then
      some ({ appendNewInstance current name with cantAp := current.cantAp + 1 } :: next)
    else (increaseTempAp fresh name next).map (current :: ·)

def countOperand (env : Env) (list : List CantApTemp) (name : NamePtr) :
    Option (List CantApTemp) :=
  if startsWith '$' (name.text tempText) then increaseTempAp (env.freshList list.length) name list
  else some list

def emit (env : Env) (t : InstrType) (var1 var2 reg : Option NamePtr) (st : GenState) : GenState :=
  let instr : Instr NamePtr := ⟨t, var1, var2, reg⟩
  { st with
    code := st.code ++ [instr]
    cantApH := st.cantApH.bind (instr.operands.foldlM (countOperand env)) }

def newTemp (st : GenState) : NamePtr × GenState :=
  (.temp st.tempCounter, { st with tempCounter := st.tempCounter + 1 })

def newLabel (st : GenState) : NamePtr × GenState :=
  (.str (labelText st.labelCounter), { st with labelCounter := st.labelCounter + 1 })

/-- A call of `gen_code` on a node: the state it leaves, and what it stores in `result`. -/
abbrev Emitter := GenState → GenState × Option NamePtr

/-- The name in an INFO that a callee may have left unwritten. -/
def operand (result : Option NamePtr) : NamePtr := result.getD (.str [])

/-- `__builtin_ctz` of a nonzero int. -/
def builtinCtz (v : BitVec 32) : Nat :=
  ((List.range 32).find? fun i => v.getLsbD i).getD 32

def genCodeLiteral (env : Env) (value : LeafValue) : Emitter := fun st =>
  let (temp, st) := newTemp st
  (emit env .loadval (some (.str (intText (value.intValue env).toInt))) none (some temp)
      st, some temp)

/-- `gen_code_leaf`; the father's word `common.op` decides whether a LOAD is emitted. -/
def genCodeLeaf (env : Env) (tab : SymbolTable) (fatherOp : Nat) (value : LeafValue) : Emitter :=
  fun st =>
    match value with
    | .int _ => genCodeLiteral env value st
    | .bool _ => genCodeLiteral env value st
    | .id p =>
      match tab.entry p with
      | none => (st, none)
      | some sym =>
        let aux := NamePtr.str sym.name.text
        if fatherOp ≠ Operator.assign.code ∧ fatherOp ≠ Operator.decl.code then
          (emit env .load (some aux) none none st, some aux)
        else (st, some aux)

/-- The cases of `gen_code_common` that compute both operands into a new temporary. -/
def genBinary (env : Env) (t : InstrType) (genLeft genRight : Emitter) : Emitter := fun st =>
  let (st, left) := genLeft st
  let (st, right) := genRight st
  let (temp, st) := newTemp st
  (emit env t (some (operand left)) (some (operand right)) (some temp) st, some temp)

def genUnary (env : Env) (t : InstrType) (genLeft : Emitter) : Emitter := fun st =>
  let (st, left) := genLeft st
  let (temp, st) := newTemp st
  (emit env t (some (operand left)) none (some temp) st, some temp)

/-- The shift count for a right operand that is a leaf holding a positive power of two;
the test reads `int_value` whatever the leaf's type is. -/
def shiftCount (env : Env) : AstNode → Option Nat
  | .leaf _ value =>
    let rightValue := value.intValue env
    if env.optimizations ∧ 0 < rightValue.toInt ∧ rightValue &&& (rightValue - 1) = 0 then
      some (builtinCtz rightValue)
    else none
  | _ => none

def genDivision (env : Env) (right : AstNode) (genLeft genRight : Emitter) : Emitter := fun st =>
  let (st, left) := genLeft st
  match shiftCount env right with
  | some count =>
    let (temp, st) := newTemp st
    (emit env .shiftRight (some (operand left)) (some (.str (natText count))) (some temp)
      st, some temp)
  | none =>
    let (st, right) := genRight st
    let (temp, st) := newTemp st
    (emit env .div (some (operand left)) (some (operand right)) (some temp) st, some temp)

/-- With `-opt` a literal is stored without a temporary. -/
def genAssign (env : Env) (right : AstNode) (genLeft genRight : Emitter) : Emitter := fun st =>
  let (st, left) := genLeft st
  match if env.optimizations then right.literal? else none with
  | some value =>
    (emit env .store (some (.str (intText (value.intValue env).toInt))) none
      (some (operand left)) st,
      none)
  | none =>
    let (st, right) := genRight st
    (emit env .store (some (operand right)) none (some (operand left)) st, none)

def genDecl (env : Env) (right : AstNode) (genLeft genRight : Emitter) : Emitter := fun st =>
  let (st, left) := genLeft st
  if right.isNull then (st, none)
  else
    let (st, right) := genRight st
    (emit env .store (some (operand right)) none (some (operand left)) st, none)

def genReturn (env : Env) (left : AstNode) (genLeft : Emitter) : Emitter := fun st =>
  if left.isNull then (emit env .ret none none none st, none)
  else
    let (st, left) := genLeft st
    (emit env .ret (some (operand left)) none none st, none)

def genCodeCommon (env : Env) (op : Operator) (left right : AstNode)
    (genLeft genRight : Emitter) : Emitter :=
  match op with
  | .addition => genBinary env .add genLeft genRight
  | .subtraction => genBinary env .sub genLeft genRight
  | .multiplication => genBinary env .mul genLeft genRight
  | .division => genDivision env right genLeft genRight
  | .mod => genBinary env .mod genLeft genRight
  | .minus => genUnary env .min genLeft
  | .ret => genReturn env left genLeft
  | .les => genBinary env .les genLeft genRight
  | .grt => genBinary env .grt genLeft genRight
  | .eq => genBinary env .eq genLeft genRight
  | .neq => genBinary env .neq genLeft genRight
  | .leq => genBinary env .leq genLeft genRight
  | .geq => genBinary env .geq genLeft genRight
  | .and => genBinary env .and genLeft genRight
  | .or => genBinary env .or genLeft genRight
  | .neg => genUnary env .neg genLeft
  | .assign => genAssign env right genLeft genRight
  | .decl => genDecl env right genLeft genRight

/-- The else block of a null pointer emits nothing, like `gen_code` on it. -/
def genCodeIf (env : Env) (genCondition genThen genElse : Emitter) : Emitter := fun st =>
  let (st, cond) := genCondition st
  let (elseLabel, st) := newLabel st
  let (endLabel, st) := newLabel st
  let st := emit env .jmpf (some (operand cond)) none (some elseLabel) st
  let (st, _) := genThen st
  let st := emit env .jmp (some endLabel) none none st
  let st := emit env .label (some elseLabel) none none st
  let (st, _) := genElse st
  (emit env .label (some endLabel) none none st, none)

def genCodeWhile (env : Env) (genCondition genBlock : Emitter) : Emitter := fun st =>
  let (startLabel, st) := newLabel st
  let (endLabel, st) := newLabel st
  let st := emit env .label (some startLabel) none none st
  let (st, cond) := genCondition st
  let st := emit env .jmpf (some (operand cond)) none (some endLabel) st
  let (st, _) := genBlock st
  let st := emit env .jmp (some startLabel) none none st
  (emit env .label (some endLabel) none none st, none)

def genCodeMethodDecl (env : Env) (tab : SymbolTable) (sym : IdPtr) (genBlock : Emitter) :
    Emitter := fun st =>
  match tab.entry sym with
  | none => (st, none)
  | some info =>
    let name := NamePtr.str info.name.text
    if info.methodView.isExtern then (emit env .externDecl (some name) none none st, none)
    else
      let st := emit env .enter (some name) none none st
      let (st, _) := genBlock st
      (emit env .leave (some name) none none st, none)

def emitParams (env : Env) (args : List NamePtr) (st : GenState) : GenState :=
  args.foldl (fun st arg => emit env .param (some arg) none none st) st

/-- The arguments are all evaluated before the first PARAM. -/
def genCodeMethodCall (env : Env) (name : Ident) (numArgs : Nat)
    (genArgs : GenState → GenState × List NamePtr) : Emitter := fun st =>
  let (st, argsInfoList) := genArgs st
  let st := emitParams env (argsInfoList.take numArgs) st
  let (ret, st) := newTemp st
  (emit env .call (some (.str name.text)) none (some ret) st, some ret)

mutual
/-- `gen_code`, told what the node's father holds in the word `common.op`. -/
def genCode (env : Env) (tab : SymbolTable) (fatherOp : Nat) : AstNode → Emitter
  | .null => fun st => (st, none)
  | .common _ _ op left right =>
    genCodeCommon env op left right (genCode env tab op.code left) (genCode env tab op.code right)
  | .ifStmt line condition thenBlock elseBlock =>
    let view := env.opView (.ifStmt line condition thenBlock elseBlock)
    genCodeIf env (genCode env tab view condition) (genCode env tab view thenBlock)
      (genCode env tab view elseBlock)
  | .whileStmt line condition block =>
    let view := env.opView (.whileStmt line condition block)
    genCodeWhile env (genCode env tab view condition) (genCode env tab view block)
  | .methodDecl line sym block =>
    genCodeMethodDecl env tab sym (genCode env tab (env.opView (.methodDecl line sym block)) block)
  | .methodCall line name numArgs args =>
    genCodeMethodCall env name numArgs
      (genArgs env tab (env.opView (.methodCall line name numArgs args)) args)
  | .block line stmts => fun st =>
    genCodeBlock env tab (env.opView (.block line stmts)) stmts st none
  | .leaf _ value => genCodeLeaf env tab fatherOp value
def genArgs (env : Env) (tab : SymbolTable) (fatherOp : Nat) :
    AstNodeList → GenState → GenState × List NamePtr
  | .nil, st => (st, [])
  | .cons first next, st =>
    let (st, arg) := genCode env tab fatherOp first st
    let (st, args) := genArgs env tab fatherOp next st
    (st, operand arg :: args)
/-- The loop of `gen_code_block`; with `-opt` it ends at the first return. -/
def genCodeBlock (env : Env) (tab : SymbolTable) (fatherOp : Nat) :
    AstNodeList → GenState → Option NamePtr → GenState × Option NamePtr
  | .nil, st, last => (st, last)
  | .cons first next, st, _ =>
    let (st, info) := genCode env tab fatherOp first st
    if first.isReturn ∧ env.optimizations then (st, info)
    else genCodeBlock env tab fatherOp next st info
end

def resetCode : GenState := ⟨[], some [], 0, 0⟩

/-- The loop of `main` over the top-level sentences. -/
def genSentences (env : Env) (tab : SymbolTable) (sentences : List AstNode) (st : GenState) :
    GenState :=
  sentences.foldl (fun st sentence => (genCode env tab 0 sentence st).1) st

end Ctds
