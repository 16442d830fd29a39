import Mathlib.Algebra.Group.Int.Defs
import Ctds.Assembly
import Ctds.IntermediateCode

/-! `object_code.c`: the slot map of the method being printed, the operand texts, and the
lines printed for each instruction. The lists of the model are not bounded; an index past
`MAX_VARS_PER_FUNCTION` is where the array of the source ends. -/

namespace Ctds

open Decimal

structure VarLocation where
  name : CString
  offset : Int
deriving DecidableEq

/-- The static variables and the two counters of `generate_object_code`. -/
structure ObjState where
  varMap : List VarLocation
  currentStackOffset : Int
  paramCount : Nat
  stackParams : Nat
deriving DecidableEq

def ObjState.init : ObjState := ⟨[], 0, 0, 0⟩

def maxVarsPerFunction : Nat := 200

def argRegs : List Reg := [.rdi, .rsi, .rdx, .rcx, .r8, .r9]

def findVar (name : CString) : List VarLocation → Option Int
  | [] => none
  | loc :: rest => if loc.name = name then some loc.offset else findVar name rest

def getVarOffset (name : CString) (os : ObjState) : ObjState × Int :=
  match findVar name os.varMap with
  | some offset => (os, offset)
  | none =>
    let offset := os.currentStackOffset - 8
    ({ os with varMap := os.varMap ++ [⟨name, offset⟩], currentStackOffset := offset }, offset)

def getOperandStr (var : Option CString) (os : ObjState) : ObjState × Operand :=
  match var with
  | none => (os, .absent)
  | some name =>
    if startsWith '_' name then (os, .label name)
    else if startsNumber name then (os, .imm name)
    else
      let (os, offset) := getVarOffset name os
      (os, .slot offset)

/-- What the first pass of I_ENTER takes for a variable: any name that does not open
with a digit or `_`, so also method names and negative constants. -/
def firstPassName (name : CString) : Bool :=
  !(name.head?.any Char.isDigit) && !startsWith '_' name

/-- The index of the first I_LEAVE of this name behind position `i`. -/
def endFuncIdx (code : List (Instr CString)) (name : CString) (i : Nat) : Nat :=
  match (code.drop (i + 1)).findIdx? fun instr =>
      decide (instr.instruct = .leave) && instr.var1 == some name with
  | some j => i + 1 + j
  | none => i

/-- The instructions from position `i` up to and with position `j`. -/
def codeRange (code : List (Instr CString)) (i j : Nat) : List (Instr CString) :=
  (code.drop i).take (j + 1 - i)

def firstPass (range : List (Instr CString)) (os : ObjState) : ObjState :=
  ((range.flatMap Instr.operands).filter firstPassName).foldl
    (fun os name => (getVarOffset name os).1) os

def alignStack (size : Int) : Int :=
  if size % 16 ≠ 0 then size + (16 - size % 16) else size

def totalStackSize (range : List (Instr CString)) (os : ObjState) : Int :=
  alignStack (-(firstPass range
    { os with varMap := [], currentStackOffset := 0 }).currentStackOffset)

/-- The parameters of the first method declaration of this name. -/
def funcArgs (tab : SymbolTable) (headAst : List AstNode) (name : CString) : List Args :=
  match headAst with
  | [] => []
  | .methodDecl _ sym _ :: rest =>
    match tab.entry sym with
    | some info => if info.name.text = name then info.methodView.args else funcArgs tab rest name
    | none => funcArgs tab rest name
  | _ :: rest => funcArgs tab rest name

/-- The loop over the parameters: six arrive in registers, the others above the frame. -/
def moveArguments : List Args → Nat → ObjState → ObjState × List AsmLine
  | [], _, os => (os, [])
  | arg :: rest, argIdx, os =>
    let (os, offset) := getVarOffset arg.name.text os
    let lines := match argRegs[argIdx]? with
      | some r => [AsmLine.movqFromReg r (.slot offset)]
      | none => [.movqToReg (.slot (16 + (argIdx - 6) * 8)) .rax, .movqFromReg .rax (.slot offset)]
    let (os, more) := moveArguments rest (argIdx + 1) os
    (os, lines ++ more)

def generateEnter (tab : SymbolTable) (headAst : List AstNode) (code : List (Instr CString))
    (i : Nat) (funcName : CString) (os : ObjState) : ObjState × List AsmLine :=
  let total := totalStackSize (codeRange code i (endFuncIdx code funcName i)) os
  let (os, moves) := moveArguments (funcArgs tab headAst funcName) 0
    { os with varMap := [], currentStackOffset := 0 }
  (os, [.globl funcName, .label funcName, .pushqRbp, .movqRspRbp] ++
    (if 0 < total then [.subqRsp total] else []) ++ moves)

def leaveLabel (name : CString) : CString := ".L_leave_".toList ++ name

/-- The name of the nearest I_ENTER at or before position `i`, cut to the 63 characters
that fit into `current_func_name`. -/
def currentFuncName (code : List (Instr CString)) (i : Nat) : CString :=
  match (code.take (i + 1)).reverse.find? fun instr => decide (instr.instruct = .enter) with
  | some instr => (instr.var1.getD []).take 63
  | none => "unknown".toList

def generateLeave (name : CString) (os : ObjState) : ObjState × List AsmLine :=
  ({ os with varMap := [] }, [.label (leaveLabel name), .movqRbpRsp, .popqRbp, .ret])

def generateRet (code : List (Instr CString)) (i : Nat) (instr : Instr CString) (os : ObjState) :
    ObjState × List AsmLine :=
  let jump := AsmLine.jmp (.label (leaveLabel (currentFuncName code i)))
  match instr.var1 with
  | some name =>
    let (os, op1) := getOperandStr (some name) os
    (os, [.movqToReg op1 .rax, jump])
  | none => (os, [jump])

def generateLoadval (instr : Instr CString) (os : ObjState) : ObjState × List AsmLine :=
  let (os, op1) := getOperandStr instr.var1 os
  let (os, dest) := getOperandStr instr.reg os
  (os, [.movqImm op1 dest])

def generateStore (instr : Instr CString) (os : ObjState) : ObjState × List AsmLine :=
  let (os, op1) := getOperandStr instr.var1 os
  let (os, dest) := getOperandStr instr.reg os
  (os, [.movqToReg op1 .rax, .movqFromReg .rax dest])

def generateArith (op : ArithOp) (instr : Instr CString) (os : ObjState) :
    ObjState × List AsmLine :=
  let (os, op1) := getOperandStr instr.var1 os
  let (os, op2) := getOperandStr instr.var2 os
  let (os, dest) := getOperandStr instr.reg os
  (os, [.movqToReg op1 .rax, .arith op op2, .movqFromReg .rax dest])

def generateDivision (resultReg : Reg) (instr : Instr CString) (os : ObjState) :
    ObjState × List AsmLine :=
  let (os, op1) := getOperandStr instr.var1 os
  let (os, op2) := getOperandStr instr.var2 os
  let (os, dest) := getOperandStr instr.reg os
  (os, [.movqToReg op1 .rax, .cqto, .idivq op2, .movqFromReg resultReg dest])

/-- `(1L << strtol(name)) - 1`, the amount that makes the shift round towards zero. -/
def shiftBias (name : CString) : Int := 2 ^ (intValue name).toNat - 1

def generateShiftRight (instr : Instr CString) (os : ObjState) : ObjState × List AsmLine :=
  let (os, op1) := getOperandStr instr.var1 os
  let (os, op2) := getOperandStr instr.var2 os
  let (os, dest) := getOperandStr instr.reg os
  (os, [.movqToReg op1 .rax, .cqo,
    .movqToReg (.imm (intText (shiftBias (instr.var2.getD [])))) .rcx,
    .andRcxRdx, .addRdxRax, .sar op2, .movqFromReg .rax dest])

def generateMin (instr : Instr CString) (os : ObjState) : ObjState × List AsmLine :=
  let (os, op1) := getOperandStr instr.var1 os
  let (os, dest) := getOperandStr instr.reg os
  (os, [.movqToReg op1 .rax, .negq, .movqFromReg .rax dest])

def generateNeg (instr : Instr CString) (os : ObjState) : ObjState × List AsmLine :=
  let (os, op1) := getOperandStr instr.var1 os
  let (os, dest) := getOperandStr instr.reg os
  (os, [.movqToReg op1 .rax, .testq, .set .sete, .movzbq, .movqFromReg .rax dest])

def generateComparison (op : SetOp) (instr : Instr CString) (os : ObjState) :
    ObjState × List AsmLine :=
  let (os, op1) := getOperandStr instr.var1 os
  let (os, op2) := getOperandStr instr.var2 os
  let (os, dest) := getOperandStr instr.reg os
  (os, [.movqToReg op1 .rax, .cmpq op2, .set op, .movzbq, .movqFromReg .rax dest])

def generateLabel (instr : Instr CString) (os : ObjState) : ObjState × List AsmLine :=
  let (os, op1) := getOperandStr instr.var1 os
  (os, [.label op1.text])

def generateJmp (instr : Instr CString) (os : ObjState) : ObjState × List AsmLine :=
  let (os, op1) := getOperandStr instr.var1 os
  (os, [.jmp op1])

def generateJmpf (instr : Instr CString) (os : ObjState) : ObjState × List AsmLine :=
  let (os, op1) := getOperandStr instr.var1 os
  let (os, dest) := getOperandStr instr.reg os
  (os, [.movqToReg op1 .rax, .testq, .jz dest])

def generateParam (instr : Instr CString) (os : ObjState) : ObjState × List AsmLine :=
  let (os, op1) := getOperandStr instr.var1 os
  match argRegs[os.paramCount]? with
  | some r => ({ os with paramCount := os.paramCount + 1 }, [.movqToReg op1 r])
  | none =>
    ({ os with paramCount := os.paramCount + 1, stackParams := os.stackParams + 1 }, [.pushq op1])

def generateCall (instr : Instr CString) (os : ObjState) : ObjState × List AsmLine :=
  let (os, saved) := match instr.reg with
    | some name =>
      let (os, dest) := getOperandStr (some name) os
      (os, [AsmLine.movqFromReg .rax dest])
    | none => (os, [])
  ({ os with paramCount := 0, stackParams := 0 },
    [.call (instr.var1.getD [])] ++ saved ++
      (if 0 < os.stackParams then [.addqRsp (os.stackParams * 8)] else []))

/-- The switch of `generate_object_code` for the instruction at position `i`. -/
def generateInstr (tab : SymbolTable) (headAst : List AstNode) (code : List (Instr CString))
    (i : Nat) (instr : Instr CString) (os : ObjState) : ObjState × List AsmLine :=
  match instr.instruct with
  | .externDecl => (os, [.externDecl (instr.var1.getD [])])
  | .enter => generateEnter tab headAst code i (instr.var1.getD []) os
  | .leave => generateLeave (instr.var1.getD []) os
  | .ret => generateRet code i instr os
  | .loadval => generateLoadval instr os
  | .store => generateStore instr os
  | .add => generateArith .addq instr os
  | .sub => generateArith .subq instr os
  | .mul => generateArith .imulq instr os
  | .and => generateArith .andq instr os
  | .or => generateArith .orq instr os
  | .div => generateDivision .rax instr os
  | .mod => generateDivision .rdx instr os
  | .shiftRight => generateShiftRight instr os
  | .min => generateMin instr os
  | .neg => generateNeg instr os
  | .les => generateComparison .setl instr os
  | .grt => generateComparison .setg instr os
  | .eq => generateComparison .sete instr os
  | .neq => generateComparison .setne instr os
  | .leq => generateComparison .setle instr os
  | .geq => generateComparison .setge instr os
  | .label => generateLabel instr os
  | .jmp => generateJmp instr os
  | .jmpf => generateJmpf instr os
  | .param => generateParam instr os
  | .call => generateCall instr os
  | .load => (os, [])

/-- The main loop, from position `i` on: the lines of each instruction, one group each. -/
def generateFrom (tab : SymbolTable) (headAst : List AstNode) (code : List (Instr CString)) :
    Nat → List (Instr CString) → ObjState → List (List AsmLine)
  | _, [], _ => []
  | i, instr :: rest, os =>
    let (os, lines) := generateInstr tab headAst code i instr os
    lines :: generateFrom tab headAst code (i + 1) rest os

def generateObjectCode (tab : SymbolTable) (headAst : List AstNode)
    (code : List (Instr CString)) : List AsmLine :=
  .text :: (generateFrom tab headAst code 0 code .init).flatten

end Ctds
