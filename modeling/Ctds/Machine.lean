import Ctds.Assembly
import Ctds.Lib.Transition
import Ctds.Lib.Word

/-! A machine for the lines of `Assembly`: the registers they name, the two stack pointers,
the flags that `set` and `jz` read, and memory as cells of eight bytes. Addresses are
integers; all that occur are multiples of eight apart, so cells do not overlap. A push
below address zero and a subtraction that leaves the stack do not return. -/

namespace Ctds

open Decimal Word

structure Flags where
  zero : Bool
  sign : Bool
  overflow : Bool
deriving DecidableEq

def Flags.of (result : Word) (overflow : Bool) : Flags := ⟨result == 0, result.msb, overflow⟩

structure Machine where
  reg : Reg → Word
  rsp : Int
  rbp : Int
  mem : Int → Word
  flags : Flags

/-- Where a line passes control. -/
inductive Control where
  | next
  | jump (label : List Char)
  | call (name : List Char)
  | ret
deriving DecidableEq

namespace Machine

def setReg (m : Machine) (r : Reg) (v : Word) : Machine :=
  { m with reg := Function.update m.reg r v }

def setMem (m : Machine) (address : Int) (v : Word) : Machine :=
  { m with mem := Function.update m.mem address v }

def setFlags (m : Machine) (flags : Flags) : Machine := { m with flags := flags }

/-- The value of a source operand; a label is none. -/
def read (m : Machine) : Operand → Option Word
  | .imm text => some (BitVec.ofInt 64 (intValue text))
  | .slot offset => some (m.mem (m.rbp + offset))
  | .label _ | .absent => none

def write (m : Machine) (v : Word) : Operand → Option Machine
  | .slot offset => some (m.setMem (m.rbp + offset) v)
  | _ => none

def push (m : Machine) (v : Word) : Option Machine :=
  if m.rsp < 8 then none
  else some { m with rsp := m.rsp - 8, mem := Function.update m.mem (m.rsp - 8) v }

end Machine

theorem Machine.of_push {m m' : Machine} {v : Word} (pushed : m.push v = some m') :
    8 ≤ m.rsp ∧
      m' = { m with rsp := m.rsp - 8, mem := Function.update m.mem (m.rsp - 8) v } := by
  rw [Machine.push, Option.ite_none_left_eq_some, Option.some.injEq] at pushed
  exact ⟨Int.not_lt.mp pushed.1, pushed.2.symm⟩

def ArithOp.result (op : ArithOp) (dst src : Word) : Word :=
  match op with
  | addq => dst + src
  | subq => dst - src
  | imulq => dst * src
  | andq => dst &&& src
  | orq => dst ||| src

def ArithOp.overflow (op : ArithOp) (dst src : Word) : Bool :=
  match op with
  | addq => dst.saddOverflow src
  | subq => dst.ssubOverflow src
  | imulq => dst.smulOverflow src
  | andq | orq => false

def SetOp.holds (op : SetOp) (flags : Flags) : Bool :=
  match op with
  | setl => flags.sign != flags.overflow
  | setg => !flags.zero && flags.sign == flags.overflow
  | sete => flags.zero
  | setne => !flags.zero
  | setle => flags.zero || flags.sign != flags.overflow
  | setge => flags.sign == flags.overflow

/-- Quotient and remainder of a double word; `none` is the divide error. -/
def signedDivision (high low divisor : Word) : Option (Word × Word) :=
  let dividend := (high ++ low).toInt
  let q := dividend.tdiv divisor.toInt
  if divisor = 0 ∨ q < -2 ^ 63 ∨ 2 ^ 63 ≤ q then none
  else some (BitVec.ofInt 64 q, BitVec.ofInt 64 (dividend.tmod divisor.toInt))

namespace Machine

/-- An operation that leaves its result in `%rax` and sets the flags. -/
def compute (m : Machine) (result : Word) (overflow : Bool) : Machine :=
  (m.setReg .rax result).setFlags (.of result overflow)

def signExtendRax (m : Machine) : Machine := m.setReg .rdx ((m.reg .rax).sshiftRight 63)

/-- `set` writes the low byte of `%rax` only. -/
def setByte (m : Machine) (b : Bool) : Machine :=
  m.setReg .rax ((m.reg .rax &&& ~~~255#64) ||| ofBool b)

def moveStackPointer (m : Machine) (rsp : Int) : Machine :=
  { m with rsp := rsp, flags := .of (BitVec.ofInt 64 rsp) false }

def popRbp (m : Machine) : Machine :=
  { m with rbp := (m.mem m.rsp).toNat, rsp := m.rsp + 8 }

end Machine

def jumpTo (m : Machine) : Operand → Option (Machine × Control)
  | .label name => some (m, .jump name)
  | _ => none

open Machine in
def execLine (line : AsmLine) (m : Machine) : Option (Machine × Control) :=
  let next := Option.map fun m : Machine => (m, Control.next)
  let rax := m.reg .rax
  match line with
  | .text | .globl _ | .externDecl _ | .label _ | .unknown => some (m, .next)
  | .pushqRbp => next (m.push (BitVec.ofInt 64 m.rbp))
  | .movqRspRbp => some ({ m with rbp := m.rsp }, .next)
  | .subqRsp size => if m.rsp < size then none else some (m.moveStackPointer (m.rsp - size), .next)
  | .movqRbpRsp => some ({ m with rsp := m.rbp }, .next)
  | .popqRbp => some (m.popRbp, .next)
  | .ret => some (m, .ret)
  | .movqToReg src dst => next ((m.read src).map (m.setReg dst))
  | .movqFromReg src dst => next (m.write (m.reg src) dst)
  | .movqImm src dst => next ((m.read src).bind fun v => m.write v dst)
  | .arith op src =>
    next ((m.read src).map fun v => m.compute (op.result rax v) (op.overflow rax v))
  | .cqto | .cqo => some (m.signExtendRax, .next)
  | .idivq src =>
    next ((m.read src).bind fun v => (signedDivision (m.reg .rdx) rax v).map fun (q, r) =>
      (m.setReg .rax q).setReg .rdx r)
  | .andRcxRdx =>
    let v := m.reg .rdx &&& m.reg .rcx
    some ((m.setReg .rdx v).setFlags (.of v false), .next)
  | .addRdxRax =>
    some (m.compute (rax + m.reg .rdx) (rax.saddOverflow (m.reg .rdx)), .next)
  | .sar count =>
    next ((m.read count).map fun n => m.compute (rax.sshiftRight (n.toNat % 64)) false)
  | .negq => some (m.compute (-rax) (rax.negOverflow), .next)
  | .testq => some (m.setFlags (.of (rax &&& rax) false), .next)
  | .set op => some (m.setByte (op.holds m.flags), .next)
  | .movzbq => some (m.setReg .rax ((rax.setWidth 8).setWidth 64), .next)
  | .cmpq src =>
    next ((m.read src).map fun v => m.setFlags (.of (rax - v) (rax.ssubOverflow v)))
  | .jmp target => jumpTo m target
  | .jz target => if m.flags.zero then jumpTo m target else some (m, .next)
  | .pushq src => next ((m.read src).bind m.push)
  | .call name => some (m, .call name)
  | .addqRsp size => some (m.moveStackPointer (m.rsp + size), .next)

/-- Lines one after the other, up to the first one that passes control elsewhere. -/
def execLines : List AsmLine → Machine → Option (Machine × Control)
  | [], m => some (m, .next)
  | line :: rest, m =>
    match execLine line m with
    | none => none
    | some (m, .next) => execLines rest m
    | some (m, control) => some (m, control)

structure Config where
  pc : Nat
  machine : Machine

/-- What calling a function of another object file does to the machine, once it returns. -/
abbrev Extern := List Char → Machine → Option Machine

/-- The calling convention as far as the generated code relies on it: the callee restores
`%rbp` and `%rsp` and does not write above the stack pointer. -/
def Extern.Obeys (ext : Extern) : Prop :=
  ∀ name m m', ext name m = some m' →
    m'.rsp = m.rsp ∧ m'.rbp = m.rbp ∧ ∀ address, m.rsp ≤ address → m'.mem address = m.mem address

def findLabel (lines : List AsmLine) (name : List Char) : Option Nat :=
  lines.findIdx? fun line => decide (line = .label name)

/-- A return address is the number of a line. -/
def asmStep (lines : List AsmLine) (ext : Extern) (c : Config) : Option Config :=
  match lines[c.pc]? with
  | none => none
  | some line =>
    match execLine line c.machine with
    | none => none
    | some (m, .next) => some ⟨c.pc + 1, m⟩
    | some (m, .jump label) => (findLabel lines label).map fun pc => ⟨pc, m⟩
    | some (m, .call name) =>
      match findLabel lines name with
      | some pc => (m.push (BitVec.ofNat 64 (c.pc + 1))).map fun m => ⟨pc, m⟩
      | none => (ext name m).map fun m => ⟨c.pc + 1, m⟩
    | some (m, .ret) => some ⟨(m.mem m.rsp).toNat, { m with rsp := m.rsp + 8 }⟩

end Ctds
