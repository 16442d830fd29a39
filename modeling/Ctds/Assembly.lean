import Ctds.Lib.Decimal

/-! The x86-64 lines `generate_object_code` prints, one constructor for each form it
uses, and their texts. An operand is what `get_operand_str` writes into its buffer. -/

namespace Ctds

open Decimal

inductive Reg where
  | rax | rcx | rdx | rdi | rsi | r8 | r9
deriving DecidableEq, Repr

def Reg.text : Reg → List Char
  | rax => "%rax".toList
  | rcx => "%rcx".toList
  | rdx => "%rdx".toList
  | rdi => "%rdi".toList
  | rsi => "%rsi".toList
  | r8 => "%r8".toList
  | r9 => "%r9".toList

inductive Operand where
  | absent
  | label (name : List Char)
  | imm (text : List Char)
  | slot (offset : Int)
deriving DecidableEq

def Operand.text : Operand → List Char
  | absent => []
  | label name => name
  | imm text => '$' :: text
  | slot offset => intText offset ++ "(%rbp)".toList

/-- Operations of the form `op src, %rax`. -/
inductive ArithOp where
  | addq | subq | imulq | andq | orq
deriving DecidableEq, Repr

def ArithOp.text : ArithOp → List Char
  | addq => "addq".toList
  | subq => "subq".toList
  | imulq => "imulq".toList
  | andq => "andq".toList
  | orq => "orq".toList

/-- Condition codes of the set instructions. -/
inductive SetOp where
  | setl | setg | sete | setne | setle | setge
deriving DecidableEq, Repr

def SetOp.text : SetOp → List Char
  | setl => "setl".toList
  | setg => "setg".toList
  | sete => "sete".toList
  | setne => "setne".toList
  | setle => "setle".toList
  | setge => "setge".toList

inductive AsmLine where
  | text
  | globl (name : List Char)
  | externDecl (name : List Char)
  | label (name : List Char)
  | pushqRbp
  | movqRspRbp
  | subqRsp (size : Int)
  | movqRbpRsp
  | popqRbp
  | ret
  | movqToReg (src : Operand) (dst : Reg)
  | movqFromReg (src : Reg) (dst : Operand)
  | movqImm (src dst : Operand)
  | arith (op : ArithOp) (src : Operand)
  | cqto
  | cqo
  | idivq (src : Operand)
  | andRcxRdx
  | addRdxRax
  | sar (count : Operand)
  | negq
  | testq
  | set (op : SetOp)
  | movzbq
  | cmpq (src : Operand)
  | jmp (target : Operand)
  | jz (target : Operand)
  | pushq (src : Operand)
  | call (name : List Char)
  | addqRsp (size : Nat)
  | unknown
deriving DecidableEq

/-- The characters of the line, without its newline. -/
def AsmLine.print : AsmLine → List Char
  | text => ".text".toList
  | globl name => "\n.globl ".toList ++ name
  | externDecl name => ".extern ".toList ++ name
  | label name => name ++ ":".toList
  | pushqRbp => "  pushq %rbp".toList
  | movqRspRbp => "  movq %rsp, %rbp".toList
  | subqRsp size => "  subq $".toList ++ intText size ++ ", %rsp".toList
  | movqRbpRsp => "  movq %rbp, %rsp".toList
  | popqRbp => "  popq %rbp".toList
  | ret => "  ret".toList
  | movqToReg src dst => "  movq ".toList ++ src.text ++ ", ".toList ++ dst.text
  | movqFromReg src dst => "  movq ".toList ++ src.text ++ ", ".toList ++ dst.text
  | movqImm src dst => "  movq ".toList ++ src.text ++ ", ".toList ++ dst.text
  | arith op src => "  ".toList ++ op.text ++ " ".toList ++ src.text ++ ", %rax".toList
  | cqto => "  cqto".toList
  | cqo => "  cqo".toList
  | idivq src => "  idivq ".toList ++ src.text
  | andRcxRdx => "  and %rcx, %rdx".toList
  | addRdxRax => "  add %rdx, %rax".toList
  | sar count => "  sar ".toList ++ count.text ++ ", %rax".toList
  | negq => "  negq %rax".toList
  | testq => "  testq %rax, %rax".toList
  | set op => "  ".toList ++ op.text ++ " %al".toList
  | movzbq => "  movzbq %al, %rax".toList
  | cmpq src => "  cmpq ".toList ++ src.text ++ ", %rax".toList
  | jmp target => "  jmp ".toList ++ target.text
  | jz target => "  jz ".toList ++ target.text
  | pushq src => "  pushq ".toList ++ src.text
  | call name => "  call ".toList ++ name
  | addqRsp size => "  addq $".toList ++ natText size ++ ", %rsp".toList
  | unknown => "  # Unknown instruction".toList

end Ctds
