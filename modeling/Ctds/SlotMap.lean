import Ctds.Lib.FirstSeen
import Ctds.ObjectCode

/-! The slot map as a list of names: the n-th name seen since the method's ENTER has the
n-th slot. A name keeps its slot, so the lines of an instruction can be written with the
slots the whole method ends up with. -/

namespace Ctds

open FirstSeen Decimal

def slotOffset (names : List CString) (name : CString) : Int := -8 * (position names name + 1)

theorem slotOffset_neg (names : List CString) (name : CString) : slotOffset names name < 0 := by
  unfold slotOffset
  omega

def slotsFrom (k : Nat) : List CString → List VarLocation
  | [] => []
  | name :: rest => ⟨name, -8 * (k + 1)⟩ :: slotsFrom (k + 1) rest

/-- The state of the generator when it has seen these names since the method's ENTER. -/
def ObjState.frame (names : List CString) (paramCount stackParams : Nat) : ObjState :=
  ⟨slotsFrom 0 names, -8 * names.length, paramCount, stackParams⟩

theorem findVar_slotsFrom (name : CString) (k : Nat) (names : List CString) :
    findVar name (slotsFrom k names) =
      if name ∈ names then some ((-8 : Int) * ((k + position names name : Nat) + 1)) else none := by
  induction names generalizing k with
  | nil => rfl
  | cons first rest ih =>
    rw [position_cons]
    by_cases same : first = name
    · subst same
      simp [slotsFrom, findVar]
    · have mem : name ∈ first :: rest ↔ name ∈ rest := by
        rw [List.mem_cons, or_iff_right (Ne.symm same)]
      simp only [slotsFrom, findVar, if_neg same, ih, mem]
      have place : k + 1 + position rest name = k + (position rest name + 1) := by omega
      rw [place]

theorem findVar_slots (name : CString) (names : List CString) :
    findVar name (slotsFrom 0 names) =
      if name ∈ names then some (slotOffset names name) else none := by
  rw [findVar_slotsFrom, Nat.zero_add]
  rfl

theorem slotsFrom_append (k : Nat) (names : List CString) (name : CString) :
    slotsFrom k (names ++ [name]) = slotsFrom k names ++
      [⟨name, -8 * ((k + names.length : Nat) + 1)⟩] := by
  induction names generalizing k with
  | nil => simp [slotsFrom]
  | cons first rest ih =>
    simp only [List.cons_append, slotsFrom, ih, List.length_cons]
    have place : k + 1 + rest.length = k + (rest.length + 1) := by omega
    rw [place]

theorem getVarOffset_frame (name : CString) (names : List CString) (p s : Nat) :
    getVarOffset name (.frame names p s) =
      (.frame (see names name) p s, slotOffset (see names name) name) := by
  unfold getVarOffset
  simp only [ObjState.frame, findVar_slots]
  by_cases known : name ∈ names
  · simp only [if_pos known, see]
  · simp only [if_neg known, see, slotsFrom_append, Nat.zero_add, List.length_append,
      List.length_singleton]
    have offset : (-8 : Int) * names.length - 8 = -8 * (names.length + 1) := by omega
    simp only [slotOffset, position_new known, offset]
    norm_cast

/-- A name that `get_operand_str` takes for a variable. -/
def isSlotName (name : CString) : Bool := !startsWith '_' name && !startsNumber name

def operandNames (var : Option CString) : List CString := var.toList.filter isSlotName

/-- The operand text when the names seen are these. -/
def operandFor (names : List CString) : Option CString → Operand
  | none => .absent
  | some name =>
    if startsWith '_' name then .label name
    else if startsNumber name then .imm name
    else .slot (slotOffset names name)

theorem getOperandStr_frame (var : Option CString) (names : List CString) (p s : Nat) :
    getOperandStr var (.frame names p s) =
      (.frame (seeAll names (operandNames var)) p s,
        operandFor (seeAll names (operandNames var)) var) := by
  unfold getOperandStr operandFor operandNames
  cases var with
  | none => rfl
  | some name =>
    dsimp only [Option.toList]
    by_cases label : startsWith '_' name = true
    · simp [isSlotName, label, seeAll]
    · by_cases number : startsNumber name = true
      · simp [isSlotName, label, number, seeAll]
      · simp [isSlotName, label, number, seeAll, getVarOffset_frame]

theorem operandFor_initial {names all : List CString} (h : names <+: all) {var : Option CString}
    (seen : ∀ name ∈ operandNames var, name ∈ names) :
    operandFor all var = operandFor names var := by
  unfold operandFor
  cases var with
  | none => rfl
  | some name =>
    dsimp only
    by_cases label : startsWith '_' name = true
    · simp [label]
    · by_cases number : startsNumber name = true
      · simp [label, number]
      · have mem : name ∈ names := seen name (by simp [operandNames, isSlotName, label, number])
        simp [label, number, slotOffset, position_initial h mem]

/-- The names an instruction asks slots for. -/
def slotOperands (instr : Instr CString) : List CString :=
  match instr.instruct with
  | .load | .externDecl | .enter | .leave => []
  | .ret | .label | .jmp | .param => operandNames instr.var1
  | .call => operandNames instr.reg
  | .loadval | .store | .min | .neg | .jmpf => operandNames instr.var1 ++ operandNames instr.reg
  | _ => operandNames instr.var1 ++ (operandNames instr.var2 ++ operandNames instr.reg)

def binaryLines (t : InstrType) (count : CString) (op1 op2 dest : Operand) : List AsmLine :=
  let arith op := [AsmLine.movqToReg op1 .rax, .arith op op2, .movqFromReg .rax dest]
  let division r := [AsmLine.movqToReg op1 .rax, .cqto, .idivq op2, .movqFromReg r dest]
  let comparison op :=
    [AsmLine.movqToReg op1 .rax, .cmpq op2, .set op, .movzbq, .movqFromReg .rax dest]
  match t with
  | .add => arith .addq
  | .sub => arith .subq
  | .mul => arith .imulq
  | .and => arith .andq
  | .or => arith .orq
  | .div => division .rax
  | .mod => division .rdx
  | .les => comparison .setl
  | .grt => comparison .setg
  | .eq => comparison .sete
  | .neq => comparison .setne
  | .leq => comparison .setle
  | .geq => comparison .setge
  | .shiftRight =>
    [.movqToReg op1 .rax, .cqo, .movqToReg (.imm (intText (shiftBias count))) .rcx, .andRcxRdx,
      .addRdxRax, .sar op2, .movqFromReg .rax dest]
  | _ => []

/-- The lines of an instruction, with the slots of all the names of its method. -/
def instrLines (all : List CString) (code : List (Instr CString)) (i : Nat)
    (instr : Instr CString) (paramCount stackParams : Nat) : List AsmLine :=
  let op1 := operandFor all instr.var1
  let op2 := operandFor all instr.var2
  let dest := operandFor all instr.reg
  match instr.instruct with
  | .load | .enter | .leave => []
  | .externDecl => [.externDecl (instr.var1.getD [])]
  | .ret =>
    (if instr.var1.isSome then [.movqToReg op1 .rax] else []) ++
      [.jmp (.label (leaveLabel (currentFuncName code i)))]
  | .loadval => [.movqImm op1 dest]
  | .store => [.movqToReg op1 .rax, .movqFromReg .rax dest]
  | .min => [.movqToReg op1 .rax, .negq, .movqFromReg .rax dest]
  | .neg => [.movqToReg op1 .rax, .testq, .set .sete, .movzbq, .movqFromReg .rax dest]
  | .label => [.label op1.text]
  | .jmp => [.jmp op1]
  | .jmpf => [.movqToReg op1 .rax, .testq, .jz dest]
  | .param =>
    match argRegs[paramCount]? with
    | some r => [.movqToReg op1 r]
    | none => [.pushq op1]
  | .call =>
    [.call (instr.var1.getD [])] ++ (if instr.reg.isSome then [.movqFromReg .rax dest] else []) ++
      (if 0 < stackParams then [.addqRsp (stackParams * 8)] else [])
  | t => binaryLines t (instr.var2.getD []) op1 op2 dest

def paramCountAfter (instr : Instr CString) (p : Nat) : Nat :=
  match instr.instruct with
  | .param => p + 1
  | .call => 0
  | _ => p

def stackParamsAfter (instr : Instr CString) (p s : Nat) : Nat :=
  match instr.instruct with
  | .param => if p < 6 then s else s + 1
  | .call => 0
  | _ => s

section Generate

variable {tab : SymbolTable} {headAst : List AstNode} {code : List (Instr CString)} {i : Nat}
  {t : InstrType} {var1 var2 reg : Option CString} {names all : List CString} {p s : Nat}

theorem seen_operand (var : Option CString) (names : List CString) :
    ∀ name ∈ operandNames var, name ∈ seeAll names (operandNames var) :=
  fun _ mem => mem_seeAll.mpr (.inr mem)

theorem one_operand (seen : seeAll names (operandNames var1) <+: all) :
    getOperandStr var1 (.frame names p s) =
      (.frame (seeAll names (operandNames var1)) p s, operandFor all var1) := by
  rw [getOperandStr_frame, operandFor_initial seen (seen_operand var1 names)]

theorem one_operand_of_two {more : List CString}
    (seen : seeAll names (operandNames var1 ++ more) <+: all) :
    getOperandStr var1 (.frame names p s) =
      (.frame (seeAll names (operandNames var1)) p s, operandFor all var1) := by
  rw [seeAll_append] at seen
  exact one_operand ((prefix_seeAll _ _).trans seen)

theorem two_operands (seen : seeAll names (operandNames var1 ++ operandNames reg) <+: all) :
    let os := (getOperandStr var1 (.frame names p s)).1
    (getOperandStr var1 (.frame names p s)).2 = operandFor all var1 ∧
      getOperandStr reg os =
        (.frame (seeAll names (operandNames var1 ++ operandNames reg)) p s,
        operandFor all reg) := by
  rw [one_operand_of_two seen]
  rw [seeAll_append] at seen ⊢
  exact ⟨rfl, one_operand seen⟩

theorem three_operands
    (seen : seeAll names (operandNames var1 ++ (operandNames var2 ++ operandNames reg)) <+: all) :
    let os := (getOperandStr var1 (.frame names p s)).1
    let os' := (getOperandStr var2 os).1
    (getOperandStr var1 (.frame names p s)).2 = operandFor all var1 ∧
      (getOperandStr var2 os).2 = operandFor all var2 ∧
      getOperandStr reg os' =
        (.frame (seeAll names (operandNames var1 ++ (operandNames var2 ++ operandNames reg))) p s,
          operandFor all reg) := by
  rw [one_operand_of_two seen]
  rw [seeAll_append] at seen ⊢
  exact ⟨rfl, two_operands seen⟩

/-- Every instruction inside a method: the names it sees, and its lines. -/
theorem generateInstr_frame {instr : Instr CString} (notEnter : instr.instruct ≠ .enter)
    (notLeave : instr.instruct ≠ .leave) (seen : seeAll names (slotOperands instr) <+: all) :
    generateInstr tab headAst code i instr (.frame names p s) =
      (.frame (seeAll names (slotOperands instr)) (paramCountAfter instr p)
        (stackParamsAfter instr p s), instrLines all code i instr p s) := by
  obtain ⟨t, var1, var2, reg⟩ := instr
  cases t with
  | enter => exact absurd rfl notEnter
  | leave => exact absurd rfl notLeave
  | load | externDecl => rfl
  | loadval | store | min | neg | jmpf =>
    obtain ⟨op1, dest⟩ := two_operands (p := p) (s := s) seen
    simp only [generateInstr, generateLoadval, generateStore, generateMin,
      generateNeg, generateJmpf]
    simp only [op1, dest]
    rfl
  | label | jmp =>
    simp only [generateInstr, generateLabel, generateJmp, one_operand seen]
    rfl
  | ret =>
    cases var1 with
    | none => rfl
    | some name =>
      simp only [generateInstr, generateRet, one_operand seen]
      rfl
  | param =>
    simp only [generateInstr, generateParam, one_operand seen, instrLines, paramCountAfter,
      stackParamsAfter]
    have few : p < 6 ∨ 6 ≤ p := Nat.lt_or_ge p 6
    rcases few with few | many
    · have reg : argRegs[p]? = some (argRegs.get ⟨p, few⟩) := List.getElem?_eq_getElem few
      rw [show (ObjState.frame (seeAll names (operandNames var1)) p s).paramCount = p from rfl, reg,
        if_pos few]
      rfl
    · have none : argRegs[p]? = none := List.getElem?_eq_none many
      rw [show (ObjState.frame (seeAll names (operandNames var1)) p s).paramCount =
        p from rfl, none,
        if_neg (Nat.not_lt_of_le many)]
      rfl
  | call =>
    cases reg with
    | none => rfl
    | some name =>
      simp only [generateInstr, generateCall, one_operand seen]
      rfl
  | _ =>
    obtain ⟨op1, op2, dest⟩ := three_operands (p := p) (s := s) seen
    simp only [generateInstr, generateArith, generateDivision, generateComparison,
      generateShiftRight]
    simp only [op1, op2, dest]
    rfl

end Generate

end Ctds
