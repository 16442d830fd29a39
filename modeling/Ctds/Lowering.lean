import Ctds.Machine
import Ctds.ProgramCode

/-! The lines of an instruction refine its effect: run on a machine whose slots hold the
values of the names, they write the result to the destination's slot, keep all other
slots and the stack pointers, and pass control where the instruction does. -/

namespace Ctds

open Decimal Word FirstSeen Fallible

theorem isSlotName_var (ρ : Nat → Nat) (x : Var) : isSlotName (x.name ρ) = true := by
  cases x with
  | temp n =>
    rw [Var.name, isSlotName, startsNumber_tempText]
    rfl
  | user x =>
    rw [Var.name, isSlotName, startsNumber_ident, startsWith_ident (by decide)]
    rfl

theorem operandFor_var (all : List CString) (ρ : Nat → Nat) (x : Var) :
    operandFor all (some (x.name ρ)) = .slot (slotOffset all (x.name ρ)) := by
  have slot := isSlotName_var ρ x
  simp only [isSlotName, Bool.and_eq_true, Bool.not_eq_true'] at slot
  simp [operandFor, slot.1, slot.2]

theorem operandFor_number (all : List CString) {text : CString}
    (number : startsNumber text = true) : operandFor all (some text) = .imm text := by
  simp [operandFor, number, startsWith_number (c := '_') (by decide) (by decide) number]

theorem operandNames_var (ρ : Nat → Nat) (x : Var) :
    operandNames (some (x.name ρ)) = [x.name ρ] := by
  simp [operandNames, isSlotName_var ρ x]

theorem operandNames_user (x : Ident) : operandNames (some x.text) = [x.text] :=
  operandNames_var id (.user x)

theorem operandNames_temp (n : Nat) : operandNames (some (tempText n)) = [tempText n] :=
  operandNames_var id (.temp n)

theorem operandNames_number {text : CString} (number : startsNumber text = true) :
    operandNames (some text) = [] := by
  simp [operandNames, isSlotName, number]

theorem operandNames_label (n : Nat) : operandNames (some (labelText n)) = [] := rfl

/-- The names an emitted instruction asks slots for. -/
def IrInstr.slotNames (ρ : Nat → Nat) : IrInstr → List CString
  | loadval _ dest | call _ dest => [tempText (ρ dest)]
  | .store source dest => [source.name ρ, dest.text]
  | storeVal _ dest => [dest.text]
  | binary _ left right dest => [left.name ρ, right.name ρ, tempText (ρ dest)]
  | shiftRight left _ dest | unary _ left dest => [left.name ρ, tempText (ρ dest)]
  | jmpf condition _ => [condition.name ρ]
  | param arg => [arg.name ρ]
  | ret value => value.toList.map (Var.name ρ)
  | load _ | label _ | jmp _ | enter _ | leave _ | externDecl _ => []

section Named

variable (ρ : Nat → Nat) (left right : Var) (dest : Nat)

theorem named_store (source : Var) (x : Ident) :
    (IrInstr.store source x).named ρ = ⟨.store, some (source.name ρ), none, some x.text⟩ := by
  simp only [IrInstr.named, IrInstr.instr, Instr.map, Option.map_some,
    Option.map_none, Var.ptr_text]
  rfl

theorem named_binary (t : BinaryInstr) :
    (IrInstr.binary t left right dest).named ρ =
      ⟨t.type, some (left.name ρ), some (right.name ρ), some (tempText (ρ dest))⟩ := by
  simp only [IrInstr.named, IrInstr.instr, Instr.map, Option.map_some, Var.ptr_text]
  rfl

theorem named_shiftRight (count : Fin 33) :
    (IrInstr.shiftRight left count dest).named ρ =
      ⟨.shiftRight, some (left.name ρ), some (natText count), some (tempText (ρ dest))⟩ := by
  simp only [IrInstr.named, IrInstr.instr, Instr.map, Option.map_some, Var.ptr_text]
  rfl

theorem named_unary (t : UnaryInstr) :
    (IrInstr.unary t left dest).named ρ =
      ⟨t.type, some (left.name ρ), none, some (tempText (ρ dest))⟩ := by
  simp only [IrInstr.named, IrInstr.instr, Instr.map, Option.map_some,
    Option.map_none, Var.ptr_text]
  rfl

theorem named_jmpf (n : Nat) :
    (IrInstr.jmpf left n).named ρ = ⟨.jmpf, some (left.name ρ), none, some (labelText n)⟩ := by
  simp only [IrInstr.named, IrInstr.instr, Instr.map, Option.map_some,
    Option.map_none, Var.ptr_text]
  rfl

theorem named_param : (IrInstr.param left).named ρ = ⟨.param, some (left.name ρ), none, none⟩ := by
  simp only [IrInstr.named, IrInstr.instr, Instr.map, Option.map_some,
    Option.map_none, Var.ptr_text]

theorem named_ret (value : Option Var) :
    (IrInstr.ret value).named ρ = ⟨.ret, value.map (Var.name ρ), none, none⟩ := by
  cases value with
  | none => rfl
  | some x =>
    simp only [IrInstr.named, IrInstr.instr, Instr.map, Option.map_some, Option.map_none,
      Var.ptr_text]

end Named

theorem slotOperands_named (ρ : Nat → Nat) (i : IrInstr) :
    slotOperands (i.named ρ) = i.slotNames ρ := by
  cases i with
  | loadval value dest =>
    exact congrArg (· ++ operandNames (some (tempText (ρ dest))))
      (operandNames_number (startsNumber_intText value.toInt)) |>.trans (operandNames_temp _)
  | store source dest =>
    rw [named_store, slotOperands, operandNames_var, operandNames_user]
    rfl
  | storeVal value dest =>
    exact congrArg (· ++ operandNames (some dest.text))
      (operandNames_number (startsNumber_intText value.toInt)) |>.trans (operandNames_user _)
  | binary t left right dest =>
    rw [named_binary]
    cases t <;> simp [slotOperands, BinaryInstr.type, operandNames_var, operandNames_temp,
      IrInstr.slotNames]
  | shiftRight left count dest =>
    rw [named_shiftRight]
    simp [slotOperands, operandNames_var, operandNames_temp, operandNames_number,
      IrInstr.slotNames]
  | unary t left dest =>
    rw [named_unary]
    cases t <;> simp [slotOperands, UnaryInstr.type, operandNames_var, operandNames_temp,
      IrInstr.slotNames]
  | jmpf condition n =>
    rw [named_jmpf, slotOperands, operandNames_var, operandNames_label]
    rfl
  | param arg =>
    rw [named_param, slotOperands, operandNames_var]
    rfl
  | call name dest => exact operandNames_temp _
  | ret value =>
    rw [named_ret]
    cases value with
    | none => rfl
    | some x => exact operandNames_var ρ x
  | load _ | label _ | jmp _ | enter _ | leave _ | externDecl _ => rfl

/-- Each name's slot holds its value. -/
def Holds (names : List CString) (store : Store) (m : Machine) : Prop :=
  ∀ name ∈ names, m.mem (m.rbp + slotOffset names name) = store name

theorem slotOffset_inj {names : List CString} {a b : CString} (mem : a ∈ names)
    (same : slotOffset names a = slotOffset names b) : a = b := by
  unfold slotOffset at same
  exact position_inj mem (by omega)

/-- The lines in front of the last one leave the stack alone. -/
structure SameStack (m m' : Machine) : Prop where
  rbp : m'.rbp = m.rbp
  rsp : m'.rsp = m.rsp
  mem : m'.mem = m.mem

theorem Holds.same {names : List CString} {store : Store} {m m' : Machine}
    (h : Holds names store m) (same : SameStack m m') : Holds names store m' := fun name mem => by
  rw [same.mem, same.rbp, h name mem]

theorem Holds.setMem {names : List CString} {store : Store} {m : Machine}
    (h : Holds names store m) {dest : CString} (mem : dest ∈ names) (v : Word) :
    Holds names (Function.update store dest v) (m.setMem (m.rbp + slotOffset names dest) v) := by
  intro name here
  by_cases same : name = dest
  · subst same
    simp [Machine.setMem]
  · have apart : m.rbp + slotOffset names name ≠ m.rbp + slotOffset names dest := fun eq =>
      same (slotOffset_inj here (Int.add_left_cancel eq))
    simp only [Machine.setMem, Function.update_of_ne apart, Function.update_of_ne same]
    exact h name here

def Flow.control : Flow → Control
  | next => .next
  | jump label => .jump label

/-- What the lines of an instruction must do, for the effect the instruction has. -/
def Refines (names : List CString) (m : Machine) (result : Option (Machine × Control)) :
    Option (Store × Flow) → Prop
  | none => result = none
  | some (store, flow) => ∃ m', result = some (m', flow.control) ∧ Holds names store m' ∧
      m'.rbp = m.rbp ∧ m'.rsp = m.rsp

theorem refines_write {names : List CString} {store : Store} {m m' : Machine}
    (h : Holds names store m) (same : SameStack m m') {dest : CString} (mem : dest ∈ names)
    {r : Reg} {v : Word} (value : m'.reg r = v) :
    Refines names m (execLines [.movqFromReg r (.slot (slotOffset names dest))] m')
      (some (Function.update store dest v, .next)) := by
  subst value
  refine ⟨m'.setMem (m'.rbp + slotOffset names dest) (m'.reg r), rfl, ?_, same.rbp, same.rsp⟩
  exact (h.same same).setMem mem _

theorem signedDivision_eq (l r : Word) :
    signedDivision (l.sshiftRight 63) l r =
      (quotient l r).bind fun q => (remainder l r).map fun rem => (q, rem) := by
  simp only [signedDivision, quotient, remainder, doubleWord]
  by_cases zero : r = 0
  · simp [zero]
  · by_cases special : l = BitVec.intMin 64 ∧ r = -1
    · obtain ⟨rfl, rfl⟩ := special
      decide
    · have differ : l ≠ BitVec.intMin 64 ∨ r ≠ -1#64 := by
        by_contra both
        simp only [not_or, not_not] at both
        exact special both
      have q := BitVec.toInt_sdiv_of_ne_or_ne l r differ
      have range := toInt_range (l.sdiv r)
      have fits : ¬ (r = 0 ∨ l.toInt.tdiv r.toInt < -2 ^ 63 ∨ 2 ^ 63 ≤ l.toInt.tdiv r.toInt) := by
        rw [← q]
        simp only [zero, false_or]
        omega
      have defined : ¬ (r = 0 ∨ l = BitVec.intMin 64 ∧ r = -1) := by
        rw [not_or]
        exact ⟨zero, special⟩
      rw [if_neg fits, if_neg defined, if_neg defined, ← q, ← BitVec.toInt_srem, BitVec.ofInt_toInt,
        BitVec.ofInt_toInt]
      rfl

theorem execLines_next {line : AsmLine} {rest : List AsmLine} {m m' : Machine}
    (step : execLine line m = some (m', .next)) :
    execLines (line :: rest) m = execLines rest m' := by
  rw [execLines, step]

theorem execLines_fault {line : AsmLine} {rest : List AsmLine} {m : Machine}
    (step : execLine line m = none) : execLines (line :: rest) m = none := by
  rw [execLines, step]

theorem execLines_jump {line : AsmLine} {rest : List AsmLine} {m m' : Machine} {label : CString}
    (step : execLine line m = some (m', .jump label)) :
    execLines (line :: rest) m = some (m', .jump label) := by
  rw [execLines, step]

theorem execLines_append {seg rest : List AsmLine} {m m' : Machine}
    (first : execLines seg m = some (m', .next)) :
    execLines (seg ++ rest) m = execLines rest m' := by
  induction seg generalizing m with
  | nil =>
    simp only [execLines, Option.some.injEq, Prod.mk.injEq, and_true] at first
    rw [List.nil_append, first]
  | cons line seg ih =>
    rw [List.cons_append]
    rw [execLines] at first ⊢
    split at first
    · cases first
    · exact ih first
    · next other _ =>
      simp only [Option.some.injEq, Prod.mk.injEq] at first
      exact absurd first.2 (by simpa using other)

section Lines

variable {names : List CString} {store : Store} {m m' : Machine} {a b dest : CString}

theorem read_slot (h : Holds names store m) (same : SameStack m m') (mem : a ∈ names) :
    m'.read (.slot (slotOffset names a)) = some (store a) := by
  rw [Machine.read, same.rbp, same.mem, h a mem]

theorem read_imm (m : Machine) (v : Int) :
    m.read (.imm (intText v)) = some (BitVec.ofInt 64 v) := by
  rw [Machine.read, intValue_intText]

theorem execLines_move {src : Operand} {v : Word} (value : m.read src = some v) (r : Reg)
    (rest : List AsmLine) :
    execLines (.movqToReg src r :: rest) m = execLines rest (m.setReg r v) :=
  execLines_next (by rw [execLine, value]; rfl)

theorem refines_arith (h : Holds names store m) (memA : a ∈ names) (memB : b ∈ names)
    (memD : dest ∈ names) (op : ArithOp) :
    Refines names m
      (execLines [.movqToReg (.slot (slotOffset names a)) .rax,
      .arith op (.slot (slotOffset names b)),
        .movqFromReg .rax (.slot (slotOffset names dest))] m)
      (some (Function.update store dest (op.result (store a) (store b)), .next)) := by
  rw [execLines_move (read_slot h ⟨rfl, rfl, rfl⟩ memA)]
  have value : (m.setReg .rax (store a)).read (.slot (slotOffset names b)) = some (store b) :=
    read_slot h ⟨rfl, rfl, rfl⟩ memB
  rw [execLines_next (by rw [execLine, value]; rfl)]
  refine refines_write h ?_ memD ?_
  · exact ⟨rfl, rfl, rfl⟩
  · rfl

theorem refines_comparison (h : Holds names store m) (memA : a ∈ names) (memB : b ∈ names)
    (memD : dest ∈ names) (op : SetOp) {v : Bool}
    (holds : op.holds (.of (store a - store b) ((store a).ssubOverflow (store b))) = v) :
    Refines names m
      (execLines [.movqToReg (.slot (slotOffset names a)) .rax, .cmpq (.slot (slotOffset names b)),
        .set op, .movzbq, .movqFromReg .rax (.slot (slotOffset names dest))] m)
      (some (Function.update store dest (ofBool v), .next)) := by
  subst holds
  rw [execLines_move (read_slot h ⟨rfl, rfl, rfl⟩ memA)]
  have value : (m.setReg .rax (store a)).read (.slot (slotOffset names b)) = some (store b) :=
    read_slot h ⟨rfl, rfl, rfl⟩ memB
  rw [execLines_next (by rw [execLine, value]; rfl), execLines_next rfl, execLines_next rfl]
  refine refines_write h ?_ memD ?_
  · exact ⟨rfl, rfl, rfl⟩
  · exact lowByte _ _

theorem refines_neg (h : Holds names store m) (memA : a ∈ names) (memD : dest ∈ names) :
    Refines names m
      (execLines [.movqToReg (.slot (slotOffset names a)) .rax, .testq, .set .sete, .movzbq,
        .movqFromReg .rax (.slot (slotOffset names dest))] m)
      (some (Function.update store dest (ofBool (store a == 0)), .next)) := by
  rw [execLines_move (read_slot h ⟨rfl, rfl, rfl⟩ memA), execLines_next rfl, execLines_next rfl,
    execLines_next rfl]
  refine refines_write h ?_ memD ?_
  · exact ⟨rfl, rfl, rfl⟩
  · refine (lowByte _ _).trans ?_
    simp [Machine.setFlags, Machine.setReg, SetOp.holds, Flags.of]

theorem refines_min (h : Holds names store m) (memA : a ∈ names) (memD : dest ∈ names) :
    Refines names m
      (execLines [.movqToReg (.slot (slotOffset names a)) .rax, .negq,
        .movqFromReg .rax (.slot (slotOffset names dest))] m)
      (some (Function.update store dest (-store a), .next)) := by
  rw [execLines_move (read_slot h ⟨rfl, rfl, rfl⟩ memA), execLines_next rfl]
  refine refines_write h ?_ memD ?_
  · exact ⟨rfl, rfl, rfl⟩
  · rfl

theorem refines_division (h : Holds names store m) (memA : a ∈ names) (memB : b ∈ names)
    (memD : dest ∈ names) (r : Reg) (pick : Word × Word → Word)
    (isPick : ∀ (m : Machine) (q : Word × Word),
      ((m.setReg .rax q.1).setReg .rdx q.2).reg r = pick q) :
    Refines names m
      (execLines [.movqToReg (.slot (slotOffset names a)) .rax, .cqto,
        .idivq (.slot (slotOffset names b)), .movqFromReg r (.slot (slotOffset names dest))] m)
      (((quotient (store a) (store b)).bind fun q =>
        (remainder (store a) (store b)).map fun rem => pick (q, rem)).map fun v =>
          (Function.update store dest v, .next)) := by
  rw [execLines_move (read_slot h ⟨rfl, rfl, rfl⟩ memA), execLines_next rfl]
  have value : (m.setReg .rax (store a)).signExtendRax.read (.slot (slotOffset names b)) =
      some (store b) := read_slot h ⟨rfl, rfl, rfl⟩ memB
  have divided : execLine (.idivq (.slot (slotOffset names b)))
      (m.setReg .rax (store a)).signExtendRax =
        ((signedDivision ((store a).sshiftRight 63) (store a) (store b)).map fun q =>
          (((((m.setReg .rax (store a)).signExtendRax).setReg .rax q.1).setReg .rdx q.2,
            Control.next))) := by
    rw [execLine, value]
    simp [Machine.signExtendRax, Machine.setReg, Function.comp_def]
  cases result : signedDivision ((store a).sshiftRight 63) (store a) (store b) with
  | none =>
    rw [result] at divided
    rw [signedDivision_eq] at result
    rw [execLines_fault divided]
    cases q : quotient (store a) (store b) with
    | none => rfl
    | some q' =>
      rw [q, Option.bind_some, Option.map_eq_none_iff] at result
      rw [Option.bind_some, result]
      rfl
  | some q =>
    rw [result] at divided
    rw [signedDivision_eq] at result
    rw [execLines_next divided]
    obtain ⟨q₁, first, second⟩ := Option.bind_eq_some_iff.mp result
    obtain ⟨q₂, other, rfl⟩ := Option.map_eq_some_iff.mp second
    rw [first, other]
    refine refines_write h ?_ memD ?_
    · exact ⟨rfl, rfl, rfl⟩
    · exact isPick _ _

theorem refines_shiftRight (h : Holds names store m) (memA : a ∈ names) (memD : dest ∈ names)
    (count : Fin 33) :
    Refines names m
      (execLines [.movqToReg (.slot (slotOffset names a)) .rax, .cqo,
        .movqToReg (.imm (intText (shiftBias (natText count)))) .rcx, .andRcxRdx, .addRdxRax,
        .sar (.imm (natText count)), .movqFromReg .rax (.slot (slotOffset names dest))] m)
      (some (Function.update store dest (shiftedQuotient (store a) count), .next)) := by
  rw [execLines_move (read_slot h ⟨rfl, rfl, rfl⟩ memA), execLines_next rfl,
    execLines_move (read_imm _ _), execLines_next rfl, execLines_next rfl, execLines_next rfl]
  refine refines_write h ?_ memD ?_
  · exact ⟨rfl, rfl, rfl⟩
  have bias : shiftBias (natText count) = 2 ^ (count : Nat) - 1 := by
    rw [shiftBias, intValue_natText]
    rfl
  have masked : ((intValue (natText count) % 18446744073709551616).toNat % 64 : Nat) = count := by
    rw [intValue_natText]
    omega
  rw [shiftedQuotient, ← biased_shift (store a) count.isLt]
  simp [Machine.compute, Machine.setFlags, Machine.setReg, Machine.signExtendRax, bias, masked]

end Lines

theorem quotient_pick (l r : Word) :
    ((quotient l r).bind fun q => (remainder l r).map fun _ => q) = quotient l r := by
  unfold quotient remainder
  split <;> rfl

theorem remainder_pick (l r : Word) :
    ((quotient l r).bind fun _ => (remainder l r).map fun rem => rem) = remainder l r := by
  unfold quotient remainder
  split <;> rfl

theorem operandFor_temp (all : List CString) (n : Nat) :
    operandFor all (some (tempText n)) = .slot (slotOffset all (tempText n)) :=
  operandFor_var all id (.temp n)

theorem operandFor_user (all : List CString) (x : Ident) :
    operandFor all (some x.text) = .slot (slotOffset all x.text) :=
  operandFor_var all id (.user x)

theorem holds_difference (l r : Word) :
    let flags := Flags.of (l - r) (l.ssubOverflow r)
    SetOp.setl.holds flags = l.slt r ∧ SetOp.setg.holds flags = r.slt l ∧
      SetOp.sete.holds flags = (l == r) ∧ SetOp.setne.holds flags = (l != r) ∧
      SetOp.setle.holds flags = l.sle r ∧ SetOp.setge.holds flags = r.sle l := by
  have less := sub_sign_ne_overflow l r
  have equal := sub_eq_zero l r
  have greater : r.slt l = (!(l == r) && !l.slt r) := by
    rw [Bool.eq_iff_iff]
    simp only [BitVec.slt, Bool.and_eq_true, Bool.not_eq_true', beq_eq_false_iff_ne, ne_eq,
      decide_eq_true_eq, decide_eq_false_iff_not, ← BitVec.toInt_inj]
    omega
  have atLeast : r.sle l = !l.slt r := by
    rw [Bool.eq_iff_iff]
    simp only [BitVec.sle, BitVec.slt, Bool.not_eq_true', decide_eq_true_eq,
      decide_eq_false_iff_not]
    omega
  have sameSign : ((l - r).msb == l.ssubOverflow r) = !l.slt r := by
    rw [← less, bne, Bool.not_not]
  simp only [SetOp.holds, Flags.of, less, equal, sameSign, greater, atLeast, sle_eq l r]
  refine ⟨trivial, trivial, trivial, rfl, trivial, trivial⟩

theorem binaryLines_refines {names : List CString} {store : Store} {m : Machine}
    {a b dest : CString} (h : Holds names store m) (memA : a ∈ names) (memB : b ∈ names)
    (memD : dest ∈ names) (t : BinaryInstr) (count : CString) :
    Refines names m
      (execLines (binaryLines t.type count (.slot (slotOffset names a)) (.slot (slotOffset names b))
        (.slot (slotOffset names dest))) m)
      ((binaryResult t.type (store a) (store b)).map fun v =>
        (Function.update store dest v, .next)) := by
  obtain ⟨less, greater, equal, differ, atMost, atLeast⟩ := holds_difference (store a) (store b)
  cases t with
  | add => exact refines_arith h memA memB memD .addq
  | sub => exact refines_arith h memA memB memD .subq
  | mul => exact refines_arith h memA memB memD .imulq
  | and => exact refines_arith h memA memB memD .andq
  | or => exact refines_arith h memA memB memD .orq
  | div =>
    have done := refines_division h memA memB memD .rax Prod.fst fun _ _ => rfl
    rwa [quotient_pick] at done
  | mod =>
    have done := refines_division h memA memB memD .rdx Prod.snd fun _ _ => rfl
    rwa [remainder_pick] at done
  | les => exact refines_comparison h memA memB memD .setl less
  | grt => exact refines_comparison h memA memB memD .setg greater
  | eq => exact refines_comparison h memA memB memD .sete equal
  | neq => exact refines_comparison h memA memB memD .setne differ
  | leq => exact refines_comparison h memA memB memD .setle atMost
  | geq => exact refines_comparison h memA memB memD .setge atLeast

theorem refines_jmpf {names : List CString} {store : Store} {m : Machine} {a : CString}
    (h : Holds names store m) (memA : a ∈ names) (label : CString) :
    Refines names m
      (execLines [.movqToReg (.slot (slotOffset names a)) .rax, .testq, .jz (.label label)] m)
      (some (store, if store a = 0 then .jump label else .next)) := by
  rw [execLines_move (read_slot h ⟨rfl, rfl, rfl⟩ memA)]
  let tested := (m.setReg .rax (store a)).setFlags (.of (store a) false)
  have test : execLine .testq (m.setReg .rax (store a)) = some (tested, .next) := by
    simp [execLine, tested, Machine.setReg]
  have zeroFlag : tested.flags.zero = (store a == 0) := rfl
  rw [execLines_next test]
  refine ⟨tested, ?_, h.same ⟨rfl, rfl, rfl⟩, rfl, rfl⟩
  by_cases zero : store a = 0
  · rw [if_pos zero]
    exact execLines_jump (by simp [execLine, zeroFlag, zero, jumpTo])
  · rw [if_neg zero]
    have clear : tested.flags.zero = false := by rwa [zeroFlag, beq_eq_false_iff_ne]
    exact execLines_next (by simp [execLine, clear])

/-- The lines of an instruction that stays in its method. -/
theorem instrLines_refines {names : List CString} {ρ : Nat → Nat} {store : Store} {m : Machine}
    {i : IrInstr} (isLocal : i.isLocal = true) (seen : ∀ name ∈ i.slotNames ρ, name ∈ names)
    (h : Holds names store m) (code : List (Instr CString)) (k p s : Nat) :
    Refines names m (execLines (instrLines names code k (i.named ρ) p s) m) (i.effect ρ store) := by
  cases i with
  | load x => exact ⟨m, rfl, h, rfl, rfl⟩
  | label n => exact ⟨m, rfl, h, rfl, rfl⟩
  | jmp n => exact ⟨m, rfl, h, rfl, rfl⟩
  | loadval value dest =>
    simp only [IrInstr.slotNames, List.mem_singleton, forall_eq] at seen
    have value' := read_imm m value.toInt
    refine ⟨m.setMem (m.rbp + slotOffset names (tempText (ρ dest))) (value.signExtend 64), ?_,
      h.setMem seen _, rfl, rfl⟩
    simp only [instrLines, IrInstr.named, IrInstr.instr, Instr.map, Option.map_some, NamePtr.text,
      tempHeap, operandFor_temp, operandFor_number names (startsNumber_intText _)]
    rw [execLines_next (by rw [execLine, value']; rfl)]
    rfl
  | store source dest =>
    simp only [IrInstr.slotNames, List.mem_cons, List.not_mem_nil, or_false, forall_eq_or_imp,
      forall_eq] at seen
    simp only [instrLines, named_store, operandFor_var, operandFor_user]
    rw [execLines_move (read_slot h ⟨rfl, rfl, rfl⟩ seen.1)]
    refine refines_write h ?_ seen.2 ?_
    · exact ⟨rfl, rfl, rfl⟩
    · rfl
  | storeVal value dest =>
    simp only [IrInstr.slotNames, List.mem_singleton, forall_eq] at seen
    simp only [instrLines, IrInstr.named, IrInstr.instr, Instr.map, Option.map_some, NamePtr.text,
      operandFor_user, operandFor_number names (startsNumber_intText _)]
    rw [execLines_move (read_imm m value.toInt)]
    refine refines_write h ?_ seen ?_
    · exact ⟨rfl, rfl, rfl⟩
    · rfl
  | binary t left right dest =>
    simp only [IrInstr.slotNames, List.mem_cons, List.not_mem_nil, or_false, forall_eq_or_imp,
      forall_eq] at seen
    have done := binaryLines_refines h seen.1 seen.2.1 seen.2.2 t (right.name ρ)
    rw [← operandFor_var, ← operandFor_var, ← operandFor_temp] at done
    rw [named_binary]
    cases t <;> exact done
  | shiftRight left count dest =>
    simp only [IrInstr.slotNames, List.mem_cons, List.not_mem_nil, or_false, forall_eq_or_imp,
      forall_eq] at seen
    have done := refines_shiftRight h seen.1 seen.2 count
    rw [← operandFor_var, ← operandFor_temp,
      ← operandFor_number names (startsNumber_natText count)] at done
    rw [named_shiftRight]
    exact done
  | unary t left dest =>
    simp only [IrInstr.slotNames, List.mem_cons, List.not_mem_nil, or_false, forall_eq_or_imp,
      forall_eq] at seen
    rw [named_unary]
    cases t with
    | min =>
      have done := refines_min h seen.1 seen.2
      rwa [← operandFor_var, ← operandFor_temp] at done
    | neg =>
      have done := refines_neg h seen.1 seen.2
      rwa [← operandFor_var, ← operandFor_temp] at done
  | jmpf condition n =>
    simp only [IrInstr.slotNames, List.mem_singleton, forall_eq] at seen
    have done := refines_jmpf h seen (labelText n)
    rw [← operandFor_var] at done
    rw [named_jmpf]
    exact done
  | param _ | call _ _ | ret _ | enter _ | leave _ | externDecl _ => cases isLocal

/-- Every name with a slot in the map has its value there. -/
def SlotsHold (slots : List VarLocation) (store : Store) (m : Machine) : Prop :=
  ∀ name offset, findVar name slots = some offset → m.mem (m.rbp + offset) = store name

theorem slotsHold_iff {names : List CString} {store : Store} {m : Machine} :
    SlotsHold (slotsFrom 0 names) store m ↔ Holds names store m := by
  constructor
  · intro h name mem
    exact h name _ (by rw [findVar_slots, if_pos mem])
  · intro h name offset found
    rw [findVar_slots] at found
    split at found
    · next mem => exact Option.some.inj found ▸ h name mem
    · cases found

/-- The instructions the refinement is about. -/
def IsLocalType (t : InstrType) : Prop :=
  t ≠ .enter ∧ t ≠ .leave ∧ t ≠ .ret ∧ t ≠ .param ∧ t ≠ .call

theorem isLocal_of_inner {i : IrInstr} (inner : i.isInner = true)
    (isLocal : IsLocalType i.instr.instruct) : i.isLocal = true := by
  obtain ⟨-, -, ret, param, call⟩ := isLocal
  cases i with
  | ret _ => exact absurd rfl ret
  | param _ => exact absurd rfl param
  | call _ _ => exact absurd rfl call
  | enter _ | leave _ | externDecl _ => cases inner
  | _ => rfl

theorem Compiled.objectLines_refine {env : Env} (b : Compiled env) {e l i : Nat} {f : CString}
    (method : InMethod b.code e l f) (gt : e < i) (lt : i < l) {ir : IrInstr}
    (here : b.instrs[i]? = some ir) (isLocal : ir.isLocal = true) {store : Store} {m : Machine}
    (holds : SlotsHold (objectState b.tab b.headAst b.code l).varMap store m) :
    match ir.effect b.rename store with
    | none => execLines (objectLines b.tab b.headAst b.code i) m = none
    | some (store', flow) =>
      ∃ m', execLines (objectLines b.tab b.headAst b.code i) m = some (m', flow.control) ∧
        SlotsHold (objectState b.tab b.headAst b.code l).varMap store' m' ∧
        m'.rbp = m.rbp ∧ m'.rsp = m.rsp := by
  have inCode := b.code_of_instrs here
  obtain ⟨p, k, -, lines⟩ := objectLines_inside b.tab b.headAst method gt lt inCode
  obtain ⟨p', k', final⟩ := objectState_inside b.tab b.headAst method method.lt
    (Nat.le_refl l)
  rw [final, ObjState.frame] at holds ⊢
  rw [slotsHold_iff] at holds
  have seen : ∀ name ∈ ir.slotNames b.rename, name ∈ methodNames b.tab b.headAst b.code e f l := by
    intro name mem
    rw [← slotOperands_named] at mem
    exact slotOperands_subset method gt lt inCode mem
  have done := instrLines_refines isLocal seen holds b.code i p k
  rw [lines]
  cases effect : ir.effect b.rename store with
  | none => rwa [effect] at done
  | some result =>
    rw [effect] at done
    obtain ⟨m', run, holds', same⟩ := done
    exact ⟨m', run, slotsHold_iff.mpr holds', same⟩

theorem Compiled.slot_found {env : Env} (b : Compiled env) {e l i : Nat} {f : CString}
    (method : InMethod b.code e l f) (gt : e < i) (lt : i < l) {ir : IrInstr}
    (here : b.instrs[i]? = some ir) {name : CString} (asked : name ∈ ir.slotNames b.rename) :
    ∃ offset, findVar name (objectState b.tab b.headAst b.code l).varMap = some offset := by
  obtain ⟨p', k', final⟩ := objectState_inside b.tab b.headAst method method.lt
    (Nat.le_refl l)
  rw [← slotOperands_named] at asked
  have seen : name ∈ methodNames b.tab b.headAst b.code e f l :=
    slotOperands_subset method gt lt (b.code_of_instrs here) asked
  rw [final, ObjState.frame, findVar_slots, if_pos seen]
  exact ⟨_, rfl⟩

/-- The lines of an instruction do what the instruction does. The bound is the length of
the array `var_map`; the list of the model has none. -/
theorem object_code_refines {env : Env} (b : Compiled env) {e l i : Nat} {f : CString}
    (method : InMethod b.code e l f) (gt : e < i) (lt : i < l) {instr : Instr CString}
    (here : b.code[i]? = some instr) (isLocal : IsLocalType instr.instruct)
    {slots : List VarLocation} (map : slots = (objectState b.tab b.headAst b.code l).varMap)
    (_few : slots.length ≤ maxVarsPerFunction) {store : Store} {m : Machine}
    (holds : SlotsHold slots store m) :
    let lines := objectLines b.tab b.headAst b.code i
    Placed b.lines (lineStart b.tab b.headAst b.code i) lines ∧
      match irEffect instr store with
      | none => execLines lines m = none
      | some (store', flow) =>
        ∃ m', execLines lines m = some (m', flow.control) ∧ SlotsHold slots store' m' ∧
          m'.rbp = m.rbp ∧ m'.rsp = m.rsp := by
  obtain ⟨ir, atIr, rfl⟩ := b.code_getElem? here
  obtain ⟨s, start, stop, -⟩ := b.section_of_inMethod method
  have inner := (s.body_emits b.compilable.shape env ⟨0, 0⟩).inner _
    (s.mem_body (start ▸ gt) (stop ▸ lt) atIr)
  have isLocal' := isLocal_of_inner inner isLocal
  subst map
  refine ⟨objectLines_placed b.tab b.headAst (List.getElem?_eq_some_iff.mp here).1, ?_⟩
  rw [irEffect_named b.rename store isLocal']
  exact b.objectLines_refine method gt lt atIr isLocal' holds

/-- `integer x = 7; x = x - 2; return x;`. -/
def subtractFrom : ProgramSyn :=
  let x : Ident := .of "x"
  [.methodDecl ⟨1, some .integer, .of "main", [],
    some (.mk 1 [⟨2, .integer, x, some (.integerLiteral 2 7)⟩]
      (.cons (.assign 3 x (.binary 3 .minus (.id 3 x) (.integerLiteral 3 2)))
      (.cons (.returnExpr 4 (.id 4 x)) .nil)))⟩]

/-- The frame of `main` in front of the subtraction. -/
def beforeSub : Machine where
  reg _ := 0
  rsp := 968
  rbp := 1000
  mem a := if a = 984 then 7 else if a = 976 then 2 else 0
  flags := ⟨false, false, false⟩

/-- The lines of `x - 2` leave 5 in the slot of the third temporary. -/
theorem object_code_refines_sub :
    ∃ (b : Compiled (.sample false)) (m' : Machine), b.prog = subtractFrom ∧
      execLines (objectLines b.tab b.headAst b.code 5) beforeSub = some (m', .next) ∧
      m'.mem 968 = 5 := by
  obtain ⟨checked, accepted⟩ := isOk_iff.mp (by decide +kernel :
    (frontEnd (.sample false) subtractFrom).isOk = true)
  let b := Compiled.plain rfl accepted
  have facts : (frontEnd (.sample false) subtractFrom).toOption.map (fun c =>
        let code := namedCode tempText (intermediateCode (.sample false) c).code
        (code, (objectState c.tab c.headAst code 9).varMap)) =
      some ([⟨.enter, some "main".toList, none, none⟩,
        ⟨.loadval, some "7".toList, none, some (tempText 0)⟩,
        ⟨.store, some (tempText 0), none, some "x".toList⟩,
        ⟨.load, some "x".toList, none, none⟩,
        ⟨.loadval, some "2".toList, none, some (tempText 1)⟩,
        ⟨.sub, some "x".toList, some (tempText 1), some (tempText 2)⟩,
        ⟨.store, some (tempText 2), none, some "x".toList⟩,
        ⟨.load, some "x".toList, none, none⟩,
        ⟨.ret, some "x".toList, none, none⟩,
        ⟨.leave, some "main".toList, none, none⟩],
        slotsFrom 0 [tempText 0, "x".toList, tempText 1, tempText 2]) := by decide +kernel
  rw [accepted] at facts
  simp only [Except.toOption, Option.map_some, Option.some.injEq, Prod.mk.injEq] at facts
  obtain ⟨code, map⟩ := facts
  have code' : b.code = _ := code
  have method : InMethod b.code 0 9 "main".toList := by
    rw [code']
    exact inMethod_of_range (by decide) rfl rfl (by decide)
  let store : Store := fun name =>
    if name = "x".toList then 7 else if name = tempText 1 then 2 else 0
  have done := (object_code_refines b method (i := 5) (by decide) (by decide) (by rw [code']; rfl)
    (by simp [IsLocalType]) (map.symm.trans rfl) (by decide)
    (slotsHold_iff.mpr (by unfold Holds; decide) : SlotsHold _ store beforeSub)).2
  obtain ⟨m', run, holds, rbp, -⟩ := done
  have result := holds (tempText 2) (-32) rfl
  rw [rbp] at result
  refine ⟨b, m', rfl, run, result.trans ?_⟩
  decide

end Ctds
