import Ctds.Codegen
import Ctds.Lib.Placed
import Ctds.Lib.Transition
import Ctds.Source

/-! The intermediate code as a machine: a store of words keyed by the names in the
instructions, the arguments collected by PARAM for the next CALL, and the events so far.
LOAD and LABEL do nothing; AND and OR are bitwise; a run stops at RET and LEAVE. -/

namespace Ctds

open Word Decimal

/-- Where an instruction passes control. -/
inductive Flow where
  | next
  | jump (label : CString)
deriving DecidableEq

def operandValue (store : Store) (name : CString) : Word :=
  if startsNumber name then BitVec.ofInt 64 (intValue name) else store name

/-- Division by `2 ^ k`, rounded towards zero. -/
def shiftedQuotient (l : Word) (k : Nat) : Word := BitVec.ofInt 64 (l.toInt.tdiv (2 ^ k))

def binaryResult (t : InstrType) (l r : Word) : Option Word :=
  match t with
  | .add => some (l + r)
  | .sub => some (l - r)
  | .mul => some (l * r)
  | .div => quotient l r
  | .mod => remainder l r
  | .les => some (ofBool (l.slt r))
  | .grt => some (ofBool (r.slt l))
  | .eq => some (ofBool (l == r))
  | .neq => some (ofBool (l != r))
  | .leq => some (ofBool (l.sle r))
  | .geq => some (ofBool (r.sle l))
  | .and => some (l &&& r)
  | .or => some (l ||| r)
  | .shiftRight => some (shiftedQuotient l r.toNat)
  | _ => none

def unaryResult (t : InstrType) (v : Word) : Option Word :=
  match t with
  | .loadval | .store => some v
  | .min => some (-v)
  | .neg => some (ofBool (v == 0))
  | _ => none

/-- The effect of an instruction other than ENTER, LEAVE, RET, PARAM and CALL. -/
def irEffect (instr : Instr CString) (store : Store) : Option (Store × Flow) :=
  match instr with
  | ⟨.load, _, _, _⟩ | ⟨.label, _, _, _⟩ => some (store, .next)
  | ⟨.jmp, some label, _, _⟩ => some (store, .jump label)
  | ⟨.jmpf, some condition, _, some label⟩ =>
    some (store, if operandValue store condition = 0 then .jump label else .next)
  | ⟨t, some l, some r, some dest⟩ =>
    (binaryResult t (operandValue store l) (operandValue store r)).map fun v =>
      (Function.update store dest v, .next)
  | ⟨t, some l, none, some dest⟩ =>
    (unaryResult t (operandValue store l)).map fun v => (Function.update store dest v, .next)
  | _ => none

structure IrState where
  pc : Nat
  store : Store
  pending : List Word
  events : List Event

/-- The first LABEL of this name. -/
def labelIndex (code : List (Instr CString)) (label : CString) : Option Nat :=
  code.findIdx? fun i => decide (i.instruct = .label ∧ i.var1 = some label)

def flowTarget (code : List (Instr CString)) (pc : Nat) : Flow → Option Nat
  | .next => some (pc + 1)
  | .jump label => labelIndex code label

/-- Only STORE writes a variable of the program. -/
def storeEvents (instr : Instr CString) (store : Store) : List Event :=
  match instr with
  | ⟨.store, some source, _, some dest⟩ => [.assign dest (operandValue store source)]
  | _ => []

def irStep (code : List (Instr CString)) (oracle : Oracle) (s : IrState) : Option IrState :=
  match code[s.pc]? with
  | none => none
  | some ⟨.enter, _, _, _⟩ | some ⟨.leave, _, _, _⟩ | some ⟨.ret, _, _, _⟩ => none
  | some ⟨.param, some arg, _, _⟩ =>
    some { s with pc := s.pc + 1, pending := s.pending ++ [operandValue s.store arg] }
  | some ⟨.call, some name, _, some dest⟩ =>
    some ⟨s.pc + 1, Function.update s.store dest (oracle s.events name s.pending), [],
      s.events ++ [.call name s.pending]⟩
  | some instr => do
    let (store, flow) ← irEffect instr s.store
    let pc ← flowTarget code s.pc flow
    return ⟨pc, store, s.pending, s.events ++ storeEvents instr s.store⟩

/-- How a run that stopped has left the method. -/
def irResult (code : List (Instr CString)) (s : IrState) : Option Completion :=
  match code[s.pc]? with
  | some ⟨.leave, _, _, _⟩ => some .normal
  | some ⟨.ret, value, _, _⟩ => some (.returned (value.map (operandValue s.store)))
  | _ => none

/-- The name of a variable when the n-th temporary's string reads `$T(ρ n)`. -/
def Var.name (ρ : Nat → Nat) : Var → CString
  | temp n => tempText (ρ n)
  | user x => x.text

def tempHeap (ρ : Nat → Nat) (n : Nat) : CString := tempText (ρ n)

def IrInstr.named (ρ : Nat → Nat) (i : IrInstr) : Instr CString :=
  i.instr.map (NamePtr.text (tempHeap ρ))

theorem labelText_inj {n k : Nat} (same : labelText n = labelText k) : n = k := by
  have texts : natText n = natText k := (List.cons.inj (List.cons.inj same).2).2
  exact natText_injective texts

theorem tempText_inj {n k : Nat} (same : tempText n = tempText k) : n = k := by
  have texts : natText n = natText k := (List.cons.inj (List.cons.inj same).2).2
  exact natText_injective texts

theorem startsWith_ident {c : Char} (notAlpha : c.isAlpha = false) (x : Ident) :
    startsWith c x.text = false := by
  obtain ⟨d, ds, eq, alpha⟩ := x.text_cons
  rw [eq]
  simp only [startsWith, List.head?_cons, beq_eq_false_iff_ne, ne_eq, Option.some.injEq]
  rintro rfl
  rw [notAlpha] at alpha
  cases alpha

theorem startsWith_number {c : Char} (notDigit : c.isDigit = false) (notMinus : c ≠ '-')
    {text : CString} (number : startsNumber text = true) : startsWith c text = false := by
  cases text with
  | nil => rfl
  | cons d ds =>
    simp only [startsWith, List.head?_cons, beq_eq_false_iff_ne, ne_eq, Option.some.injEq]
    rintro rfl
    rw [startsNumber_eq_false notDigit notMinus] at number
    cases number

theorem tempText_ne_ident (n : Nat) (x : Ident) : tempText n ≠ x.text := by
  intro same
  have first := startsWith_ident (c := '$') (by decide) x
  rw [← same] at first
  cases first

theorem Var.ptr_text (ρ : Nat → Nat) (x : Var) : x.ptr.text (tempHeap ρ) = x.name ρ := by
  cases x <;> rfl

theorem startsNumber_ident (x : Ident) : startsNumber x.text = false := by
  obtain ⟨c, cs, eq, alpha⟩ := x.text_cons
  rw [eq]
  refine startsNumber_eq_false ?_ ?_
  · by_contra digit
    change (decide (c.val ≥ 'A'.val ∧ c.val ≤ 'Z'.val) ||
      (decide (c.val ≥ 'a'.val) && decide (c.val ≤ 'z'.val))) = true at alpha
    rw [Bool.not_eq_false, Char.isDigit_iff_toNat] at digit
    simp only [Bool.or_eq_true, Bool.and_eq_true, decide_eq_true_eq, UInt32.le_iff_toNat_le,
      ge_iff_le] at alpha
    have upper : 'A'.val.toNat = 65 := rfl
    have lower : 'a'.val.toNat = 97 := rfl
    have nine : '9'.toNat = 57 := rfl
    have same : c.toNat = c.val.toNat := rfl
    omega
  · rintro rfl
    revert alpha
    decide

theorem startsNumber_tempText (n : Nat) : startsNumber (tempText n) = false :=
  startsNumber_eq_false (by decide) (by decide)

theorem operandValue_var (store : Store) (ρ : Nat → Nat) (x : Var) :
    operandValue store (x.name ρ) = store (x.name ρ) := by
  unfold operandValue
  cases x with
  | temp n => rw [Var.name, startsNumber_tempText]; rfl
  | user x => rw [Var.name, startsNumber_ident]; rfl

theorem operandValue_int (store : Store) (v : BitVec 32) :
    operandValue store (intText v.toInt) = v.signExtend 64 := by
  simp [operandValue, BitVec.signExtend]

theorem operandValue_nat (store : Store) (n : Nat) :
    operandValue store (natText n) = BitVec.ofNat 64 n := by
  simp [operandValue, intValue_natText]

/-- `irEffect` on an emitted instruction. -/
def IrInstr.effect (ρ : Nat → Nat) (store : Store) : IrInstr → Option (Store × Flow)
  | load _ | label _ => some (store, .next)
  | loadval value dest =>
    some (Function.update store (tempText (ρ dest)) (value.signExtend 64), .next)
  | .store source dest => some (Function.update store dest.text (store (source.name ρ)), .next)
  | storeVal value dest => some (Function.update store dest.text (value.signExtend 64), .next)
  | binary t left right dest =>
    (binaryResult t.type (store (left.name ρ)) (store (right.name ρ))).map fun v =>
      (Function.update store (tempText (ρ dest)) v, .next)
  | shiftRight left count dest =>
    some (Function.update store (tempText (ρ dest)) (shiftedQuotient (store (left.name ρ)) count),
      .next)
  | unary t left dest =>
    (unaryResult t.type (store (left.name ρ))).map fun v =>
      (Function.update store (tempText (ρ dest)) v, .next)
  | jmp n => some (store, .jump (labelText n))
  | jmpf condition n =>
    some (store, if store (condition.name ρ) = 0 then .jump (labelText n) else .next)
  | _ => none

/-- The instructions that transfer control to or from another method. -/
def IrInstr.isLocal : IrInstr → Bool
  | param _ | call _ _ | ret _ | enter _ | leave _ | externDecl _ => false
  | _ => true

theorem irEffect_named (ρ : Nat → Nat) (store : Store) {i : IrInstr} (isLocal : i.isLocal = true) :
    irEffect (i.named ρ) store = i.effect ρ store := by
  cases i with
  | load x => rfl
  | loadval value dest =>
    exact congrArg (fun v => some (Function.update store (tempText (ρ dest)) v, Flow.next))
      (operandValue_int store value)
  | store source dest =>
    simp only [IrInstr.named, IrInstr.instr, Instr.map, Option.map_some, Option.map_none,
      Var.ptr_text, irEffect, operandValue_var]
    rfl
  | storeVal value dest =>
    exact congrArg (fun v => some (Function.update store dest.text v, Flow.next))
      (operandValue_int store value)
  | binary t left right dest =>
    simp only [IrInstr.named, IrInstr.instr, Instr.map, Option.map_some, Var.ptr_text]
    cases t <;> (simp only [BinaryInstr.type, irEffect, operandValue_var]; rfl)
  | shiftRight left count dest =>
    simp only [IrInstr.named, IrInstr.instr, Instr.map, Option.map_some, Var.ptr_text, irEffect,
      operandValue_var]
    have small : (operandValue store (natText count)).toNat = count := by
      rw [operandValue_nat, BitVec.toNat_ofNat]
      omega
    simp only [NamePtr.text, binaryResult, small]
    rfl
  | unary t left dest =>
    simp only [IrInstr.named, IrInstr.instr, Instr.map, Option.map_some, Option.map_none,
      Var.ptr_text]
    cases t <;> (simp only [UnaryInstr.type, irEffect, operandValue_var]; rfl)
  | label n => rfl
  | jmp n => rfl
  | jmpf condition n =>
    simp only [IrInstr.named, IrInstr.instr, Instr.map, Option.map_some, Option.map_none,
      Var.ptr_text, irEffect, operandValue_var]
    rfl
  | param _ | call _ _ | ret _ | enter _ | leave _ | externDecl _ => cases isLocal

/-- What a STORE adds to the events. -/
def IrInstr.assigned (ρ : Nat → Nat) (store : Store) : IrInstr → List Event
  | .store source dest => [.assign dest.text (store (source.name ρ))]
  | storeVal value dest => [.assign dest.text (value.signExtend 64)]
  | _ => []

theorem storeEvents_named (ρ : Nat → Nat) (store : Store) (i : IrInstr) :
    storeEvents (i.named ρ) store = i.assigned ρ store := by
  cases i with
  | store source dest =>
    simp only [IrInstr.named, IrInstr.instr, Instr.map, Option.map_some, Option.map_none,
      Var.ptr_text, storeEvents, operandValue_var]
    rfl
  | storeVal value dest =>
    exact congrArg (fun v => [Event.assign dest.text v]) (operandValue_int store value)
  | binary t left right dest => cases t <;> rfl
  | unary t left dest => cases t <;> rfl
  | _ => rfl

section Steps

variable {code : List (Instr CString)} (oracle : Oracle) {ρ : Nat → Nat} {s : IrState}

theorem irStep_local {i : IrInstr} (here : code[s.pc]? = some (i.named ρ))
    (isLocal : i.isLocal = true) :
    irStep code oracle s = (i.effect ρ s.store).bind fun (store, flow) =>
      (flowTarget code s.pc flow).map fun pc =>
        ⟨pc, store, s.pending, s.events ++ i.assigned ρ s.store⟩ := by
  have effect := irEffect_named ρ s.store isLocal
  have assigned := storeEvents_named ρ s.store i
  unfold irStep
  rw [here]
  cases i with
  | param _ | call _ _ | ret _ | enter _ | leave _ | externDecl _ => cases isLocal
  | binary t left right dest =>
    rw [← effect, ← assigned]
    cases t <;> simp [IrInstr.named, IrInstr.instr, Instr.map, BinaryInstr.type, Option.map_eq_bind]
  | unary t left dest =>
    rw [← effect, ← assigned]
    cases t <;> simp [IrInstr.named, IrInstr.instr, Instr.map, UnaryInstr.type, Option.map_eq_bind]
  | _ =>
    rw [← effect, ← assigned]
    simp [IrInstr.named, IrInstr.instr, Instr.map, Option.map_eq_bind]

theorem irStep_param {arg : Var} (here : code[s.pc]? = some ((IrInstr.param arg).named ρ)) :
    irStep code oracle s =
      some { s with pc := s.pc + 1, pending := s.pending ++ [s.store (arg.name ρ)] } := by
  unfold irStep
  rw [here]
  simp only [IrInstr.named, IrInstr.instr, Instr.map, Option.map_some, Option.map_none,
    Var.ptr_text, operandValue_var]

theorem irStep_call {name : Ident} {dest : Nat}
    (here : code[s.pc]? = some ((IrInstr.call name dest).named ρ)) :
    irStep code oracle s =
      some ⟨s.pc + 1, Function.update s.store (tempText (ρ dest))
        (oracle s.events name.text s.pending), [], s.events ++ [.call name.text s.pending]⟩ := by
  unfold irStep
  rw [here]
  rfl

theorem irStep_ret {value : Option Var} (here : code[s.pc]? = some ((IrInstr.ret value).named ρ)) :
    irStep code oracle s = none ∧
      irResult code s = some (.returned (value.map fun x => s.store (x.name ρ))) := by
  unfold irStep irResult
  rw [here]
  refine ⟨rfl, ?_⟩
  cases value with
  | none => rfl
  | some x =>
    simp only [IrInstr.named, IrInstr.instr, Instr.map, Option.map_some, Option.map_none,
      Var.ptr_text, operandValue_var]

theorem irStep_leave {name : Ident} (here : code[s.pc]? = some ((IrInstr.leave name).named ρ)) :
    irStep code oracle s = none ∧ irResult code s = some .normal := by
  unfold irStep irResult
  rw [here]
  exact ⟨rfl, rfl⟩

end Steps

end Ctds
