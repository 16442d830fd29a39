import Ctds.IrSemantics
import Ctds.Temporaries

/-! An instruction and its copy with other numbers for the temporaries and for the labels. In
stores where the variables they read have the same values both do the same: they are stuck, or
go on, or jump, and what they write keeps the stores related. -/

namespace Ctds

def Var.rename (φ : Nat → Nat) : Var → Var
  | temp n => temp (φ n)
  | user x => user x

namespace IrInstr

/-- Other numbers for the temporaries and for the labels. -/
def rename (φ ψ : Nat → Nat) : IrInstr → IrInstr
  | load x => load x
  | loadval v dest => loadval v (φ dest)
  | .store source dest => .store (source.rename φ) dest
  | storeVal v dest => storeVal v dest
  | binary t l r dest => binary t (l.rename φ) (r.rename φ) (φ dest)
  | shiftRight l count dest => shiftRight (l.rename φ) count (φ dest)
  | unary t l dest => unary t (l.rename φ) (φ dest)
  | label n => label (ψ n)
  | jmp n => jmp (ψ n)
  | jmpf r n => jmpf (r.rename φ) (ψ n)
  | param arg => param (arg.rename φ)
  | call f dest => call f (φ dest)
  | ret value => ret (value.map (Var.rename φ))
  | enter f => enter f
  | leave f => leave f
  | externDecl f => externDecl f

def labels : IrInstr → List Nat
  | label n | jmp n | jmpf _ n => [n]
  | _ => []

/-- All temporaries taken so much later. -/
def shift (k : Nat) : IrInstr → IrInstr := rename (· + k) id

end IrInstr

theorem Var.rename_name (φ : Nat → Nat) (x : Var) : (x.rename φ).name id = x.name φ := by
  cases x <;> rfl

theorem rename_effect (φ : Nat → Nat) (store : Store) (i : IrInstr) :
    (i.rename φ id).effect id store = i.effect φ store := by
  cases i <;> simp only [IrInstr.rename, IrInstr.effect, Var.rename_name, id_eq]

theorem rename_assigned (φ : Nat → Nat) (store : Store) (i : IrInstr) :
    (i.rename φ id).assigned id store = i.assigned φ store := by
  cases i <;> simp only [IrInstr.rename, IrInstr.assigned, Var.rename_name]

/-- Two outcomes: both are stuck, or go on, or jump to labels that stand for each other. -/
inductive SameEffects (L : Option Nat → Nat → Prop) (target : Option Nat)
    (after : Store → Store → Prop) : Option (Store × Flow) → Option (Store × Flow) → Prop where
  | stuck : SameEffects L target after none none
  | next {store store' : Store} : after store store' →
    SameEffects L target after (some (store, .next)) (some (store', .next))
  | jump {store store' : Store} {n m : Nat} : after store store' → target = some n → L (some n) m →
    SameEffects L target after (some (store, .jump (labelText n)))
      (some (store', .jump (labelText m)))

namespace SameEffects

variable {L : Option Nat → Nat → Prop} {target : Option Nat} {after : Store → Store → Prop}

theorem result {store store' : Store} {d d' : Nat} (v : Option Word)
    (written : ∀ w, after (Function.update store (tempText d) w)
      (Function.update store' (tempText d') w)) :
    SameEffects L target after (v.map fun w => (Function.update store (tempText d) w, Flow.next))
      (v.map fun w => (Function.update store' (tempText d') w, Flow.next)) := by
  cases v with
  | none => exact .stuck
  | some w => exact .next (written w)

theorem rel {first second : Option (Store × Flow)}
    (h : SameEffects (fun o m => o = some m) target after first second) :
    Option.Rel (fun a b => a.2 = b.2 ∧ after a.1 b.1) first second := by
  cases h with
  | stuck => exact .none
  | next related => exact .some ⟨rfl, related⟩
  | jump related _ same =>
    obtain rfl := Option.some.inj same
    exact .some ⟨rfl, related⟩

end SameEffects

section Copy

variable {φ ψ : Nat → Nat} {i : IrInstr} {store store' : Store}
  (read : ∀ x : Var, (∀ n ∈ x.temps, n ∈ i.uses) →
      store (x.name id) = store' ((x.rename φ).name id))

include read

theorem assigned_renamed : i.assigned id store = (i.rename φ ψ).assigned id store' := by
  cases i with
  | store source x => rw [IrInstr.rename, IrInstr.assigned, IrInstr.assigned,
      read source fun n mem => mem]
  | _ => rfl

theorem effects_renamed {L : Option Nat → Nat → Prop} {after : Store → Store → Prop}
    (labelled : ∀ n, i.target? = some n → L (some n) (ψ n))
    (keep : i.dest? = none → after store store')
    (user : ∀ (x : Ident) v, i.dest? = none →
      after (Function.update store x.text v) (Function.update store' x.text v))
    (write : ∀ d, i.dest? = some d → ∀ v : Word,
      after (Function.update store (tempText d) v) (Function.update store' (tempText (φ d)) v)) :
    SameEffects L i.target? after (i.effect id store) ((i.rename φ ψ).effect id store') := by
  cases i with
  | load x | label n => exact .next (keep rfl)
  | jmp n => exact .jump (keep rfl) rfl (labelled n rfl)
  | loadval v d => exact .next (write d rfl _)
  | store source x =>
    rw [IrInstr.effect, read source fun n mem => mem]
    exact .next (user x _ rfl)
  | storeVal v x => exact .next (user x _ rfl)
  | binary t left right d =>
    rw [IrInstr.effect, IrInstr.rename, IrInstr.effect,
      read left fun n mem => List.mem_append_left _ mem,
      read right fun n mem => List.mem_append_right _ mem]
    exact .result _ (write d rfl)
  | shiftRight left count d =>
    rw [IrInstr.effect, IrInstr.rename, IrInstr.effect, read left fun n mem => mem]
    exact .next (write d rfl _)
  | unary t left d =>
    rw [IrInstr.effect, IrInstr.rename, IrInstr.effect, read left fun n mem => mem]
    exact .result _ (write d rfl)
  | jmpf condition n =>
    rw [IrInstr.effect, IrInstr.rename, IrInstr.effect, read condition fun n mem => mem]
    split
    · exact .jump (keep rfl) rfl (labelled n rfl)
    · exact .next (keep rfl)
  | param _ | call _ _ | ret _ | enter _ | leave _ | externDecl _ => exact .stuck

end Copy

end Ctds
