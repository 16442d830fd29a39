import Mathlib.Logic.Function.Basic
import Mathlib.Data.List.Basic

/-! Names that are given again. Keys occur in a sequence; a key gets its name when it first
occurs, and may get one that other keys have had, if none of them occurs any more. Two
keys then never share a name while both still occur. -/

namespace Ctds.NameReuse

/-- The keys first occur in their order, from the first number up to the last. -/
def InOrder : Nat → List Nat → Nat → Prop
  | k, [], u => k = u
  | k, n :: rest, u => if n < k then InOrder k rest u else n = k ∧ InOrder (k + 1) rest u

/-- A key that first occurs has another name than the earlier ones that occur later. -/
def Separated (ρ : Nat → Nat) : Nat → List Nat → Prop
  | _, [] => True
  | k, n :: rest =>
    if n < k then Separated ρ k rest
    else (∀ a < k, a ∈ rest → ρ a ≠ ρ k) ∧ Separated ρ (k + 1) rest

/-- Names given along a sequence, when the keys below the number have theirs. -/
inductive Gives : Nat → (Nat → Nat) → List Nat → (Nat → Nat) → Prop where
  | nil (k : Nat) (ρ : Nat → Nat) : Gives k ρ [] ρ
  | again {k n : Nat} {ρ ρ' : Nat → Nat} {rest : List Nat} :
    n < k → Gives k ρ rest ρ' → Gives k ρ (n :: rest) ρ'
  | give {k name : Nat} {ρ ρ' : Nat → Nat} {rest : List Nat} :
    (∀ a < k, a ∈ rest → ρ a ≠ name) → Gives (k + 1) (Function.update ρ k name) rest ρ' →
      Gives k ρ (k :: rest) ρ'

/-- Each key gets the least name that no earlier key still needs. -/
inductive FirstFit : Nat → (Nat → Nat) → List Nat → (Nat → Nat) → Prop where
  | nil (k : Nat) (ρ : Nat → Nat) : FirstFit k ρ [] ρ
  | again {k n : Nat} {ρ ρ' : Nat → Nat} {rest : List Nat} :
    n < k → FirstFit k ρ rest ρ' → FirstFit k ρ (n :: rest) ρ'
  | give {k name : Nat} {ρ ρ' : Nat → Nat} {rest : List Nat} :
    (∀ a < k, a ∈ rest → ρ a ≠ name) → (∀ i < name, ∃ a < k, a ∈ rest ∧ ρ a = i) →
      FirstFit (k + 1) (Function.update ρ k name) rest ρ' → FirstFit k ρ (k :: rest) ρ'

theorem InOrder.le {k u : Nat} {occ : List Nat} (h : InOrder k occ u) : k ≤ u := by
  induction occ generalizing k with
  | nil => exact Nat.le_of_eq h
  | cons n rest ih =>
    rw [InOrder] at h
    split at h
    · exact ih h
    · exact Nat.le_of_succ_le (ih h.2)

theorem InOrder.append {k u v : Nat} {occ occ' : List Nat} (h : InOrder k occ u)
    (h' : InOrder u occ' v) : InOrder k (occ ++ occ') v := by
  induction occ generalizing k with
  | nil =>
    obtain rfl : k = u := h
    exact h'
  | cons n rest ih =>
    rw [List.cons_append, InOrder]
    rw [InOrder] at h
    split at h
    · next old => rw [if_pos old]; exact ih h
    · next new => rw [if_neg new]; exact ⟨h.1, ih h.2⟩

theorem InOrder.split {k v : Nat} {occ occ' : List Nat} (h : InOrder k (occ ++ occ') v) :
    ∃ u, InOrder k occ u ∧ InOrder u occ' v := by
  induction occ generalizing k with
  | nil => exact ⟨k, rfl, h⟩
  | cons n rest ih =>
    rw [List.cons_append, InOrder] at h
    split at h
    · next old =>
      obtain ⟨u, first, second⟩ := ih h
      exact ⟨u, by rw [InOrder, if_pos old]; exact first, second⟩
    · next new =>
      obtain ⟨u, first, second⟩ := ih h.2
      exact ⟨u, by rw [InOrder, if_neg new]; exact ⟨h.1, first⟩, second⟩

theorem InOrder.old {k : Nat} {occ : List Nat} (h : ∀ n ∈ occ, n < k) : InOrder k occ k := by
  induction occ with
  | nil => exact rfl
  | cons n rest ih =>
    rw [InOrder, if_pos (h n List.mem_cons_self)]
    exact ih fun m mem => h m (List.mem_cons_of_mem n mem)

theorem InOrder.one (k : Nat) : InOrder k [k] (k + 1) := by
  rw [InOrder, if_neg (Nat.lt_irrefl k)]
  exact ⟨rfl, rfl⟩

theorem InOrder.mem {k u n : Nat} {occ : List Nat} (h : InOrder k occ u) (ge : k ≤ n)
    (lt : n < u) : n ∈ occ := by
  induction occ generalizing k with
  | nil =>
    obtain rfl : k = u := h
    omega
  | cons m rest ih =>
    rw [InOrder] at h
    split at h
    · exact List.mem_cons_of_mem m (ih h ge)
    · obtain ⟨rfl, later⟩ := h
      by_cases same : n = m
      · exact same ▸ List.mem_cons_self
      · exact List.mem_cons_of_mem m (ih later (by omega))

theorem InOrder.lt {k u n : Nat} {occ : List Nat} (h : InOrder k occ u) (mem : n ∈ occ) :
    n < u := by
  induction occ generalizing k with
  | nil => cases mem
  | cons m rest ih =>
    rw [InOrder] at h
    split at h
    · next old =>
      rcases List.mem_cons.mp mem with rfl | mem
      · exact Nat.lt_of_lt_of_le old h.le
      · exact ih h mem
    · obtain ⟨rfl, later⟩ := h
      rcases List.mem_cons.mp mem with rfl | mem
      · exact later.le
      · exact ih later mem

theorem Separated.append {ρ : Nat → Nat} {k u : Nat} {occ occ' : List Nat}
    (order : InOrder k occ u) (h : Separated ρ k (occ ++ occ')) : Separated ρ u occ' := by
  induction occ generalizing k with
  | nil =>
    obtain rfl : k = u := order
    exact h
  | cons n rest ih =>
    rw [List.cons_append, Separated] at h
    rw [InOrder] at order
    split at order
    · next old => rw [if_pos old] at h; exact ih order h
    · next new => rw [if_neg new] at h; exact ih order.2 h.2

theorem separated_id (k : Nat) (occ : List Nat) : Separated id k occ := by
  induction occ generalizing k with
  | nil => trivial
  | cons n rest ih =>
    rw [Separated]
    split
    · exact ih k
    · exact ⟨fun a lt _ => Nat.ne_of_lt lt, ih (k + 1)⟩

theorem Separated.first {ρ : Nat → Nat} {k : Nat} {rest : List Nat}
    (h : Separated ρ k (k :: rest)) {a : Nat} (lt : a < k) (mem : a ∈ rest) : ρ a ≠ ρ k := by
  rw [Separated, if_neg (Nat.lt_irrefl k)] at h
  exact h.1 a lt mem

namespace Gives

variable {k : Nat} {ρ ρ' : Nat → Nat} {occ : List Nat}

theorem keeps (h : Gives k ρ occ ρ') {a : Nat} (lt : a < k) : ρ' a = ρ a := by
  induction h with
  | nil => rfl
  | again _ _ ih => exact ih lt
  | give _ _ ih =>
    rw [ih (Nat.lt_succ_of_lt lt)]
    exact Function.update_of_ne (Nat.ne_of_lt lt) _ _

theorem separated (h : Gives k ρ occ ρ') : Separated ρ' k occ := by
  induction h with
  | nil => trivial
  | again old _ ih =>
    rw [Separated, if_pos old]
    exact ih
  | @give k name ρ ρ' rest free later ih =>
    rw [Separated, if_neg (Nat.lt_irrefl k)]
    refine ⟨fun a lt mem => ?_, ih⟩
    rw [later.keeps (Nat.lt_succ_of_lt lt), later.keeps (Nat.lt_succ_self k),
      Function.update_of_ne (Nat.ne_of_lt lt), Function.update_self]
    exact free a lt mem

end Gives

theorem FirstFit.gives {k : Nat} {ρ ρ' : Nat → Nat} {occ : List Nat} (h : FirstFit k ρ occ ρ') :
    Gives k ρ occ ρ' := by
  induction h with
  | nil k ρ => exact .nil k ρ
  | again old _ ih => exact .again old ih
  | give free _ _ ih => exact .give free ih

end Ctds.NameReuse
