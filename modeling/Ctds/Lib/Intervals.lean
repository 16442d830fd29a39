import Mathlib.Data.Finset.Lattice.Fold
import Mathlib.Order.Lattice.Nat
import Ctds.Lib.NameReuse

/-! Keys in a sequence span the positions from their first occurrence to their last. Keys that
span one position need different names, so every naming uses as many names as the most crowded
position has keys. Giving each key the least name that no other still needs uses no more: the
smaller names are then all needed at that position. -/

namespace Ctds.Intervals

open NameReuse

variable {α β : Type} [DecidableEq α] [DecidableEq β]

/-- The keys that occur at the position or before, and at the position or behind. -/
def spanning (occ : List α) (p : Nat) : Finset α :=
  (occ.take (p + 1)).toFinset ∩ (occ.drop p).toFinset

/-- The largest number of keys that span one position. -/
def crowd (occ : List α) : Nat := (Finset.range occ.length).sup fun p => (spanning occ p).card

/-- Keys that span a common position have different names. -/
def Apart (ρ : α → β) (occ : List α) : Prop := ∀ p, Set.InjOn ρ (spanning occ p)

theorem mem_spanning {occ : List α} {p : Nat} {a : α} :
    a ∈ spanning occ p ↔ ∃ i j, i ≤ p ∧ p ≤ j ∧ occ[i]? = some a ∧ occ[j]? = some a := by
  rw [spanning, Finset.mem_inter, List.mem_toFinset, List.mem_toFinset, List.mem_iff_getElem?,
    List.mem_iff_getElem?]
  constructor
  · rintro ⟨⟨i, first⟩, j, last⟩
    rw [List.getElem?_take] at first
    split at first
    · next lt =>
      rw [List.getElem?_drop] at last
      exact ⟨i, p + j, Nat.le_of_lt_succ lt, Nat.le_add_right p j, first, last⟩
    · cases first
  · rintro ⟨i, j, le, ge, first, last⟩
    refine ⟨⟨i, ?_⟩, j - p, ?_⟩
    · rw [List.getElem?_take_of_lt (Nat.lt_succ_of_le le), first]
    · rw [List.getElem?_drop, Nat.add_sub_cancel' ge, last]

theorem toFinset_map (f : α → β) (occ : List α) : (occ.map f).toFinset = occ.toFinset.image f := by
  ext name
  simp

theorem spanning_subset (occ : List α) (p : Nat) : spanning occ p ⊆ occ.toFinset := by
  intro a mem
  obtain ⟨i, -, -, -, here, -⟩ := mem_spanning.mp mem
  exact List.mem_toFinset.mpr (List.mem_of_getElem? here)

theorem card_spanning_le (occ : List α) {p : Nat} (inside : p < occ.length) :
    (spanning occ p).card ≤ crowd occ :=
  Finset.le_sup (f := fun p => (spanning occ p).card) (Finset.mem_range.mpr inside)

theorem Apart.crowd_le {ρ : α → β} {occ : List α} (h : Apart ρ occ) :
    crowd occ ≤ (occ.map ρ).toFinset.card := by
  refine Finset.sup_le fun p _ => ?_
  rw [← Finset.card_image_of_injOn (h p), toFinset_map]
  exact Finset.card_le_card (Finset.image_subset_image (spanning_subset occ p))

theorem spanning_map {f : α → β} (inj : Function.Injective f) (occ : List α) (p : Nat) :
    spanning (occ.map f) p = (spanning occ p).image f := by
  rw [spanning, spanning, Finset.image_inter _ _ inj, ← toFinset_map, ← toFinset_map,
    List.map_take, List.map_drop]

theorem crowd_map {f : α → β} (inj : Function.Injective f) (occ : List α) :
    crowd (occ.map f) = crowd occ := by
  rw [crowd, crowd, List.length_map]
  refine Finset.sup_congr rfl fun p _ => ?_
  rw [spanning_map inj, Finset.card_image_of_injective _ inj]

theorem apart_map {γ : Type} {f : α → β} (inj : Function.Injective f) {ρ : β → γ} (occ : List α) :
    Apart ρ (occ.map f) ↔ Apart (ρ ∘ f) occ := by
  refine forall_congr' fun p => ?_
  rw [spanning_map inj, Finset.coe_image]
  constructor
  · intro h a memA b memB same
    exact inj (h (Set.mem_image_of_mem f memA) (Set.mem_image_of_mem f memB) same)
  · intro h
    apply Set.InjOn.image_of_comp h

theorem apart_of_separated {ρ : Nat → Nat} {occ : List Nat} {u : Nat} (h : Separated ρ 0 occ)
    (order : InOrder 0 occ u) : Apart ρ occ := by
  have differ : ∀ {p a b : Nat}, a < b → a ∈ spanning occ p → b ∈ spanning occ p → ρ a ≠ ρ b := by
    intro p a b lt memA memB
    obtain ⟨i, -, le, -, first, -⟩ := mem_spanning.mp memB
    obtain ⟨-, j, -, ge, -, last⟩ := mem_spanning.mp memA
    -- the first occurrence of the greater key
    obtain ⟨pre, post, rfl, new⟩ := List.eq_append_cons_of_mem (List.mem_of_getElem? first)
    have reached : pre.length ≤ i := by
      by_contra before
      rw [List.getElem?_append_left (Nat.lt_of_not_le before)] at first
      exact new (List.mem_of_getElem? first)
    have later : a ∈ post := by
      rw [List.getElem?_append_right (by omega), List.getElem?_cons] at last
      split at last
      · exact absurd (Option.some.inj last) (Nat.ne_of_gt lt)
      · exact List.mem_of_getElem? last
    obtain ⟨k, before, behind⟩ := order.split
    rw [InOrder] at behind
    split at behind
    · next old => exact absurd (before.mem (Nat.zero_le b) old) new
    · obtain ⟨rfl, -⟩ := behind
      exact (h.append before).first lt later
  intro p a memA b memB same
  rcases Nat.lt_trichotomy a b with lt | eq | gt
  · exact absurd same (differ lt memA memB)
  · exact eq
  · exact absurd same.symm (differ gt memB memA)

theorem firstFit_lt_crowd {k : Nat} {ρ ρ' : Nat → Nat} {rest : List Nat}
    (h : FirstFit k ρ rest ρ') (done : List Nat) (old : ∀ a < k, a ∈ done) {n : Nat} (new : k ≤ n)
    (mem : n ∈ rest) : ρ' n < crowd (done ++ rest) := by
  induction h generalizing done with
  | nil => cases mem
  | @again k m ρ ρ' rest lt later ih =>
    have inRest : n ∈ rest := (List.mem_cons.mp mem).resolve_left (by omega)
    have split : done ++ m :: rest = (done ++ [m]) ++ rest := by simp
    rw [split]
    exact ih (done ++ [m]) (fun a lt => List.mem_append_left _ (old a lt)) new inRest
  | @give k name ρ ρ' rest free least later ih =>
    by_cases same : n = k
    · subst same
      rw [later.gives.keeps (Nat.lt_succ_self n), Function.update_self]
      have inside : done.length < (done ++ n :: rest).length := by simp
      have here : spanning (done ++ n :: rest) done.length =
          (done ++ [n]).toFinset ∩ (n :: rest).toFinset := by
        rw [spanning, List.take_length_add_append, List.drop_left]
        rfl
      have own : n ∈ spanning (done ++ n :: rest) done.length := by simp [here]
      have needed : Finset.range name ⊆
          ((spanning (done ++ n :: rest) done.length).erase n).image ρ := by
        intro i mem
        obtain ⟨a, lt, inRest, rfl⟩ := least i (Finset.mem_range.mp mem)
        have spans : a ∈ spanning (done ++ n :: rest) done.length := by
          simp [here, old a lt, inRest]
        exact Finset.mem_image_of_mem ρ (Finset.mem_erase.mpr ⟨Nat.ne_of_lt lt, spans⟩)
      calc
        name = (Finset.range name).card := (Finset.card_range name).symm
        _ ≤ ((spanning (done ++ n :: rest) done.length).erase n).card :=
          (Finset.card_le_card needed).trans Finset.card_image_le
        _ < (spanning (done ++ n :: rest) done.length).card := Finset.card_erase_lt_of_mem own
        _ ≤ crowd (done ++ n :: rest) := card_spanning_le _ inside
    · have inRest : n ∈ rest := (List.mem_cons.mp mem).resolve_left same
      have split : done ++ k :: rest = (done ++ [k]) ++ rest := by simp
      rw [split]
      refine ih (done ++ [k]) (fun a lt => ?_) (by omega) inRest
      rcases Nat.lt_or_eq_of_le (Nat.le_of_lt_succ lt) with lt | rfl
      · exact List.mem_append_left _ (old a lt)
      · exact List.mem_append_right _ (List.mem_singleton_self _)

/-- Least names are as many as the keys of the most crowded position. -/
theorem firstFit_card {ρ ρ' : Nat → Nat} {occ : List Nat} {u : Nat} (h : FirstFit 0 ρ occ ρ')
    (order : InOrder 0 occ u) : (occ.map ρ').toFinset.card = crowd occ := by
  apply Nat.le_antisymm
  · have below : (occ.map ρ').toFinset ⊆ Finset.range (crowd occ) := by
      intro name mem
      rw [List.mem_toFinset, List.mem_map] at mem
      obtain ⟨n, here, rfl⟩ := mem
      exact Finset.mem_range.mpr (firstFit_lt_crowd h [] (by simp) (Nat.zero_le n) here)
    exact (Finset.card_le_card below).trans (Finset.card_range _).le
  · exact (apart_of_separated h.gives.separated order).crowd_le

end Ctds.Intervals
