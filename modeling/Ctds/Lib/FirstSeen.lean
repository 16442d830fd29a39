import Mathlib.Data.List.Dedup
import Mathlib.Data.List.Infix

/-! Lists that collect values in the order in which they are first seen. What is collected
stays where it is, so positions are stable and distinct values have distinct positions. -/

namespace Ctds.FirstSeen

universe u
variable {α : Type u} [DecidableEq α]

def see (seen : List α) (a : α) : List α := if a ∈ seen then seen else seen ++ [a]

def seeAll (seen : List α) (values : List α) : List α := values.foldl see seen

theorem prefix_see (seen : List α) (a : α) : seen <+: see seen a := by
  unfold see
  split
  · exact List.prefix_rfl
  · exact List.prefix_append seen [a]

theorem prefix_seeAll (seen values : List α) : seen <+: seeAll seen values := by
  induction values generalizing seen with
  | nil => exact List.prefix_rfl
  | cons a rest ih => exact (prefix_see seen a).trans (ih (see seen a))

theorem mem_see {seen : List α} {a b : α} : b ∈ see seen a ↔ b ∈ seen ∨ b = a := by
  unfold see
  split
  · next known =>
    refine ⟨.inl, fun h => ?_⟩
    rcases h with mem | rfl
    · exact mem
    · exact known
  · rw [List.mem_append, List.mem_singleton]

theorem mem_seeAll {seen values : List α} {b : α} :
    b ∈ seeAll seen values ↔ b ∈ seen ∨ b ∈ values := by
  induction values generalizing seen with
  | nil => simp [seeAll]
  | cons a rest ih =>
    rw [seeAll, List.foldl_cons, ← seeAll, ih, mem_see, List.mem_cons, or_assoc]

theorem nodup_see {seen : List α} (h : seen.Nodup) (a : α) : (see seen a).Nodup := by
  unfold see
  split
  · exact h
  · next new =>
    refine List.nodup_append.mpr ⟨h, List.nodup_singleton a, fun b mem c same => ?_⟩
    rintro rfl
    exact new (List.mem_singleton.mp same ▸ mem)

theorem nodup_seeAll {seen : List α} (h : seen.Nodup) (values : List α) :
    (seeAll seen values).Nodup := by
  induction values generalizing seen with
  | nil => exact h
  | cons a rest ih => exact ih (nodup_see h a)

theorem seeAll_append (seen values more : List α) :
    seeAll seen (values ++ more) = seeAll (seeAll seen values) more := List.foldl_append

theorem length_seeAll (values : List α) : (seeAll [] values).length = values.dedup.length := by
  have perm : (seeAll [] values).Perm values.dedup :=
    (List.perm_ext_iff_of_nodup (nodup_seeAll List.nodup_nil values) (List.nodup_dedup values)).mpr
      fun b => by simp [mem_seeAll]
  exact perm.length_eq

def position (seen : List α) (a : α) : Nat := seen.idxOf a

theorem position_cons (a b : α) (rest : List α) :
    position (a :: rest) b = if a = b then 0 else position rest b + 1 := by
  unfold position
  by_cases same : a = b
  · simp [same]
  · rw [List.idxOf_cons_ne rest same, if_neg same]

theorem position_lt {seen : List α} {a : α} (mem : a ∈ seen) : position seen a < seen.length :=
  List.idxOf_lt_length_iff.mpr mem

theorem position_append {seen : List α} {a : α} (mem : a ∈ seen) (more : List α) :
    position (seen ++ more) a = position seen a := List.idxOf_append_of_mem mem

theorem position_new {seen : List α} {a : α} (new : a ∉ seen) :
    position (seen ++ [a]) a = seen.length := by
  unfold position
  rw [List.idxOf_append_of_notMem new]
  simp

theorem position_initial {seen more : List α} (h : seen <+: more) {a : α} (mem : a ∈ seen) :
    position more a = position seen a := by
  obtain ⟨rest, rfl⟩ := h
  exact position_append mem rest

theorem position_inj {seen : List α} {a b : α} (mem : a ∈ seen)
    (same : position seen a = position seen b) : a = b := (List.idxOf_inj mem).mp same

theorem position_getElem? {seen : List α} (nodup : seen.Nodup) {a : α} {k : Nat}
    (here : seen[k]? = some a) : position seen a = k := by
  obtain ⟨lt, rfl⟩ := List.getElem?_eq_some_iff.mp here
  exact nodup.idxOf_getElem k lt

end Ctds.FirstSeen
