import Mathlib.Data.List.Infix
import Mathlib.Data.Nat.Find

/-! Texts that stop at the first occurrence of a terminator, and where that occurrence is. -/

namespace Ctds

universe u
variable {α : Type u} {pat w : List α}

/-- The text ends in the terminator and holds it nowhere else. -/
def OnlyAtEnd (pat w : List α) : Prop :=
  pat <:+ w ∧ ∀ k, pat <+: w.drop k → k + pat.length = w.length

theorem onlyAtEnd_cons {a : α} (not : ¬ pat <+: a :: w) :
    OnlyAtEnd pat (a :: w) ↔ OnlyAtEnd pat w := by
  have suffix : pat <:+ a :: w ↔ pat <:+ w := by
    rw [List.suffix_cons_iff, or_iff_right]
    rintro rfl
    exact not (List.prefix_refl _)
  rw [OnlyAtEnd, OnlyAtEnd, suffix]
  refine and_congr_right fun _ => ⟨fun all k here => ?_, fun all k here => ?_⟩
  · have := all (k + 1) here
    rw [List.length_cons] at this
    omega
  · cases k with
    | zero => exact absurd here not
    | succ k =>
      have := all k here
      rw [List.length_cons]
      omega

theorem onlyAtEnd_append (nonempty : pat ≠ []) : OnlyAtEnd pat (pat ++ w) ↔ w = [] := by
  constructor
  · rintro ⟨-, all⟩
    have zero := all 0 (List.prefix_append pat w)
    rw [List.length_append] at zero
    exact List.length_eq_zero_iff.mp (by omega)
  · rintro rfl
    rw [List.append_nil]
    refine ⟨List.suffix_refl pat, fun k here => ?_⟩
    have le := here.length_le
    have pos := List.length_pos_iff.mpr nonempty
    rw [List.length_drop] at le
    omega

theorem not_onlyAtEnd_nil (nonempty : pat ≠ []) : ¬ OnlyAtEnd pat [] :=
  fun h => nonempty (List.suffix_nil.mp h.1)

/-- The first occurrence of the terminator is behind `k` letters. -/
structure FirstAt (pat w : List α) (k : Nat) : Prop where
  here : pat <+: w.drop k
  first : ∀ j < k, ¬ pat <+: w.drop j

theorem FirstAt.unique {k k' : Nat} (h : FirstAt pat w k) (h' : FirstAt pat w k') : k = k' := by
  rcases Nat.lt_trichotomy k k' with lt | same | gt
  · exact absurd h.here (h'.first k lt)
  · exact same
  · exact absurd h'.here (h.first k' gt)

theorem FirstAt.le_length {k : Nat} (h : FirstAt pat w k) (nonempty : pat ≠ []) :
    k + pat.length ≤ w.length := by
  have le := h.here.length_le
  have pos := List.length_pos_iff.mpr nonempty
  rw [List.length_drop] at le
  omega

theorem infix_iff_firstAt : pat <:+: w ↔ ∃ k, FirstAt pat w k := by
  constructor
  · rintro ⟨u, v, rfl⟩
    have found : ∃ k, pat <+: (u ++ pat ++ v).drop k :=
      ⟨u.length, by rw [List.append_assoc, List.drop_left]; exact List.prefix_append pat v⟩
    classical
    exact ⟨Nat.find found, Nat.find_spec found, fun j lt => Nat.find_min found lt⟩
  · rintro ⟨k, h⟩
    exact h.here.isInfix.trans (List.drop_suffix k w).isInfix

theorem prefix_drop_take {m j : Nat} :
    pat <+: (w.take m).drop j ↔ pat <+: w.drop j ∧ pat.length ≤ m - j := by
  rw [List.drop_take, List.prefix_take_iff]

theorem onlyAtEnd_take_iff (nonempty : pat ≠ []) {m : Nat} (le : m ≤ w.length) :
    OnlyAtEnd pat (w.take m) ↔ ∃ k, FirstAt pat w k ∧ m = k + pat.length := by
  have pos := List.length_pos_iff.mpr nonempty
  have length : (w.take m).length = m := List.length_take_of_le le
  constructor
  · rintro ⟨⟨u, eq⟩, all⟩
    have size : u.length + pat.length = m := by rw [← length, ← eq, List.length_append]
    have last : pat <+: (w.take m).drop u.length := by
      rw [← eq, List.drop_left]
    refine ⟨u.length, ⟨(prefix_drop_take.mp last).1, fun j lt before => ?_⟩, size.symm⟩
    have := all j (prefix_drop_take.mpr ⟨before, by omega⟩)
    omega
  · rintro ⟨k, first, rfl⟩
    have last : pat <+: (w.take (k + pat.length)).drop k :=
      prefix_drop_take.mpr ⟨first.here, by omega⟩
    refine ⟨?_, fun j there => ?_⟩
    · have same : pat = (w.take (k + pat.length)).drop k :=
        last.eq_of_length (by rw [List.length_drop, length, Nat.add_sub_cancel_left])
      have suffix := List.drop_suffix k (w.take (k + pat.length))
      rwa [← same] at suffix
    · obtain ⟨inside, room⟩ := prefix_drop_take.mp there
      have notBefore : ¬ j < k := fun lt => first.first j lt inside
      omega

end Ctds
