import Mathlib.Algebra.Order.Group.Multiset
import Mathlib.Data.Multiset.Count

/-! Values that are read once. A sequence of steps writes values and reads them; what has
been written and not read yet is carried along, and nothing is carried over a bar. Where
no value is written twice, each is then read at most once, behind the step that writes it
and in front of the next bar. -/

namespace Ctds

universe u v

section ReadOnce

variable {α : Type u} {β : Type v} (reads writes : α → List β) (Bar : α → Prop)

/-- Steps that take the first values along and leave the last ones; any may be dropped. -/
inductive ReadOnce : Multiset β → List α → Multiset β → Prop where
  | nil {carried left : Multiset β} : left ≤ carried → ReadOnce carried [] left
  | cons {carried kept left : Multiset β} {i : α} {rest : List α} :
    (reads i : Multiset β) + kept ≤ carried → (Bar i → kept = 0) →
    ReadOnce (kept + (writes i : Multiset β)) rest left → ReadOnce carried (i :: rest) left

end ReadOnce

namespace ReadOnce

variable {α : Type u} {β : Type v} {reads writes : α → List β} {Bar : α → Prop}
  {carried mid left : Multiset β} {code code' : List α}

theorem more (h : ReadOnce reads writes Bar carried code left) {carried' : Multiset β}
    (le : carried ≤ carried') : ReadOnce reads writes Bar carried' code left := by
  cases h with
  | nil left => exact .nil (left.trans le)
  | cons taken stops later => exact .cons (taken.trans le) stops later

theorem append (h : ReadOnce reads writes Bar carried code mid)
    (h' : ReadOnce reads writes Bar mid code' left) :
    ReadOnce reads writes Bar carried (code ++ code') left := by
  induction h with
  | nil le => exact h'.more le
  | cons taken stops _ ih => exact .cons taken stops (ih h')

theorem drop (h : ReadOnce reads writes Bar carried code mid) (le : left ≤ mid) :
    ReadOnce reads writes Bar carried code left := by
  have ends : ReadOnce reads writes Bar mid [] left := .nil le
  simpa using h.append ends

theorem one {i : α} {kept : Multiset β} (stops : Bar i → kept = 0) :
    ReadOnce reads writes Bar ((reads i : Multiset β) + kept) [i]
      (kept + (writes i : Multiset β)) :=
  .cons le_rfl stops (.nil le_rfl)

theorem frame (h : ReadOnce reads writes Bar carried code left) (free : ∀ i ∈ code, ¬ Bar i)
    (others : Multiset β) : ReadOnce reads writes Bar (carried + others) code (left + others) := by
  induction h with
  | nil le => exact .nil (add_le_add_left le others)
  | @cons carried kept left i rest taken _ _ ih =>
    have later := ih fun j mem => free j (List.mem_cons_of_mem i mem)
    have takes : (reads i : Multiset β) + (kept + others) ≤ carried + others := by
      rw [← add_assoc]
      exact add_le_add_left taken others
    rw [add_right_comm] at later
    exact .cons takes (fun bar => absurd bar (free i List.mem_cons_self)) later

theorem count_reads_le [DecidableEq β] (h : ReadOnce reads writes Bar carried code left) (b : β) :
    (code.flatMap reads).count b ≤ carried.count b + (code.flatMap writes).count b := by
  induction h with
  | nil => exact Nat.zero_le _
  | @cons carried kept left i rest taken _ _ ih =>
    have here := Multiset.count_le_of_le b taken
    rw [Multiset.count_add, Multiset.coe_count] at here ih
    rw [List.flatMap_cons, List.flatMap_cons, List.count_append, List.count_append]
    omega

/-- From a read back to where its value comes from there is no bar. -/
theorem origin (h : ReadOnce reads writes Bar carried code left) {r : Nat} {i : α} {b : β}
    (here : code[r]? = some i) (read : b ∈ reads i) :
    (b ∈ carried ∧ ∀ k < r, ∀ j, code[k]? = some j → ¬ Bar j) ∨
      ∃ w < r, (∃ j, code[w]? = some j ∧ b ∈ writes j) ∧
        ∀ k, w < k → k < r → ∀ j, code[k]? = some j → ¬ Bar j := by
  induction h generalizing r with
  | nil => cases here
  | @cons carried kept left i' rest taken stops _ ih =>
    cases r with
    | zero =>
      obtain rfl := Option.some.inj here
      refine .inl ⟨Multiset.mem_of_le taken ?_, fun k lt => absurd lt (Nat.not_lt_zero k)⟩
      exact Multiset.mem_add.mpr (.inl read)
    | succ r =>
      rcases ih here with ⟨mem, free⟩ | ⟨w, lt, written, free⟩
      · have later : ∀ k, 0 < k → k < r + 1 → ∀ j, (i' :: rest)[k]? = some j → ¬ Bar j := by
          intro k pos lt j at'
          obtain ⟨k, rfl⟩ := Nat.exists_eq_succ_of_ne_zero (Nat.ne_of_gt pos)
          exact free k (by omega) j at'
        rcases Multiset.mem_add.mp mem with mem | mem
        · refine .inl ⟨Multiset.mem_of_le taken (Multiset.mem_add.mpr (.inr mem)), ?_⟩
          intro k lt j at'
          cases k with
          | zero =>
            obtain rfl := Option.some.inj at'
            intro bar
            rw [stops bar] at mem
            exact Multiset.notMem_zero b mem
          | succ k => exact later (k + 1) (Nat.succ_pos k) lt j at'
        · exact .inr ⟨0, Nat.succ_pos r, ⟨i', rfl, mem⟩, later⟩
      · refine .inr ⟨w + 1, by omega, written, fun k gt lt' j at' => ?_⟩
        cases k with
        | zero => omega
        | succ k => exact free k (by omega) (by omega) j at'

end ReadOnce

end Ctds
