import Mathlib.Data.List.Basic

/-! A segment that stands at a position of a longer code. -/

namespace Ctds

universe u
variable {α : Type u}

def Placed (code : List α) (p : Nat) (seg : List α) : Prop :=
  ∃ pre post, code = pre ++ (seg ++ post) ∧ pre.length = p

namespace Placed

variable {code seg seg' : List α} {p : Nat}

theorem whole (code : List α) : Placed code 0 code := ⟨[], [], by simp, rfl⟩

theorem left (h : Placed code p (seg ++ seg')) : Placed code p seg := by
  obtain ⟨pre, post, rfl, rfl⟩ := h
  exact ⟨pre, seg' ++ post, by simp, rfl⟩

theorem right (h : Placed code p (seg ++ seg')) : Placed code (p + seg.length) seg' := by
  obtain ⟨pre, post, rfl, rfl⟩ := h
  exact ⟨pre ++ seg, post, by simp, by simp⟩

theorem head {a : α} (h : Placed code p (a :: seg)) : code[p]? = some a := by
  obtain ⟨pre, post, rfl, rfl⟩ := h
  simp

theorem tail {a : α} (h : Placed code p (a :: seg)) : Placed code (p + 1) seg := by
  obtain ⟨pre, post, rfl, rfl⟩ := h
  exact ⟨pre ++ [a], post, by simp, by simp⟩

theorem getElem? (h : Placed code p seg) {i : Nat} (inside : i < seg.length) :
    code[p + i]? = seg[i]? := by
  obtain ⟨pre, post, rfl, rfl⟩ := h
  rw [List.getElem?_append_right (Nat.le_add_right _ _), Nat.add_sub_cancel_left,
    List.getElem?_append_left inside]

theorem length_le (h : Placed code p seg) : p + seg.length ≤ code.length := by
  obtain ⟨pre, post, rfl, rfl⟩ := h
  simp

theorem last {a : α} (h : Placed code p (seg ++ [a])) : code[p + seg.length]? = some a :=
  h.right.head

theorem take (h : Placed code p seg) : code.take (p + seg.length) = code.take p ++ seg := by
  obtain ⟨pre, post, rfl, rfl⟩ := h
  rw [List.take_append, List.take_of_length_le (Nat.le_add_right _ _), Nat.add_sub_cancel_left,
    List.take_left, List.take_left]

theorem trans {inner : List α} {q : Nat} (h : Placed code p seg) (g : Placed seg q inner) :
    Placed code (p + q) inner := by
  obtain ⟨pre, post, rfl, rfl⟩ := g
  exact h.right.left

theorem getElem?_flatMap_range {g : Nat → List α} {n p : Nat} {a : α}
    (here : ((List.range n).flatMap g)[p]? = some a) :
    ∃ i d, i < n ∧ p = ((List.range i).flatMap g).length + d ∧ (g i)[d]? = some a := by
  induction n with
  | zero => cases here
  | succ n ih =>
    rw [List.range_succ, List.flatMap_append] at here
    by_cases inside : p < ((List.range n).flatMap g).length
    · rw [List.getElem?_append_left inside] at here
      obtain ⟨i, d, lt, place, at'⟩ := ih here
      exact ⟨i, d, Nat.lt_succ_of_lt lt, place, at'⟩
    · rw [List.getElem?_append_right (Nat.le_of_not_lt inside), List.flatMap_singleton] at here
      exact ⟨n, _, Nat.lt_succ_self n, (Nat.add_sub_of_le (Nat.le_of_not_lt inside)).symm, here⟩

end Placed

end Ctds
