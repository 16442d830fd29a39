import Mathlib.Data.List.Nodup
import Mathlib.Data.List.Perm.Subperm
import Mathlib.Data.List.Range

/-! Singly linked lists in a heap that only grows. A pointer is the position of a cell;
`Linked` says which cells a walk from a pointer visits. Appending cells to the heap, or
writing to a cell outside the list, leaves the list as it is; linking a fresh cell behind
the last one appends it. -/

namespace Ctds.LinkedCells

universe u
variable {α : Type u} {next : α → Option Nat}

inductive Linked (next : α → Option Nat) (heap : List α) : Option Nat → List Nat → Prop
  | nil : Linked next heap none []
  | cons {p : Nat} {cell : α} {ps : List Nat} (here : heap[p]? = some cell)
      (rest : Linked next heap (next cell) ps) : Linked next heap (some p) (p :: ps)

namespace Linked

theorem head {heap : List α} {start : Option Nat} {ps : List Nat}
    (h : Linked next heap start ps) : start = ps.head? := by
  cases h <;> rfl

theorem lt {heap : List α} {start : Option Nat} {ps : List Nat}
    (h : Linked next heap start ps) {p : Nat} (mem : p ∈ ps) : p < heap.length := by
  induction h with
  | nil => cases mem
  | cons here rest ih =>
    rcases List.mem_cons.mp mem with rfl | mem
    · exact (List.getElem?_eq_some_iff.mp here).1
    · exact ih mem

theorem length_le {heap : List α} {start : Option Nat} {ps : List Nat}
    (h : Linked next heap start ps) (nodup : ps.Nodup) : ps.length ≤ heap.length := by
  have inside : ps ⊆ List.range heap.length := fun p mem => List.mem_range.mpr (h.lt mem)
  have le := (nodup.subperm inside).length_le
  rwa [List.length_range] at le

theorem append {heap : List α} {start : Option Nat} {ps : List Nat}
    (h : Linked next heap start ps) (more : List α) : Linked next (heap ++ more) start ps := by
  induction h with
  | nil => exact .nil
  | cons here rest ih =>
    refine .cons ?_ ih
    rw [List.getElem?_append_left (List.getElem?_eq_some_iff.mp here).1, here]

theorem modify_off {heap : List α} {start : Option Nat} {ps : List Nat}
    (h : Linked next heap start ps) {p : Nat} (off : p ∉ ps) (f : α → α) :
    Linked next (heap.modify p f) start ps := by
  induction h with
  | nil => exact .nil
  | cons here rest ih =>
    rw [List.mem_cons, not_or] at off
    refine .cons ?_ (ih off.2)
    rw [List.getElem?_modify_ne _ _ off.1, here]

theorem modify_keep {heap : List α} {start : Option Nat} {ps : List Nat}
    (h : Linked next heap start ps) (p : Nat) {f : α → α}
    (keep : ∀ cell, next (f cell) = next cell) :
    Linked next (heap.modify p f) start ps := by
  induction h with
  | nil => exact .nil
  | @cons q cell ps here rest ih =>
    by_cases same : p = q
    · refine .cons (?_ : _ = some (f cell)) ((keep cell).symm ▸ ih)
      rw [same, List.getElem?_modify_eq, here]
      rfl
    · refine .cons (?_ : _ = some cell) ih
      rw [List.getElem?_modify_ne _ _ same, here]

/-- The fresh cell goes behind the last one. -/
theorem link {heap : List α} {start : Option Nat} {ps : List Nat}
    (h : Linked next heap start ps) (nodup : ps.Nodup) {last : Nat}
    (isLast : ps.getLast? = some last) {cell : α} (fresh : next cell = none) {f : α → α}
    (linked : ∀ c, next (f c) = some heap.length) :
    Linked next ((heap ++ [cell]).modify last f) start (ps ++ [heap.length]) := by
  induction h with
  | nil => cases isLast
  | @cons q c ps here rest ih =>
    have inside := (List.getElem?_eq_some_iff.mp here).1
    rw [List.nodup_cons] at nodup
    cases ps with
    | nil =>
      obtain rfl : q = last := by simpa using isLast
      refine .cons (?_ : _ = some (f c)) ?_
      · rw [List.getElem?_modify_eq, List.getElem?_append_left inside, here]
        rfl
      · rw [linked]
        refine .cons (?_ : _ = some cell) (fresh ▸ .nil)
        rw [List.getElem?_modify_ne _ _ (Nat.ne_of_lt inside)]
        simp
    | cons r rs =>
      have isLast' : (r :: rs).getLast? = some last := by simpa using isLast
      have other : last ≠ q := by
        rintro rfl
        exact nodup.1 (List.mem_of_getLast? isLast')
      refine .cons (?_ : _ = some c) (ih nodup.2 isLast')
      rw [List.getElem?_modify_ne _ _ other, List.getElem?_append_left inside, here]

end Linked

end Ctds.LinkedCells
