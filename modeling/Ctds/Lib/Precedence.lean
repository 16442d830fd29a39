import Mathlib.Data.List.Basic

/-! Operators between operands. A text of operands and binary operators has one tree in which
every operator binds as its level and left association say, and the parser that keeps a stack and
reduces before it shifts an operator of no higher level finds that tree. -/

namespace Ctds

universe u v

/-- A tree of binary operators over operands. -/
inductive OpTree (α : Type u) (β : Type v) where
  | operand (a : α)
  | node (op : β) (left right : OpTree α β)

namespace OpTree

variable {α : Type u} {β : Type v}

/-- The operand a text starts with. -/
def first : OpTree α β → α
  | operand a => a
  | node _ left _ => left.first

/-- The operators of the text, each with the operand behind it. -/
def more : OpTree α β → List (β × α)
  | operand _ => []
  | node op left right => left.more ++ (op, right.first) :: right.more

variable (prec : β → Nat)

/-- No operator that binds less is open in the tree. -/
def AtLeast (n : Nat) : OpTree α β → Prop
  | operand _ => True
  | node op _ _ => n ≤ prec op

/-- Operators of a higher level bind tighter, and those of one level associate to the left. -/
def Respects : OpTree α β → Prop
  | operand _ => True
  | node op left right => left.Respects ∧ right.Respects ∧ left.AtLeast prec (prec op) ∧
      right.AtLeast prec (prec op + 1)

theorem AtLeast.mono {n m : Nat} {t : OpTree α β} (h : t.AtLeast prec n) (le : m ≤ n) :
    t.AtLeast prec m := by
  cases t with
  | operand a => exact trivial
  | node op left right => exact Nat.le_trans le h

/-- Left operands that wait, each with its operator; the innermost first. -/
abbrev Stack (α : Type u) (β : Type v) := List (OpTree α β × β)

/-- Reduces while the operator on the stack is of level `n` at least. -/
def reduce (n : Nat) : Stack α β → OpTree α β → Stack α β × OpTree α β
  | [], t => ([], t)
  | (left, op) :: stack, t =>
    if n ≤ prec op then reduce n stack (node op left t) else ((left, op) :: stack, t)

/-- An operator is shifted after the reductions; the end of the text reduces everything. -/
def shiftReduce : Stack α β → OpTree α β → List (β × α) → OpTree α β
  | stack, t, [] => (reduce prec 0 stack t).2
  | stack, t, (op, a) :: rest =>
    shiftReduce (((reduce prec (prec op) stack t).2, op) :: (reduce prec (prec op) stack t).1)
      (operand a) rest

theorem reduce_node {n : Nat} {op : β} (le : n ≤ prec op) (stack : Stack α β)
    (left t : OpTree α β) : reduce prec n ((left, op) :: stack) t =
      reduce prec n stack (node op left t) := by
  rw [reduce, if_pos le]

/-- The tree may stand behind the operator on the stack. -/
def Above (stack : Stack α β) (t : OpTree α β) : Prop :=
  ∀ entry ∈ stack.head?, t.AtLeast prec (prec entry.2 + 1)

theorem reduce_above {op : β} {left right : OpTree α β} {stack : Stack α β}
    (above : Above prec stack (node op left right)) (t : OpTree α β) :
    reduce prec (prec op) stack t = (stack, t) := by
  cases stack with
  | nil => rfl
  | cons entry stack =>
    obtain ⟨left', op'⟩ := entry
    have lt : prec op' < prec op := above _ rfl
    rw [reduce, if_neg (Nat.not_le.mpr lt)]

theorem shiftReduce_tree {t : OpTree α β} (respects : t.Respects prec) {stack : Stack α β}
    {rest : List (β × α)} (above : Above prec stack t)
    (closes : ∀ next ∈ rest.head?, t.AtLeast prec (prec next.1)) :
    shiftReduce prec stack (operand t.first) (t.more ++ rest) = shiftReduce prec stack t rest := by
  induction t generalizing stack rest with
  | operand a => rfl
  | node op left right ihl ihr =>
    obtain ⟨l, r, leftBinds, rightBinds⟩ := respects
    have aboveLeft : Above prec stack left := fun entry mem => leftBinds.mono prec (above entry mem)
    have aboveRight : Above prec ((left, op) :: stack) right := fun entry mem => by
      obtain rfl : (left, op) = entry := Option.some.inj mem
      exact rightBinds
    have closesRight : ∀ next ∈ rest.head?, right.AtLeast prec (prec next.1) := fun next mem =>
      rightBinds.mono prec (Nat.le_succ_of_le (closes next mem))
    rw [first, more, List.append_assoc, ihl l aboveLeft fun next mem => by
      obtain rfl : (op, right.first) = next := Option.some.inj mem
      exact leftBinds]
    rw [List.cons_append, shiftReduce, reduce_above prec above, ihr r aboveRight closesRight]
    cases rest with
    | nil => rw [shiftReduce, shiftReduce, reduce_node prec (Nat.zero_le _)]
    | cons next rest =>
      obtain ⟨op', a⟩ := next
      have le : prec op' ≤ prec op := closes _ rfl
      rw [shiftReduce, shiftReduce, reduce_node prec le]

/-- The tree that a stack and what stands in front of it will make. -/
def unstack : Stack α β → OpTree α β → OpTree α β
  | [], t => t
  | (left, op) :: stack, t => unstack stack (node op left t)

theorem unstack_reduce (n : Nat) (stack : Stack α β) (t : OpTree α β) :
    unstack (reduce prec n stack t).1 (reduce prec n stack t).2 = unstack stack t := by
  induction stack generalizing t with
  | nil => rfl
  | cons entry stack ih =>
    obtain ⟨left, op⟩ := entry
    rw [reduce]
    split
    · exact ih _
    · rfl

theorem reduce_zero (stack : Stack α β) (t : OpTree α β) :
    reduce prec 0 stack t = ([], unstack stack t) := by
  induction stack generalizing t with
  | nil => rfl
  | cons entry stack ih =>
    obtain ⟨left, op⟩ := entry
    rw [reduce_node prec (Nat.zero_le _), ih]
    rfl

theorem unstack_text (stack : Stack α β) (t t' : OpTree α β) (rest : List (β × α))
    (head : t'.first = t.first) (tail : t'.more = t.more ++ rest) :
    (unstack stack t').first = (unstack stack t).first ∧
      (unstack stack t').more = (unstack stack t).more ++ rest := by
  induction stack generalizing t t' with
  | nil => exact ⟨head, tail⟩
  | cons entry stack ih =>
    obtain ⟨left, op⟩ := entry
    refine ih _ _ rfl ?_
    rw [more, more, head, tail, List.append_assoc]
    rfl

theorem shiftReduce_text (stack : Stack α β) (t : OpTree α β) (rest : List (β × α)) :
    (shiftReduce prec stack t rest).first = (unstack stack t).first ∧
      (shiftReduce prec stack t rest).more = (unstack stack t).more ++ rest := by
  induction rest generalizing stack t with
  | nil => simp [shiftReduce, reduce_zero]
  | cons next rest ih =>
    obtain ⟨op, a⟩ := next
    rw [shiftReduce, (ih _ _).1, (ih _ _).2, unstack, ← unstack_reduce prec (prec op) stack t]
    obtain ⟨head, tail⟩ := unstack_text (reduce prec (prec op) stack t).1
      (reduce prec (prec op) stack t).2
      (node op (reduce prec (prec op) stack t).2 (operand a)) [(op, a)] rfl rfl
    rw [head, tail, List.append_assoc]
    exact ⟨rfl, rfl⟩

/-- What waits on the stack respects the levels, and may wait where it does. -/
def StackRespects : Stack α β → Prop
  | [] => True
  | (left, op) :: stack => left.Respects prec ∧ left.AtLeast prec (prec op) ∧
      (∀ entry ∈ stack.head?, prec entry.2 < prec op) ∧ StackRespects stack

theorem reduce_respects {n : Nat} {stack : Stack α β} {t : OpTree α β}
    (waits : StackRespects prec stack) (respects : t.Respects prec) (above : Above prec stack t)
    (binds : t.AtLeast prec n) :
    StackRespects prec (reduce prec n stack t).1 ∧ (reduce prec n stack t).2.Respects prec ∧
      (reduce prec n stack t).2.AtLeast prec n ∧
      ∀ entry ∈ (reduce prec n stack t).1.head?, prec entry.2 < n := by
  induction stack generalizing t with
  | nil => exact ⟨trivial, respects, binds, nofun⟩
  | cons entry stack ih =>
    obtain ⟨left, op⟩ := entry
    obtain ⟨l, leftBinds, below, waits'⟩ := waits
    rw [reduce]
    split
    · next le => exact ih waits' ⟨l, respects, leftBinds, above _ rfl⟩ below le
    · next lt =>
      refine ⟨⟨l, leftBinds, below, waits'⟩, respects, binds, fun entry mem => ?_⟩
      obtain rfl : (left, op) = entry := Option.some.inj mem
      exact Nat.not_le.mp lt

theorem shiftReduce_respects {stack : Stack α β} {t : OpTree α β} {rest : List (β × α)}
    (waits : StackRespects prec stack) (respects : t.Respects prec) (above : Above prec stack t)
    (closes : ∀ next ∈ rest.head?, t.AtLeast prec (prec next.1)) :
    (shiftReduce prec stack t rest).Respects prec := by
  induction rest generalizing stack t with
  | nil =>
    have binds : t.AtLeast prec 0 := by cases t <;> simp [AtLeast]
    exact (reduce_respects prec waits respects above binds).2.1
  | cons next rest ih =>
    obtain ⟨op, a⟩ := next
    obtain ⟨waits', respects', binds, below⟩ :=
      reduce_respects prec waits respects above (closes _ rfl)
    exact ih ⟨respects', binds, below, waits'⟩ trivial (fun _ _ => trivial) fun _ _ => trivial

/-- A text of operands and operators has one tree that respects the levels: the parser's. -/
theorem shiftReduce_eq_iff (a : α) (rest : List (β × α)) (t : OpTree α β) :
    shiftReduce prec [] (operand a) rest = t ↔
      t.Respects prec ∧ t.first = a ∧ t.more = rest := by
  constructor
  · rintro rfl
    exact ⟨shiftReduce_respects prec trivial trivial nofun fun _ _ => trivial,
      shiftReduce_text prec [] (operand a) rest⟩
  · rintro ⟨respects, rfl, rfl⟩
    have through : shiftReduce prec [] (operand t.first) (t.more ++ []) =
      shiftReduce prec [] t [] :=
      shiftReduce_tree prec respects nofun nofun
    rw [List.append_nil] at through
    exact through

end OpTree

end Ctds
