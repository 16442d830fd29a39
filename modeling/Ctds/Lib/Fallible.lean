import Mathlib.Data.List.Basic

/-! Computations that end in a value or an error, taken apart at their binds. -/

namespace Ctds.Fallible

universe u v
variable {ε : Type u} {α β : Type v}

theorem bind_eq_ok {x : Except ε α} {f : α → Except ε β} {b : β} :
    (x >>= f) = .ok b ↔ ∃ a, x = .ok a ∧ f a = .ok b := by
  cases x with
  | error err => simp [bind, Except.bind]
  | ok a => simp [bind, Except.bind]

@[simp] theorem pure_eq_ok {a b : α} : (pure a : Except ε α) = .ok b ↔ a = b := by
  simp [pure, Except.pure]

@[simp] theorem throw_ne_ok {err : ε} {b : β} : (throw err : Except ε β) ≠ .ok b := by
  simp [throw, throwThe, MonadExceptOf.throw]

@[simp] theorem ok_bind {a : α} {f : α → Except ε β} : (Except.ok a >>= f) = f a := rfl

@[simp] theorem error_bind {err : ε} {f : α → Except ε β} :
    (Except.error err >>= f) = .error err := rfl

theorem isOk_iff {x : Except ε α} : x.isOk = true ↔ ∃ a, x = .ok a := by
  cases x <;> simp [Except.isOk, Except.toBool]

/-- The computation ends in a value exactly if it is accepted, and the value is as
promised. -/
def Outcome (accepted : Bool) (post : α → Prop) : Except ε α → Prop
  | .ok a => accepted = true ∧ post a
  | .error _ => accepted = false

namespace Outcome

variable {post : α → Prop} {x : Except ε α}

theorem ok (h : Outcome true post x) : ∃ a, x = .ok a ∧ post a := by
  cases x with
  | error err => cases h
  | ok a => exact ⟨a, rfl, h.2⟩

theorem error (h : Outcome false post x) : ∃ err, x = .error err := by
  cases x with
  | error err => exact ⟨err, rfl⟩
  | ok a => cases h.1

theorem rejected {post' : α → Prop} (h : Outcome false post x) : Outcome false post' x := by
  obtain ⟨err, rfl⟩ := h.error
  exact rfl

theorem of_ok {accepted : Bool} {a : α} (h : Outcome accepted post x) (is : x = .ok a) :
    accepted = true ∧ post a := by
  subst is
  exact h

theorem isOk {accepted : Bool} (h : Outcome accepted post x) : x.isOk = accepted := by
  cases x with
  | error err => exact (h : accepted = false).symm ▸ rfl
  | ok a => exact h.1.symm ▸ rfl

theorem mono {accepted : Bool} {post' : α → Prop} (h : Outcome accepted post x)
    (weaker : ∀ a, post a → post' a) : Outcome accepted post' x := by
  cases x with
  | error err => exact h
  | ok a => exact ⟨h.1, weaker a h.2⟩

theorem value {accepted : Bool} (h : Outcome accepted post x) :
    Outcome accepted (fun a => post a ∧ x = .ok a) x := by
  cases x with
  | error err => exact h
  | ok a => exact ⟨h.1, h.2, rfl⟩

theorem bind {accepted accepted' : Bool} {f : α → Except ε β} {post' : β → Prop}
    (h : Outcome accepted post x) (next : ∀ a, post a → Outcome accepted' post' (f a)) :
    Outcome (accepted && accepted') post' (x >>= f) := by
  cases x with
  | error err =>
    obtain rfl : accepted = false := h
    exact rfl
  | ok a =>
    obtain ⟨rfl, holds⟩ := h
    exact next a holds

theorem map {accepted : Bool} {f : α → β} {post' : β → Prop} (h : Outcome accepted post x)
    (next : ∀ a, post a → post' (f a)) :
    Outcome accepted post' (x >>= fun a => pure (f a)) := by
  cases x with
  | error err => exact h
  | ok a => exact ⟨h.1, next a h.2⟩

end Outcome

/-- The computation ends in a value or in this one error. -/
def OnlyFails (err : ε) (x : Except ε α) : Prop := ∀ err', x = .error err' → err' = err

namespace OnlyFails

variable {err : ε} {x : Except ε α}

theorem of_ok {a : α} (h : x = .ok a) : OnlyFails err x := by
  intro err' failed
  rw [h] at failed
  cases failed

theorem error (err : ε) : OnlyFails err (.error err : Except ε α) := by
  intro err' failed
  exact (Except.error.inj failed).symm

theorem bind {f : α → Except ε β} (h : OnlyFails err x)
    (next : ∀ a, x = .ok a → OnlyFails err (f a)) : OnlyFails err (x >>= f) := by
  cases x with
  | error err' =>
    obtain rfl := h err' rfl
    exact error err'
  | ok a => exact next a rfl

theorem eq_error {post : α → Prop} (h : OnlyFails err x) (outcome : Outcome false post x) :
    x = .error err := by
  obtain ⟨err', rfl⟩ := outcome.error
  rw [h err' rfl]

end OnlyFails

/-- The computation ends in an error of this kind exactly if the flag says so. -/
def Raises (kind : ε → Bool) (raised : Bool) : Except ε α → Prop
  | .ok _ => raised = false
  | .error err => kind err = raised

namespace Raises

variable {kind : ε → Bool} {raised : Bool} {x : Except ε α}

theorem iff (h : Raises kind raised x) :
    (∃ err, x = .error err ∧ kind err = true) ↔ raised = true := by
  cases x with
  | error err =>
    obtain rfl : kind err = raised := h
    simp
  | ok a =>
    obtain rfl : raised = false := h
    simp

theorem bind {accepted raised' : Bool} {post : α → Prop} {f : α → Except ε β}
    (h : Raises kind raised x) (outcome : Outcome accepted post x)
    (next : ∀ a, post a → Raises kind raised' (f a)) :
    Raises kind (raised || (accepted && raised')) (x >>= f) := by
  cases x with
  | error err =>
    obtain rfl : accepted = false := outcome
    rw [Bool.false_and, Bool.or_false]
    exact h
  | ok a =>
    obtain rfl : raised = false := h
    obtain ⟨rfl, holds⟩ := outcome
    exact next a holds

theorem before {f : α → Except ε β} (h : Raises kind raised x)
    (next : ∀ a, x = .ok a → Raises kind false (f a)) : Raises kind raised (x >>= f) := by
  cases x with
  | error err => exact h
  | ok a =>
    obtain rfl : raised = false := h
    exact next a rfl

end Raises

end Ctds.Fallible
