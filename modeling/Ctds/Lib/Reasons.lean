import Mathlib.Data.List.Basic

/-! Computations that may have no value, made to say why. One with an error in place of `none`
explains it if the values are the same; what it ends in is then said of its value and of its
error at once. -/

namespace Ctds.Reasons

universe u v
variable {ε : Type u} {α β : Type v}

/-- The value, or this reason for its absence. -/
def because (reason : ε) : Option α → Except ε α
  | some a => .ok a
  | none => .error reason

/-- Both have the same value, or neither has one. -/
def Explains (x : Except ε α) (o : Option α) : Prop := x.toOption = o

namespace Explains

theorem ok (a : α) : Explains (.ok a : Except ε α) (some a) := rfl

theorem error (reason : ε) : Explains (.error reason : Except ε α) none := rfl

theorem because (reason : ε) (o : Option α) : Explains (because reason o) o := by
  cases o <;> rfl

theorem bind {x : Except ε α} {o : Option α} {f : α → Except ε β} {g : α → Option β}
    (h : Explains x o) (next : ∀ a, Explains (f a) (g a)) : Explains (x >>= f) (o >>= g) := by
  subst h
  cases x with
  | error reason => rfl
  | ok a => exact next a

theorem map {x : Except ε α} {o : Option α} (h : Explains x o) (f : α → β) :
    Explains (x.map f) (o.map f) := by
  subst h
  cases x <;> rfl

end Explains

/-- The value is as promised, or the error is one that is conceded. -/
def Ends (post : α → Prop) (conceded : ε → Prop) : Except ε α → Prop
  | .ok a => post a
  | .error reason => conceded reason

namespace Ends

variable {post : α → Prop} {conceded : ε → Prop} {x : Except ε α}

theorem because {reason : ε} {o : Option α} (value : ∀ a, o = some a → post a)
    (absent : o = none → conceded reason) : Ends post conceded (because reason o) := by
  cases o with
  | none => exact absent rfl
  | some a => exact value a rfl

theorem mono {post' : α → Prop} {conceded' : ε → Prop} (h : Ends post conceded x)
    (weaker : ∀ a, post a → post' a) (more : ∀ reason, conceded reason → conceded' reason) :
    Ends post' conceded' x := by
  cases x with
  | error reason => exact more reason h
  | ok a => exact weaker a h

theorem bind {f : α → Except ε β} {post' : β → Prop} (h : Ends post conceded x)
    (next : ∀ a, post a → Ends post' conceded (f a)) : Ends post' conceded (x >>= f) := by
  cases x with
  | error reason => exact h
  | ok a => exact next a h

theorem map {f : α → β} {post' : β → Prop} (h : Ends post conceded x)
    (next : ∀ a, post a → post' (f a)) : Ends post' conceded (x.map f) := by
  cases x with
  | error reason => exact h
  | ok a => exact next a h

end Ends

end Ctds.Reasons
