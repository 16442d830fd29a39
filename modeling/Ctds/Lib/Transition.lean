import Mathlib.Data.Option.Basic

/-! Deterministic machines given by a partial step function. A state without a
successor is final. Runs compose, final states are unique, an invariant of one step
is an invariant of every run, and a relation kept by matching steps is kept by runs
of equal length. Where the second machine also takes steps alone, but only so many in a
row, the two still reach related states and stop together. -/

namespace Ctds.Transition

universe u v
variable {σ : Type u} {τ : Type v} (step : σ → Option σ) (step' : τ → Option τ)

def run : Nat → σ → Option σ
  | 0, s => some s
  | n + 1, s => (step s).bind (run n)

def Reaches (s t : σ) : Prop := ∃ n, run step n s = some t

variable {step step'}

@[simp] theorem run_zero (s : σ) : run step 0 s = some s := rfl

theorem run_succ {s t : σ} (h : step s = some t) (n : Nat) :
    run step (n + 1) s = run step n t := by
  simp [run, h]

theorem run_add (m n : Nat) (s : σ) :
    run step (m + n) s = (run step m s).bind (run step n) := by
  induction m generalizing s with
  | zero => simp
  | succ m ih =>
    rw [Nat.succ_add, run, run, Option.bind_assoc]
    congr 1
    funext t
    exact ih t

theorem run_step {n : Nat} {s t u : σ} (ran : run step n s = some t)
    (next : run step (n + 1) s = some u) : step t = some u := by
  rw [run_add, ran, Option.bind_some] at next
  simpa [run] using next

theorem run_until {k n : Nat} {s u : σ} (ran : run step n s = some u) (le : k ≤ n) :
    ∃ t, run step k s = some t := by
  obtain ⟨rest, rfl⟩ := Nat.exists_eq_add_of_le le
  rw [run_add] at ran
  obtain ⟨t, before, -⟩ := Option.bind_eq_some_iff.mp ran
  exact ⟨t, before⟩

theorem run_before {n : Nat} {s u : σ} (next : run step (n + 1) s = some u) :
    ∃ t, run step n s = some t :=
  run_until next (Nat.le_succ n)

theorem run_of_final {s : σ} (final : step s = none) {n : Nat} {t : σ}
    (h : run step n s = some t) : n = 0 ∧ t = s := by
  cases n with
  | zero => exact ⟨rfl, (Option.some.inj h).symm⟩
  | succ n => simp [run, final] at h

namespace Reaches

theorem refl (s : σ) : Reaches step s s := ⟨0, rfl⟩

theorem single {s t : σ} (h : step s = some t) : Reaches step s t :=
  ⟨1, by simp [run, h]⟩

theorem trans {s t u : σ} (h : Reaches step s t) (g : Reaches step t u) : Reaches step s u := by
  obtain ⟨m, hm⟩ := h
  obtain ⟨n, hn⟩ := g
  exact ⟨m + n, by rw [run_add, hm]; exact hn⟩

theorem head {s t u : σ} (h : step s = some t) (g : Reaches step t u) : Reaches step s u :=
  (single h).trans g

theorem tail {s t u : σ} (h : Reaches step s t) (g : step t = some u) : Reaches step s u :=
  h.trans (single g)

theorem final_unique {s t u : σ} (h : Reaches step s t) (ht : step t = none)
    (g : Reaches step s u) (hu : step u = none) : t = u := by
  obtain ⟨m, hm⟩ := h
  obtain ⟨n, hn⟩ := g
  rcases Nat.le_total m n with le | le
  · obtain ⟨k, rfl⟩ := Nat.exists_eq_add_of_le le
    rw [run_add, hm, Option.bind_some] at hn
    exact ((run_of_final ht hn).2).symm
  · obtain ⟨k, rfl⟩ := Nat.exists_eq_add_of_le le
    rw [run_add, hn, Option.bind_some] at hm
    exact (run_of_final hu hm).2

theorem rest {s t u : σ} (h : Reaches step s u) (hu : step u = none) (g : Reaches step s t) :
    Reaches step t u := by
  obtain ⟨m, hm⟩ := g
  obtain ⟨n, hn⟩ := h
  rcases Nat.le_total m n with le | le
  · obtain ⟨k, rfl⟩ := Nat.exists_eq_add_of_le le
    rw [run_add, hm, Option.bind_some] at hn
    exact ⟨k, hn⟩
  · obtain ⟨k, rfl⟩ := Nat.exists_eq_add_of_le le
    rw [run_add, hn, Option.bind_some] at hm
    exact (run_of_final hu hm).2 ▸ refl _

/-- What holds at the start and is kept by every step holds in every state reached. -/
theorem invariant {P : σ → Prop} (keep : ∀ s t, P s → step s = some t → P t)
    {s t : σ} (start : P s) (h : Reaches step s t) : P t := by
  obtain ⟨n, hn⟩ := h
  induction n generalizing s with
  | zero => exact (Option.some.inj hn) ▸ start
  | succ n ih =>
    cases next : step s with
    | none => simp [run, next] at hn
    | some mid =>
      rw [run_succ next] at hn
      exact ih (keep s mid start next) hn

end Reaches

/-- A relation kept by single steps relates runs of the same length: both stop early,
or both arrive in related states. -/
theorem run_lockstep {R : σ → τ → Prop}
    (keep : ∀ s t, R s t → Option.Rel R (step s) (step' t))
    {s : σ} {t : τ} (start : R s t) (n : Nat) : Option.Rel R (run step n s) (run step' n t) := by
  induction n generalizing s t with
  | zero => exact .some start
  | succ n ih =>
    have one := keep s t start
    rw [run, run]
    cases hs : step s with
    | none =>
      rw [hs] at one
      cases ht : step' t with
      | none => exact .none
      | some t' => rw [ht] at one; cases one
    | some s' =>
      rw [hs] at one
      cases ht : step' t with
      | none => rw [ht] at one; cases one
      | some t' =>
        rw [ht] at one
        cases one with
        | some rel => exact ih rel

/-- Related machines step together, or the second steps alone and gets closer to a common
step, or both have stopped. -/
def Stutters (step : σ → Option σ) (step' : τ → Option τ) (R : σ → τ → Prop) (ahead : τ → Nat) :
    Prop :=
  ∀ s t, R s t →
    (∃ s' t', step s = some s' ∧ step' t = some t' ∧ R s' t') ∨
      (∃ t', step' t = some t' ∧ R s t' ∧ ahead t' < ahead t) ∨ (step s = none ∧ step' t = none)

namespace Stutters

variable {R : σ → τ → Prop} {ahead : τ → Nat} (h : Stutters step step' R ahead)

include h

theorem one {s s' : σ} {t : τ} (start : R s t) (next : step s = some s') :
    ∃ t', Reaches step' t t' ∧ R s' t' := by
  induction left : ahead t using Nat.strongRecOn generalizing t with
  | ind n ih =>
    rcases h s t start with ⟨u, t', both, step2, rel⟩ | ⟨t', step2, rel, less⟩ | ⟨stopped, -⟩
    · obtain rfl := Option.some.inj (next.symm.trans both)
      exact ⟨t', .single step2, rel⟩
    · obtain ⟨t'', reaches, rel'⟩ := ih (ahead t') (left ▸ less) rel rfl
      exact ⟨t'', .head step2 reaches, rel'⟩
    · rw [next] at stopped
      cases stopped

theorem forward {s s' : σ} {t : τ} (start : R s t) (reaches : Reaches step s s') :
    ∃ t', Reaches step' t t' ∧ R s' t' := by
  obtain ⟨n, ran⟩ := reaches
  induction n generalizing s t with
  | zero => exact ⟨t, .refl t, Option.some.inj ran ▸ start⟩
  | succ n ih =>
    rw [run, Option.bind_eq_some_iff] at ran
    obtain ⟨mid, next, ran⟩ := ran
    obtain ⟨t', first, rel⟩ := h.one start next
    obtain ⟨t'', rest, rel'⟩ := ih rel ran
    exact ⟨t'', first.trans rest, rel'⟩

theorem backward {s : σ} {t t' : τ} (start : R s t) (reaches : Reaches step' t t') :
    ∃ s', Reaches step s s' ∧ R s' t' := by
  obtain ⟨n, ran⟩ := reaches
  induction n generalizing s t with
  | zero => exact ⟨s, .refl s, Option.some.inj ran ▸ start⟩
  | succ n ih =>
    rw [run, Option.bind_eq_some_iff] at ran
    obtain ⟨mid, next, ran⟩ := ran
    rcases h s t start with ⟨s', u, step1, both, rel⟩ | ⟨u, alone, rel, -⟩ | ⟨-, stopped⟩
    · obtain rfl := Option.some.inj (next.symm.trans both)
      obtain ⟨s'', reaches, rel'⟩ := ih rel ran
      exact ⟨s'', .head step1 reaches, rel'⟩
    · obtain rfl := Option.some.inj (next.symm.trans alone)
      exact ih rel ran
    · rw [next] at stopped
      cases stopped

theorem final {s : σ} {t : τ} (start : R s t) (stopped : step s = none) :
    ∃ t', Reaches step' t t' ∧ step' t' = none ∧ R s t' := by
  induction left : ahead t using Nat.strongRecOn generalizing t with
  | ind n ih =>
    rcases h s t start with ⟨s', -, next, -⟩ | ⟨t', next, rel, less⟩ | ⟨-, final⟩
    · rw [stopped] at next
      cases next
    · obtain ⟨t'', reaches, final, rel'⟩ := ih (ahead t') (left ▸ less) rel rfl
      exact ⟨t'', .head next reaches, final, rel'⟩
    · exact ⟨t, .refl t, final, start⟩

theorem final_of {s : σ} {t : τ} (rel : R s t) (stopped : step' t = none) : step s = none := by
  rcases h s t rel with ⟨-, t', -, next, -⟩ | ⟨t', next, -⟩ | ⟨final, -⟩
  · rw [stopped] at next
    cases next
  · rw [stopped] at next
    cases next
  · exact final

end Stutters

end Ctds.Transition
