import Ctds.Lib.Transition

/-! A machine that asks for answers as it runs, beside a second machine that only knows
some of them when it gets there. A clock counts what was asked. If the first machine stops
under all good answers, and the second follows each of its steps under good answers that
differ only in what is still to be asked, then under some good answers both come to the
end together. -/

namespace Ctds.Transition

universe u v w x
variable {σ : Type u} {τ : Type v} {Q : Type w} {A : Type x}

/-- The same answers to the questions of a rank below `n`. -/
def AgreeBelow (rank : Q → Nat) (n : Nat) (o o' : Q → A) : Prop := ∀ q, rank q < n → o q = o' q

theorem AgreeBelow.mono {rank : Q → Nat} {m n : Nat} {o o' : Q → A} (h : AgreeBelow rank n o o')
    (le : m ≤ n) : AgreeBelow rank m o o' := fun q lt => h q (Nat.lt_of_lt_of_le lt le)

/-- A step looks only at answers of the rank that the clock shows, and when it looks at one
the clock goes on. -/
structure Asks (rank : Q → Nat) (step : (Q → A) → σ → Option σ) (clock : σ → Nat) : Prop where
  mono : ∀ o s s', step o s = some s' → clock s ≤ clock s'
  quiet : ∀ o o' s s', step o s = some s' → clock s' = clock s → step o' s = some s'
  asked : ∀ o o' s, AgreeBelow rank (clock s + 1) o o' → step o s = step o' s

namespace Asks

variable {rank : Q → Nat} {step : (Q → A) → σ → Option σ} {clock : σ → Nat} {step' : τ → Option τ}
  (asks : Asks rank step clock)

include asks

theorem clock_le {o : Q → A} {s t : σ} (reaches : Reaches (step o) s t) : clock s ≤ clock t :=
  reaches.invariant (P := fun t => clock s ≤ clock t)
    (fun t u le next => Nat.le_trans le (asks.mono o t u next)) (Nat.le_refl _)

/-- A run depends only on the answers to what it asked. -/
theorem run_agree {o o' : Q → A} {n : Nat} {s t : σ} (ran : run (step o) n s = some t)
    (agree : AgreeBelow rank (clock t) o o') : run (step o') n s = some t := by
  induction n generalizing s with
  | zero => exact ran
  | succ n ih =>
    rw [run, Option.bind_eq_some_iff] at ran
    obtain ⟨mid, next, rest⟩ := ran
    have before := asks.mono o s mid next
    have after := asks.clock_le ⟨n, rest⟩
    have same : step o' s = some mid := by
      rcases Nat.eq_or_lt_of_le before with eq | lt
      · exact asks.quiet o o' s mid next eq.symm
      · rw [← asks.asked o o' s (agree.mono (Nat.lt_of_lt_of_le lt after)), next]
    rw [run_succ same]
    exact ih rest

variable {good : (Q → A) → Prop} {R : σ → τ → Prop} {s₀ : σ} {t₀ : τ} {bound : Nat}

theorem follow
    (halts : ∀ o, good o → ∃ t, Reaches (step o) s₀ t ∧ step o t = none ∧ clock t ≤ bound)
    (follows : ∀ o s t s', good o → Reaches (step o) s₀ s → R s t → step o s = some s' →
      ∃ o', good o' ∧ AgreeBelow rank (clock s) o o' ∧
        ∃ s'' t', step o' s = some s'' ∧ Reaches step' t t' ∧ R s'' t')
    {o₀ : Q → A} (start : good o₀) (related : R s₀ t₀) :
    ∃ o s t, good o ∧ Reaches (step o) s₀ s ∧ step o s = none ∧ Reaches step' t₀ t ∧ R s t := by
  -- on the clock that is left, and inside one reading of the clock on the steps that are left
  have onward : ∀ d, ∀ o s t, good o → Reaches (step o) s₀ s → Reaches step' t₀ t → R s t →
      bound - clock s = d → ∃ o s t, good o ∧ Reaches (step o) s₀ s ∧ step o s = none ∧
        Reaches step' t₀ t ∧ R s t := by
    intro d
    induction d using Nat.strongRecOn with
    | ind d ih =>
      intro o s t isGood came came' rel left
      obtain ⟨last, ends, final, -⟩ := halts o isGood
      obtain ⟨n, ran⟩ := ends.rest final came
      induction n generalizing s t with
      | zero => exact ⟨o, s, t, isGood, came, Option.some.inj ran ▸ final, came', rel⟩
      | succ n steps =>
        rw [run, Option.bind_eq_some_iff] at ran
        obtain ⟨mid, next, ran⟩ := ran
        obtain ⟨o', isGood', agree, s'', t', next', reaches, rel'⟩ :=
          follows o s t mid isGood came rel next
        obtain ⟨k, ranTo⟩ := came
        have came'' := Reaches.tail ⟨k, asks.run_agree ranTo agree⟩ next'
        rcases Nat.eq_or_lt_of_le (asks.mono o' s s'' next') with eq | lt
        · obtain rfl := Option.some.inj (next.symm.trans (asks.quiet o' o s s'' next' eq.symm))
          exact steps mid t' (.tail ⟨k, ranTo⟩ next) (came'.trans reaches) rel' (eq ▸ left) ran
        · obtain ⟨last', ends', final', low⟩ := halts o' isGood'
          have inside := asks.clock_le (ends'.rest final' came'')
          exact ih _ (by omega) o' s'' t' isGood' came'' (came'.trans reaches) rel' rfl
  exact onward _ o₀ s₀ t₀ start (.refl _) (.refl _) related rfl

end Asks

end Ctds.Transition
