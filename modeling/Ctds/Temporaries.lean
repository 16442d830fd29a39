import Ctds.Labels
import Ctds.Lib.NameReuse

/-! Where temporaries are defined and used in the code. Each is defined once, in the order
of the numbers, and used behind its definition with no LABEL or ENTER in between. -/

namespace Ctds

open NameReuse

def Var.temps : Var → List Nat
  | temp n => [n]
  | user _ => []

namespace IrInstr

/-- The temporaries it reads, in the order of its operands. -/
def uses : IrInstr → List Nat
  | store source _ => source.temps
  | binary _ left right _ => left.temps ++ right.temps
  | shiftRight left _ _ | unary _ left _ => left.temps
  | jmpf condition _ => condition.temps
  | param arg => arg.temps
  | ret value => value.toList.flatMap Var.temps
  | _ => []

def dest? : IrInstr → Option Nat
  | loadval _ dest | binary _ _ _ dest | shiftRight _ _ dest | unary _ _ dest | call _ dest =>
    some dest
  | _ => none

/-- Behind a LABEL or an ENTER no earlier temporary is used. -/
def floor (low k : Nat) : IrInstr → Nat
  | label _ | enter _ => k
  | _ => low

def temps (i : IrInstr) : List Nat := i.uses ++ i.dest?.toList

end IrInstr

def occurrences (code : List IrInstr) : List Nat := code.flatMap IrInstr.temps

def definedIn (code : List IrInstr) : List Nat := code.filterMap IrInstr.dest?

def usedIn (code : List IrInstr) : List Nat := code.flatMap IrInstr.uses

theorem occurrences_append (code code' : List IrInstr) :
    occurrences (code ++ code') = occurrences code ++ occurrences code' := List.flatMap_append

theorem usedIn_sub_occurrences {code : List IrInstr} {t : Nat} (mem : t ∈ usedIn code) :
    t ∈ occurrences code := by
  obtain ⟨i, here, used⟩ := List.mem_flatMap.mp mem
  exact List.mem_flatMap.mpr ⟨i, here, List.mem_append_left _ used⟩

/-- Code that defines the temporaries from the second number up to the last, and in front
of its first LABEL uses none below the first number. -/
inductive Ranges : Nat → Nat → List IrInstr → Nat → Nat → Prop where
  | nil (low k : Nat) : Ranges low k [] low k
  | cons {low k low' k' : Nat} {i : IrInstr} {rest : List IrInstr} :
    (∀ t ∈ i.uses, low ≤ t ∧ t < k) → (∀ d ∈ i.dest?, d = k) →
    Ranges (i.floor low k) (k + i.dest?.toList.length) rest low' k' →
    Ranges low k (i :: rest) low' k'

namespace Ranges

variable {low k low' k' low'' k'' : Nat} {code code' : List IrInstr}

theorem append (h : Ranges low k code low' k') (h' : Ranges low' k' code' low'' k'') :
    Ranges low k (code ++ code') low'' k'' := by
  induction h with
  | nil => exact h'
  | cons uses dest _ ih => exact .cons uses dest (ih h')

theorem split (h : Ranges low k (code ++ code') low'' k'') :
    ∃ low' k', Ranges low k code low' k' ∧ Ranges low' k' code' low'' k'' := by
  induction code generalizing low k with
  | nil => exact ⟨low, k, .nil low k, h⟩
  | cons i rest ih =>
    cases h with
    | cons uses dest later =>
      obtain ⟨low', k', first, second⟩ := ih later
      exact ⟨low', k', .cons uses dest first, second⟩

theorem plain {i : IrInstr} (uses : ∀ t ∈ i.uses, low ≤ t ∧ t < k) (dest : i.dest? = none) :
    Ranges low k [i] (i.floor low k) k := by
  refine .cons uses (by simp [dest]) ?_
  rw [dest]
  exact .nil _ k

theorem defines {i : IrInstr} (uses : ∀ t ∈ i.uses, low ≤ t ∧ t < k) (dest : i.dest? = some k)
    (inside : i.floor low k = low) : Ranges low k [i] low (k + 1) := by
  refine .cons uses (by simp [dest]) ?_
  rw [dest, inside]
  exact .nil low (k + 1)

theorem le (h : Ranges low k code low' k') : k ≤ k' := by
  induction h with
  | nil => exact Nat.le_refl _
  | cons _ _ _ ih => omega

theorem floor_le {i : IrInstr} (le : low ≤ k) : i.floor low k ≤ k ∧ low ≤ i.floor low k := by
  unfold IrInstr.floor
  split <;> omega

theorem floor_le_temp (h : Ranges low k code low' k') (le : low ≤ k) : low' ≤ k' := by
  induction h with
  | nil => exact le
  | @cons low k low' k' i rest _ _ _ ih =>
    have floor := floor_le (i := i) le
    exact ih (by omega)

/-- The occurrences are those of the temporaries defined, in order. -/
theorem inOrder (h : Ranges low k code low' k') : InOrder k (occurrences code) k' := by
  induction h with
  | nil => exact rfl
  | @cons low k low' k' i rest uses dest _ ih =>
    rw [← List.singleton_append, occurrences_append]
    refine InOrder.append ?_ ih
    have used : InOrder k i.uses k := .old fun t mem => (uses t mem).2
    have one : occurrences [i] = i.uses ++ i.dest?.toList := by simp [occurrences, IrInstr.temps]
    rw [one]
    refine used.append ?_
    cases defined : i.dest? with
    | none => exact rfl
    | some d =>
      obtain rfl := dest d defined
      exact .one d

theorem defined_eq (h : Ranges low k code low' k') :
    definedIn code = List.range' k (k' - k) := by
  induction h with
  | nil => simp [definedIn]
  | @cons low k low' k' i rest uses dest later ih =>
    have le := later.le
    rw [definedIn, List.filterMap_cons]
    cases defined : i.dest? with
    | none =>
      rw [defined] at ih
      exact ih
    | some d =>
      obtain rfl := dest d defined
      rw [defined] at ih le
      simp only [Option.toList_some, List.length_singleton] at ih le
      have size : k' - d = (k' - (d + 1)) + 1 := by omega
      rw [size, List.range'_succ, ← ih]
      rfl

theorem defined_iff (h : Ranges low k code low' k') (t : Nat) :
    t ∈ definedIn code ↔ k ≤ t ∧ t < k' := by
  have le := h.le
  rw [h.defined_eq, List.mem_range'_1]
  omega

theorem used_ge (h : Ranges low k code low' k') (le : low ≤ k) {t : Nat} (mem : t ∈ usedIn code) :
    low ≤ t := by
  induction h with
  | nil => cases mem
  | @cons low k low' k' i rest uses dest later ih =>
    have floor := floor_le (i := i) le
    rw [usedIn, List.flatMap_cons, List.mem_append] at mem
    rcases mem with mem | mem
    · exact (uses t mem).1
    · exact floor.2.trans (ih (by omega) mem)

end Ranges

theorem Operands.results {t u : Nat} {code : List IrInstr} {rs : List Var}
    (h : Operands t code rs u) : ∀ n ∈ rs.flatMap Var.temps, t ≤ n ∧ n < u := by
  induction h with
  | nil | user | load => simp [Var.temps]
  | loadval => simp [Var.temps]
  | @cons t u v code code' r rs first rest ih ih' =>
    intro n mem
    have le := first.temps_le
    have le' := rest.temps_le
    rw [← List.singleton_append, List.flatMap_append, List.mem_append] at mem
    rcases mem with mem | mem
    · have := ih n mem
      omega
    · have := ih' n mem
      omega
  | binary _ h _ | shiftRight _ h _ | unary _ h _ | call _ h _ =>
    intro n mem
    have le := h.temps_le
    simp only [List.flatMap_cons, List.flatMap_nil, Var.temps, List.append_nil,
      List.mem_singleton] at mem
    omega

theorem Ranges.params {low k : Nat} {rs : List Var}
    (inside : ∀ n ∈ rs.flatMap Var.temps, low ≤ n ∧ n < k) :
    Ranges low k (rs.map .param) low k := by
  induction rs with
  | nil => exact .nil low k
  | cons r rs ih =>
    have split : ∀ n, n ∈ r.temps ∨ n ∈ rs.flatMap Var.temps → low ≤ n ∧ n < k := fun n mem =>
      inside n (by rwa [List.flatMap_cons, List.mem_append])
    have first : Ranges low k [.param r] low k := .plain (fun n mem => split n (.inl mem)) rfl
    exact first.append (ih fun n mem => split n (.inr mem))

theorem Operands.ranges {t u : Nat} {code : List IrInstr} {rs : List Var}
    (h : Operands t code rs u) {low : Nat} (le : low ≤ t) : Ranges low t code low u := by
  have above : ∀ {r : List Var} {t u : Nat} {code : List IrInstr}, Operands t code r u → low ≤ t →
      ∀ n ∈ r.flatMap Var.temps, low ≤ n ∧ n < u := by
    intro r t u code operands le n mem
    have range := operands.results n mem
    omega
  induction h with
  | nil | user => exact .nil low _
  | load x t => exact .plain (by simp [IrInstr.uses]) rfl
  | loadval v t => exact .defines (by simp [IrInstr.uses]) rfl rfl
  | cons first rest ih ih' => exact (ih le).append (ih' (le.trans first.temps_le))
  | binary op operands ih =>
    refine (ih le).append (.defines (fun n mem => above operands le n ?_) rfl rfl)
    simpa [IrInstr.uses] using mem
  | shiftRight count operands ih | unary op operands ih =>
    refine (ih le).append (.defines (fun n mem => above operands le n ?_) rfl rfl)
    simpa [IrInstr.uses] using mem
  | call f operands ih =>
    exact ((ih le).append (.params (above operands le))).append
      (.defines (by simp [IrInstr.uses]) rfl rfl)

theorem Emits.ranges {c d : Counters} {code : List IrInstr} (h : Emits c code d) {low : Nat}
    (le : low ≤ c.temp) : ∃ low', low' ≤ d.temp ∧ Ranges low c.temp code low' d.temp := by
  have result : ∀ {t u : Nat} {code : List IrInstr} {r : Var} {low : Nat}, Operands t code [r] u →
      low ≤ t → ∀ n ∈ r.temps, low ≤ n ∧ n < u := by
    intro t u code r low operands le n mem
    have range := operands.results n (by simpa using mem)
    omega
  have label : ∀ (low k n : Nat), Ranges low k [.label n] k k := fun low k n =>
    .plain (by simp [IrInstr.uses]) rfl
  have jmp : ∀ (low k n : Nat), Ranges low k [.jmp n] low k := fun low k n =>
    .plain (by simp [IrInstr.uses]) rfl
  induction h generalizing low with
  | nil c => exact ⟨low, le, .nil low c.temp⟩
  | append _ _ ih ih' =>
    obtain ⟨mid, le', first⟩ := ih le
    obtain ⟨last, le'', second⟩ := ih' le'
    exact ⟨last, le'', first.append second⟩
  | eval operands => exact ⟨low, le.trans operands.temps_le, operands.ranges le⟩
  | store x operands | ret operands =>
    refine ⟨low, le.trans operands.temps_le, (operands.ranges le).append (.plain ?_ rfl)⟩
    intro n mem
    exact result operands le n (by simpa [IrInstr.uses] using mem)
  | storeVal v x c | retNone c => exact ⟨low, le, .plain (by simp [IrInstr.uses]) rfl⟩
  | @branch t u l d e code thenCode elseCode r operands thenEmits elseEmits ihThen ihElse =>
    have le' := le.trans operands.temps_le
    obtain ⟨mid, leMid, thenRanges⟩ := ihThen le'
    obtain ⟨last, leLast, elseRanges⟩ := ihElse (Nat.le_refl d.temp)
    have condition : Ranges low u [.jmpf r l] low u := .plain (result operands le) rfl
    refine ⟨e.temp, Nat.le_refl _, ?_⟩
    have all := (((((operands.ranges le).append condition).append thenRanges).append
      (jmp _ _ (l + 1))).append (label _ _ l)).append (elseRanges.append (label _ _ (l + 1)))
    simpa using all
  | @loop t u l d code body r operands bodyEmits ih =>
    obtain ⟨mid, leMid, bodyRanges⟩ := ih operands.temps_le
    have condition : Ranges t u [.jmpf r (l + 1)] t u :=
      .plain (result operands (Nat.le_refl t)) rfl
    refine ⟨d.temp, Nat.le_refl _, ?_⟩
    have all := ((((label low t l).append (operands.ranges (Nat.le_refl t))).append
      condition).append
      bodyRanges).append ((jmp _ _ l).append (label _ _ (l + 1)))
    simpa using all

theorem Ranges.outer {code : List IrInstr} (outer : ∀ i ∈ code, i.isInner = false) {low k : Nat}
    (le : low ≤ k) : ∃ low', low' ≤ k ∧ Ranges low k code low' k := by
  induction code generalizing low with
  | nil => exact ⟨low, le, .nil low k⟩
  | cons i rest ih =>
    obtain ⟨low', le', later⟩ := ih (fun j mem => outer j (List.mem_cons_of_mem i mem))
      (Ranges.floor_le (i := i) le).1
    refine ⟨low', le', ?_⟩
    have here := outer i List.mem_cons_self
    have one : Ranges low k [i] (i.floor low k) k := by
      cases i with
      | enter _ | leave _ | externDecl _ => exact .plain (by simp [IrInstr.uses]) rfl
      | _ => cases here
    exact one.append later

theorem programCode_ranges (env : Env) {tab : SymbolTable} {sentences : List AstNode}
    (shape : ∀ node ∈ sentences, isSentence tab node = true) (c : Counters) {low : Nat}
    (le : low ≤ c.temp) :
    ∃ low', Ranges low c.temp (programCode env tab sentences c).1 low'
      (programCode env tab sentences c).2.temp := by
  induction sentences generalizing c low with
  | nil => exact ⟨low, .nil low c.temp⟩
  | cons sentence rest ih =>
    obtain ⟨pre, code, post, eq, emits, outer⟩ :=
      sentenceCode_emits env (shape sentence List.mem_cons_self) c
    obtain ⟨low1, le1, opens⟩ :=
      Ranges.outer (fun i mem => outer i (List.mem_append_left post mem)) le
    obtain ⟨low2, le2, inner⟩ := emits.ranges le1
    obtain ⟨low3, le3, closes⟩ :=
      Ranges.outer (fun i mem => outer i (List.mem_append_right pre mem)) le2
    obtain ⟨low', later⟩ := ih (fun node mem => shape node (List.mem_cons_of_mem _ mem)) _ le3
    refine ⟨low', ?_⟩
    rw [programCode, eq]
    exact ((opens.append inner).append closes).append later

end Ctds
