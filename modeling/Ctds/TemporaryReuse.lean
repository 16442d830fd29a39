import Ctds.Lib.Intervals
import Ctds.LiteralDivision

/-! `optimize_memory` as a colouring of intervals. The temporaries span the operands from their
first occurrence to their last; `get_free` hands out the least name that is not in use, so the
names that are left are as many as temporaries span one operand together, and no fewer would do. -/

namespace Ctds

open NameReuse Intervals

/-- The names opening with `$`, in the order in which `emit` and `optimize_memory` meet them. -/
def tempNames (heap : Nat → CString) (code : List (Instr NamePtr)) : List CString :=
  ((code.flatMap Instr.operands).map (NamePtr.text heap)).filter (startsWith '$')

theorem tempText_injective : Function.Injective tempText := fun _ _ same => tempText_inj same

theorem tempNames_append (env : Env) (code : List IrInstr) (c : Counters) (ρ : Nat → Nat) :
    tempNames (tempHeap ρ) (resetCode.append env code c).code =
      (occurrences code).map (tempText ∘ ρ) := by
  rw [tempNames, append_operands, dollar_texts (operands_plain code), operands_occurrences]

/-- The pass keeps overlapping temporaries apart, with as many names as temporaries overlap in
one place; every renaming that keeps them apart has at least as many. -/
structure ReusesOptimally (gen : GenState) (s : OptState) : Prop where
  crowded : (tempNames s.heap gen.code).toFinset.card = crowd (tempNames tempText gen.code)
  apart : ∃ ρ : CString → CString, Apart ρ (tempNames tempText gen.code) ∧
    tempNames s.heap gen.code = (tempNames tempText gen.code).map ρ
  least : ∀ ρ : CString → CString, Apart ρ (tempNames tempText gen.code) →
    (tempNames s.heap gen.code).toFinset.card ≤
      ((tempNames tempText gen.code).map ρ).toFinset.card

theorem pass_reuses {env : Env} {code : List IrInstr} {low : Nat} {c : Counters} {s : OptState}
    {ρ : Nat → Nat} (ranges : Ranges 0 0 code low c.temp) (heap : s.heap = tempHeap ρ)
    (fits : FirstFit 0 id (occurrences code) ρ) :
    ReusesOptimally (resetCode.append env code c) s := by
  have order := ranges.inOrder
  have before : tempNames tempText (resetCode.append env code c).code =
      (occurrences code).map tempText := tempNames_append env code c id
  have behind : tempNames s.heap (resetCode.append env code c).code =
      (occurrences code).map (tempText ∘ ρ) := by
    rw [heap, tempNames_append]
  have count : (tempNames s.heap (resetCode.append env code c).code).toFinset.card =
      crowd (tempNames tempText (resetCode.append env code c).code) := by
    rw [behind, before, crowd_map tempText_injective, ← firstFit_card fits order, ← List.map_map,
      toFinset_map, Finset.card_image_of_injective _ tempText_injective]
  have renamed : Function.extend tempText (tempText ∘ ρ) id ∘ tempText = tempText ∘ ρ :=
    funext fun n => tempText_injective.extend_apply _ _ n
  refine ⟨count, ⟨Function.extend tempText (tempText ∘ ρ) id, ?_, ?_⟩, ?_⟩
  · rw [before, apart_map tempText_injective, renamed]
    intro p a memA b memB same
    exact apart_of_separated fits.gives.separated order p memA memB (tempText_injective same)
  · rw [behind, before, List.map_map, renamed]
  · intro σ apart
    rw [count]
    exact apart.crowd_le

/-- `optimize_memory` comes to an end and leaves as few names as any renaming can, exactly if
`malloc` left null words in the lists of the entries. -/
theorem temporary_reuse_optimal_iff {env : Env} {prog : ProgramSyn} {checked : Checked}
    (accepted : frontEnd env prog = .ok checked) :
    let gen := intermediateCode env checked
    (∃ s, optimizePass gen = some s ∧ ReusesOptimally gen s) ↔ NullLists env gen :=
  optimizePass_iff (frontEnd_compilable accepted).shape pass_reuses

/-- Of the six temporaries of `(x + 1) * (x + 2)` two overlap, never three. -/
theorem temporary_reuse_optimal_product :
    ∃ checked s, frontEnd (.sample true) productOfSums = .ok checked ∧
      let gen := intermediateCode (.sample true) checked
      let original := tempNames tempText gen.code
      optimizePass gen = some s ∧ crowd original = 2 ∧
      (tempNames s.heap gen.code).toFinset.card = crowd original ∧
      ∀ ρ : CString → CString, Apart ρ original → 2 ≤ (original.map ρ).toFinset.card := by
  obtain ⟨checked, accepted⟩ := Fallible.isOk_iff.mp (by decide +kernel :
    (frontEnd (.sample true) productOfSums).isOk = true)
  have facts : (frontEnd (.sample true) productOfSums).toOption.map (fun c =>
      crowd (tempNames tempText (intermediateCode (.sample true) c).code)) = some 2 := by
    decide +kernel
  obtain ⟨s, optimized, count, -, optimal⟩ :=
    (temporary_reuse_optimal_iff accepted).mpr fun _ _ => rfl
  simp only [accepted, Except.toOption, Option.map_some, Option.some.injEq] at facts
  refine ⟨checked, s, accepted, optimized, facts, count, fun ρ apart => ?_⟩
  rw [← facts, ← count]
  exact optimal ρ apart

/-- Where the entries were taken as found there is no pass, and so no names left by it. -/
theorem temporary_reuse_lost :
    ∃ checked, frontEnd .recycled deepParentheses = .ok checked ∧
      ¬ ∃ s, optimizePass (intermediateCode .recycled checked) = some s ∧
        ReusesOptimally (intermediateCode .recycled checked) s := by
  obtain ⟨checked, accepted, lost⟩ := optimizePass_recycled
  refine ⟨checked, accepted, ?_⟩
  rintro ⟨s, pass, -⟩
  cases pass.symm.trans lost

end Ctds
