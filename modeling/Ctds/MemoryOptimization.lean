import Ctds.IrSemantics
import Ctds.NameTable
import Ctds.Renaming
import Ctds.Temporaries

/-! `optimize_memory` keeps the behaviour of a program where `malloc` left null words in the
lists of the entries, and nowhere else has it lists to walk. A temporary is live where it
has been defined and is used later; nothing is live at a LABEL, and a temporary never
gets the name of one that is live. So the stores of the two codes agree on the variables
of the program and on the live temporaries, each under its name. -/

namespace Ctds

open NameReuse Transition

def NamePtr.temp? : NamePtr → Option Nat
  | temp n => some n
  | str _ => none

theorem sources_temps (i : IrInstr) : i.instr.sources.filterMap NamePtr.temp? = i.uses := by
  have var : ∀ x : Var, [x.ptr].filterMap NamePtr.temp? = x.temps := by
    intro x
    cases x <;> rfl
  have str : ∀ text : CString, [NamePtr.str text].filterMap NamePtr.temp? = [] := fun _ => rfl
  cases i with
  | ret value =>
    cases value with
    | none => rfl
    | some x => cases x <;> rfl
  | _ =>
    simp only [IrInstr.instr, Instr.sources, Option.toList, List.filterMap_append, var, str,
      IrInstr.uses, List.append_nil]

theorem reg_temp (i : IrInstr) : i.instr.reg.bind NamePtr.temp? = i.dest? := by
  cases i <;> rfl

theorem operands_temps (i : IrInstr) : i.instr.operands.filterMap NamePtr.temp? = i.temps := by
  have split : i.instr.operands = i.instr.sources ++ i.instr.reg.toList := rfl
  rw [split, List.filterMap_append, sources_temps, IrInstr.temps, ← reg_temp]
  cases i.instr.reg with
  | none => rfl
  | some ptr => cases ptr <;> rfl

section Plain

variable {operands : List NamePtr}
  (plain : ∀ text, .str text ∈ operands → ¬ startsWith '$' text = true)

include plain

theorem countOperands_temps (env : Env) (list : List CantApTemp) :
    operands.foldlM (countOperand env) list =
      ((operands.filterMap NamePtr.temp?).map NamePtr.temp).foldlM (countOperand env) list := by
  induction operands generalizing list with
  | nil => rfl
  | cons op rest ih =>
    have later := ih fun text mem => plain text (List.mem_cons_of_mem _ mem)
    cases op with
    | temp n =>
      have head : (NamePtr.temp n :: rest).filterMap NamePtr.temp? =
          n :: rest.filterMap NamePtr.temp? := rfl
      rw [head, List.map_cons, List.foldlM_cons, List.foldlM_cons]
      exact congrArg _ (funext later)
    | str text =>
      have skipped : countOperand env list (.str text) = some list :=
        if_neg (plain text List.mem_cons_self)
      rw [List.foldlM_cons, skipped]
      exact later list

theorem checkOperands_temps (s : OptState) :
    checkOperands operands s =
      checkOperands ((operands.filterMap NamePtr.temp?).map NamePtr.temp) s := by
  induction operands generalizing s with
  | nil => rfl
  | cons op rest ih =>
    have later := ih fun text mem => plain text (List.mem_cons_of_mem _ mem)
    cases op with
    | temp n =>
      have head : (NamePtr.temp n :: rest).filterMap NamePtr.temp? =
          n :: rest.filterMap NamePtr.temp? := rfl
      rw [head, List.map_cons, checkOperands, checkOperands]
      exact congrArg _ (funext later)
    | str text =>
      have skipped : checkOptimize s (.str text) = some s := if_neg (plain text List.mem_cons_self)
      rw [checkOperands, skipped]
      exact later s

theorem dollar_texts (ρ : Nat → Nat) :
    (operands.map (NamePtr.text (tempHeap ρ))).filter (startsWith '$') =
      (operands.filterMap NamePtr.temp?).map (tempText ∘ ρ) := by
  induction operands with
  | nil => rfl
  | cons op rest ih =>
    have later := ih fun text mem => plain text (List.mem_cons_of_mem _ mem)
    cases op with
    | temp n =>
      have dollar : startsWith '$' (tempText (ρ n)) = true := rfl
      rw [List.map_cons, NamePtr.text, tempHeap, List.filter_cons_of_pos dollar, later]
      rfl
    | str text =>
      rw [List.map_cons, NamePtr.text,
        List.filter_cons_of_neg (plain text List.mem_cons_self), later]
      rfl

theorem count_text (ρ : Nat → Nat) (j : Nat) :
    (operands.map (NamePtr.text (tempHeap ρ))).count (tempText j) =
      ((operands.filterMap NamePtr.temp?).map ρ).count j := by
  have dollar : startsWith '$' (tempText j) = true := rfl
  rw [← List.count_filter dollar, dollar_texts plain, ← List.map_map,
    List.count_map_of_injective _ _ fun _ _ same => tempText_inj same]

end Plain

theorem operands_plain (code : List IrInstr) (text : CString)
    (mem : .str text ∈ code.flatMap fun i => i.instr.operands) : ¬ startsWith '$' text = true := by
  intro dollar
  obtain ⟨i, -, here⟩ := List.mem_flatMap.mp mem
  obtain ⟨n, eq⟩ := operand_dollar here dollar
  cases eq

theorem operands_occurrences (code : List IrInstr) :
    (code.flatMap fun i => i.instr.operands).filterMap NamePtr.temp? = occurrences code := by
  rw [List.filterMap_flatMap]
  exact congrArg code.flatMap (funext operands_temps)

theorem append_operands (env : Env) (code : List IrInstr) (c : Counters) :
    (resetCode.append env code c).code.flatMap Instr.operands =
      code.flatMap fun i => i.instr.operands := by
  rw [GenState.append, resetCode, List.nil_append, List.flatMap_map]

/-- The words that `malloc` left in the lists of the entries made for the temporaries. -/
def NullLists (env : Env) (gen : GenState) : Prop := ∀ n < gen.tempCounter, env.freshList n = 0

section Pass

variable {env : Env} {code : List IrInstr} {low : Nat} {c : Counters}

theorem append_cantApH :
    (resetCode.append env code c).cantApH =
      ((occurrences code).map NamePtr.temp).foldlM (countOperand env) (countTable [] 0) := by
  rw [← operands_occurrences, ← countOperands_temps (operands_plain code)]
  rfl

variable (ranges : Ranges 0 0 code low c.temp)

include ranges

theorem append_countTable (null : NullLists env (resetCode.append env code c)) :
    (resetCode.append env code c).cantApH = some (countTable (occurrences code) c.temp) := by
  rw [append_cantApH]
  exact countOperands_eq ranges.inOrder (by simp) null

theorem optimizePass_stale {n : Nat} (lt : n < c.temp) (stale : env.freshList n ≠ 0) :
    optimizePass (resetCode.append env code c) = none := by
  have lost : (resetCode.append env code c).cantApH = none := by
    rw [append_cantApH]
    exact countOperands_none ranges.inOrder (by simp) (Nat.zero_le n) lt stale
  rw [optimizePass, lost]
  rfl

/-- The walk ends, and every temporary has the least name that was free when it first occurred. -/
theorem optimizePass_firstFit (null : NullLists env (resetCode.append env code c)) :
    ∃ s ρ, optimizePass (resetCode.append env code c) = some s ∧
      s.heap = tempHeap ρ ∧ FirstFit 0 id (occurrences code) ρ := by
  have walk : Walk ⟨tempText, countTable (occurrences code) c.temp⟩ id 0 c.temp
      (occurrences code) := Walk.start c.temp
  obtain ⟨s, ρ, walked, heap, fits⟩ := walk.run (Walk.startOwned _ _ _) ranges.inOrder
  refine ⟨s, ρ, ?_, heap, fits⟩
  rw [optimizePass, append_countTable ranges null, Option.bind_some, optimizeMemory,
    append_operands, checkOperands_temps (operands_plain code), operands_occurrences, walked]

end Pass

section Program

variable {env : Env} {tab : SymbolTable} {sentences : List AstNode}
  (shape : ∀ node ∈ sentences, isSentence tab node = true)

include shape

theorem genSentences_reset : genSentences env tab sentences resetCode =
    resetCode.append env (programCode env tab sentences ⟨0, 0⟩).1
      (programCode env tab sentences ⟨0, 0⟩).2 :=
  genSentences_eq env tab shape resetCode

/-- Behind a word that is not null there is no pass. -/
theorem nullLists_of_pass {s : OptState}
    (pass : optimizePass (genSentences env tab sentences resetCode) = some s) :
    NullLists env (genSentences env tab sentences resetCode) := by
  obtain ⟨low, ranges⟩ := programCode_ranges env shape ⟨0, 0⟩ (Nat.le_refl 0)
  have emitted := @genSentences_reset env tab sentences shape
  rw [emitted] at pass ⊢
  intro n lt
  by_contra stale
  rw [optimizePass_stale ranges lt stale] at pass
  cases pass

/-- The walk over the code that `gen_code` emits for a program. -/
theorem optimizePass_program (null : NullLists env (genSentences env tab sentences resetCode)) :
    ∃ code c low s ρ, programCode env tab sentences ⟨0, 0⟩ = (code, c) ∧
      genSentences env tab sentences resetCode = resetCode.append env code c ∧
      Ranges 0 0 code low c.temp ∧ optimizePass (resetCode.append env code c) = some s ∧
      s.heap = tempHeap ρ ∧ FirstFit 0 id (occurrences code) ρ := by
  obtain ⟨low, ranges⟩ := programCode_ranges env shape ⟨0, 0⟩ (Nat.le_refl 0)
  have emitted := @genSentences_reset env tab sentences shape
  rw [emitted] at null
  obtain ⟨s, ρ, optimized, heap, fits⟩ := optimizePass_firstFit ranges null
  exact ⟨_, _, low, s, ρ, rfl, emitted, ranges, optimized, heap, fits⟩

theorem separated_of_pass {s : OptState}
    (pass : optimizePass (genSentences env tab sentences resetCode) = some s) :
    ∃ ρ, s.heap = tempHeap ρ ∧
      Separated ρ 0 (occurrences (programCode env tab sentences ⟨0, 0⟩).1) := by
  obtain ⟨code, c, -, s', ρ, own, emitted, -, optimized, heap, fits⟩ :=
    optimizePass_program shape (nullLists_of_pass shape pass)
  rw [emitted, optimized] at pass
  obtain rfl := Option.some.inj pass
  exact ⟨ρ, heap, by rw [own]; exact fits.gives.separated⟩

/-- What every first fit gives, a pass over the program gives exactly on null words. -/
theorem optimizePass_iff {P : GenState → OptState → Prop}
    (holds : ∀ {code low c s ρ}, Ranges 0 0 code low c.temp → s.heap = tempHeap ρ →
      FirstFit 0 id (occurrences code) ρ → P (resetCode.append env code c) s) :
    let gen := genSentences env tab sentences resetCode
    (∃ s, optimizePass gen = some s ∧ P gen s) ↔ NullLists env gen := by
  intro gen
  constructor
  · rintro ⟨s, pass, -⟩
    exact nullLists_of_pass shape pass
  · intro null
    obtain ⟨code, c, low, s, ρ, -, emitted, ranges, optimized, heap, fits⟩ :=
      optimizePass_program shape null
    rw [show gen = resetCode.append env code c from emitted]
    exact ⟨s, optimized, holds ranges heap fits⟩

end Program

/-- Defined in front of the position, and used at it or behind. -/
def Live (code : List IrInstr) (p t : Nat) : Prop :=
  t ∈ definedIn (code.take p) ∧ t ∈ usedIn (code.drop p)

section Live

variable {code : List IrInstr} {low u p : Nat} {i : IrInstr} (ranges : Ranges 0 0 code low u)
  (here : code[p]? = some i)

include here

theorem code_split : code = code.take p ++ (i :: code.drop (p + 1)) := by
  obtain ⟨lt, rfl⟩ := List.getElem?_eq_some_iff.mp here
  rw [← List.drop_eq_getElem_cons lt, List.take_append_drop]

theorem take_succ_eq : code.take (p + 1) = code.take p ++ [i] := by
  rw [List.take_add_one, here]
  rfl

theorem drop_eq : code.drop p = i :: code.drop (p + 1) := by
  obtain ⟨lt, rfl⟩ := List.getElem?_eq_some_iff.mp here
  exact List.drop_eq_getElem_cons lt

theorem live_succ {t : Nat} (live : Live code (p + 1) t) :
    i.dest? = some t ∨ Live code p t := by
  obtain ⟨defined, used⟩ := live
  rw [take_succ_eq here, definedIn, List.filterMap_append, List.mem_append] at defined
  rcases defined with before | now
  · refine .inr ⟨before, ?_⟩
    rw [drop_eq here, usedIn, List.flatMap_cons, List.mem_append]
    exact .inr used
  · refine .inl ?_
    cases dest : i.dest? with
    | none => simp [dest] at now
    | some d =>
      simp only [List.filterMap_cons, List.filterMap_nil, dest, List.mem_singleton] at now
      rw [now]

include ranges

theorem ranges_at :
    ∃ floor k low', Ranges 0 0 (code.take p) floor k ∧ floor ≤ k ∧
      (∀ t ∈ i.uses, floor ≤ t ∧ t < k) ∧ (∀ d ∈ i.dest?, d = k) ∧
      Ranges (i.floor floor k) (k + i.dest?.toList.length) (code.drop (p + 1)) low' u := by
  rw [code_split here] at ranges
  obtain ⟨floor, k, before, behind⟩ := ranges.split
  have le := before.floor_le_temp (Nat.le_refl 0)
  cases behind with
  | cons uses dest later => exact ⟨floor, k, _, before, le, uses, dest, later⟩

theorem live_of_used {t : Nat} (used : t ∈ i.uses) : Live code p t := by
  obtain ⟨floor, k, low', before, -, uses, -, -⟩ := ranges_at ranges here
  refine ⟨(before.defined_iff t).mpr ⟨Nat.zero_le t, (uses t used).2⟩, ?_⟩
  rw [drop_eq here, usedIn, List.flatMap_cons, List.mem_append]
  exact .inl used

/-- Nothing is live behind a LABEL or an ENTER. -/
theorem not_live_of_floor (outer : ∀ floor k, i.floor floor k = k) {t : Nat} :
    ¬ Live code (p + 1) t := by
  rintro ⟨defined, used⟩
  obtain ⟨floor, k, low', before, le, uses, dest, later⟩ := ranges_at ranges here
  rw [outer] at later
  have none : i.dest? = none := by
    cases i with
    | label _ | enter _ => rfl
    | _ => exact absurd (outer 0 1) (by simp [IrInstr.floor])
  rw [none] at later
  have ge := later.used_ge (Nat.le_refl k) used
  rw [take_succ_eq here, definedIn, List.filterMap_append, List.mem_append] at defined
  rcases defined with first | now
  · have := (before.defined_iff t).mp first
    omega
  · simp [none] at now

theorem not_live_of_label {n : Nat} (isLabel : i = .label n) {t : Nat} : ¬ Live code p t := by
  subst isLabel
  rintro ⟨defined, used⟩
  refine not_live_of_floor ranges here (fun _ _ => rfl) (t := t) ⟨?_, ?_⟩
  · rw [take_succ_eq here, definedIn, List.filterMap_append, List.mem_append]
    exact .inl defined
  · rwa [drop_eq here] at used

theorem name_apart {ρ : Nat → Nat} (separated : Separated ρ 0 (occurrences code)) {d t : Nat}
    (dest : i.dest? = some d) (live : Live code (p + 1) t) (differ : t ≠ d) : ρ t ≠ ρ d := by
  obtain ⟨floor, k, low', before, -, uses, isNext, -⟩ := ranges_at ranges here
  obtain rfl := isNext d dest
  have lt : t < d := by
    rcases live_succ here live with same | old
    · rw [dest, Option.some.injEq] at same
      exact absurd same.symm differ
    · exact ((before.defined_iff t).mp old.1).2
  have used : InOrder d i.uses d := .old fun n mem => (uses n mem).2
  have whole : occurrences code =
      (occurrences (code.take p) ++ i.uses) ++ d :: occurrences (code.drop (p + 1)) := by
    refine (congrArg occurrences (code_split here)).trans ?_
    rw [occurrences_append, occurrences, occurrences, occurrences, List.flatMap_cons, IrInstr.temps,
      dest]
    simp
  rw [whole] at separated
  have behind := separated.append (before.inOrder.append used)
  exact behind.first lt (usedIn_sub_occurrences live.2)

end Live

/-- The variables of the program have their values, and so have the live temporaries. -/
structure Agree (ρ : Nat → Nat) (live : Nat → Prop) (store store' : Store) : Prop where
  plain : ∀ name, startsWith '$' name = false → store name = store' name
  temps : ∀ t, live t → store (tempText t) = store' (tempText (ρ t))

namespace Agree

variable {ρ : Nat → Nat} {live live' : Nat → Prop} {store store' : Store}

theorem mono (h : Agree ρ live store store') (sub : ∀ t, live' t → live t) :
    Agree ρ live' store store' :=
  ⟨h.plain, fun t mem => h.temps t (sub t mem)⟩

theorem var (h : Agree ρ live store store') (x : Var) (read : ∀ t ∈ x.temps, live t) :
    store (x.name id) = store' (x.name ρ) := by
  cases x with
  | temp n => exact h.temps n (read n List.mem_cons_self)
  | user x => exact h.plain x.text (startsWith_ident (by decide) x)

theorem updateUser (h : Agree ρ live store store') (x : Ident) (v : Word) :
    Agree ρ live (Function.update store x.text v) (Function.update store' x.text v) := by
  refine ⟨fun name plain => ?_, fun t mem => ?_⟩
  · by_cases same : name = x.text
    · rw [same, Function.update_self, Function.update_self]
    · rw [Function.update_of_ne same, Function.update_of_ne same]
      exact h.plain name plain
  · rw [Function.update_of_ne (tempText_ne_ident t x),
      Function.update_of_ne (tempText_ne_ident _ x)]
    exact h.temps t mem

theorem updateTemp (h : Agree ρ live store store') (d : Nat) (v : Word)
    (next : ∀ t, live' t → t = d ∨ (live t ∧ ρ t ≠ ρ d)) :
    Agree ρ live' (Function.update store (tempText d) v)
      (Function.update store' (tempText (ρ d)) v) := by
  have other : ∀ name n, startsWith '$' name = false → name ≠ tempText n := by
    rintro name n plain rfl
    cases plain
  refine ⟨fun name plain => ?_, fun t mem => ?_⟩
  · rw [Function.update_of_ne (other name _ plain), Function.update_of_ne (other name _ plain)]
    exact h.plain name plain
  · by_cases same : t = d
    · rw [same, Function.update_self, Function.update_self]
    · obtain ⟨old, apart⟩ := (next t mem).resolve_left same
      rw [Function.update_of_ne fun eq => same (tempText_inj eq),
        Function.update_of_ne fun eq => apart (tempText_inj eq)]
      exact h.temps t old

end Agree

section Step

variable {code : List IrInstr} {low u : Nat} {ρ : Nat → Nat} (ranges : Ranges 0 0 code low u)
  (separated : Separated ρ 0 (occurrences code))

/-- The outcomes of an instruction at this position. -/
def SameEffect (code : List IrInstr) (ρ : Nat → Nat) (p : Nat) :
    Option (Store × Flow) → Option (Store × Flow) → Prop :=
  Option.Rel fun a b => a.2 = b.2 ∧ Agree ρ (Live code (p + 1)) a.1 b.1

include ranges

theorem read_agree {p : Nat} {i : IrInstr} (here : code[p]? = some i) {store store' : Store}
    (agree : Agree ρ (Live code p) store store') (x : Var) (used : ∀ t ∈ x.temps, t ∈ i.uses) :
    store (x.name id) = store' ((x.rename ρ).name id) := by
  rw [Var.rename_name]
  exact agree.var x fun t mem => live_of_used ranges here (used t mem)

theorem assigned_agree {p : Nat} {i : IrInstr} (here : code[p]? = some i) {store store' : Store}
    (agree : Agree ρ (Live code p) store store') : i.assigned id store = i.assigned ρ store' := by
  rw [← rename_assigned ρ]
  exact assigned_renamed (read_agree ranges here agree)

include separated

theorem effect_agree {p : Nat} {i : IrInstr} (here : code[p]? = some i) {store store' : Store}
    (agree : Agree ρ (Live code p) store store') :
    SameEffect code ρ p (i.effect id store) (i.effect ρ store') := by
  have keep : i.dest? = none → Agree ρ (Live code (p + 1)) store store' := by
    intro none
    refine agree.mono fun t live => ?_
    rcases live_succ here live with now | old
    · rw [none] at now
      cases now
    · exact old
  have write : ∀ d, i.dest? = some d → ∀ v : Word, Agree ρ (Live code (p + 1))
      (Function.update store (tempText d) v) (Function.update store' (tempText (ρ d)) v) := by
    intro d dest v
    refine agree.updateTemp d v fun t live => ?_
    rcases live_succ here live with now | old
    · rw [dest, Option.some.injEq] at now
      exact .inl now.symm
    · by_cases same : t = d
      · exact .inl same
      · exact .inr ⟨old, name_apart ranges here separated dest live same⟩
  have both := effects_renamed (L := fun o m => o = some m) (ψ := id)
    (read_agree ranges here agree) (fun _ _ => rfl) keep
    (fun x v none => (keep none).updateUser x v) write
  rw [rename_effect] at both
  exact both.rel

end Step

/-- The code with these names. -/
def renamed (ρ : Nat → Nat) (code : List IrInstr) : List (Instr CString) :=
  code.map (IrInstr.named ρ)

theorem labelIndex_renamed (ρ : Nat → Nat) (code : List IrInstr) (label : CString) :
    labelIndex (renamed ρ code) label =
      code.findIdx? fun i => i.label?.map labelText == some label := by
  rw [labelIndex, renamed, List.findIdx?_map]
  congr 1
  funext i
  cases i with
  | label n =>
    simp [IrInstr.named, IrInstr.instr, Instr.map, IrInstr.label?, NamePtr.text,
      Bool.beq_eq_decide_eq]
  | binary t _ _ _ => cases t <;> rfl
  | unary t _ _ => cases t <;> rfl
  | _ => rfl

theorem not_live_target {code : List IrInstr} {low u : Nat} (ranges : Ranges 0 0 code low u)
    {ρ : Nat → Nat} {label : CString} {p t : Nat}
    (target : labelIndex (renamed ρ code) label = some p) : ¬ Live code p t := by
  rw [labelIndex_renamed, List.findIdx?_eq_some_iff_getElem] at target
  obtain ⟨lt, found, -⟩ := target
  have here : code[p]? = some code[p] := List.getElem?_eq_getElem lt
  cases at' : code[p] with
  | label n => exact not_live_of_label ranges here at'
  | _ => simp [at', IrInstr.label?] at found

/-- The states of the two runs at the same instruction. -/
structure SameState (code : List IrInstr) (ρ : Nat → Nat) (s s' : IrState) : Prop where
  pc : s.pc = s'.pc
  pending : s.pending = s'.pending
  events : s.events = s'.events
  agree : Agree ρ (Live code s.pc) s.store s'.store

section Run

variable {code : List IrInstr} {low u : Nat} {ρ : Nat → Nat} (ranges : Ranges 0 0 code low u)
  {s s' : IrState}

theorem renamed_getElem? {p : Nat} {i : IrInstr} (here : code[p]? = some i) (ρ : Nat → Nat) :
    (renamed ρ code)[p]? = some (i.named ρ) := by
  rw [renamed, List.getElem?_map, here]
  rfl

theorem renamed_end {p : Nat} (here : code[p]? = none) (ρ : Nat → Nat) :
    (renamed ρ code)[p]? = none := by
  rw [renamed, List.getElem?_map, here]
  rfl

include ranges

theorem irStep_local_same (separated : Separated ρ 0 (occurrences code)) (oracle : Oracle)
    (same : SameState code ρ s s') {i : IrInstr} (here : code[s.pc]? = some i)
    (isLocal : i.isLocal = true) :
    Option.Rel (SameState code ρ) (irStep (renamed id code) oracle s)
      (irStep (renamed ρ code) oracle s') := by
  have here' : code[s'.pc]? = some i := same.pc ▸ here
  have events : s.events ++ i.assigned id s.store = s'.events ++ i.assigned ρ s'.store := by
    rw [same.events, assigned_agree ranges here same.agree]
  rw [irStep_local oracle (renamed_getElem? here id) isLocal,
    irStep_local oracle (renamed_getElem? here' ρ) isLocal]
  have effect := effect_agree ranges separated here same.agree
  cases first : i.effect id s.store with
  | none =>
    rw [first] at effect
    cases second : i.effect ρ s'.store with
    | none => exact .none
    | some b => rw [second] at effect; cases effect
  | some a =>
    rw [first] at effect
    cases second : i.effect ρ s'.store with
    | none => rw [second] at effect; cases effect
    | some b =>
      rw [second] at effect
      cases effect with
      | some related =>
        obtain ⟨store, flow⟩ := a
        obtain ⟨store', flow'⟩ := b
        obtain ⟨flows, agree⟩ := related
        dsimp only at flows agree ⊢
        subst flows
        rw [Option.bind_some, Option.bind_some]
        cases flow with
        | next =>
          refine .some ⟨?_, same.pending, events, agree⟩
          rw [same.pc]
        | jump label =>
          have target : labelIndex (renamed ρ code) label = labelIndex (renamed id code) label := by
            rw [labelIndex_renamed, labelIndex_renamed]
          simp only [flowTarget, target]
          cases found : labelIndex (renamed id code) label with
          | none => exact .none
          | some p =>
            refine .some ⟨rfl, same.pending, events, agree.plain, fun t live => ?_⟩
            exact absurd live (not_live_target ranges found)

theorem irStep_same (separated : Separated ρ 0 (occurrences code)) (oracle : Oracle)
    (same : SameState code ρ s s') :
    Option.Rel (SameState code ρ) (irStep (renamed id code) oracle s)
      (irStep (renamed ρ code) oracle s') := by
  cases here : code[s.pc]? with
  | none =>
    have here' : code[s'.pc]? = none := same.pc ▸ here
    rw [irStep, irStep, renamed_end here, renamed_end here']
    exact .none
  | some i =>
    have here' : code[s'.pc]? = some i := same.pc ▸ here
    by_cases isLocal : i.isLocal = true
    · exact irStep_local_same ranges separated oracle same here isLocal
    · cases i with
      | param arg =>
        rw [irStep_param oracle (renamed_getElem? here id),
          irStep_param oracle (renamed_getElem? here' ρ)]
        have value := same.agree.var arg fun t mem => live_of_used ranges here mem
        refine .some ⟨congrArg (· + 1) same.pc, ?_, same.events, ?_⟩
        · rw [same.pending, value]
        · refine same.agree.mono fun t live => (live_succ here live).resolve_left ?_
          simp [IrInstr.dest?]
      | call name d =>
        rw [irStep_call oracle (renamed_getElem? here id),
          irStep_call oracle (renamed_getElem? here' ρ)]
        refine .some ⟨congrArg (· + 1) same.pc, rfl, ?_, ?_⟩
        · rw [same.events, same.pending]
        · rw [same.events, same.pending]
          refine same.agree.updateTemp d _ fun t live => ?_
          rcases live_succ here live with now | old
          · exact .inl (Option.some.inj now).symm
          · by_cases differ : t = d
            · exact .inl differ
            · exact .inr ⟨old, name_apart ranges here separated rfl live differ⟩
      | ret value =>
        rw [(irStep_ret oracle (renamed_getElem? here id)).1,
          (irStep_ret oracle (renamed_getElem? here' ρ)).1]
        exact .none
      | enter f | leave f | externDecl f =>
        rw [irStep, irStep, renamed_getElem? here id, renamed_getElem? here' ρ]
        exact .none
      | _ => exact absurd rfl isLocal

theorem irResult_same (oracle : Oracle) (same : SameState code ρ s s') :
    irResult (renamed id code) s = irResult (renamed ρ code) s' := by
  cases here : code[s.pc]? with
  | none =>
    have here' : code[s'.pc]? = none := same.pc ▸ here
    rw [irResult, irResult, renamed_end here, renamed_end here']
  | some i =>
    have here' : code[s'.pc]? = some i := same.pc ▸ here
    cases i with
    | ret value =>
      rw [(irStep_ret oracle (renamed_getElem? here id)).2,
        (irStep_ret oracle (renamed_getElem? here' ρ)).2]
      cases value with
      | none => rfl
      | some x =>
        have read := same.agree.var x fun t mem =>
          live_of_used ranges here (by simpa [IrInstr.uses] using mem)
        exact congrArg (fun v => some (Completion.returned (some v))) read
    | binary t _ _ _ | unary t _ _ =>
      rw [irResult, irResult, renamed_getElem? here id, renamed_getElem? here' ρ]
      cases t <;> rfl
    | _ =>
      rw [irResult, irResult, renamed_getElem? here id, renamed_getElem? here' ρ]
      rfl

end Run

/-- The same place, calls, stores, values of variables and, where a run ends, value. -/
structure Alike (code code' : List (Instr CString)) (s s' : IrState) : Prop where
  pc : s.pc = s'.pc
  pending : s.pending = s'.pending
  events : s.events = s'.events
  vars : ∀ name, startsWith '$' name = false → s.store name = s'.store name
  result : irResult code s = irResult code' s'

theorem namedCode_renamed (env : Env) (ρ : Nat → Nat) (code : List IrInstr) (c : Counters) :
    namedCode (tempHeap ρ) (resetCode.append env code c).code = renamed ρ code := by
  simp [namedCode, renamed, GenState.append, resetCode, IrInstr.named, Function.comp_def]

theorem run_alike {code : List IrInstr} {low u : Nat} {ρ : Nat → Nat}
    (ranges : Ranges 0 0 code low u) (separated : Separated ρ 0 (occurrences code))
    (oracle : Oracle) {s s' : IrState} (same : SameState code ρ s s') (n : Nat) :
    Option.Rel (Alike (renamed id code) (renamed ρ code))
      (run (irStep (renamed id code) oracle) n s) (run (irStep (renamed ρ code) oracle) n s') := by
  have both := run_lockstep (fun _ _ => irStep_same ranges separated oracle) same n
  cases first : run (irStep (renamed id code) oracle) n s <;>
    cases second : run (irStep (renamed ρ code) oracle) n s' <;> rw [first, second] at both
  · exact .none
  · cases both
  · cases both
  · cases both with
    | some same =>
      exact .some ⟨same.pc, same.pending, same.events, same.agree.plain,
        irResult_same ranges oracle same⟩

/-- The pass renames temporaries only, and from the ENTER of any method the code does before
and after it the same. -/
structure PassPreserves (gen : GenState) (s : OptState) : Prop where
  renames : ∀ instr ∈ gen.code, ∀ name ∈ instr.operands, name.text s.heap = name.text tempText ∨
    (startsWith '$' (name.text tempText) = true ∧ startsWith '$' (name.text s.heap) = true)
  alike : ∀ e, gen.code[e]?.map Instr.instruct = some .enter →
    ∀ (oracle : Oracle) (store store' : Store) (pending : List Word) (events : List Event),
      (∀ name, startsWith '$' name = false → store name = store' name) → ∀ n,
      Option.Rel (Alike (namedCode tempText gen.code) (namedCode s.heap gen.code))
        (run (irStep (namedCode tempText gen.code) oracle) n ⟨e + 1, store, pending, events⟩)
        (run (irStep (namedCode s.heap gen.code) oracle) n ⟨e + 1, store', pending, events⟩)

theorem pass_preserves {env : Env} {code : List IrInstr} {low : Nat} {c : Counters} {s : OptState}
    {ρ : Nat → Nat} (ranges : Ranges 0 0 code low c.temp) (heap : s.heap = tempHeap ρ)
    (fits : FirstFit 0 id (occurrences code) ρ) :
    PassPreserves (resetCode.append env code c) s := by
  constructor
  · intro instr _ name _
    cases name with
    | str text => exact .inl rfl
    | temp n =>
      rw [heap]
      exact .inr ⟨rfl, rfl⟩
  · intro e enter oracle store store' pending events agree n
    rw [heap, namedCode_renamed]
    have before := namedCode_renamed env id code c
    rw [show tempHeap id = tempText from rfl] at before
    rw [before]
    rw [GenState.append, resetCode, List.nil_append, List.getElem?_map, Option.map_map,
      Option.map_eq_some_iff] at enter
    obtain ⟨i, here, isEnter⟩ := enter
    obtain ⟨f, rfl⟩ := Compiled.eq_enter isEnter
    refine run_alike ranges fits.gives.separated oracle ?_ n
    refine ⟨rfl, rfl, rfl, agree, fun t live => ?_⟩
    exact absurd live (not_live_of_floor ranges here fun _ _ => rfl)

/-- `optimize_memory` comes to an end and keeps the behaviour of an accepted program exactly if
`malloc` left null words in the lists of the entries. -/
theorem optimize_memory_preserves_iff {env : Env} {prog : ProgramSyn} {checked : Checked}
    (accepted : frontEnd env prog = .ok checked) :
    let gen := intermediateCode env checked
    (∃ s, optimizePass gen = some s ∧ PassPreserves gen s) ↔ NullLists env gen :=
  optimizePass_iff (frontEnd_compilable accepted).shape pass_preserves

/-- `integer main() { integer x = 7; return (x + 1) * (x + 2); }`. -/
def productOfSums : ProgramSyn :=
  let x : Ident := .of "x"
  let sum (n : BitVec 32) : ExprSyn := .binary 3 .plus (.id 3 x) (.integerLiteral 3 n)
  [.methodDecl ⟨1, some .integer, .of "main", [],
    some (.mk 1 [⟨2, .integer, x, some (.integerLiteral 2 7)⟩]
      (.cons (.returnExpr 3 (.binary 3 .times (sum 1) (sum 2))) .nil))⟩]

/-- Six temporaries share the names of the first two. -/
theorem optimize_memory_preserves_product :
    ∃ checked s, frontEnd (.sample true) productOfSums = .ok checked ∧
      let gen := intermediateCode (.sample true) checked
      optimizePass gen = some s ∧
      (List.range 6).map s.heap = [0, 0, 0, 1, 1, 0].map tempText ∧
      ∀ (oracle : Oracle) (store : Store) (n : Nat),
        Option.Rel (Alike (namedCode tempText gen.code) (namedCode s.heap gen.code))
          (run (irStep (namedCode tempText gen.code) oracle) n ⟨1, store, [], []⟩)
          (run (irStep (namedCode s.heap gen.code) oracle) n ⟨1, store, [], []⟩) := by
  obtain ⟨checked, accepted⟩ := Fallible.isOk_iff.mp (by decide +kernel :
    (frontEnd (.sample true) productOfSums).isOk = true)
  have facts : (frontEnd (.sample true) productOfSums).toOption.map (fun c =>
      let gen := intermediateCode (.sample true) c
      (gen.code[0]?.map Instr.instruct, (optimizePass gen).map fun s =>
        (List.range 6).map s.heap)) =
      some (some .enter, some ([0, 0, 0, 1, 1, 0].map tempText)) := by decide +kernel
  obtain ⟨s, optimized, preserves⟩ := (optimize_memory_preserves_iff accepted).mpr fun _ _ => rfl
  simp only [accepted, Except.toOption, Option.map_some, Option.some.injEq, Prod.mk.injEq,
    optimized] at facts
  exact ⟨checked, s, accepted, optimized, facts.2, fun oracle store n =>
    preserves.alike 0 facts.1 oracle store store [] [] (fun _ _ => rfl) n⟩

def inParentheses (e : ExprSyn) : Nat → ExprSyn
  | 0 => e
  | n + 1 => .paren (inParentheses e n)

/-- `integer main() { return ((...(1)...)); }`, nested so deep that bison moves its stack to
memory of its own, which it gives back before `gen_code` asks for any. -/
def deepParentheses : ProgramSyn :=
  [.methodDecl ⟨1, some .integer, .of "main", [],
    some (.mk 1 [] (.cons (.returnExpr 2 (inParentheses (.integerLiteral 2 1) 250)) .nil))⟩]

/-- The entries are allocated in memory that was given back with a pointer in it. -/
def Env.recycled : Env := { Env.sample true with freshList := fun _ => 0x5555000002a0 }

theorem optimizePass_recycled :
    ∃ checked, frontEnd .recycled deepParentheses = .ok checked ∧
      optimizePass (intermediateCode .recycled checked) = none := by
  obtain ⟨checked, accepted⟩ := Fallible.isOk_iff.mp (by decide +kernel :
    (frontEnd .recycled deepParentheses).isOk = true)
  have lost : (frontEnd .recycled deepParentheses).toOption.map (fun c =>
      (optimizePass (intermediateCode .recycled c)).isNone) = some true := by decide +kernel
  simp only [accepted, Except.toOption, Option.map_some, Option.some.injEq,
    Option.isNone_iff_eq_none] at lost
  exact ⟨checked, accepted, lost⟩

/-- The first temporary is counted in an entry whose `list` nobody set. -/
theorem optimize_memory_lost :
    ∃ checked, frontEnd .recycled deepParentheses = .ok checked ∧
      ¬ ∃ s, optimizePass (intermediateCode .recycled checked) = some s ∧
        PassPreserves (intermediateCode .recycled checked) s := by
  obtain ⟨checked, accepted, lost⟩ := optimizePass_recycled
  refine ⟨checked, accepted, ?_⟩
  rintro ⟨s, pass, -⟩
  rw [lost] at pass
  cases pass

end Ctds
