import Ctds.Preservation
import Ctds.Shortcuts

/-! The two shortcuts of `gen_code` are invisible. A state of the code with them and one of the
code without stand beside each other; both codes step together, and the longer one once more
where it loads a literal into a temporary. -/

namespace Ctds

open Transition Fallible

/-- The variables of the program have the same values, and so have the live temporaries. -/
structure StoresBeside (T : Option Nat → Nat → Prop) (live : Nat → Prop) (store store' : Store) :
    Prop where
  users : ∀ x : Ident, store x.text = store' x.text
  temps : ∀ a b, T (some a) b → live a → store (tempText a) = store' (tempText b)

namespace StoresBeside

variable {T : Option Nat → Nat → Prop} {low high low' high' : Nat} {live live' : Nat → Prop}
  {store store' : Store}

theorem mono (h : StoresBeside T live store store') (sub : ∀ t, live' t → live t) :
    StoresBeside T live' store store' :=
  ⟨h.users, fun a b paired mem => h.temps a b paired (sub a mem)⟩

theorem var (h : StoresBeside T live store store') {φ : Nat → Nat} (x : Var)
    (paired : ∀ n ∈ x.temps, T (some n) (φ n)) (read : ∀ n ∈ x.temps, live n) :
    store (x.name id) = store' ((x.rename φ).name id) := by
  cases x with
  | temp n => exact h.temps n (φ n) (paired n List.mem_cons_self) (read n List.mem_cons_self)
  | user x => exact h.users x

theorem updateUser (h : StoresBeside T live store store') (x : Ident) (v : Word) :
    StoresBeside T live (Function.update store x.text v) (Function.update store' x.text v) := by
  refine ⟨fun y => ?_, fun a b paired mem => ?_⟩
  · by_cases same : y.text = x.text
    · rw [same, Function.update_self, Function.update_self]
    · rw [Function.update_of_ne same, Function.update_of_ne same]
      exact h.users y
  · rw [Function.update_of_ne (tempText_ne_ident a x),
      Function.update_of_ne (tempText_ne_ident b x)]
    exact h.temps a b paired mem

theorem updateTemp (h : StoresBeside T live store store') (pairs : Pairs low high low' high' T)
    {d d' : Nat} (own : T (some d) d') (v : Word) (next : ∀ t, live' t → t = d ∨ live t) :
    StoresBeside T live' (Function.update store (tempText d) v)
      (Function.update store' (tempText d') v) := by
  refine ⟨fun x => ?_, fun a b paired mem => ?_⟩
  · rw [Function.update_of_ne (tempText_ne_ident d x).symm,
      Function.update_of_ne (tempText_ne_ident d' x).symm]
    exact h.users x
  · by_cases same : a = d
    · subst same
      rw [pairs.single paired own, Function.update_self, Function.update_self]
    · have differ : b ≠ d' := by
        rintro rfl
        exact same (Option.some.inj (pairs.own paired own))
      rw [Function.update_of_ne fun eq => same (tempText_inj eq),
        Function.update_of_ne fun eq => differ (tempText_inj eq)]
      exact h.temps a b paired ((next a mem).resolve_left same)

theorem updateAlone (h : StoresBeside T live store store') (pairs : Pairs low high low' high' T)
    {t : Nat} (own : T none t) (v : Word) :
    StoresBeside T live store (Function.update store' (tempText t) v) := by
  refine ⟨fun x => ?_, fun a b paired mem => ?_⟩
  · rw [Function.update_of_ne (tempText_ne_ident t x).symm]
    exact h.users x
  · have differ : b ≠ t := by
      rintro rfl
      cases pairs.own paired own
    rw [Function.update_of_ne fun eq => differ (tempText_inj eq)]
    exact h.temps a b paired mem

end StoresBeside

theorem drop_cons {α : Type} {l rest : List α} {p : Nat} {a : α} (h : l.drop p = a :: rest) :
    l[p]? = some a ∧ l.drop (p + 1) = rest := by
  have here : (l.drop p)[0]? = some a := by rw [h]; rfl
  rw [List.getElem?_drop, Nat.add_zero] at here
  have tail : l.drop (p + 1) = (l.drop p).tail := by rw [List.tail_drop]
  exact ⟨here, by rw [tail, h]; rfl⟩

section Step

variable {code : List IrInstr} {low u : Nat} (ranges : Ranges 0 0 code low u)
  {T L : Option Nat → Nat → Prop} {low₁ high₁ low₂ high₂ : Nat}
  (pairs : Pairs low₁ high₁ low₂ high₂ T) {p : Nat} {i i' : IrInstr} (here : code[p]? = some i)
  (same : SameInstr T L i i') {store store' : Store}
  (stores : StoresBeside T (Live code p) store store')

include ranges here stores

theorem read_beside {φ : Nat → Nat} (paired : ∀ n ∈ i.temps, T (some n) (φ n)) (x : Var)
    (used : ∀ n ∈ x.temps, n ∈ i.uses) : store (x.name id) = store' ((x.rename φ).name id) :=
  stores.var x (fun n mem => paired n (List.mem_append_left _ (used n mem)))
    fun n mem => live_of_used ranges here (used n mem)

include same

theorem assigned_beside : i.assigned id store = i'.assigned id store' := by
  obtain ⟨φ, ψ, rfl, paired, -⟩ := same
  exact assigned_renamed (read_beside ranges here stores paired)

theorem result_beside (code' : List IrInstr) {q : Nat} (there : code'[q]? = some i')
    {pending pending' : List Word} {events events' : List Event} :
    irResult (irCode code) ⟨p, store, pending, events⟩ =
      irResult (irCode code') ⟨q, store', pending', events'⟩ := by
  obtain ⟨φ, ψ, rfl, paired, -⟩ := same
  rw [irResult, irResult, irCode_getElem? here, irCode_getElem? there]
  cases i with
  | ret value =>
    cases value with
    | none => rfl
    | some x =>
      have read := read_beside ranges here stores paired x (by simp [IrInstr.uses])
      simp only [IrInstr.named, IrInstr.instr, IrInstr.rename, Instr.map, Option.map_some,
        Option.map_none, Var.ptr_text, operandValue_var, read]
  | binary t _ _ _ | unary t _ _ => cases t <;> rfl
  | _ => rfl

include pairs

theorem effect_beside :
    SameEffects L i.target? (StoresBeside T (Live code (p + 1))) (i.effect id store)
      (i'.effect id store') := by
  obtain ⟨φ, ψ, rfl, paired, labelled⟩ := same
  have keep : i.dest? = none → StoresBeside T (Live code (p + 1)) store store' := by
    intro none
    refine stores.mono fun t live => ?_
    rcases live_succ here live with now | old
    · rw [none] at now
      cases now
    · exact old
  have write : ∀ d, i.dest? = some d → ∀ v : Word, StoresBeside T (Live code (p + 1))
      (Function.update store (tempText d) v) (Function.update store' (tempText (φ d)) v) := by
    intro d dest v
    refine stores.updateTemp pairs (paired d (List.mem_append_right _ (by simp [dest]))) v
      fun t live => ?_
    rcases live_succ here live with now | old
    · rw [dest, Option.some.injEq] at now
      exact .inl now.symm
    · exact .inr old
  refine effects_renamed (read_beside ranges here stores paired)
    (fun n target => labelled n ?_) keep
    (fun x v none => (keep none).updateUser x v) write
  cases i with
  | jmp _ | jmpf _ _ =>
    obtain rfl := Option.some.inj target
    exact List.mem_cons_self
  | _ => cases target

end Step

/-- A state of the one code and a state of the other, apart from where they stand. -/
structure LinkedStates (code : List IrInstr) (T : Option Nat → Nat → Prop) (s s' : IrState) :
    Prop where
  pending : s.pending = s'.pending
  events : s.events = s'.events
  stores : StoresBeside T (Live code s.pc) s.store s'.store

/-- The rest of the one code beside the rest of the other; or the second has loaded a literal
that the first is about to store. -/
inductive Beside (code code' : List IrInstr) (T L : Option Nat → Nat → Prop) :
    IrState → IrState → Prop where
  | aligned {s s' : IrState} : LinkedStates code T s s' →
    Shortens T L (code.drop s.pc) (code'.drop s'.pc) → Beside code code' T L s s'
  | midway {s s' : IrState} {v : BitVec 32} {x : Ident} {t : Nat} {rest rest' : List IrInstr} :
    LinkedStates code T s s' → code.drop s.pc = .storeVal v x :: rest →
    code'.drop s'.pc = .store (.temp t) x :: rest' → s'.store (tempText t) = v.signExtend 64 →
    Shortens T L rest rest' → Beside code code' T L s s'

def IrInstr.isLoadval : IrInstr → Bool
  | loadval _ _ => true
  | _ => false

/-- Whether the second code may be about to load a literal for a direct STORE. -/
def loadsAhead (code : List IrInstr) (s : IrState) : Nat :=
  if (code[s.pc]?).any IrInstr.isLoadval then 1 else 0

section Runs

theorem irCode_getElem?_none {prog : List IrInstr} {p : Nat} (le : prog.length ≤ p) :
    (irCode prog)[p]? = none := by
  rw [List.getElem?_eq_none_iff]
  simpa [irCode] using le

theorem irCode_getElem?_some {prog : List IrInstr} {p : Nat} {instr : Instr CString}
    (here : (irCode prog)[p]? = some instr) : ∃ i, prog[p]? = some i ∧ i.named id = instr := by
  rwa [irCode, List.getElem?_map, Option.map_eq_some_iff] at here

variable {code code' : List IrInstr} {low u : Nat} {T L : Option Nat → Nat → Prop}
  {low₁ high₁ low₂ high₂ low₃ high₃ low₄ high₄ : Nat}

theorem not_live_label (ranges : Ranges 0 0 code low u) {p n : Nat}
    (here : code[p]? = some (.label n)) (t : Nat) : ¬ Live code p t :=
  not_live_of_label ranges here rfl

/-- What both codes do at an instruction and its copy. -/
theorem both_step (ranges : Ranges 0 0 code low u) (unique : LabelsUnique code)
    (unique' : LabelsUnique code') (targets : ∀ i ∈ code, ∀ n, i.target? = some n → .label n ∈ code)
    (pairs : Pairs low₁ high₁ low₂ high₂ T) (labels : Pairs low₃ high₃ low₄ high₄ L)
    (whole : Shortens T L code code') (oracle : Oracle) {s s' : IrState}
    (linked : LinkedStates code T s s') {i i' : IrInstr} (here : code[s.pc]? = some i)
    (there : code'[s'.pc]? = some i') (same : SameInstr T L i i')
    (behind : Shortens T L (code.drop (s.pc + 1)) (code'.drop (s'.pc + 1))) :
    (∃ t t', irStep (irCode code) oracle s = some t ∧ irStep (irCode code') oracle s' = some t' ∧
        Beside code code' T L t t') ∨
      (irStep (irCode code) oracle s = none ∧ irStep (irCode code') oracle s' = none) := by
  have assigned := assigned_beside ranges here same linked.stores
  have effects := effect_beside ranges pairs here same linked.stores
  have events : s.events ++ i.assigned id s.store = s'.events ++ i'.assigned id s'.store := by
    rw [linked.events, assigned]
  obtain ⟨φ, ψ, eq, paired, -⟩ := id same
  by_cases isLocal : i.isLocal = true
  · have isLocal' : i'.isLocal = true := by
      rw [eq]
      cases i with
      | param _ | call _ _ | ret _ | enter _ | leave _ | externDecl _ => cases isLocal
      | _ => rfl
    rw [irStep_local oracle (irCode_getElem? here) isLocal,
      irStep_local oracle (irCode_getElem? there) isLocal']
    generalize i.effect id s.store = first at effects
    generalize i'.effect id s'.store = second at effects
    cases effects with
    | stuck => exact .inr ⟨rfl, rfl⟩
    | next after =>
      exact .inl ⟨_, _, rfl, rfl, .aligned ⟨linked.pending, events, after⟩ behind⟩
    | @jump store store' n m after target pairedLabel =>
      obtain ⟨j, at'⟩ := List.getElem?_of_mem (targets i (List.mem_of_getElem? here) n target)
      obtain ⟨k, m', found, pairedFound, rest⟩ := whole.label_at at'
      rw [labels.single pairedFound pairedLabel] at found
      simp only [Option.bind_some, flowTarget, labelIndex_eq unique at',
        labelIndex_eq unique' found,
        Option.map_some]
      refine .inl ⟨_, _, rfl, rfl, .aligned ⟨linked.pending, events, after.users, ?_⟩ rest⟩
      exact fun a b _ live => absurd live (not_live_label ranges at' a)
  · rw [eq] at there
    cases i with
    | param arg =>
      have read := read_beside ranges here linked.stores paired arg fun n mem => mem
      rw [irStep_param oracle (irCode_getElem? here), irStep_param oracle (irCode_getElem? there)]
      refine .inl ⟨_, _, rfl, rfl, .aligned ⟨?_, linked.events, ?_⟩ behind⟩
      · rw [linked.pending, read]
      · exact linked.stores.mono fun t live =>
          (live_succ here live).resolve_left (by simp [IrInstr.dest?])
    | call f d =>
      rw [irStep_call oracle (irCode_getElem? here), irStep_call oracle (irCode_getElem? there),
        linked.pending, linked.events]
      refine .inl ⟨_, _, rfl, rfl, .aligned ⟨rfl, rfl, ?_⟩ behind⟩
      refine linked.stores.updateTemp pairs
        (paired d (List.mem_append_right _ (by simp [IrInstr.dest?])))
        _ fun t live => ?_
      exact (live_succ here live).imp_left fun now => (Option.some.inj now).symm
    | ret value =>
      exact .inr ⟨(irStep_ret oracle (irCode_getElem? here)).1,
        (irStep_ret oracle (irCode_getElem? there)).1⟩
    | enter f | leave f | externDecl f =>
      refine .inr ⟨?_, ?_⟩
      · rw [irStep, irCode_getElem? here]
        rfl
      · rw [irStep, irCode_getElem? there]
        rfl
    | _ => exact absurd rfl isLocal

theorem linked_of_beside {s s' : IrState} (beside : Beside code code' T L s s') :
    LinkedStates code T s s' := by
  cases beside with
  | aligned linked _ => exact linked
  | midway linked _ _ _ _ => exact linked

theorem beside_result (ranges : Ranges 0 0 code low u) {s s' : IrState}
    (beside : Beside code code' T L s s') :
    irResult (irCode code) s = irResult (irCode code') s' := by
  cases beside with
  | aligned linked short =>
    generalize left : code.drop s.pc = rest at short
    generalize right : code'.drop s'.pc = rest' at short
    cases short with
    | nil =>
      rw [irResult, irResult, irCode_getElem?_none (List.drop_eq_nil_iff.mp left),
        irCode_getElem?_none (List.drop_eq_nil_iff.mp right)]
    | same instr _ =>
      exact result_beside ranges (drop_cons left).1 instr linked.stores _ (drop_cons right).1
    | literal v x _ _ =>
      rw [irResult, irResult, irCode_getElem? (drop_cons left).1,
        irCode_getElem? (drop_cons right).1]
      rfl
    | dead more instr _ =>
      exact result_beside ranges (drop_cons left).1 instr linked.stores _ (drop_cons right).1
  | midway _ left right _ _ =>
    rw [irResult, irResult, irCode_getElem? (drop_cons left).1, irCode_getElem? (drop_cons right).1]
    rfl

theorem literal_stutters {oracle : Oracle} {s s' : IrState} (linked : LinkedStates code T s s')
    (pairs : Pairs low₁ high₁ low₂ high₂ T) {v : BitVec 32} {x : Ident} {t : Nat} (own : T none t)
    {rest rest' : List IrInstr} (left : code.drop s.pc = .storeVal v x :: rest)
    (right : code'.drop s'.pc = .loadval v t :: .store (.temp t) x :: rest')
    (behind : Shortens T L rest rest') :
    ∃ t', irStep (irCode code') oracle s' = some t' ∧ Beside code code' T L s t' ∧
      loadsAhead code' t' < loadsAhead code' s' := by
  obtain ⟨there, tail⟩ := drop_cons right
  have next := irStep_local oracle (irCode_getElem? there) rfl
  simp only [IrInstr.effect, IrInstr.assigned, flowTarget, Option.bind_some, Option.map_some,
    List.append_nil] at next
  refine ⟨_, next, .midway ⟨linked.pending, linked.events, ?_⟩ left tail ?_ behind, ?_⟩
  · exact linked.stores.updateAlone pairs own _
  · exact Function.update_self _ _ _
  · simp [loadsAhead, there, (drop_cons tail).1, IrInstr.isLoadval]

theorem midway_step {oracle : Oracle} {s s' : IrState} (linked : LinkedStates code T s s')
    {v : BitVec 32} {x : Ident} {t : Nat} {rest rest' : List IrInstr}
    (left : code.drop s.pc = .storeVal v x :: rest)
    (right : code'.drop s'.pc = .store (.temp t) x :: rest')
    (loaded : s'.store (tempText t) = v.signExtend 64) (behind : Shortens T L rest rest') :
    ∃ t t', irStep (irCode code) oracle s = some t ∧ irStep (irCode code') oracle s' = some t' ∧
      Beside code code' T L t t' := by
  obtain ⟨here, tail⟩ := drop_cons left
  obtain ⟨there, tail'⟩ := drop_cons right
  have first := irStep_local oracle (irCode_getElem? here) rfl
  have second := irStep_local oracle (irCode_getElem? there) rfl
  simp only [IrInstr.effect, IrInstr.assigned, flowTarget, Option.bind_some, Option.map_some,
    Var.name, id_eq, loaded] at first second
  refine ⟨_, _, first, second, .aligned ⟨linked.pending, ?_, ?_⟩ ?_⟩
  · simp only [linked.events]
  · refine (linked.stores.updateUser x _).mono fun t live => ?_
    exact (live_succ here live).resolve_left (by simp [IrInstr.dest?])
  · simp only [tail, tail']
    exact behind

theorem beside_stutters (ranges : Ranges 0 0 code low u) (unique : LabelsUnique code)
    (unique' : LabelsUnique code') (targets : ∀ i ∈ code, ∀ n, i.target? = some n → .label n ∈ code)
    (pairs : Pairs low₁ high₁ low₂ high₂ T) (labels : Pairs low₃ high₃ low₄ high₄ L)
    (whole : Shortens T L code code') (oracle : Oracle) :
    Stutters (irStep (irCode code) oracle) (irStep (irCode code') oracle) (Beside code code' T L)
      (loadsAhead code') := by
  intro s s' beside
  cases beside with
  | aligned linked short =>
    generalize left : code.drop s.pc = rest at short
    generalize right : code'.drop s'.pc = rest' at short
    cases short with
    | nil =>
      refine .inr (.inr ⟨?_, ?_⟩)
      · rw [irStep, irCode_getElem?_none (List.drop_eq_nil_iff.mp left)]
      · rw [irStep, irCode_getElem?_none (List.drop_eq_nil_iff.mp right)]
    | same instr behind =>
      obtain ⟨here, tail⟩ := drop_cons left
      obtain ⟨there, tail'⟩ := drop_cons right
      rw [← tail, ← tail'] at behind
      exact (both_step ranges unique unique' targets pairs labels whole oracle linked here there
        instr behind).imp_right .inr
    | literal v x own behind =>
      exact .inr (.inl (literal_stutters linked pairs own left right behind))
    | dead more instr _ =>
      exact .inr (.inr ⟨(irStep_ret oracle (irCode_getElem? (drop_cons left).1)).1,
        (irStep_ret oracle (irCode_getElem? (drop_cons right).1)).1⟩)
  | midway linked left right loaded behind =>
    exact .inl (midway_step linked left right loaded behind)

end Runs

/-- What an observer sees of a state: the calls and assignments so far, and the variables. -/
def IrState.seen (s : IrState) : List Event × (Ident → Word) := (s.events, fun x => s.store x.text)

/-- What can be seen on the way, and at the end together with how the run has left the method. -/
structure Indistinguishable (oracle : Oracle) (code code' : List (Instr CString)) (s s' : IrState) :
    Prop where
  seen : ∀ view, (∃ t, Reaches (irStep code oracle) s t ∧ t.seen = view) ↔
    ∃ t', Reaches (irStep code' oracle) s' t' ∧ t'.seen = view
  stops : ∀ view result,
    (∃ t, Reaches (irStep code oracle) s t ∧ irStep code oracle t = none ∧ t.seen = view ∧
      irResult code t = result) ↔
    ∃ t', Reaches (irStep code' oracle) s' t' ∧ irStep code' oracle t' = none ∧ t'.seen = view ∧
      irResult code' t' = result

theorem seen_of_linked {code : List IrInstr} {T : Option Nat → Nat → Prop} {s s' : IrState}
    (linked : LinkedStates code T s s') : s.seen = s'.seen := by
  rw [IrState.seen, IrState.seen, linked.events]
  congr 1
  funext x
  exact linked.stores.users x

theorem indistinguishable_of_stutters {code code' : List IrInstr} {T L : Option Nat → Nat → Prop}
    {low u : Nat} (ranges : Ranges 0 0 code low u) {oracle : Oracle} {ahead : IrState → Nat}
    (stutters : Stutters (irStep (irCode code) oracle) (irStep (irCode code') oracle)
      (Beside code code' T L) ahead) {s s' : IrState} (start : Beside code code' T L s s') :
    Indistinguishable oracle (irCode code) (irCode code') s s' := by
  refine ⟨fun view => ⟨?_, ?_⟩, fun view result => ⟨?_, ?_⟩⟩
  · rintro ⟨t, reaches, seen⟩
    obtain ⟨t', reaches', beside⟩ := stutters.forward start reaches
    exact ⟨t', reaches', (seen_of_linked (linked_of_beside beside)).symm.trans seen⟩
  · rintro ⟨t', reaches', seen⟩
    obtain ⟨t, reaches, beside⟩ := stutters.backward start reaches'
    exact ⟨t, reaches, (seen_of_linked (linked_of_beside beside)).trans seen⟩
  · rintro ⟨t, reaches, stopped, seen, ended⟩
    obtain ⟨m, reaches', beside⟩ := stutters.forward start reaches
    obtain ⟨t', rest, stopped', beside'⟩ := stutters.final beside stopped
    exact ⟨t', reaches'.trans rest, stopped',
      (seen_of_linked (linked_of_beside beside')).symm.trans seen,
      (beside_result ranges beside').symm.trans ended⟩
  · rintro ⟨t', reaches', stopped', seen, ended⟩
    obtain ⟨t, reaches, beside⟩ := stutters.backward start reaches'
    exact ⟨t, reaches, stutters.final_of beside stopped',
      (seen_of_linked (linked_of_beside beside)).trans seen,
      (beside_result ranges beside).trans ended⟩

theorem programCode_target {env : Env} {tab : SymbolTable} {sentences : List AstNode}
    (shape : ∀ node ∈ sentences, isSentence tab node = true) (c : Counters) :
    ∀ i ∈ (programCode env tab sentences c).1, ∀ n, i.target? = some n →
      .label n ∈ (programCode env tab sentences c).1 := by
  induction sentences generalizing c with
  | nil => simp [programCode]
  | cons node rest ih =>
    intro i mem n target
    rw [programCode] at mem ⊢
    obtain ⟨pre, code, post, eq, emits, outer⟩ :=
      sentenceCode_emits env (shape node List.mem_cons_self) c
    rcases List.mem_append.mp mem with mem | mem
    · rw [eq] at mem ⊢
      have inside : i ∈ code := by
        by_contra outside
        have opens : i ∈ pre ++ post := by
          simp only [List.mem_append] at mem ⊢
          tauto
        have := outer i opens
        cases i with
        | jmp _ | jmpf _ _ => cases this
        | _ => cases target
      have label := emits.target i inside n target
      exact List.mem_append_left _ (List.mem_append_left _ (List.mem_append_right _ label))
    · exact List.mem_append_right _
        (ih (fun n mem => shape n (List.mem_cons_of_mem _ mem)) _ i mem n target)

/-- The label that an instruction may go to. -/
def jumpLabel : Instr CString → Option CString
  | ⟨.jmp, label, _, _⟩ => label
  | ⟨.jmpf, _, _, label⟩ => label
  | _ => none

theorem jumpLabel_named {i : IrInstr} {label : CString}
    (jumps : jumpLabel (i.named id) = some label) :
    ∃ n, i.target? = some n ∧ label = labelText n := by
  cases i with
  | jmp n | jmpf _ n => exact ⟨n, rfl, (Option.some.inj jumps).symm⟩
  | binary t _ _ _ => cases t <;> cases jumps
  | unary t _ _ => cases t <;> cases jumps
  | _ => cases jumps

/-- The code that `gen_code` would leave without the two shortcuts. -/
def plainCode (env : Env) (tab : SymbolTable) (sentences : List AstNode) : List (Instr CString) :=
  irCode (plainProgramCode env tab sentences ⟨0, 0⟩).1

namespace Section

variable {tab : SymbolTable} {sentences : List AstNode} (s : Section tab sentences)

/-- The position of its ENTER in the code without the shortcuts. -/
def plainStart (env : Env) : Nat := (plainProgramCode env tab s.before ⟨0, 0⟩).1.length

theorem shortens (env : Env) (shape : ∀ node ∈ sentences, isSentence tab node = true) :
    ∃ T L, Pairs 0 (programCode env tab sentences ⟨0, 0⟩).2.temp 0
        (plainProgramCode env tab sentences ⟨0, 0⟩).2.temp T ∧
      Pairs 0 (programCode env tab sentences ⟨0, 0⟩).2.label 0
        (plainProgramCode env tab sentences ⟨0, 0⟩).2.label L ∧
      Shortens T L (programCode env tab sentences ⟨0, 0⟩).1
        (plainProgramCode env tab sentences ⟨0, 0⟩).1 ∧
      Shortens T L ((programCode env tab sentences ⟨0, 0⟩).1.drop (s.start env ⟨0, 0⟩ + 1))
        ((plainProgramCode env tab sentences ⟨0, 0⟩).1.drop (s.plainStart env + 1)) := by
  obtain ⟨before, line, sym, block, after, info, rfl, entry, own⟩ := s
  have shapeBefore : ∀ node ∈ before, isSentence tab node = true := fun node mem =>
    shape node (List.mem_append_left _ mem)
  obtain ⟨aheadBefore, T, L, temps, labels, short⟩ :=
    program_shortened env shapeBefore (.refl ⟨0, 0⟩)
  obtain ⟨-, T', L', temps', labels', short'⟩ := program_shortened env
    (fun node mem => shape node (List.mem_append_right before mem)) aheadBefore
  rw [programCode_append, plainProgramCode_append]
  refine ⟨_, _, temps.both temps', labels.both labels', short.first.append short'.second, ?_⟩
  simp only [start, plainStart]
  rw [List.drop_length_add_append, List.drop_length_add_append]
  have rest := short'.second (T := T) (L := L)
  simp only [programCode, plainProgramCode, sentenceCode_method line block _ entry own,
    plainSentenceCode_method env line block _ entry own, List.cons_append, List.drop_succ_cons,
    List.drop_zero] at rest ⊢
  cases rest with
  | same _ behind => exact behind

end Section

/-- From the ENTER of any method, in any store and under any oracle, the code with the shortcuts
and the code without them behave the same; and a jump of the method still finds its label there. -/
theorem shortcuts_invisible (env : Env) {tab : SymbolTable} {sentences : List AstNode}
    (shape : ∀ node ∈ sentences, isSentence tab node = true) (s : Section tab sentences) :
    (∀ (oracle : Oracle) (store : Store) (pending : List Word) (events : List Event),
      Indistinguishable oracle (emittedCode env tab sentences) (plainCode env tab sentences)
        ⟨s.start env ⟨0, 0⟩ + 1, store, pending, events⟩
        ⟨s.plainStart env + 1, store, pending, events⟩) ∧
    ∀ j instr label, s.start env ⟨0, 0⟩ < j → j < s.stop env ⟨0, 0⟩ →
      (emittedCode env tab sentences)[j]? = some instr → jumpLabel instr = some label →
      ∃ k, labelIndex (emittedCode env tab sentences) label = some k ∧
        s.start env ⟨0, 0⟩ < k ∧ k < s.stop env ⟨0, 0⟩ := by
  have unique : LabelsUnique (programCode env tab sentences ⟨0, 0⟩).1 :=
    (programCode_labels shape _).labelsUnique
  have unique' := (plainProgramCode_labels env shape ⟨0, 0⟩).labelsUnique
  rw [emittedCode_eq env shape]
  refine ⟨fun oracle store pending events => ?_, fun j instr label gt lt here jumps => ?_⟩
  · obtain ⟨low, ranges⟩ := programCode_ranges env shape ⟨0, 0⟩ (Nat.le_refl 0)
    obtain ⟨T, L, temps, labels, whole, behind⟩ := s.shortens env shape
    have enter := s.at_enter env ⟨0, 0⟩
    have stutters := beside_stutters ranges unique unique' (programCode_target shape _) temps labels
      whole oracle
    have start : LinkedStates (programCode env tab sentences ⟨0, 0⟩).1 T
        ⟨s.start env ⟨0, 0⟩ + 1, store, pending, events⟩
          ⟨s.plainStart env + 1, store, pending, events⟩ :=
      ⟨rfl, rfl, fun x => rfl, fun a b _ live =>
        absurd live (not_live_of_floor ranges enter fun _ _ => rfl)⟩
    exact indistinguishable_of_stutters ranges stutters (.aligned start behind)
  · obtain ⟨i, at', rfl⟩ := irCode_getElem?_some here
    obtain ⟨n, target, rfl⟩ := jumpLabel_named jumps
    have found := (s.body_emits shape env ⟨0, 0⟩).target i (s.mem_body gt lt at') n target
    obtain ⟨k, label⟩ := List.getElem?_of_mem found
    have inside := (List.getElem?_eq_some_iff.mp label).1
    have placed := (s.placed env ⟨0, 0⟩).left.tail.getElem? inside
    refine ⟨s.start env ⟨0, 0⟩ + 1 + k, labelIndex_eq unique (placed.trans label), by omega, ?_⟩
    rw [Section.stop]
    omega

/-- `bool b; b = true; while (b) { b = false; return b; b = true; } return b; b = false;` -/
def deadStores : BlockSyn :=
  .mk 9 [⟨2, .bool, bVar, none⟩]
    (.cons (.assign 3 bVar (.trueLiteral 3))
    (.cons (.whileLoop 6 (.id 4 bVar)
      (.mk 6 [] (.cons (.assign 5 bVar (.falseLiteral 5))
        (.cons (.returnExpr 5 (.id 5 bVar)) (.cons (.assign 6 bVar (.trueLiteral 6)) .nil)))))
    (.cons (.returnExpr 7 (.id 7 bVar)) (.cons (.assign 8 bVar (.falseLiteral 8)) .nil))))

/-- The lengths of the two codes of a program that is one method. -/
def bothLengths (checked : Checked) : Option (Bool × Nat × Nat) :=
  (onlyMethod checked.headAst).bind fun (sym, _) => (checked.tab.entry sym).map fun info =>
    (info.methodView.isExtern,
      (programCode (.sample true) checked.tab checked.headAst ⟨0, 0⟩).1.length,
      (plainProgramCode (.sample true) checked.tab checked.headAst ⟨0, 0⟩).1.length)

/-- The code above is six instructions shorter than without the shortcuts. -/
theorem shortcuts_invisible_dead :
    ∃ (checked : Checked) (s : Section checked.tab checked.headAst),
      frontEnd (.sample true) (boolMain deadStores) = .ok checked ∧
      (emittedCode (.sample true) checked.tab checked.headAst).length = 13 ∧
      (plainCode (.sample true) checked.tab checked.headAst).length = 19 ∧
      ∀ oracle store, Indistinguishable oracle
      (emittedCode (.sample true) checked.tab checked.headAst)
        (plainCode (.sample true) checked.tab checked.headAst)
        ⟨s.start (.sample true) ⟨0, 0⟩ + 1, store, [], []⟩
        ⟨s.plainStart (.sample true) + 1, store, [], []⟩ := by
  obtain ⟨checked, accepted⟩ := Fallible.isOk_iff.mp (by decide +kernel :
    (frontEnd (.sample true) (boolMain deadStores)).isOk = true)
  have facts : (frontEnd (.sample true) (boolMain deadStores)).toOption.bind bothLengths =
      some (false, 13, 19) := by decide +kernel
  have shape := (frontEnd_compilable accepted).shape
  rw [accepted] at facts
  obtain ⟨only, isOnly, rest⟩ := Option.bind_eq_some_iff.mp
    (show (onlyMethod checked.headAst).bind _ = some (false, 13, 19) from facts)
  obtain ⟨info, entry, eq⟩ := Option.map_eq_some_iff.mp rest
  simp only [Prod.mk.injEq] at eq
  obtain ⟨s, -, -⟩ := section_of_only isOnly entry eq.1
  refine ⟨checked, s, accepted, ?_, ?_, fun oracle store => ?_⟩
  · rw [emittedCode_eq _ shape, irCode, List.length_map]
    exact eq.2.1
  · rw [plainCode, irCode, List.length_map]
    exact eq.2.2
  · exact (shortcuts_invisible (.sample true) shape s).1 oracle store [] []

end Ctds
