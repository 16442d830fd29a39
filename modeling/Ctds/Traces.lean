import Ctds.Meaning
import Ctds.TypedRuns

/-! What a meaning leaves behind it: a trace of what was assigned and called. An oracle fits
a trace if it gives the answers of its calls, and the trace leads from one world to another
if the calls do. Where no two variables share a name, a store holds their values. -/

namespace Ctds

open Word

inductive TraceItem where
  | assign (name : CString) (v : Value)
  | call (name : CString) (args : List Value) (answer : Option Value)

def TraceItem.event : TraceItem → Event
  | assign name v => .assign name v.word
  | call name args _ => .call name (args.map Value.word)

def traceEvents (items : List TraceItem) : List Event := items.map TraceItem.event

theorem traceEvents_append (items more : List TraceItem) :
    traceEvents (items ++ more) = traceEvents items ++ traceEvents more := List.map_append

section Traces

variable {W : Type}

/-- The calls of the trace, one after the other, take the world from `w` to `w'`. -/
def Follows (call : Callee W) : W → List TraceItem → W → Prop
  | w, [], w' => w = w'
  | w, .assign _ _ :: rest, w' => Follows call w rest w'
  | w, .call name args answer :: rest, w' =>
    ∃ next, call name args w = some (answer, next) ∧ Follows call next rest w'

theorem follows_append {call : Callee W} {w w'' : W} {items more : List TraceItem} :
    Follows call w (items ++ more) w'' ↔ ∃ w', Follows call w items w' ∧
      Follows call w' more w'' := by
  induction items generalizing w with
  | nil => simp [Follows]
  | cons item rest ih =>
    cases item with
    | assign name v => exact ih
    | call name args answer =>
      simp only [List.cons_append, Follows, ih]
      exact ⟨fun ⟨next, called, w', first, second⟩ => ⟨w', ⟨next, called, first⟩, second⟩,
        fun ⟨w', ⟨next, called, first⟩, second⟩ => ⟨next, called, w', first, second⟩⟩

theorem Follows.unique {call : Callee W} {w w' w'' : W} {items : List TraceItem}
    (h : Follows call w items w') (h' : Follows call w items w'') : w' = w'' := by
  induction items generalizing w with
  | nil => exact h.symm.trans h'
  | cons item rest ih =>
    cases item with
    | assign name v => exact ih h h'
    | call name args answer =>
      obtain ⟨next, called, rest⟩ := h
      obtain ⟨next', called', rest'⟩ := h'
      obtain ⟨-, rfl⟩ := Prod.mk.inj (Option.some.inj (called.symm.trans called'))
      exact ih rest rest'

/-- The word the oracle must answer with at this point of a run. -/
def TraceItem.Answered (oracle : Oracle) (before : List Event) : TraceItem → Prop
  | call name args (some v) => oracle before name (args.map Value.word) = v.word
  | call _ _ none | assign _ _ => True

/-- The oracle gives the answers of the trace behind the events `before`. -/
def FitsTrace (oracle : Oracle) : List Event → List TraceItem → Prop
  | _, [] => True
  | before, item :: rest =>
    item.Answered oracle before ∧ FitsTrace oracle (before ++ [item.event]) rest

theorem fits_append {oracle : Oracle} {before : List Event} {items more : List TraceItem} :
    FitsTrace oracle before (items ++ more) ↔
      FitsTrace oracle before items ∧ FitsTrace oracle (before ++ traceEvents items) more := by
  induction items generalizing before with
  | nil => simp [FitsTrace, traceEvents]
  | cons item rest ih =>
    simp only [FitsTrace, ih, traceEvents, List.map_cons, List.append_assoc,
      List.cons_append, List.nil_append, and_assoc]

/-- Item by item: at its place in the events each call has its answer. -/
theorem fits_iff {oracle : Oracle} {before : List Event} {items : List TraceItem} :
    FitsTrace oracle before items ↔ ∀ (k : Nat) item, items[k]? = some item →
      item.Answered oracle (before ++ traceEvents (items.take k)) := by
  induction items generalizing before with
  | nil => simp [FitsTrace]
  | cons item rest ih =>
    have place : ∀ k, before ++ [item.event] ++ traceEvents (rest.take k) =
        before ++ traceEvents ((item :: rest).take (k + 1)) := fun k => by
      rw [List.append_assoc]
      rfl
    simp only [FitsTrace, ih, place]
    constructor
    · rintro ⟨first, later⟩ k other here
      cases k with
      | zero =>
        obtain rfl := Option.some.inj here
        simpa [traceEvents] using first
      | succ k => exact later k other here
    · intro all
      exact ⟨by simpa [traceEvents] using all 0 item rfl,
        fun k other here => all (k + 1) other here⟩

/-- The answers of the trace at their places, and zero everywhere else. -/
def traceOracle (items : List TraceItem) : Oracle := fun events name args =>
  match items[events.length]? with
  | some (.call g vs (some v)) => if g = name ∧ vs.map Value.word = args then v.word else 0
  | _ => 0

theorem traceOracle_fits (items : List TraceItem) : FitsTrace (traceOracle items) [] items := by
  rw [fits_iff]
  intro k item here
  have inside := (List.getElem?_eq_some_iff.mp here).1
  have length : ([] ++ traceEvents (items.take k)).length = k := by
    rw [List.nil_append, traceEvents, List.length_map, List.length_take, Nat.min_eq_left inside.le]
  cases item with
  | assign name v => trivial
  | call name args answer =>
    cases answer with
    | none => trivial
    | some v =>
      simp only [TraceItem.Answered, traceOracle, length, here]
      simp

/-- A trace takes the world from `w` to `w'`, and under every oracle that fits it the events
before and after it stand in the relation. -/
def Leads (call : Callee W) (w w' : W) (run : Oracle → List Event → List Event → Prop) : Prop :=
  ∃ items, Follows call w items w' ∧
    ∀ oracle before, FitsTrace oracle before items → run oracle before (before ++ traceEvents items)

namespace Leads

variable {call : Callee W} {w w' w'' : W} {run run' : Oracle → List Event → List Event → Prop}

theorem refl (w : W) : Leads call w w fun _ e e' => e' = e :=
  ⟨[], rfl, fun _ before _ => List.append_nil before⟩

theorem assign (name : CString) (v : Value) (w : W) :
    Leads call w w fun _ e e' => e' = e ++ [.assign name v.word] :=
  ⟨[.assign name v], rfl, fun _ _ _ => rfl⟩

theorem mono (h : Leads call w w' run) (sub : ∀ o e e', run o e e' → run' o e e') :
    Leads call w w' run' := by
  obtain ⟨items, follows, runs⟩ := h
  exact ⟨items, follows, fun o e fits => sub o e _ (runs o e fits)⟩

theorem append (h : Leads call w w' run) (h' : Leads call w' w'' run') :
    Leads call w w'' fun o e e'' => ∃ e', run o e e' ∧ run' o e' e'' := by
  obtain ⟨items, follows, runs⟩ := h
  obtain ⟨more, follows', runs'⟩ := h'
  refine ⟨items ++ more, follows_append.mpr ⟨w', follows, follows'⟩, fun o e fits => ?_⟩
  obtain ⟨first, second⟩ := fits_append.mp fits
  refine ⟨_, runs o e first, ?_⟩
  rw [traceEvents_append, ← List.append_assoc]
  exact runs' o _ second

theorem ofCall {tab : SymbolTable} {line : Int} {name : Ident} {numArgs : Nat}
    {vs : List Value} {answer : Option Value}
    (called : callMethod tab call line name numArgs vs w = some (answer, w')) :
    Leads call w w' fun o e e' => e' = e ++ [.call name.text (vs.map Value.word)] ∧
      ∀ v, answer = some v → o e name.text (vs.map Value.word) = v.word := by
  unfold callMethod at called
  split at called
  · cases called
  · next method declared =>
    obtain ⟨⟨result, next⟩, ran, rest⟩ := Option.bind_eq_some_iff.mp called
    simp only [Option.ite_none_right_eq_some, Option.some.injEq, Prod.mk.injEq] at rest
    obtain ⟨-, rfl, rfl⟩ := rest
    refine ⟨[.call name.text vs result], ⟨_, ran, rfl⟩, fun o e fits => ⟨rfl, ?_⟩⟩
    rintro v rfl
    exact fits.1

end Leads

end Traces

/-- No two of the variables share a name. -/
def NamesApart (tab : SymbolTable) (ids : List IdPtr) : Prop :=
  ∀ p ∈ ids, ∀ q ∈ ids, ∀ info info', tab.entry p = some info → tab.entry q = some info' →
    info.name = info'.name → p = q

instance (tab : SymbolTable) (ids : List IdPtr) : Decidable (NamesApart tab ids) :=
  decidable_of_iff (∀ p ∈ ids, ∀ q ∈ ids, ∀ info ∈ tab.entry p, ∀ info' ∈ tab.entry q,
    info.name = info'.name → p = q)
    ⟨fun h p mem q mem' info info' entry entry' => h p mem q mem' info entry info' entry',
      fun h p mem q mem' info entry info' entry' => h p mem q mem' info info' entry entry'⟩

/-- A variable with a value has its word under its name. -/
def Matches (tab : SymbolTable) (ids : List IdPtr) (vars : Variables) (store : Store) : Prop :=
  ∀ p ∈ ids, ∀ info v, tab.entry p = some info → vars p = some (some v) →
    info.idType = v.type.code ∧ store info.name.text = v.word

namespace Matches

variable {tab : SymbolTable} {ids : List IdPtr} {vars : Variables} {store : Store}

theorem assign (apart : NamesApart tab ids) (h : Matches tab ids vars store) {p : IdPtr}
    (mem : p ∈ ids) {info : SymbolInfo} (entry : tab.entry p = some info) {v : Value}
    (typed : info.idType = v.type.code) :
    Matches tab ids (Function.update vars p (some (some v)))
      (Function.update store info.name.text v.word) := by
  intro q mem' info' v' entry' value
  by_cases same : q = p
  · subst same
    rw [Function.update_self, Option.some.injEq, Option.some.injEq] at value
    obtain rfl := Option.some.inj (entry.symm.trans entry')
    subst value
    exact ⟨typed, Function.update_self _ _ _⟩
  · rw [Function.update_of_ne same] at value
    obtain ⟨typed', word⟩ := h q mem' info' v' entry' value
    refine ⟨typed', ?_⟩
    rw [Function.update_of_ne, word]
    exact fun eq => same (apart q mem' p mem info' info entry' entry (Ident.ext_text eq))

theorem declare (h : Matches tab ids vars store) (p : IdPtr) :
    Matches tab ids (Function.update vars p (some none)) store := by
  intro q mem info v entry value
  by_cases same : q = p
  · subst same
    rw [Function.update_self] at value
    cases value
  · rw [Function.update_of_ne same] at value
    exact h q mem info v entry value

end Matches

end Ctds
