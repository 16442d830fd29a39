import Ctds.JumpTargets
import Ctds.Lib.Answers
import Ctds.MeaningRuns
import Ctds.MemoryOptimization
import Ctds.Runtime
import Ctds.StackAlignment

/-! The object code of a method beside its intermediate code. Between two instructions the
slots hold the variables, the registers the arguments passed so far, and the world is where
the calls of the trace have brought it. Calls are taken as they come: whoever serves them
answers in `%rax`, and where the trace promises no answer the oracle takes that word. -/

namespace Ctds

open Transition Word

section Steps

variable {code : List (Instr CString)} {o o' : Oracle} {s s' : IrState}

theorem irStep_events (o' : Oracle) (step : irStep code o s = some s') :
    ∃ more, s'.events = s.events ++ more ∧ (more = [] → irStep code o' s = some s') := by
  unfold irStep at step ⊢
  split at step
  · cases step
  · cases step
  · cases step
  · cases step
  · obtain rfl := Option.some.inj step
    exact ⟨[], (List.append_nil _).symm, fun _ => rfl⟩
  · obtain rfl := Option.some.inj step
    exact ⟨_, rfl, fun none => absurd none (by simp)⟩
  · simp only [Option.bind_eq_bind, Option.bind_eq_some_iff, Option.pure_def,
      Option.some.injEq] at step
    obtain ⟨⟨store, flow⟩, effect, pc, target, rfl⟩ := step
    refine ⟨_, rfl, fun _ => ?_⟩
    simp only [effect, target, Option.bind_eq_bind, Option.bind_some, Option.pure_def]

theorem irStep_congr (same : o s.events = o' s.events) : irStep code o s = irStep code o' s := by
  unfold irStep
  split <;> first
    | rfl
    | rw [same]

theorem irStep_asks (code : List (Instr CString)) :
    Asks List.length (irStep code) fun s => s.events.length where
  mono o s s' step := by
    obtain ⟨more, events, -⟩ := irStep_events o step
    rw [events, List.length_append]
    omega
  quiet o o' s s' step same := by
    obtain ⟨more, events, quiet⟩ := irStep_events o' step
    refine quiet (List.eq_nil_of_length_eq_zero ?_)
    rw [events, List.length_append] at same
    omega
  asked o o' s agree := irStep_congr (agree s.events (Nat.lt_succ_self _))

theorem reaches_events (reaches : Reaches (irStep code o) s s') : s.events <+: s'.events :=
  reaches.invariant (P := fun t => s.events <+: t.events)
    (fun t u before step => by
      obtain ⟨more, events, -⟩ := irStep_events o step
      exact before.trans ⟨more, events.symm⟩) List.prefix_rfl

end Steps

theorem item_of_initial {events : List Event} {event : Event} {items : List TraceItem}
    (h : events ++ [event] <+: traceEvents items) :
    ∃ item, items[events.length]? = some item ∧ item.event = event := by
  obtain ⟨rest, split⟩ := h
  have at' : (traceEvents items)[events.length]? = some event := by
    rw [← split]
    simp
  rw [traceEvents, List.getElem?_map, Option.map_eq_some_iff] at at'
  exact at'

theorem assigned_cases (ρ : Nat → Nat) (store : Store) (i : IrInstr) :
    i.assigned ρ store = [] ∨ ∃ x v, i.assigned ρ store = [.assign x v] := by
  cases i with
  | store source dest | storeVal value dest => exact .inr ⟨_, _, rfl⟩
  | _ => exact .inl rfl

section Worlds

variable {W : Type} {call : Callee W} {w₀ w w' : W} {items : List TraceItem} {n : Nat}

theorem follows_next {item : TraceItem} (here : items[n]? = some item) :
    Follows call w₀ (items.take (n + 1)) w' ↔
      ∃ w, Follows call w₀ (items.take n) w ∧ Follows call w [item] w' := by
  rw [List.take_add_one, here]
  exact follows_append

theorem follows_assigned {events : List Event} {ρ : Nat → Nat} {store : Store} {i : IrInstr}
    (h : Follows call w₀ (items.take events.length) w)
    (inTrace : events ++ i.assigned ρ store <+: traceEvents items) :
    Follows call w₀ (items.take (events ++ i.assigned ρ store).length) w := by
  rcases assigned_cases ρ store i with none | ⟨x, v, one⟩
  · rwa [none, List.append_nil]
  · rw [one] at inTrace ⊢
    obtain ⟨item, here, event⟩ := item_of_initial inTrace
    rw [List.length_append, List.length_singleton, follows_next here]
    cases item with
    | assign name value => exact ⟨w, h, rfl⟩
    | call name args answer => cases event

theorem follows_called {name : CString} {args : List Value} {answer : Option Value}
    (all : Follows call w₀ items w') (h : Follows call w₀ (items.take n) w)
    (here : items[n]? = some (.call name args answer)) :
    ∃ next, call name args w = some (answer, next) ∧
      Follows call w₀ (items.take (n + 1)) next := by
  rw [← List.take_append_drop (n + 1) items, follows_append] at all
  obtain ⟨next, first, -⟩ := all
  obtain ⟨w₁, before, called⟩ := (follows_next here).mp first
  obtain rfl := h.unique before
  obtain ⟨w₂, ran, rfl⟩ := called
  exact ⟨w₂, ran, first⟩

end Worlds

theorem effect_jump {ρ : Nat → Nat} {store store' : Store} {i : IrInstr} {label : CString}
    (effect : i.effect ρ store = some (store', .jump label)) :
    ∃ n, i.target? = some n ∧ label = labelText n := by
  cases i with
  | jmp n =>
    obtain ⟨-, eq⟩ := Prod.mk.inj (Option.some.inj effect)
    exact ⟨n, rfl, (Flow.jump.inj eq).symm⟩
  | jmpf condition n =>
    obtain ⟨-, eq⟩ := Prod.mk.inj (Option.some.inj effect)
    split at eq
    · exact ⟨n, rfl, (Flow.jump.inj eq).symm⟩
    · cases eq
  | binary t left right dest | unary t left dest =>
    obtain ⟨v, -, eq⟩ := Option.map_eq_some_iff.mp effect
    cases (Prod.mk.inj eq).2
  | param _ | call _ _ | ret _ | enter _ | leave _ | externDecl _ => cases effect
  | _ => cases (Prod.mk.inj (Option.some.inj effect)).2

theorem instrLines_level {names : List CString} {code : List (Instr CString)} {k p s : Nat}
    {ρ : Nat → Nat} {i : IrInstr} (isLocal : i.isLocal = true) :
    ∀ line ∈ instrLines names code k (i.named ρ) p s, line.isLevel = true := by
  cases i with
  | param _ | call _ _ | ret _ | enter _ | leave _ | externDecl _ => cases isLocal
  | binary t left right dest =>
    rw [named_binary]
    cases t <;> simp [instrLines, binaryLines, BinaryInstr.type, AsmLine.isLevel]
  | unary t left dest =>
    rw [named_unary]
    cases t <;> simp [instrLines, UnaryInstr.type, AsmLine.isLevel]
  | _ =>
    simp [instrLines, binaryLines, IrInstr.named, IrInstr.instr, Instr.map, AsmLine.isLevel]

theorem named_isLocal {ρ : Nat → Nat} {i : IrInstr} (isLocal : i.isLocal = true) :
    (i.named ρ).instruct ≠ .param ∧ (i.named ρ).instruct ≠ .call := by
  cases i with
  | param _ | call _ _ | ret _ | enter _ | leave _ | externDecl _ => cases isLocal
  | binary t left right dest =>
    rw [named_binary]
    cases t <;> simp [BinaryInstr.type]
  | unary t left dest =>
    rw [named_unary]
    cases t <;> simp [UnaryInstr.type]
  | _ => simp [IrInstr.named, IrInstr.instr, Instr.map]

section Activity

variable {env : Env} {b : Compiled env} {a : Activation} {W : Type} {ext : ExternIo W}
  {call : Callee W} {w₀ : W} {items : List TraceItem} {mem₀ : Int → Word}

variable (b) in
/-- The names with slots in the activation's frame. -/
def Activation.names (a : Activation) : List CString :=
  methodNames b.tab b.headAst b.code a.enter a.name a.leave

variable (b a mem₀ call w₀ items) in
/-- In front of instruction `st.pc` of the activation: the machine holds what the state says,
above the frame memory is as it was, and the world is where the trace has brought it. -/
structure InStep (st : IrState) (s : Config × W) : Prop where
  gt : a.enter < st.pc
  le : st.pc ≤ a.leave
  pc : s.1.pc = lineStart b.tab b.headAst b.code st.pc
  rbp : s.1.machine.rbp = a.base
  rsp : s.1.machine.rsp = a.base - frameSize b.code a.enter a.name
  holds : Holds (a.names b) st.store s.1.machine
  above : ∀ address, a.base ≤ address → s.1.machine.mem address = mem₀ address
  count : st.pending.length = argsBefore b.code st.pc
  args : ∀ (k : Nat) v r, st.pending[k]? = some v → argRegs[k]? = some r → s.1.machine.reg r = v
  world : Follows call w₀ (items.take st.events.length) s.2

theorem lines_of_instr (i : Nat) : ∀ d, d < (objectLines b.tab b.headAst b.code i).length →
    b.lines[lineStart b.tab b.headAst b.code i + d]? = (objectLines b.tab b.headAst b.code i)[d]? :=
  fun _ inside => by
    rw [List.getElem?_eq_getElem inside]
    exact b.line_of_instr (List.getElem?_eq_getElem inside)

theorem slotsHold_leave (method : InMethod b.code a.enter a.leave a.name) {store : Store}
    {m : Machine} :
    SlotsHold (objectState b.tab b.headAst b.code a.leave).varMap store m ↔
      Holds (a.names b) store m := by
  obtain ⟨p, k, final⟩ := objectState_inside b.tab b.headAst method method.lt (Nat.le_refl _)
  rw [final]
  exact slotsHold_iff

theorem label_found {k n : Nat} (here : b.instrs[k]? = some (.label n)) :
    labelIndex b.code (labelText n) = some k ∧
      findLabel b.lines (labelText n) = some (lineStart b.tab b.headAst b.code k) := by
  constructor
  · have unique : LabelsUnique b.instrs :=
      (programCode_labels b.compilable.shape ⟨0, 0⟩).labelsUnique
    have found := labelIndex_eq unique here
    have same := labelIndex_renamed b.rename b.instrs (labelText n)
    rw [b.code_eq, ← found]
    exact same.trans (labelIndex_renamed id b.instrs (labelText n)).symm
  · have first : (objectLines b.tab b.headAst b.code k)[0]? = some (.label (labelText n)) := by
      rw [objectLines_eq (b.code_of_instrs here)]
      rfl
    exact b.findLabel_eq (b.line_of_instr first)

variable {st st' : IrState} {s : Config × W} {o : Oracle}

theorem InStep.local_step (h : InStep b a call w₀ items mem₀ st s)
    (method : InMethod b.code a.enter a.leave a.name) {ir : IrInstr}
    (here : b.instrs[st.pc]? = some ir) (isLocal : ir.isLocal = true) (lt : st.pc < a.leave)
    (step : irStep b.code o st = some st') (inTrace : st'.events <+: traceEvents items) :
    ∃ s', Reaches (ioStep b.lines ext) s s' ∧ InStep b a call w₀ items mem₀ st' s' := by
  have at' := b.code_of_instrs here
  rw [irStep_local o at' isLocal] at step
  obtain ⟨⟨store', flow⟩, effect, step⟩ := Option.bind_eq_some_iff.mp step
  obtain ⟨pc', target, rfl⟩ := Option.map_eq_some_iff.mp step
  have does := b.objectLines_refine method h.gt lt here isLocal
    ((slotsHold_leave method).mpr h.holds)
  rw [effect] at does
  obtain ⟨m', ran, holds', rbp', rsp'⟩ := does
  obtain ⟨notParam, notCall⟩ := named_isLocal (ρ := b.rename) isLocal
  have none := b.argsBefore_eq_zero at' notParam notCall
  -- the lines write to slots only
  obtain ⟨p, k, -, lines⟩ := objectLines_inside b.tab b.headAst method h.gt lt at'
  have level : ∀ line ∈ objectLines b.tab b.headAst b.code st.pc, line.isLevel = true := by
    rw [lines]
    exact instrLines_level isLocal
  have low : ∀ line ∈ objectLines b.tab b.headAst b.code st.pc, ∀ offset,
      line.writes = some offset → offset < 0 := by
    intro line mem offset writes
    obtain ⟨d, atLine⟩ := List.mem_iff_getElem?.mp mem
    obtain ⟨-, dest, -, -, rfl⟩ := writes_inside method h.gt lt atLine writes
    exact slotOffset_neg _ _
  obtain ⟨-, -, mem⟩ := execLines_level ran level low
  -- where control goes
  have lands : landing b.lines (lineStart b.tab b.headAst b.code st.pc +
        (objectLines b.tab b.headAst b.code st.pc).length) m' flow.control =
      some ⟨lineStart b.tab b.headAst b.code pc', m'⟩ ∧ a.enter < pc' ∧ pc' ≤ a.leave ∧
        argsBefore b.code pc' = 0 := by
    cases flow with
    | next =>
      obtain rfl := Option.some.inj target
      refine ⟨by rw [lineStart_succ]; rfl, Nat.lt_succ_of_lt h.gt, lt, ?_⟩
      rw [argsBefore, at']
      split
      · next eq => exact absurd (congrArg Instr.instruct (Option.some.inj eq)) notParam
      · rfl
    | jump label =>
      obtain ⟨n, jumps, rfl⟩ := effect_jump effect
      obtain ⟨k, gt', lt', label⟩ := b.target_inside method h.gt lt here jumps
      obtain ⟨index, found⟩ := label_found label
      obtain rfl := Option.some.inj (index.symm.trans target)
      refine ⟨by rw [Flow.control, landing, found]; rfl, gt', Nat.le_of_lt lt', ?_⟩
      exact b.argsBefore_eq_zero (b.code_of_instrs label)
        (by simp [IrInstr.named, IrInstr.instr, Instr.map])
        (by simp [IrInstr.named, IrInstr.instr, Instr.map])
  obtain ⟨lands, gt', le', none'⟩ := lands
  have empty : st.pending = [] := List.eq_nil_of_length_eq_zero (h.count.trans none)
  obtain ⟨⟨pc, m⟩, w⟩ := s
  obtain rfl : pc = _ := h.pc
  refine ⟨(_, w), execLines_reaches (lines_of_instr _) ran lands, gt', le', rfl, ?_, ?_, ?_, ?_, ?_,
    ?_, follows_assigned h.world inTrace⟩
  · exact rbp'.trans h.rbp
  · exact rsp'.trans h.rsp
  · exact (slotsHold_leave method).mp holds'
  · intro address le
    exact (mem address (h.rbp ▸ le)).trans (h.above address le)
  · dsimp only
    rw [empty, none']
    rfl
  · intro k v r found
    rw [empty] at found
    cases found

theorem InStep.param_step (h : InStep b a call w₀ items mem₀ st s)
    (method : InMethod b.code a.enter a.leave a.name) {arg : Var}
    (here : b.instrs[st.pc]? = some (.param arg)) (lt : st.pc < a.leave)
    (few : argsBefore b.code (st.pc + 1) ≤ 6) (step : irStep b.code o st = some st') :
    ∃ s', Reaches (ioStep b.lines ext) s s' ∧ InStep b a call w₀ items mem₀ st' s' := by
  have at' := b.code_of_instrs here
  rw [irStep_param o at'] at step
  obtain rfl := Option.some.inj step
  have count : argsBefore b.code (st.pc + 1) = argsBefore b.code st.pc + 1 := by
    rw [argsBefore, at', named_param]
  obtain ⟨p, k, state, lines⟩ := objectLines_inside b.tab b.headAst method h.gt lt at'
  obtain ⟨counted, -⟩ := b.objectState_counts (Nat.le_of_lt (List.getElem?_eq_some_iff.mp at').1)
  rw [state] at counted
  obtain rfl : p = argsBefore b.code st.pc := counted
  obtain ⟨r, reg⟩ := argRegs_getElem? (k := argsBefore b.code st.pc) (by omega)
  rw [named_param] at lines
  simp only [instrLines, reg, operandFor_var] at lines
  have seen : arg.name b.rename ∈ a.names b := slotOperands_subset method h.gt lt at' (by
    rw [slotOperands_named]
    exact List.mem_singleton_self _)
  obtain ⟨⟨pc, m⟩, w⟩ := s
  obtain rfl : pc = _ := h.pc
  have value := h.holds _ seen
  have ran : execLines (objectLines b.tab b.headAst b.code st.pc) m =
      some (m.setReg r (st.store (arg.name b.rename)), .next) := by
    have exec : execLine (.movqToReg (.slot (slotOffset (a.names b) (arg.name b.rename))) r) m =
        some (m.setReg r (st.store (arg.name b.rename)), .next) := by
      rw [execLine, Machine.read, ← value]
      rfl
    rw [lines]
    exact execLines_next exec
  have next : landing b.lines (lineStart b.tab b.headAst b.code st.pc +
        (objectLines b.tab b.headAst b.code st.pc).length)
        (m.setReg r (st.store (arg.name b.rename))) .next =
      some ⟨lineStart b.tab b.headAst b.code (st.pc + 1),
        m.setReg r (st.store (arg.name b.rename))⟩ := by
    rw [lineStart_succ]
    rfl
  refine ⟨(_, w), execLines_reaches (lines_of_instr _) ran next, Nat.lt_succ_of_lt h.gt, lt, rfl,
    h.rbp, h.rsp, h.holds, h.above, ?_, ?_, h.world⟩
  · rw [List.length_append, h.count, count]
    rfl
  · intro k v r' found reg'
    rcases Nat.lt_trichotomy k st.pending.length with before | same | behind
    · rw [List.getElem?_append_left before] at found
      refine Eq.trans (Function.update_of_ne ?_ _ _) (h.args k v r' found reg')
      rintro rfl
      have := argRegs_inj reg reg'
      have := h.count
      omega
    · subst same
      rw [List.getElem?_concat_length, Option.some.injEq] at found
      rw [h.count, reg, Option.some.injEq] at reg'
      subst found reg'
      exact Function.update_self _ _ _
    · rw [List.getElem?_eq_none (by rw [List.length_append, List.length_singleton]; omega)] at found
      cases found

/-- Whoever is called: wherever a line calls this name, with the arguments in registers, the
stack aligned and room below it, the call is over with the answer that it has. -/
def Serves (lines : List AsmLine) (ext : ExternIo W) (call : Callee W) (room : Int) : Prop :=
  ∀ pc (g : Ident) args answer w w' m, lines[pc]? = some (.call g.text) →
    call g.text args w = some (answer, w') → args.length ≤ 6 → Passed args m → m.rsp % 16 = 0 →
    room ≤ m.rsp → m.rsp ≤ 2 ^ 64 → 0 ≤ m.rbp → m.rbp < 2 ^ 64 →
    ∃ m', Reaches (ioStep lines ext) (⟨pc, m⟩, w) (⟨pc + 1, m'⟩, w') ∧ Returned answer m m'

/-- The oracle, with this word for the call that is made now. -/
def Oracle.answering (o : Oracle) (st : IrState) (name : CString) (v : Word) : Oracle :=
  Function.update o st.events fun g vs =>
    if g = name ∧ vs = st.pending then v else o st.events g vs

theorem answering_same (o : Oracle) (st : IrState) (name : CString) (v : Word) :
    o.answering st name v st.events name st.pending = v := by
  rw [Oracle.answering, Function.update_self, if_pos ⟨rfl, rfl⟩]

theorem answering_agrees (o : Oracle) (st : IrState) (name : CString) (v : Word) :
    AgreeBelow List.length st.events.length o (o.answering st name v) := fun events lt => by
  rw [Oracle.answering, Function.update_of_ne]
  rintro rfl
  exact Nat.lt_irrefl _ lt

theorem FitsTrace.answering (fits : FitsTrace o [] items) {name : CString} {args : List Value}
    {answer : Option Value} (here : items[st.events.length]? = some (.call name args answer))
    (passed : args.map Value.word = st.pending) {v : Word}
    (value : ∀ u, answer = some u → v = u.word) :
    FitsTrace (o.answering st name v) [] items := by
  rw [fits_iff] at fits ⊢
  intro k item at'
  have before := fits k item at'
  have length : ([] ++ traceEvents (items.take k)).length = k := by
    have inside := (List.getElem?_eq_some_iff.mp at').1
    rw [List.nil_append, traceEvents, List.length_map, List.length_take,
      Nat.min_eq_left inside.le]
  cases item with
  | assign x u => trivial
  | call g us result =>
    cases result with
    | none => trivial
    | some u =>
      simp only [TraceItem.Answered] at before ⊢
      by_cases same : [] ++ traceEvents (items.take k) = st.events
      · rw [same] at before length ⊢
        rw [length, at'] at here
        obtain ⟨rfl, rfl, rfl⟩ := TraceItem.call.inj (Option.some.inj here)
        rw [passed, answering_same]
        exact value u rfl
      · rw [Oracle.answering, Function.update_of_ne same]
        exact before

/-- What an activation needs around it: slots inside the frame, an aligned base, addresses
that fit in a register, and room for what it calls. -/
structure Activation.Sound (b : Compiled env) (a : Activation) (room : Int) : Prop where
  method : InMethod b.code a.enter a.leave a.name
  covers : ∀ name ∈ a.names b, -frameSize b.code a.enter a.name ≤ slotOffset (a.names b) name
  aligned : a.base % 16 = 0
  low : 0 ≤ a.base
  high : a.base < 2 ^ 64
  room : room ≤ a.base - frameSize b.code a.enter a.name

theorem InStep.call_step {room : Int} (sound : a.Sound b room)
    (serves : Serves b.lines ext call room) {w : W} (all : Follows call w₀ items w)
    (good : FitsTrace o [] items)
    (h : InStep b a call w₀ items mem₀ st s) {g : Ident} {dest : Nat}
    (here : b.instrs[st.pc]? = some (.call g dest)) (lt : st.pc < a.leave)
    (few : argsBefore b.code st.pc ≤ 6) (step : irStep b.code o st = some st')
    (inTrace : st'.events <+: traceEvents items) :
    ∃ o', FitsTrace o' [] items ∧ AgreeBelow List.length st.events.length o o' ∧
      ∃ st'' s', irStep b.code o' st = some st'' ∧ Reaches (ioStep b.lines ext) s s' ∧
        InStep b a call w₀ items mem₀ st'' s' := by
  have at' := b.code_of_instrs here
  rw [irStep_call o at'] at step
  obtain rfl := Option.some.inj step
  obtain ⟨⟨pc, m⟩, w₁⟩ := s
  obtain rfl : pc = _ := h.pc
  -- the call of the trace
  obtain ⟨item, inItems, event⟩ := item_of_initial inTrace
  obtain ⟨name, args, answer, rfl⟩ : ∃ name args answer, item = .call name args answer := by
    cases item with
    | assign x v => cases event
    | call name args answer => exact ⟨name, args, answer, rfl⟩
  obtain ⟨rfl, passed⟩ := Event.call.inj event
  obtain ⟨w₂, called, follows⟩ := follows_called all h.world inItems
  -- the lines
  have lines := objectLines_call sound.method h.gt lt here
  have noWords : argWords b.code st.pc = 0 := by
    rw [argWords]
    omega
  rw [noWords, if_neg (Nat.lt_irrefl 0), operandFor_temp] at lines
  have two : (objectLines b.tab b.headAst b.code st.pc).length = 2 := by
    rw [lines]
    rfl
  have lineAt := lines_of_instr (b := b) st.pc
  have callLine := lineAt 0 (by omega)
  have moveLine := lineAt 1 (by omega)
  rw [lines] at callLine moveLine
  -- the call
  have frame : 16 ∣ frameSize b.code a.enter a.name := frameSize_aligned _ _ _
  have frame' := frameSize_nonneg b.code a.enter a.name
  obtain ⟨m', reaches, back⟩ := serves (lineStart b.tab b.headAst b.code st.pc) g args answer
    w₁ w₂ m callLine called
    (by rw [← List.length_map (f := Value.word), passed, h.count]; exact few)
    (fun i v r found reg => h.args i v.word r (by rw [← passed, List.getElem?_map, found]; rfl) reg)
    (by have := h.rsp; have := sound.aligned; dsimp only at *; omega)
    (by have := h.rsp; have := sound.room; dsimp only at *; omega)
    (by have := h.rsp; have := sound.high; dsimp only at *; omega)
    (by have := h.rbp; have := sound.low; dsimp only at *; omega)
    (by have := h.rbp; have := sound.high; dsimp only at *; omega)
  have rsp : m.rsp = a.base - frameSize b.code a.enter a.name := h.rsp
  have rbp : m.rbp = a.base := h.rbp
  let slot := slotOffset (a.names b) (tempText (b.rename dest))
  have seen : tempText (b.rename dest) ∈ a.names b :=
    slotOperands_subset sound.method h.gt lt at' (by
      rw [slotOperands_named]
      exact List.mem_singleton_self _)
  let o' := o.answering st g.text (m'.reg .rax)
  refine ⟨o', good.answering inItems passed back.value, answering_agrees _ _ _ _, _,
    (⟨lineStart b.tab b.headAst b.code (st.pc + 1), m'.setMem (m'.rbp + slot) (m'.reg .rax)⟩, w₂),
    irStep_call o' at', reaches.tail ?_, Nat.lt_succ_of_lt h.gt, lt, rfl, back.rbp.trans rbp,
    back.rsp.trans rsp, ?_, ?_, ?_, ?_, ?_⟩
  · have exec : execLine (.movqFromReg .rax (.slot slot)) m' =
        some (m'.setMem (m'.rbp + slot) (m'.reg .rax), .next) := rfl
    refine line_step moveLine exec ?_
    rw [landing, lineStart_succ, two]
  · have held : Holds (a.names b) st.store m' := fun x mem => by
      have := sound.covers x mem
      rw [back.rbp, back.mem _ (by omega)]
      exact h.holds x mem
    have answered : o' st.events g.text st.pending = m'.reg .rax := answering_same _ _ _ _
    dsimp only
    rw [answered]
    exact held.setMem seen _
  · intro address le
    have := slotOffset_neg (a.names b) (tempText (b.rename dest))
    rw [← h.above address le]
    refine (Function.update_of_ne ?_ _ _).trans (back.mem address (by omega))
    rw [back.rbp, rbp]
    omega
  · rw [argsBefore, at']
    rfl
  · intro k v r found
    cases found
  · rw [List.length_append, List.length_singleton]
    exact follows

theorem leave_at (method : InMethod b.code a.enter a.leave a.name) :
    ∃ f : Ident, f.text = a.name ∧ b.instrs[a.leave]? = some (.leave f) := by
  obtain ⟨s, -, stop, name⟩ := b.section_of_inMethod method
  exact ⟨s.info.name, name, stop ▸ s.at_leave env ⟨0, 0⟩⟩

/-- One step of the intermediate code, under an oracle that may have learnt an answer. -/
theorem InStep.step {room : Int} (sound : a.Sound b room)
    (few : ∀ i, argsBefore b.code i ≤ 6) (serves : Serves b.lines ext call room)
    {w : W} (all : Follows call w₀ items w)
    (good : FitsTrace o [] items) (h : InStep b a call w₀ items mem₀ st s)
    (step : irStep b.code o st = some st') (inTrace : st'.events <+: traceEvents items) :
    ∃ o', FitsTrace o' [] items ∧ AgreeBelow List.length st.events.length o o' ∧
      ∃ st'' s', irStep b.code o' st = some st'' ∧ Reaches (ioStep b.lines ext) s s' ∧
        InStep b a call w₀ items mem₀ st'' s' := by
  obtain ⟨f, -, leave⟩ := leave_at sound.method
  rcases Nat.eq_or_lt_of_le h.le with atLeave | lt
  · rw [(irStep_leave o (b.code_of_instrs (atLeave ▸ leave))).1] at step
    cases step
  · have inside : st.pc < b.code.length := by have := sound.method.length; omega
    obtain ⟨ir, here, -⟩ := b.code_getElem? (List.getElem?_eq_getElem inside)
    have inner := b.inner_inside sound.method h.gt lt here
    have unchanged : (∃ s', Reaches (ioStep b.lines ext) s s' ∧
        InStep b a call w₀ items mem₀ st' s') → ∃ o', FitsTrace o' [] items ∧
          AgreeBelow List.length st.events.length o o' ∧ ∃ st'' s',
            irStep b.code o' st = some st'' ∧ Reaches (ioStep b.lines ext) s s' ∧
              InStep b a call w₀ items mem₀ st'' s' := fun ⟨s', reaches, after⟩ =>
      ⟨o, good, fun _ _ => rfl, st', s', step, reaches, after⟩
    by_cases isLocal : ir.isLocal = true
    · exact unchanged (h.local_step sound.method here isLocal lt step inTrace)
    · cases ir with
      | param arg => exact unchanged (h.param_step sound.method here lt (few _) step)
      | call g dest => exact h.call_step sound serves all good here lt (few _) step inTrace
      | ret value =>
        rw [(irStep_ret o (b.code_of_instrs here)).1] at step
        cases step
      | enter _ | leave _ | externDecl _ => cases inner
      | _ => exact absurd rfl isLocal

/-- The body of a method: where the intermediate code stops under every good oracle, the
machine comes to the same instruction, and the world to the end of the trace. -/
theorem InStep.body_run {room : Int} (sound : a.Sound b room)
    (few : ∀ i, argsBefore b.code i ≤ 6) (serves : Serves b.lines ext call room)
    {w : W} (all : Follows call w₀ items w)
    {completion : Completion} (h : InStep b a call w₀ items mem₀ st s)
    (halts : ∀ o, FitsTrace o [] items → ∃ t, Reaches (irStep b.code o) st t ∧
      irStep b.code o t = none ∧ irResult b.code t = some completion ∧
        t.events = traceEvents items) :
    ∃ t s', Reaches (ioStep b.lines ext) s s' ∧ InStep b a call w₀ items mem₀ t s' ∧
      irResult b.code t = some completion ∧ s'.2 = w := by
  have start := traceOracle_fits items
  have stops : ∀ o, FitsTrace o [] items → ∃ t, Reaches (irStep b.code o) st t ∧
      irStep b.code o t = none ∧ t.events.length ≤ items.length := fun o good => by
    obtain ⟨t, reaches, final, -, events⟩ := halts o good
    exact ⟨t, reaches, final, by rw [events, traceEvents, List.length_map]⟩
  obtain ⟨o, t, s', good, came, final, reaches, inStep⟩ := (irStep_asks b.code).follow stops
    (fun o t s' t' good came inStep step => by
      obtain ⟨last, ends, final, -, events⟩ := halts o good
      have inTrace := reaches_events (ends.rest final (came.tail step))
      exact inStep.step sound few serves all good step (events ▸ inTrace)) start h
  obtain ⟨last, ends, final', result, events⟩ := halts o good
  obtain rfl := came.final_unique final ends final'
  refine ⟨t, s', reaches, inStep, result, ?_⟩
  have world := inStep.world
  rw [events, traceEvents, List.length_map, List.take_length] at world
  exact world.unique all

/-- What the machine holds when an activation is over: the caller's stack pointers, the
memory above the frame, and the word that was returned. -/
structure Left (a : Activation) (mem₀ : Int → Word) (completion : Completion) (m : Machine) :
    Prop where
  rsp : m.rsp = a.base + 16
  rbp : m.rbp = (mem₀ a.base).toNat
  mem : ∀ address, a.base ≤ address → m.mem address = mem₀ address
  value : ∀ v, completion = .returned (some v) → m.reg .rax = v

theorem leave_reaches (method : InMethod b.code a.enter a.leave a.name) {m : Machine} {w : W}
    {completion : Completion} (rbp : m.rbp = a.base)
    (above : ∀ address, a.base ≤ address → m.mem address = mem₀ address)
    (value : ∀ v, completion = .returned (some v) → m.reg .rax = v) :
    ∃ m', Reaches (ioStep b.lines ext) (⟨lineStart b.tab b.headAst b.code a.leave, m⟩, w)
      (⟨(mem₀ (a.base + 8)).toNat, m'⟩, w) ∧ Left a mem₀ completion m' := by
  obtain ⟨f, -, leave⟩ := leave_at method
  have lines := lines_of_instr (b := b) a.leave
  rw [leave_lines leave] at lines
  let popped : Machine := { m with rbp := (m.mem a.base).toNat, rsp := a.base + 8 }
  have ran : execLines [.label (leaveLabel f.text), .movqRbpRsp, .popqRbp, .ret] m =
      some (popped, .ret) := by
    simp only [execLines, execLine, Machine.popRbp, rbp]
    rfl
  refine ⟨{ popped with rsp := a.base + 16 }, execLines_reaches lines ran ?_, rfl, ?_, above, value⟩
  · have address : m.mem (a.base + 8) = mem₀ (a.base + 8) := above _ (by omega)
    have next : a.base + 8 + 8 = a.base + 16 := by omega
    simp only [landing, popped, address, next]
  · dsimp only [popped]
    rw [above _ (Int.le_refl _)]

theorem ret_of_result {code : List (Instr CString)} {ρ : Nat → Nat} {i : IrInstr}
    (inner : i.isInner = true) (here : code[st.pc]? = some (i.named ρ)) {completion : Completion}
    (result : irResult code st = some completion) : ∃ value, i = .ret value := by
  rw [irResult, here] at result
  cases i with
  | ret value => exact ⟨value, rfl⟩
  | enter _ | leave _ | externDecl _ => cases inner
  | binary t _ _ _ => cases t <;> cases result
  | unary t _ _ => cases t <;> cases result
  | _ => cases result

variable (ext) in
theorem InStep.epilogue (method : InMethod b.code a.enter a.leave a.name)
    (short : a.name.length ≤ 63) (h : InStep b a call w₀ items mem₀ st s)
    {completion : Completion} (result : irResult b.code st = some completion) :
    ∃ m', Reaches (ioStep b.lines ext) s (⟨(mem₀ (a.base + 8)).toNat, m'⟩, s.2) ∧
      Left a mem₀ completion m' := by
  obtain ⟨f, name, leave⟩ := leave_at method
  obtain ⟨⟨pc, m⟩, w⟩ := s
  obtain rfl : pc = _ := h.pc
  rcases Nat.eq_or_lt_of_le h.le with atLeave | lt
  · rw [(irStep_leave (traceOracle items) (b.code_of_instrs (atLeave ▸ leave))).2,
      Option.some.injEq] at result
    subst result
    rw [atLeave]
    exact leave_reaches method h.rbp h.above fun v eq => by cases eq
  · have inside : st.pc < b.code.length := by have := method.length; omega
    obtain ⟨ir, here, -⟩ := b.code_getElem? (List.getElem?_eq_getElem inside)
    have at' := b.code_of_instrs here
    obtain ⟨value, rfl⟩ := ret_of_result (b.inner_inside method h.gt lt here) at' result
    rw [(irStep_ret (traceOracle items) at').2, Option.some.injEq] at result
    subst result
    obtain ⟨p, k, -, lines⟩ := objectLines_inside b.tab b.headAst method h.gt lt at'
    rw [named_ret, instrLines, currentFuncName_inside method (Nat.le_of_lt h.gt) lt,
      List.take_of_length_le short] at lines
    have target : findLabel b.lines (leaveLabel a.name) =
        some (lineStart b.tab b.headAst b.code a.leave) := by
      have first : (objectLines b.tab b.headAst b.code a.leave)[0]? =
          some (.label (leaveLabel a.name)) := by
        rw [leave_lines leave, name]
        rfl
      exact b.findLabel_eq (b.line_of_instr first)
    have lands : ∀ m₁ : Machine, landing b.lines (lineStart b.tab b.headAst b.code st.pc +
        (objectLines b.tab b.headAst b.code st.pc).length) m₁ (.jump (leaveLabel a.name)) =
          some ⟨lineStart b.tab b.headAst b.code a.leave, m₁⟩ := fun m₁ => by
      rw [landing, target]
      rfl
    cases value with
    | none =>
      have ran : execLines (objectLines b.tab b.headAst b.code st.pc) m =
          some (m, .jump (leaveLabel a.name)) := by
        rw [lines]
        rfl
      have value : ∀ v, Completion.returned none = .returned (some v) → m.reg .rax = v :=
        fun v eq => by cases eq
      exact (leave_reaches method h.rbp h.above value).imp fun m' after =>
        ⟨(execLines_reaches (lines_of_instr _) ran (lands m)).trans after.1, after.2⟩
    | some x =>
      have seen : x.name b.rename ∈ a.names b := slotOperands_subset method h.gt lt at' (by
        rw [slotOperands_named]
        exact List.mem_singleton_self _)
      have held := h.holds _ seen
      let m₁ := m.setReg .rax (st.store (x.name b.rename))
      have ran : execLines (objectLines b.tab b.headAst b.code st.pc) m =
          some (m₁, .jump (leaveLabel a.name)) := by
        have read : m.read (.slot (slotOffset (a.names b) (x.name b.rename))) =
            some (st.store (x.name b.rename)) := by
          rw [Machine.read, ← held]
        simp only [lines, Option.map_some, Option.isSome_some, if_true, operandFor_var]
        exact execLines_move read .rax _
      have value : ∀ v, Completion.returned (some (st.store (x.name b.rename))) =
          .returned (some v) → m₁.reg .rax = v := fun v eq => by
        obtain rfl := Option.some.inj (Completion.returned.inj eq)
        simp [m₁, Machine.setReg]
      exact (leave_reaches (m := m₁) method h.rbp h.above value).imp fun m' after =>
        ⟨(execLines_reaches (lines_of_instr _) ran (lands m₁)).trans after.1, after.2⟩

end Activity

end Ctds
