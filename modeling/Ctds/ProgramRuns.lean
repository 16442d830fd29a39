import Ctds.CodeMeaning
import Ctds.LiteralDivision
import Ctds.MethodRuns
import Ctds.TableSizes

/-! The lines of a program against what its calls mean. A call of a method enters its frame
with the arguments in the slots of the parameters, runs the body and returns the value; so by
induction on how deep calls go, every call that has a meaning is over with that value, and
the world is the one that the meaning ends in. -/

namespace Ctds

open Fallible FirstSeen Transition Word

section Names

variable {tab : SymbolTable} {name : CString} {info : SymbolInfo} {block : AstNode}

theorem bodyNamed_section {sentences : List AstNode}
    (found : bodyNamed tab name sentences = some (info, block)) :
    ∃ s : Section tab sentences, s.info = info ∧ s.block = block ∧ info.name.text = name := by
  fun_induction bodyNamed tab name sentences with
  | case1 => cases found
  | case2 line sym body rest none ih =>
    obtain ⟨s, rfl, rfl, eq⟩ := ih found
    exact ⟨s.cons _, rfl, rfl, eq⟩
  | case3 line sym body rest other entry here =>
    obtain ⟨rfl, rfl⟩ := Prod.mk.inj (Option.some.inj found)
    exact ⟨⟨[], line, sym, body, rest, other, rfl, entry, here.1⟩, rfl, rfl, here.2⟩
  | case4 line sym body rest other entry apart ih =>
    obtain ⟨s, rfl, rfl, eq⟩ := ih found
    exact ⟨s.cons _, rfl, rfl, eq⟩
  | case5 node rest _ ih =>
    obtain ⟨s, rfl, rfl, eq⟩ := ih found
    exact ⟨s.cons _, rfl, rfl, eq⟩

theorem bodyNamed_none {before after : List AstNode} {line : Int} {sym : IdPtr}
    (entry : tab.entry sym = some info) (own : info.methodView.isExtern = false) :
    bodyNamed tab info.name.text (before ++ .methodDecl line sym block :: after) ≠ none := by
  induction before with
  | nil => simp [bodyNamed, entry, own]
  | cons node rest ih =>
    rw [List.cons_append]
    unfold bodyNamed
    split
    · next eq => cases eq
    · next line' sym' body' tail eq =>
      obtain ⟨rfl, rfl⟩ := List.cons.inj eq
      split
      · exact ih
      · split
        · exact Option.some_ne_none _
        · exact ih
    · next eq =>
      obtain ⟨-, rfl⟩ := List.cons.inj eq
      exact ih

theorem Section.bodyNamed {sentences : List AstNode} (s : Section tab sentences) :
    Ctds.bodyNamed tab s.info.name.text sentences ≠ none := fun none =>
  bodyNamed_none s.entry s.own
    ((congrArg (Ctds.bodyNamed tab s.info.name.text) s.split).symm.trans none)

end Names

section Program

variable {env : Env} {b : Compiled env} {W : Type} {ext : ExternIo W}

theorem findLabel_of_none {g : Ident} (none : bodyNamed b.tab g.text b.headAst = none) :
    findLabel b.lines g.text = .none := by
  cases found : findLabel b.lines g.text with
  | none => rfl
  | some target =>
    obtain ⟨i, d, -, label⟩ := b.label_of_line (line_of_findLabel found)
    rcases label with ⟨f, atEnter, -, same⟩ | ⟨f, -, -, same⟩ | ⟨n, -, -, same⟩
    · obtain ⟨s, -, rfl⟩ := section_of_enter b.compilable.shape atEnter
      exact absurd (same ▸ none) s.bodyNamed
    · exact absurd same.symm (leaveLabel_ne_ident _ _)
    · exact absurd same.symm (labelText_ne_ident _ _)

theorem Section.findLabel (s : Section b.tab b.headAst) :
    findLabel b.lines s.info.name.text =
      some (lineStart b.tab b.headAst b.code (s.start env ⟨0, 0⟩) + 1) := by
  have line : (objectLines b.tab b.headAst b.code (s.start env ⟨0, 0⟩))[1]? =
      some (.label s.info.name.text) := by
    rw [objectLines_enter (b.inMethod_of_section s)]
    rfl
  exact b.findLabel_eq (b.line_of_instr line)

variable (b) in
/-- What the prologue of a method does with the machine it is called in. -/
structure Entered (a : Activation) (m m' : Machine) : Prop where
  rbp : m'.rbp = a.base
  rsp : m'.rsp = a.base - frameSize b.code a.enter a.name
  saved : m'.mem a.base = BitVec.ofInt 64 m.rbp
  above : ∀ address, m.rsp ≤ address → m'.mem address = m.mem address
  params : ∀ (i : Nat) r name, argRegs[i]? = some r →
    (argNames (funcArgs b.tab b.headAst a.name))[i]? = some name →
      m'.mem (a.base + slotOffset (a.names b) name) = m.reg r

theorem execLines_frame {g : CString} {size : Int} (nonneg : 0 ≤ size) {m : Machine}
    (room : 8 + size ≤ m.rsp) (rest : List AsmLine) :
    ∃ m₁ : Machine, m₁.rbp = m.rsp - 8 ∧ m₁.rsp = m.rsp - 8 - size ∧ m₁.reg = m.reg ∧
      m₁.mem = Function.update m.mem (m.rsp - 8) (BitVec.ofInt 64 m.rbp) ∧
      execLines ([.label g, .pushqRbp, .movqRspRbp] ++
        (if 0 < size then [.subqRsp size] else []) ++ rest) m = execLines rest m₁ := by
  let pushed : Machine :=
    { m with rsp := m.rsp - 8, mem := Function.update m.mem (m.rsp - 8) (BitVec.ofInt 64 m.rbp) }
  let framed : Machine := { pushed with rbp := m.rsp - 8 }
  have push : execLine .pushqRbp m = some (pushed, .next) := by
    rw [execLine, Machine.push, if_neg (by omega)]
    rfl
  rw [List.append_assoc, List.cons_append,
    execLines_next (rfl : execLine (.label g) m = some (m, .next)), List.cons_append,
    execLines_next push, List.cons_append,
    execLines_next (rfl : execLine .movqRspRbp pushed = some (framed, .next)), List.nil_append]
  by_cases pos : 0 < size
  · have fits : ¬ framed.rsp < size := by
      dsimp only [framed, pushed]
      omega
    rw [if_pos pos, List.singleton_append, execLines_next (by rw [execLine, if_neg fits])]
    exact ⟨framed.moveStackPointer (framed.rsp - size), rfl, rfl, rfl, rfl, rfl⟩
  · rw [if_neg pos, List.nil_append]
    refine ⟨framed, rfl, ?_, rfl, rfl, rfl⟩
    dsimp only [framed, pushed]
    omega

variable (ext) in
theorem enter_reaches {a : Activation} (method : InMethod b.code a.enter a.leave a.name)
    {m : Machine} (base : m.rsp = a.base + 8)
    (room : frameSize b.code a.enter a.name ≤ a.base) {w : W} :
    ∃ m', Reaches (ioStep b.lines ext) (⟨lineStart b.tab b.headAst b.code a.enter + 1, m⟩, w)
      (⟨lineStart b.tab b.headAst b.code (a.enter + 1), m'⟩, w) ∧ Entered b a m m' := by
  have size := frameSize_nonneg b.code a.enter a.name
  have below : m.rsp - 8 = a.base := by omega
  obtain ⟨s, -, -, name⟩ := b.section_of_inMethod method
  have nodup := b.args_nodup s
  rw [← b.funcArgs_section s, name] at nodup
  have known : ∀ name ∈ argNames (funcArgs b.tab b.headAst a.name), name ∈ a.names b :=
    fun name mem => mem_seeAll.mpr (.inr (List.mem_append_left _ mem))
  obtain ⟨m₁, rbp₁, rsp₁, reg₁, mem₁, frame⟩ := execLines_frame (g := a.name) size
    (m := m) (by omega) (moveLines (a.names b) (funcArgs b.tab b.headAst a.name) 0)
  obtain ⟨m', moved, rbp, rsp, values, apart⟩ := execLines_moves 0 nodup known m₁
  rw [below] at rbp₁ rsp₁ mem₁
  rw [rbp₁] at rbp values apart
  have enter := objectLines_enter method
  have lines := lines_of_instr (b := b) a.enter
  rw [enter] at lines
  refine ⟨m', execLines_reaches (fun i inside => ?_) (frame.trans moved) ?_, rbp,
    rsp.trans rsp₁, ?_, fun address le => ?_, fun i r name reg at' => ?_⟩
  · have line := lines (i + 1) (Nat.succ_lt_succ inside)
    rw [Nat.add_assoc, Nat.add_comm 1 i]
    exact line
  · rw [landing, lineStart_succ, enter, List.length_cons, Nat.add_assoc, Nat.add_comm 1]
    rfl
  · rw [apart _ fun name _ eq => ?_, mem₁, Function.update_self]
    have := slotOffset_neg (a.names b) name
    omega
  · rw [apart address fun name _ eq => ?_, mem₁, Function.update_of_ne (by omega)]
    have := slotOffset_neg (a.names b) name
    omega
  · rw [values i name at', Nat.zero_add, incoming, reg, reg₁]

/-- The words in the slots of the frame. -/
def slotStore (names : List CString) (m : Machine) : Store :=
  fun name => m.mem (m.rbp + slotOffset names name)

theorem mem_of_lookup {names : List Ident} {args : List Value} {name : Ident} {v : Value}
    (found : (names.zip args).lookup name = some v) :
    ∃ i : Nat, names[i]? = some name ∧ args[i]? = some v := by
  obtain ⟨before, after, split, -⟩ := List.lookup_eq_some_iff.mp found
  have at' : (names.zip args)[before.length]? = some (name, v) := by
    rw [split]
    simp
  obtain ⟨first, second⟩ := List.getElem?_zip_eq_some.mp at'
  exact ⟨before.length, first, second⟩

theorem bound_matches {a : Activation} {m m' : Machine} (entered : Entered b a m m')
    (s : Section b.tab b.headAst) (name : a.name = s.info.name.text) {args : List Value}
    (few : args.length ≤ 6) (passed : Passed args m) {vars : Variables}
    (bound : bindArgs b.tab s.info.methodView.args args = some vars) (ids : List IdPtr) :
    Matches b.tab ids vars (slotStore (a.names b) m') := by
  rw [bindArgs, Option.ite_none_right_eq_some, Option.some.injEq] at bound
  obtain ⟨-, rfl⟩ := bound
  intro p mem info v entry value
  dsimp only at value
  rw [entry] at value
  cases info with
  | methodDecl method => cases value
  | id x type =>
    obtain ⟨u, found, typed⟩ := Option.bind_eq_some_iff.mp value
    simp only [Option.ite_none_right_eq_some, Option.some.injEq] at typed
    obtain ⟨rfl, rfl⟩ := typed
    obtain ⟨i, param, arg⟩ := mem_of_lookup found
    have inside : i < args.length := (List.getElem?_eq_some_iff.mp arg).1
    obtain ⟨r, reg⟩ := argRegs_getElem? (k := i) (by omega)
    have named : (argNames (funcArgs b.tab b.headAst a.name))[i]? = some x.text := by
      rw [name, b.funcArgs_section, argNames, List.getElem?_map]
      rw [List.getElem?_map] at param
      obtain ⟨formal, at', eq⟩ := Option.map_eq_some_iff.mp param
      rw [at', ← eq]
      rfl
    refine ⟨rfl, ?_⟩
    have slot := entered.params i r x.text reg named
    rw [slotStore, entered.rbp]
    exact slot.trans (passed i u r arg reg)

variable (b) in
/-- The code of every body goes where its meaning goes: what the meaning assigns and calls is
a trace, and under every oracle that answers as the trace does the code stops behind it. -/
def BodiesFollow (W : Type) : Prop :=
  ∀ (s : Section b.tab b.headAst) (call : Callee W) (fuel : Nat) (st st' : ProgState W)
    (ending : Ending), stmtMeaning b.tab call fuel s.block st = some (st', ending) →
      ∃ items, Follows call st.world items st'.world ∧
        ∀ o store, FitsTrace o [] items → Matches b.tab (leafIds s.block) st.vars store →
          ∃ t, Reaches (irStep b.code o) ⟨s.start env ⟨0, 0⟩ + 1, store, [], []⟩ t ∧
            irStep b.code o t = none ∧ irResult b.code t = some ending.completion ∧
              t.events = traceEvents items

variable (b) in
/-- What the lines need of the machine: every frame covers its slots and is at most `size`
large, a RET finds the label of its LEAVE, and arguments stay in registers. -/
structure Runnable (size : Nat) : Prop where
  tables : TablesFit b
  lines : b.lines.length < 2 ^ 64
  covers : ∀ e l f, InMethod b.code e l f → FrameCovers b e l f
  frames : ∀ e l f, InMethod b.code e l f → frameSize b.code e f ≤ size
  short : ∀ e l f, InMethod b.code e l f → f.length ≤ 63
  few : ∀ i, argsBefore b.code i ≤ 6

/-- The activation of a method that is called with this stack pointer. -/
def Section.activation (s : Section b.tab b.headAst) (rsp : Int) : Activation :=
  ⟨s.start env ⟨0, 0⟩, s.stop env ⟨0, 0⟩, s.info.name.text, rsp - 8⟩

theorem Section.covers (s : Section b.tab b.headAst)
    (covers : FrameCovers b (s.start env ⟨0, 0⟩) (s.stop env ⟨0, 0⟩) s.info.name.text)
    (rsp : Int) : ∀ name ∈ (s.activation rsp).names b,
      -frameSize b.code (s.start env ⟨0, 0⟩) s.info.name.text ≤
        slotOffset ((s.activation rsp).names b) name := by
  intro name mem
  have size := totalStackSize_eq
    (codeRange b.code (s.start env ⟨0, 0⟩) (endFuncIdx b.code s.info.name.text
      (s.start env ⟨0, 0⟩))) (objectState b.tab b.headAst b.code (s.start env ⟨0, 0⟩))
  obtain ⟨k, ge, le, used⟩ := (mem_methodOffsets (b.inMethod_of_section s)
    (slotOffset_neg _ _)).mpr (List.mem_map_of_mem mem)
  obtain ⟨line, here, inLine⟩ := List.mem_flatMap.mp used
  have above := covers.offsets k ge le line here _ inLine (slotOffset_neg _ _)
  rw [stackSize, size] at above
  exact above

/-- What a caller finds behind the return of a method. -/
structure Back (answer : Option Value) (m m' : Machine) : Prop where
  rsp : m'.rsp = m.rsp + 8
  rbp : m'.rbp = m.rbp
  mem : ∀ address, m.rsp ≤ address → m'.mem address = m.mem address
  value : ∀ v, answer = some v → m'.reg .rax = v.word

theorem Ending.returned_word {ending : Ending} {v : Value} (answer : ending.answer = some v) :
    ending.completion = .returned (some v.word) := by
  cases ending with
  | normal => cases answer
  | returned value =>
    obtain rfl : value = some v := answer
    rfl

/-- The code of a method, from its label to the return. -/
theorem method_runs {size : Nat} {space : Int} (runnable : Runnable b size)
    (follow : BodiesFollow b W)
    {call : Callee W} (serves : Serves b.lines ext call space) (s : Section b.tab b.headAst)
    {args : List Value} {vars : Variables} {w : W} {fuel : Nat} {st : ProgState W}
    {ending : Ending} (bound : bindArgs b.tab s.info.methodView.args args = some vars)
    (means : stmtMeaning b.tab call fuel s.block ⟨vars, w⟩ = some (st, ending)) {m : Machine}
    (few : args.length ≤ 6) (passed : Passed args m) (aligned : m.rsp % 16 = 8)
    (room : space + size + 8 ≤ m.rsp) (nonneg : 0 ≤ space) (high : m.rsp ≤ 2 ^ 64)
    (low : 0 ≤ m.rbp) (limit : m.rbp < 2 ^ 64) :
    ∃ m', Reaches (ioStep b.lines ext)
        (⟨lineStart b.tab b.headAst b.code (s.start env ⟨0, 0⟩) + 1, m⟩, w)
        (⟨(m.mem m.rsp).toNat, m'⟩, st.world) ∧ Back ending.answer m m' := by
  have method := b.inMethod_of_section s
  have frame := frameSize_nonneg b.code (s.start env ⟨0, 0⟩) s.info.name.text
  have frame' := runnable.frames _ _ _ method
  let a := s.activation m.rsp
  have base : m.rsp = a.base + 8 := by
    dsimp only [a, Section.activation]
    omega
  obtain ⟨m₁, enters, entered⟩ := enter_reaches ext (a := a) method base
    (by dsimp only [a, Section.activation]; omega) (w := w)
  have sound : a.Sound b space :=
    ⟨method, s.covers (runnable.covers _ _ _ method) m.rsp, by omega, by omega, by omega,
      by dsimp only [a, Section.activation]; omega⟩
  obtain ⟨items, follows, halts⟩ := follow s call fuel ⟨vars, w⟩ st ending means
  -- the first instruction of the body
  obtain ⟨enter, atEnter, isEnter, -⟩ := method.enter
  have first : argsBefore b.code (a.enter + 1) = 0 := by
    rw [argsBefore, show b.code[a.enter]? = some enter from atEnter]
    split
    · next eq =>
      obtain rfl := Option.some.inj eq
      cases isEnter
    · rfl
  have start : InStep b a call w items m₁.mem
      ⟨a.enter + 1, slotStore (a.names b) m₁, [], []⟩
      (⟨lineStart b.tab b.headAst b.code (a.enter + 1), m₁⟩, w) :=
    { gt := Nat.lt_succ_self _
      le := method.lt
      pc := rfl
      rbp := entered.rbp
      rsp := entered.rsp
      holds := fun _ _ => rfl
      above := fun _ _ => rfl
      count := first.symm
      args := fun k v r found => by cases found
      world := rfl }
  obtain ⟨t, u, body, inStep, result, world⟩ := start.body_run sound runnable.few serves
    follows fun o good => halts o _ good
      (bound_matches entered s rfl few passed bound (leafIds s.block))
  obtain ⟨m', leaves, left⟩ := inStep.epilogue ext method (runnable.short _ _ _ method) result
  have address : m₁.mem (a.base + 8) = m.mem m.rsp := by
    rw [← base]
    exact entered.above _ (Int.le_refl _)
  rw [address, world] at leaves
  refine ⟨m', (enters.trans body).trans leaves, ?_, ?_, fun address le => ?_, fun v answer => ?_⟩
  · have := left.rsp
    omega
  · rw [left.rbp, entered.saved]
    exact toNat_ofInt low limit
  · rw [left.mem address (by omega)]
    exact entered.above address le
  · exact left.value v.word (Ending.returned_word answer)

theorem label_runs {size : Nat} {space : Int} (runnable : Runnable b size)
    (follow : BodiesFollow b W) {library call : Callee W} (serves : Serves b.lines ext call space)
    (nonneg : 0 ≤ space) {fuel depth : Nat}
    (calls : callMeaning b.tab b.headAst library fuel depth = call) {g : Ident} {args : List Value}
    {answer : Option Value} {w w' : W} {pc : Nat} {m : Machine}
    (means : callMeaning b.tab b.headAst library fuel (depth + 1) g.text args w = some (answer, w'))
    (label : findLabel b.lines g.text = some pc) (few : args.length ≤ 6) (passed : Passed args m)
    (aligned : m.rsp % 16 = 8) (room : space + size + 8 ≤ m.rsp) (high : m.rsp ≤ 2 ^ 64)
    (low : 0 ≤ m.rbp) (limit : m.rbp < 2 ^ 64) :
    ∃ m', Reaches (ioStep b.lines ext) (⟨pc, m⟩, w) (⟨(m.mem m.rsp).toNat, m'⟩, w') ∧
      Back answer m m' := by
  simp only [callMeaning] at means
  split at means
  · next none =>
    rw [findLabel_of_none none] at label
    cases label
  · next info block found =>
    obtain ⟨s, rfl, rfl, name⟩ := bodyNamed_section found
    simp only [Option.bind_eq_bind, Option.bind_eq_some_iff, Option.pure_def, Option.some.injEq,
      Prod.mk.injEq, calls] at means
    obtain ⟨vars, bound, ⟨st, ending⟩, ran, rfl, rfl⟩ := means
    rw [← name, s.findLabel, Option.some.injEq] at label
    subst label
    exact method_runs runnable follow serves s bound ran few passed aligned room nonneg high low
      limit

theorem call_serves {size : Nat} {space : Int} (runnable : Runnable b size)
    (follow : BodiesFollow b W) {library call : Callee W} (provides : ext.Provides library)
    (serves : Serves b.lines ext call space) (nonneg : 0 ≤ space) {fuel depth : Nat}
    (calls : callMeaning b.tab b.headAst library fuel depth = call) :
    Serves b.lines ext (callMeaning b.tab b.headAst library fuel (depth + 1))
      (space + (size + 16 : Nat)) := by
  intro pc g args answer w w' m here means few passed aligned room high low limit
  cases label : findLabel b.lines g.text with
  | none =>
    have absent : bodyNamed b.tab g.text b.headAst = none := by
      cases found : bodyNamed b.tab g.text b.headAst with
      | none => rfl
      | some method =>
        obtain ⟨info, block⟩ := method
        obtain ⟨s, rfl, -, name⟩ := bodyNamed_section found
        rw [← name, s.findLabel] at label
        cases label
    simp only [callMeaning, absent] at means
    obtain ⟨m', ran, returned⟩ := provides g.text args answer w w' m means few passed aligned
    refine ⟨m', .single ?_, returned⟩
    simp [ioStep, externName, here, label, ran]
  | some target =>
    -- the call goes to the label, with the return address on the stack
    have inside : pc < b.lines.length := (List.getElem?_eq_some_iff.mp here).1
    have fits := runnable.lines
    let pushed : Machine :=
      { m with rsp := m.rsp - 8,
               mem := Function.update m.mem (m.rsp - 8) (BitVec.ofNat 64 (pc + 1)) }
    have back : (pushed.mem pushed.rsp).toNat = pc + 1 := by
      dsimp only [pushed]
      rw [Function.update_self, BitVec.toNat_ofNat, Nat.mod_eq_of_lt (by omega)]
    have called : ioStep b.lines ext (⟨pc, m⟩, w) = some (⟨target, pushed⟩, w) := by
      have own : externName b.lines pc = none := by
        simp [externName, here, label]
      have push : m.push (BitVec.ofNat 64 (pc + 1)) = some pushed :=
        if_neg (by omega)
      simp only [ioStep, own, asmStep, here, execLine, label, push, Option.map_some]
    obtain ⟨m', reaches, left⟩ := label_runs (m := pushed) runnable follow serves nonneg calls means
      label few passed (by dsimp only [pushed]; omega) (by dsimp only [pushed]; omega)
      (by dsimp only [pushed]; omega) low limit
    rw [back] at reaches
    refine ⟨m', .head called reaches, ?_, left.rbp, fun address le => ?_, left.value⟩
    · have := left.rsp
      dsimp only [pushed] at this
      omega
    · rw [left.mem address (by dsimp only [pushed]; omega)]
      exact Function.update_of_ne (by omega) _ _

/-- Every call that has a meaning is served, by induction on how deep calls go. -/
theorem calls_serve {size : Nat} (runnable : Runnable b size) (follow : BodiesFollow b W)
    {library : Callee W} (provides : ext.Provides library) (fuel depth : Nat) :
    Serves b.lines ext (callMeaning b.tab b.headAst library fuel depth)
      (depth * (size + 16) : Nat) := by
  induction depth with
  | zero =>
    intro pc g args answer w w' m here means
    cases means
  | succ depth ih =>
    have next := call_serves runnable follow provides ih (Int.natCast_nonneg _) rfl
    rwa [← Int.natCast_add, ← Nat.succ_mul] at next

end Program

section Bodies

variable {env : Env} {b : Compiled env}

theorem Compiled.code_off (off : env.optimizations = false) : b.code = irCode b.instrs := by
  have plain : b.heap = tempText := by
    have named := b.named
    rw [finalHeap, if_neg (by simp [off])] at named
    exact (Option.some.inj named).symm
  have rename : b.rename = id := by
    have heap : b.heap = tempHeap b.rename := b.heap_tempHeap.choose_spec
    funext n
    exact (tempText_inj (congrFun (plain.symm.trans heap) n)).symm
  rw [b.code_eq, rename, irCode]

theorem Section.renamed_run (s : Section b.tab b.headAst) {o : Oracle} {store : Store} {t : IrState}
    (reaches : Reaches (irStep (irCode b.instrs) o) ⟨s.start env ⟨0, 0⟩ + 1, store, [], []⟩ t)
    (final : irStep (irCode b.instrs) o t = none) :
    ∃ t', Reaches (irStep b.code o) ⟨s.start env ⟨0, 0⟩ + 1, store, [], []⟩ t' ∧
      irStep b.code o t' = none ∧ irResult b.code t' = irResult (irCode b.instrs) t ∧
        t'.events = t.events := by
  cases on : env.optimizations with
  | false =>
    rw [b.code_off on]
    exact ⟨t, reaches, final, rfl, rfl⟩
  | true =>
    obtain ⟨low, ranges⟩ := b.ranges
    have separated := b.separated on
    have code : b.code = renamed b.rename b.instrs := b.code_eq
    have start : SameState b.instrs b.rename ⟨s.start env ⟨0, 0⟩ + 1, store, [], []⟩
        ⟨s.start env ⟨0, 0⟩ + 1, store, [], []⟩ :=
      ⟨rfl, rfl, rfl, fun _ _ => rfl, fun _ live =>
        absurd live (not_live_of_floor ranges (s.at_enter env ⟨0, 0⟩) fun _ _ => rfl)⟩
    obtain ⟨n, ran⟩ := reaches
    have both := run_lockstep (fun _ _ => irStep_same ranges separated o) start n
    rw [show renamed id b.instrs = irCode b.instrs from rfl, ran] at both
    rw [code]
    generalize ran' : run (irStep (renamed b.rename b.instrs) o) n
      ⟨s.start env ⟨0, 0⟩ + 1, store, [], []⟩ = result at both
    cases both with
    | some same =>
      rename_i t'
      refine ⟨t', ⟨n, ran'⟩, ?_, (irResult_same ranges o same).symm, same.events.symm⟩
      have next := irStep_same ranges separated o same
      rw [show renamed id b.instrs = irCode b.instrs from rfl, final] at next
      generalize irStep (renamed b.rename b.instrs) o t' = after at next
      cases next
      rfl

/-- Where no two variables of a method share a name, and only literals become shifts, the code
of its body follows its meaning. -/
theorem bodies_follow (apart : ∀ s : Section b.tab b.headAst, NamesApart b.tab (leafIds s.block))
    (exact : ∀ s : Section b.tab b.headAst, LiteralShifts env (subnodes s.block)) (W : Type) :
    BodiesFollow b W := by
  intro s call fuel st st' ending means
  have here := b.compilable.shape _ s.mem
  rw [isSentence, Bool.and_eq_true] at here
  have unique : LabelsUnique b.instrs :=
    (programCode_labels b.compilable.shape ⟨0, 0⟩).labelsUnique
  obtain ⟨items, follows, lands⟩ := stmtCode_means unique (apart s) fuel s.block
    (isStmtOrNull_of_branch here.2) (exact s) (fun _ mem => mem) st st' ending means _ _
      (s.placed env ⟨0, 0⟩).left.tail
  refine ⟨items, follows, fun o store good matched => ?_⟩
  have landed := lands o [] good store matched
  obtain ⟨t, reaches, final, result, events⟩ : ∃ t,
      Reaches (irStep (irCode b.instrs) o) ⟨s.start env ⟨0, 0⟩ + 1, store, [], []⟩ t ∧
        irStep (irCode b.instrs) o t = none ∧
          irResult (irCode b.instrs) t = some ending.completion ∧
            t.events = traceEvents items := by
    cases ending with
    | normal =>
      obtain ⟨store', reaches, -⟩ := landed
      obtain ⟨final, result⟩ := irStep_leave o (s := ⟨_, store', [], traceEvents items⟩)
        (irCode_getElem? (s.at_leave env ⟨0, 0⟩))
      exact ⟨_, reaches, final, result, rfl⟩
    | returned value => exact landed
  obtain ⟨t', reaches', final', same, events'⟩ := s.renamed_run reaches final
  exact ⟨t', reaches', final', same.trans result, events'.trans events⟩

end Bodies

end Ctds
