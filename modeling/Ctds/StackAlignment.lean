import Ctds.CallArguments
import Ctds.GlobalVariables

/-! The stack pointer at the calls. The frame is rounded to sixteen bytes, so the pointer is
aligned at a call exactly if the words pushed for its arguments are even in number; behind
the call they are dropped again. Where every call of a run is aligned, so is every entry. -/

namespace Ctds

open Decimal FirstSeen Transition

section Calls

variable {env : Env} {b : Compiled env} {a : Activation} {callers : List Waiting} {c c' : Config}
  {ext : Extern}

variable (b) in
/-- In front of the `call` line of the CALL at this position. -/
structure AtCall (j : Nat) (g : Ident) (c : Config) : Prop where
  instr : ∃ dest, b.instrs[j]? = some (.call g dest)
  pc : c.pc = lineStart b.tab b.headAst b.code j

theorem call_of_line {e l j d : Nat} {f : CString} (method : InMethod b.code e l f) (gt : e < j)
    (lt : j < l) {g : CString}
    (here : (objectLines b.tab b.headAst b.code j)[d]? = some (.call g)) :
    d = 0 ∧ ∃ (g' : Ident) (dest : Nat), b.instrs[j]? = some (.call g' dest) ∧ g = g'.text := by
  have inside : j < b.code.length := by have := method.length; omega
  obtain ⟨ir, atIr, named⟩ := b.code_getElem? (List.getElem?_eq_getElem inside)
  have inner := b.inner_inside method gt lt atIr
  obtain ⟨p, s, -, lines⟩ := objectLines_inside b.tab b.headAst method gt lt (b.code_of_instrs atIr)
  cases ir with
  | call g' dest =>
    rw [objectLines_call method gt lt atIr] at here
    cases d with
    | zero =>
      obtain rfl := AsmLine.call.inj (Option.some.inj here)
      exact ⟨rfl, g', dest, atIr, rfl⟩
    | succ d =>
      cases d with
      | zero => cases here
      | succ d =>
        rw [List.getElem?_cons_succ, List.getElem?_cons_succ] at here
        split at here
        · obtain ⟨-, eq⟩ := getElem?_singleton here
          cases eq
        · cases here
  | enter _ | leave _ | externDecl _ => cases inner
  | binary t _ _ _ =>
    have mem := List.mem_of_getElem? here
    rw [lines, named_binary] at mem
    cases t <;> simp [instrLines, binaryLines, BinaryInstr.type] at mem
  | unary t _ _ =>
    have mem := List.mem_of_getElem? here
    rw [lines, named_unary] at mem
    cases t <;> simp [instrLines, UnaryInstr.type] at mem
  | param arg =>
    have mem := List.mem_of_getElem? here
    rw [lines, named_param] at mem
    simp only [instrLines] at mem
    split at mem <;> obtain eq := List.mem_singleton.mp mem <;> cases eq
  | ret value =>
    have mem := List.mem_of_getElem? here
    rw [lines, named_ret] at mem
    simp only [instrLines, List.mem_append, List.mem_singleton] at mem
    rcases mem with mem | mem
    · split at mem
      · obtain eq := List.mem_singleton.mp mem
        cases eq
      · cases mem
    · cases mem
  | _ =>
    have mem := List.mem_of_getElem? here
    rw [lines] at mem
    simp [instrLines, binaryLines, IrInstr.named, IrInstr.instr, Instr.map] at mem

theorem Running.top_at (h : Running b a callers c) {i d : Nat} {ir : IrInstr}
    (here : b.instrs[i]? = some ir) (inner : ir.isInner = true)
    (pc : c.pc = lineStart b.tab b.headAst b.code i + d)
    (inside : d < (objectLines b.tab b.headAst b.code i).length) : c.machine.rsp = a.top b i := by
  have leave : ∀ {l d' : Nat} {f : Ident}, b.instrs[l]? = some (.leave f) → d' < 4 →
      c.pc = lineStart b.tab b.headAst b.code l + d' → False := by
    intro l d' f at' few place
    have length := leave_length at'
    obtain rfl := line_unique (pc.symm.trans place) inside (by omega)
    obtain rfl := Option.some.inj (here.symm.trans at')
    cases inner
  cases h with
  | body j d' gt lt inside' place rbp rsp =>
    obtain rfl := line_unique (pc.symm.trans place) inside inside'
    exact rsp
  | leaving l f d' at' first place => exact (leave at' (by omega) place).elim
  | emptied l f at' place => exact (leave at' (by omega) place).elim
  | popped l f at' place => exact (leave at' (by omega) place).elim

theorem Active.at_call (h : Active b a callers c) {j : Nat} {g : Ident} (call : AtCall b j g c) :
    a.enter < j ∧ j < a.leave ∧ c.machine.rbp = a.base ∧ c.machine.rsp = a.top b j := by
  obtain ⟨⟨dest, here⟩, pc⟩ := call
  have inside : 0 < (objectLines b.tab b.headAst b.code j).length := by
    rw [objectLines_eq (b.code_of_instrs here)]
    simp [generateInstr, generateCall, IrInstr.named, IrInstr.instr, Instr.map]
  obtain ⟨running, gt, lt, rbp⟩ := h.at_inner (d := 0) here rfl pc inside
  exact ⟨gt, lt, rbp, running.top_at (d := 0) here rfl pc inside⟩

theorem Active.call_of_line (h : Active b a callers c) {g : CString}
    (line : b.lines[c.pc]? = some (.call g)) : ∃ j g', AtCall b j g' c ∧ g = g'.text := by
  rcases h.phase with entering | running
  · obtain ⟨label, push, move⟩ := enter_prefix h.method
    cases entering with
    | entered d low high pc =>
      obtain rfl | rfl : d = 1 ∨ d = 2 := by omega
      · rw [pc, label] at line
        cases line
      · rw [pc, push] at line
        cases line
    | pushed pc =>
      rw [pc, move] at line
      cases line
    | prologue d low inside pc =>
      rcases enter_line h.method low (line_inside pc inside line) with ⟨-, -, eq⟩ | ⟨-, level, -⟩
      · cases eq
      · cases level
  · rcases running.place line with ⟨j, d, gt, lt, pc, at', -⟩ | ⟨none, -⟩
    · obtain ⟨rfl, g', dest, here, name⟩ := Ctds.call_of_line h.method gt lt at'
      exact ⟨j, g', ⟨⟨dest, here⟩, pc⟩, name⟩
    · cases none

theorem Active.at_enter (h : Active b a callers c) {i : Nat} {f : Ident}
    (here : b.instrs[i]? = some (.enter f)) (pc : c.pc = lineStart b.tab b.headAst b.code i + 1) :
    a.enter = i ∧ c.machine.rsp = a.base + 8 := by
  have long : ∀ {e l : Nat} {f : CString}, InMethod b.code e l f →
      3 < (objectLines b.tab b.headAst b.code e).length := fun method => by
    rw [objectLines_enter method, prologueLines]
    simp
  have inside : 1 < (objectLines b.tab b.headAst b.code i).length := by
    obtain ⟨s, rfl, -⟩ := section_of_enter b.compilable.shape here
    exact Nat.lt_trans (by decide) (long (b.inMethod_of_section s))
  have own : ∀ {d : Nat}, c.pc = lineStart b.tab b.headAst b.code a.enter + d →
      d < (objectLines b.tab b.headAst b.code a.enter).length → a.enter = i ∧ d = 1 := by
    intro d place few
    have same := line_unique (pc.symm.trans place) inside few
    subst same
    exact ⟨rfl, by omega⟩
  rcases h.phase with entering | running
  · have inside' := long h.method
    cases entering with
    | entered d low high place rsp => exact ⟨(own place (by omega)).1, rsp⟩
    | pushed place => exact absurd (own place inside').2 (by omega)
    | prologue d low few place => exact absurd (own place few).2 (by omega)
  · have line := b.line_of_instr (List.getElem?_eq_getElem inside)
    rw [← pc] at line
    rcases running.place line with
      ⟨j, d, gt, lt, place, at', -⟩ | ⟨-, -, l, f', d, leave, place, at'⟩
    · obtain rfl := line_unique (pc.symm.trans place) inside (List.getElem?_eq_some_iff.mp at').1
      cases b.inner_inside h.method gt lt here
    · obtain rfl := line_unique (pc.symm.trans place) inside (List.getElem?_eq_some_iff.mp at').1
      cases Option.some.inj (here.symm.trans leave)

theorem Active.entry (h : Active b a callers c) (obeys : ext.Obeys)
    (step : asmStep b.lines ext c = some c') {w : Waiting} {a' : Activation} {g : CString}
    (rsp : c.machine.rsp = w.top b w.call) (line : b.lines[c.pc]? = some (.call g))
    (active : Active b a' (w :: callers) c') :
    c'.pc = lineStart b.tab b.headAst b.code a'.enter + 1 ∧ c'.machine.rsp = a'.base + 8 := by
  have below : a'.base + 16 = c.machine.rsp := by
    have stack := active.stack
    cases stack with
    | cons method nonneg limit gt lt site top => exact top.trans rsp.symm
  rw [asmStep, line] at step
  dsimp only [execLine] at step
  cases found : findLabel b.lines g with
  | none =>
    rw [found] at step
    obtain ⟨m, ran, rfl⟩ := Option.map_eq_some_iff.mp step
    have kept := (obeys _ _ _ ran).1
    have low := active.rsp_le
    dsimp only at kept low
    omega
  | some target =>
    rw [found] at step
    obtain ⟨m, pushed, rfl⟩ := Option.map_eq_some_iff.mp step
    obtain ⟨j, f, -, name⟩ := h.call_of_line line
    obtain ⟨i, d, place, label⟩ := b.label_of_line (line_of_findLabel found)
    rcases label with ⟨f', enter, rfl, -⟩ | ⟨f', -, -, same⟩ | ⟨n, -, -, same⟩
    · obtain ⟨own, rsp'⟩ := active.at_enter enter place
      exact ⟨place.trans (by rw [own]), rsp'⟩
    · exact absurd (same.symm.trans name) (leaveLabel_ne_ident _ _)
    · exact absurd (same.symm.trans name) (labelText_ne_ident _ _)

theorem Callers.base_le {mem : Int → Word} {base : Int} (h : Callers b mem base callers) :
    ∀ w ∈ callers, base + 16 ≤ w.base := by
  intro w mem
  obtain ⟨inner, rest, rfl⟩ := List.append_of_mem mem
  have := w.toActivation.top_le (b := b) w.call
  have := h.lower
  omega

end Calls

section Runs

variable {env : Env} {b : Compiled env} {ext : Extern} {start c : Config} {n : Nat}

/-- What holds of an activation when it is entered, and stays so until it returns, holds of
all activations on the stack. -/
theorem Compiled.Starts.activations (starts : b.Starts start) (obeys : ext.Obeys)
    (P : Nat → Activation → Prop)
    (first : ∀ a, start.pc = lineStart b.tab b.headAst b.code a.enter + 1 →
      start.machine.rsp = a.base + 8 → P 0 a)
    (keep : ∀ n c a, P n a → run (asmStep b.lines ext) (n + 1) start = some c →
      c.machine.rsp ≤ a.base + 8 → P (n + 1) a)
    (enter : ∀ n c c' a a' callers j g, run (asmStep b.lines ext) n start = some c →
      Active b a callers c → P n a → AtCall b j g c →
      run (asmStep b.lines ext) (n + 1) start = some c' →
      c'.pc = lineStart b.tab b.headAst b.code a'.enter + 1 → c'.machine.rsp = a'.base + 8 →
      c'.machine.rsp + 8 = c.machine.rsp → P (n + 1) a')
    (ran : run (asmStep b.lines ext) n start = some c) :
    (∃ a callers, Active b a callers c ∧ P n a ∧ ∀ w ∈ callers, P n w.toActivation) ∨
      b.lines.length ≤ c.pc := by
  induction n generalizing c with
  | zero =>
    obtain rfl := Option.some.inj ran
    obtain ⟨i, d, place, label⟩ := b.label_of_line (line_of_findLabel starts.main)
    have isMain : "main".toList = (Ident.of "main").text := by decide
    obtain ⟨a, active⟩ := starts.active
    refine .inl ⟨a, [], active, ?_, fun w mem => by cases mem⟩
    rcases label with ⟨f, enter, rfl, -⟩ | ⟨f, -, -, name⟩ | ⟨n, -, -, name⟩
    · obtain ⟨own, rsp⟩ := active.at_enter enter place
      exact first a (place.trans (by rw [own])) rsp
    · exact absurd (name.symm.trans isMain) (leaveLabel_ne_ident _ _)
    · exact absurd (name.symm.trans isMain) (labelText_ne_ident _ _)
  | succ n ih =>
    obtain ⟨before, ranBefore⟩ := run_before ran
    have step := run_step ranBefore ran
    rcases ih ranBefore with ⟨a, callers, active, here, others⟩ | outside
    · -- the callers' frames lie above, so they have not returned either
      have above : ∀ {a' : Activation} {callers' : List Waiting}, Active b a' callers' c →
          ∀ w ∈ callers', P n w.toActivation → P (n + 1) w.toActivation := by
        intro a' callers' active' w mem holds
        have low := active'.rsp_le
        have frames := active'.stack.base_le w mem
        exact keep n c _ holds ran (by omega)
      cases active.step starts.fits obeys step with
      | stays active' =>
        exact .inl ⟨a, callers, active', keep n c a here ran active'.rsp_le,
          fun w mem => above active' w mem (others w mem)⟩
      | calls w a' caller rbp rsp line active' =>
        obtain ⟨g, line⟩ := line
        obtain ⟨pc, rsp'⟩ := active.entry obeys step rsp line active'
        obtain ⟨j, f, site, -⟩ := active.call_of_line line
        subst caller
        have apart : c.machine.rsp + 8 = before.machine.rsp := by
          have stack := active'.stack
          cases stack with
          | cons method nonneg limit gt lt site top => omega
        refine .inl ⟨a', _, active',
          enter n before c _ a' callers j f ranBefore active here site ran pc
          rsp' apart, fun v mem => above active' v mem ?_⟩
        rcases List.mem_cons.mp mem with rfl | mem
        · exact here
        · exact others v mem
      | returns w rest called rsp active' =>
        subst called
        exact .inl ⟨_, rest, active',
          keep n c _ (others w List.mem_cons_self) ran active'.rsp_le,
          fun v mem => above active' v mem (others v (List.mem_cons_of_mem _ mem))⟩
      | ends outermost rsp outside => exact .inr outside
    · rw [asmStep, List.getElem?_eq_none outside] at step
      cases step

end Runs

section Alignment

variable {env : Env} {b : Compiled env}

/-- The CALL of this node of the program is the instruction at this position. -/
structure CallNode.CallsAt (call : CallNode b.tab) (j : Nat) : Prop where
  node : call.node ∈ b.headAst.flatMap subnodes
  place : ∃ temps p, call.At env temps b.instrs p ∧
    j = p + (call.argsPart env temps).code.length + call.args.length

variable (ext : Extern) (start : Config)

/-- After `n` steps the machine is about to make this call of this method. -/
structure Making (s : Section b.tab b.headAst) (call : CallNode b.tab) (n : Nat) (c : Config) :
    Prop where
  ran : run (asmStep b.lines ext) n start = some c
  line : b.lines[c.pc]? = some (.call call.name.text)
  site : ∃ j, call.CallsAt j ∧ c.pc = lineStart b.tab b.headAst b.code j ∧
    s.start env ⟨0, 0⟩ < j ∧ j < s.stop env ⟨0, 0⟩

/-- The activation of this method that the machine is in after `n` steps was entered after
`m`: the word above its `%rbp` was on top of the stack and has stayed there. -/
structure EnteredIn (s : Section b.tab b.headAst) (m n : Nat) (d c : Config) : Prop where
  before : m ≤ n
  ran : run (asmStep b.lines ext) m start = some d
  label : b.lines[d.pc]? = some (.label s.info.name.text)
  frame : c.machine.rbp + 8 = d.machine.rsp
  lasts : ∀ k e, m ≤ k → k ≤ n → run (asmStep b.lines ext) k start = some e →
    e.machine.rsp ≤ d.machine.rsp

/-- Behind the lines of every CALL only the frame is on the stack. -/
def CleansUp (b : Compiled env) : Prop :=
  ∀ n c c' j (call : CallNode b.tab), run (asmStep b.lines ext) n start = some c →
    run (asmStep b.lines ext) (n + 1) start = some c' → call.CallsAt j →
    lineStart b.tab b.headAst b.code j ≤ c.pc →
    c.pc + 1 = lineStart b.tab b.headAst b.code (j + 1) →
    ∃ s : Section b.tab b.headAst, s.start env ⟨0, 0⟩ < j ∧ j < s.stop env ⟨0, 0⟩ ∧
      c'.machine.rsp = c'.machine.rbp - frameSize b.code (s.start env ⟨0, 0⟩) s.info.name.text

/-- Every call of an activation that was entered with `%rsp + 8` a multiple of 16 is made with
`%rsp` a multiple of 16, and behind its lines only the frame is left. -/
def CallsAligned (b : Compiled env) : Prop :=
  (∀ (s : Section b.tab b.headAst) call n c m d, Making ext start s call n c →
    EnteredIn ext start s m n d c → 16 ∣ d.machine.rsp + 8 → 16 ∣ c.machine.rsp) ∧
  CleansUp ext start b

variable {ext start}

theorem frameSize_aligned (code : List (Instr CString)) (e : Nat) (f : CString) :
    16 ∣ frameSize code e f := by
  unfold frameSize alignStack
  split <;> omega

theorem CallNode.CallsAt.argWords {call : CallNode b.tab} {j : Nat} (h : call.CallsAt j) :
    argWords b.code j = call.args.length - 6 := by
  obtain ⟨temps, p, site, rfl⟩ := h.place
  have count := site.argsBefore b.rename (Nat.le_refl _)
  rw [renamed, ← b.code_eq] at count
  rw [Ctds.argWords, count]

theorem CallNode.CallsAt.instr {call : CallNode b.tab} {j : Nat} (h : call.CallsAt j) :
    ∃ dest, b.instrs[j]? = some (.call call.name dest) := by
  obtain ⟨temps, p, site, rfl⟩ := h.place
  exact ⟨_, site.call⟩

theorem callsAt_of_instr {j dest : Nat} {g : Ident} (here : b.instrs[j]? = some (.call g dest)) :
    ∃ call : CallNode b.tab, call.CallsAt j ∧ call.name = g := by
  obtain ⟨call, temps, p, mem, site, ge, lt⟩ :=
    programCode_calls env b.compilable.shape ⟨0, 0⟩ j _ here rfl
  rw [call.code_length] at lt
  have last : j = p + (call.argsPart env temps).code.length + call.args.length := by
    by_contra differ
    obtain ⟨r, -, param⟩ := site.param (k := j - (p + (call.argsPart env temps).code.length))
      (by omega)
    rw [Nat.add_sub_of_le ge] at param
    cases Option.some.inj (param.symm.trans here)
  refine ⟨call, ⟨mem, temps, p, site, last⟩, ?_⟩
  have at' := site.call
  rw [← last] at at'
  exact (IrInstr.call.inj (Option.some.inj (at'.symm.trans here))).1

theorem making_of_active {a : Activation} {callers : List Waiting} {c : Config} {n : Nat}
    (h : Active b a callers c) (ran : run (asmStep b.lines ext) n start = some c) {g : CString}
    (line : b.lines[c.pc]? = some (.call g)) :
    ∃ (s : Section b.tab b.headAst) (call : CallNode b.tab), Making ext start s call n c ∧
      call.name.text = g ∧ a.enter = s.start env ⟨0, 0⟩ ∧ a.name = s.info.name.text := by
  obtain ⟨j, f, here, rfl⟩ := h.call_of_line line
  obtain ⟨dest, atIr⟩ := here.instr
  obtain ⟨call, site, rfl⟩ := callsAt_of_instr atIr
  obtain ⟨gt, lt, -, -⟩ := h.at_call here
  obtain ⟨s, first, last, name⟩ := b.section_of_inMethod h.method
  exact ⟨s, call, ⟨ran, line, j, site, here.pc, by omega, by omega⟩, rfl, first.symm, name.symm⟩

theorem Making.rsp (starts : b.Starts start) (obeys : ext.Obeys) {s : Section b.tab b.headAst}
    {call : CallNode b.tab} {n : Nat} {c : Config} (h : Making ext start s call n c) :
    ∃ size, 16 ∣ size ∧
      c.machine.rsp = c.machine.rbp - size - 8 * (call.args.length - 6 : Nat) := by
  obtain ⟨j, site, pc, -, -⟩ := h.site
  rcases starts.reaches obeys h.ran with ⟨a, callers, active⟩ | outside
  · obtain ⟨-, -, rbp, rsp⟩ := active.at_call ⟨site.instr, pc⟩
    refine ⟨frameSize b.code a.enter a.name, frameSize_aligned _ _ _, ?_⟩
    rw [rsp, rbp, Activation.top, site.argWords]
  · have line := h.line
    rw [List.getElem?_eq_none outside] at line
    cases line

theorem Making.aligned_iff (starts : b.Starts start) (obeys : ext.Obeys)
    {s : Section b.tab b.headAst} {call : CallNode b.tab} {n : Nat} {c : Config}
    (h : Making ext start s call n c) (entry : 16 ∣ c.machine.rbp) :
    16 ∣ c.machine.rsp ↔ call.args.length ≤ 6 ∨ 2 ∣ call.args.length := by
  obtain ⟨size, multiple, rsp⟩ := h.rsp starts obeys
  rw [rsp]
  omega

variable (ext start) in
/-- The activation was entered within `n` steps, and has not returned since. -/
def Activation.Since (b : Compiled env) (n : Nat) (a : Activation) : Prop :=
  ∃ m d, m ≤ n ∧ run (asmStep b.lines ext) m start = some d ∧
    d.pc = lineStart b.tab b.headAst b.code a.enter + 1 ∧ d.machine.rsp = a.base + 8 ∧
    ∀ k e, m ≤ k → k ≤ n → run (asmStep b.lines ext) k start = some e →
      e.machine.rsp ≤ a.base + 8

theorem Activation.Since.now {n : Nat} {d : Config} {a : Activation}
    (ran : run (asmStep b.lines ext) n start = some d)
    (pc : d.pc = lineStart b.tab b.headAst b.code a.enter + 1) (rsp : d.machine.rsp = a.base + 8) :
    a.Since ext start b n := by
  refine ⟨n, d, Nat.le_refl n, ran, pc, rsp, fun k e low high ran' => ?_⟩
  obtain rfl := Nat.le_antisymm low high
  obtain rfl := Option.some.inj (ran.symm.trans ran')
  exact Int.le_of_eq rsp

theorem Activation.Since.keep {n : Nat} {c : Config} {a : Activation} (h : a.Since ext start b n)
    (ran : run (asmStep b.lines ext) (n + 1) start = some c) (low : c.machine.rsp ≤ a.base + 8) :
    a.Since ext start b (n + 1) := by
  obtain ⟨m, d, le, ran', pc, rsp, lasts⟩ := h
  refine ⟨m, d, Nat.le_succ_of_le le, ran', pc, rsp, fun k e low' high ran'' => ?_⟩
  rcases Nat.lt_or_eq_of_le high with before | rfl
  · exact lasts k e low' (Nat.le_of_lt_succ before) ran''
  · obtain rfl := Option.some.inj (ran.symm.trans ran'')
    exact low

theorem AtCall.line {j : Nat} {g : Ident} {c : Config} (h : AtCall b j g c) :
    b.lines[c.pc]? = some (.call g.text) := by
  obtain ⟨dest, here⟩ := h.instr
  have first : (objectLines b.tab b.headAst b.code j)[0]? = some (.call g.text) := by
    rw [objectLines_eq (b.code_of_instrs here)]
    rfl
  have line := b.line_of_instr first
  rwa [Nat.add_zero, ← h.pc] at line

theorem entered_before (starts : b.Starts start) (obeys : ext.Obeys) {n : Nat} {c : Config}
    (ran : run (asmStep b.lines ext) n start = some c) {g : CString}
    (line : b.lines[c.pc]? = some (.call g)) :
    ∃ (s : Section b.tab b.headAst) (call : CallNode b.tab), call.name.text = g ∧
      Making ext start s call n c ∧ ∃ m d, EnteredIn ext start s m n d c := by
  have all := starts.activations obeys (Activation.Since ext start b)
    (fun a pc rsp => .now rfl pc rsp) (fun n c a since ran low => since.keep ran low)
    (fun n c c' a a' callers j g _ _ _ _ ran pc rsp _ => .now ran pc rsp) ran
  rcases all with ⟨a, callers, active, ⟨m, d, le, ran', pc, rsp, lasts⟩, -⟩ | outside
  · obtain ⟨s, call, making, name, first, same⟩ := making_of_active active ran line
    obtain ⟨j, site, pc', -, -⟩ := making.site
    obtain ⟨-, -, rbp, -⟩ := active.at_call ⟨site.instr, pc'⟩
    refine ⟨s, call, name, making, m, d, le, ran', ?_, by omega, fun k e low high ran => ?_⟩
    · rw [pc, ← same]
      obtain ⟨label, -⟩ := enter_prefix active.method
      exact label
    · have := lasts k e low high ran
      omega
  · rw [List.getElem?_eq_none outside] at line
    cases line

/-- Where every call so far passed its arguments evenly, every activation's `%rbp` is aligned. -/
theorem bases_aligned (starts : b.Starts start) (obeys : ext.Obeys)
    (entry : 16 ∣ start.machine.rsp + 8) {n : Nat} {c : Config}
    (ran : run (asmStep b.lines ext) n start = some c)
    (even : ∀ m s (call : CallNode b.tab) d, m < n → Making ext start s call m d →
      call.args.length ≤ 6 ∨ 2 ∣ call.args.length) :
    (∃ a callers, Active b a callers c ∧ 16 ∣ a.base) ∨ b.lines.length ≤ c.pc := by
  have all := starts.activations obeys (fun k a => k ≤ n → 16 ∣ a.base) (fun a _ rsp _ => by omega)
    (fun k d a aligned _ _ le => aligned (Nat.le_of_succ_le le)) ?_ ran
  · rcases all with ⟨a, callers, active, aligned, -⟩ | outside
    · exact .inl ⟨a, callers, active, aligned (Nat.le_refl n)⟩
    · exact .inr outside
  · intro k d d' a a' callers j g ran' active aligned at' _ _ rsp' apart le
    obtain ⟨-, -, rbp, -⟩ := active.at_call at'
    obtain ⟨s, call, making, -⟩ := making_of_active active ran' at'.line
    have rsp := (making.aligned_iff starts obeys (rbp ▸ aligned (Nat.le_of_succ_le le))).mpr
      (even k s call d le making)
    omega

theorem cleansUp (starts : b.Starts start) (obeys : ext.Obeys) : CleansUp ext start b := by
  intro n c c' j call ran ran' site ge last
  obtain ⟨dest, atIr⟩ := site.instr
  have next : lineStart b.tab b.headAst b.code (j + 1) =
      lineStart b.tab b.headAst b.code j + (objectLines b.tab b.headAst b.code j).length :=
    lineStart_succ j
  obtain ⟨d, pc⟩ := Nat.le.dest ge
  have inside : d < (objectLines b.tab b.headAst b.code j).length := by omega
  have here := b.line_of_instr (List.getElem?_eq_getElem inside)
  rw [pc] at here
  rcases starts.reaches obeys ran with ⟨a, callers, active⟩ | outside
  · obtain ⟨running, gt, lt, rbp⟩ := active.at_inner atIr rfl pc.symm inside
    have rsp := running.top_at atIr rfl pc.symm inside
    have lines := objectLines_call active.method gt lt atIr
    have step := run_step ran ran'
    obtain ⟨s, first, stop, name⟩ := b.section_of_inMethod active.method
    refine ⟨s, by omega, by omega, ?_⟩
    rw [first, name]
    rw [Activation.top] at rsp
    by_cases some : 0 < argWords b.code j
    · rw [if_pos some] at lines
      obtain rfl : d = 2 := by rw [lines] at next; simp at next; omega
      simp only [lines, List.getElem_cons_succ, List.getElem_cons_zero] at here
      obtain ⟨m, exec, rfl⟩ := asmStep_straight here rfl step
      obtain ⟨rfl, -⟩ := Prod.mk.inj (Option.some.inj exec)
      simp only [Machine.moveStackPointer]
      omega
    · rw [if_neg some] at lines
      obtain rfl : d = 1 := by rw [lines] at next; simp at next; omega
      simp only [lines, List.getElem_cons_succ, List.getElem_cons_zero] at here
      obtain ⟨-, rsp', rbp'⟩ := level_step here rfl rfl step
      omega
  · rw [List.getElem?_eq_none outside] at here
    cases here

/-- Every call is made in an activation entered before; if that was entered with `%rsp + 8` a
multiple of 16, `%rsp` is one at the call exactly if at most six arguments or an even number
of them are passed; behind the call only the frame is left; and if `main` is entered so and
every call of a run meets the condition, `%rsp` is a multiple of 16 at every call. -/
theorem calls_aligned_when (b : Compiled env) {ext : Extern} {start : Config}
    (obeys : ext.Obeys) (starts : b.Starts start) :
    (∀ n c g, run (asmStep b.lines ext) n start = some c → b.lines[c.pc]? = some (.call g) →
      ∃ (s : Section b.tab b.headAst) (call : CallNode b.tab), call.name.text = g ∧
        Making ext start s call n c ∧ ∃ m d, EnteredIn ext start s m n d c) ∧
    (∀ s (call : CallNode b.tab) n c m d, Making ext start s call n c →
      EnteredIn ext start s m n d c → 16 ∣ d.machine.rsp + 8 →
      (16 ∣ c.machine.rsp ↔ call.args.length ≤ 6 ∨ 2 ∣ call.args.length)) ∧
    CleansUp ext start b ∧
    (16 ∣ start.machine.rsp + 8 → ∀ n,
      (∀ m s (call : CallNode b.tab) c, m ≤ n → Making ext start s call m c →
        call.args.length ≤ 6 ∨ 2 ∣ call.args.length) →
      ∀ c g, run (asmStep b.lines ext) n start = some c → b.lines[c.pc]? = some (.call g) →
        16 ∣ c.machine.rsp) := by
  refine ⟨fun n c g ran => entered_before starts obeys ran, ?_, cleansUp starts obeys, ?_⟩
  · intro s call n c m d making entered entry
    have frame := entered.frame
    exact making.aligned_iff starts obeys (by omega)
  · intro entry n even c g ran line
    rcases bases_aligned starts obeys entry ran
      (fun m s call d lt => even m s call d (Nat.le_of_lt lt)) with
        ⟨a, callers, active, aligned⟩ | outside
    · obtain ⟨s, call, making, -⟩ := making_of_active active ran line
      obtain ⟨j, site, pc, -, -⟩ := making.site
      obtain ⟨-, -, rbp, -⟩ := active.at_call ⟨site.instr, pc⟩
      exact (making.aligned_iff starts obeys (rbp ▸ aligned)).mpr
        (even n s call c (Nat.le_refl n) making)
    · rw [List.getElem?_eq_none outside] at line
      cases line

end Alignment

/-- A method `f` with these parameters, and a `main` that returns a call of it. -/
def passing (params : List String) : ProgramSyn :=
  let args := params.foldr (fun _ rest => .cons (.integerLiteral 2 1) rest) .nil
  [.methodDecl ⟨1, some .integer, .of "f", params.map fun x => ⟨1, .integer, .of x⟩,
      some (.mk 1 [] (.cons (.returnExpr 1 (.integerLiteral 1 0)) .nil))⟩,
    .methodDecl ⟨2, some .integer, .of "main", [],
      some (.mk 2 [] (.cons (.returnExpr 2 (.methodCall 2 (.of "f") args)) .nil))⟩]

/-- A machine in front of `main`, entered with an aligned stack. -/
def alignedMain (pc : Nat) : Config where
  pc := pc
  machine :=
    { reg := fun _ => 0
      rsp := 2008
      rbp := 2000
      mem := fun _ => 1000
      flags := ⟨false, false, false⟩ }

/-- With seven arguments one word is pushed, and the call is made eight bytes off. -/
theorem calls_not_aligned :
    ∃ b : Compiled (.sample false), b.prog = passing ["a", "b", "c", "d", "e", "g", "h"] ∧
      b.Starts (alignedMain 22) ∧ ¬ CallsAligned noExtern (alignedMain 22) b := by
  obtain ⟨checked, accepted⟩ := Fallible.isOk_iff.mp (by decide +kernel :
    (frontEnd (.sample false) (passing ["a", "b", "c", "d", "e", "g", "h"])).isOk = true)
  have ran : (frontEnd (.sample false) (passing ["a", "b", "c", "d", "e", "g", "h"])).toOption.map
        (fun c =>
          let lines := generateObjectCode c.tab c.headAst
            (namedCode tempText (intermediateCode (.sample false) c).code)
          ((findLabel lines "main".toList, lines.length, lines[40]?),
            (run (asmStep lines noExtern) 18 (alignedMain 22)).map fun d =>
              (d.pc, d.machine.rsp, d.machine.rbp))) =
      some ((some 22, 49, some (.call "f".toList)), some (40, 1912, 2000)) := by decide +kernel
  rw [accepted] at ran
  simp only [Except.toOption, Option.map_some, Option.some.injEq, Prod.mk.injEq] at ran
  obtain ⟨⟨main, length, line⟩, state⟩ := ran
  obtain ⟨c, ran, at'⟩ := Option.map_eq_some_iff.mp state
  simp only [Prod.mk.injEq] at at'
  obtain ⟨pc, rsp, rbp⟩ := at'
  let b := Compiled.plain rfl accepted
  have starts : b.Starts (alignedMain 22) :=
    ⟨main, by decide, by rw [show b.lines.length = 49 from length]; decide⟩
  refine ⟨b, rfl, starts, fun aligned => ?_⟩
  obtain ⟨s, call, -, making, m, d, entered⟩ :=
    entered_before starts noExtern_obeys ran (by rw [pc]; exact line)
  have frame := entered.frame
  have off := aligned.1 s call 18 c m d making entered (by omega)
  omega

/-- With eight arguments two words are pushed. -/
theorem calls_aligned_eight :
    ∃ b : Compiled (.sample false), b.prog = passing ["a", "b", "c", "d", "e", "g", "h", "i"] ∧
      b.Starts (alignedMain 24) ∧ CleansUp noExtern (alignedMain 24) b ∧
      ∃ (s : Section b.tab b.headAst) (call : CallNode b.tab) (m : Nat) (d c : Config),
        Making noExtern (alignedMain 24) s call 20 c ∧
        EnteredIn noExtern (alignedMain 24) s m 20 d c ∧ 16 ∣ d.machine.rsp + 8 ∧
        16 ∣ c.machine.rsp ∧ (call.args.length ≤ 6 ∨ 2 ∣ call.args.length) := by
  obtain ⟨checked, accepted⟩ := Fallible.isOk_iff.mp (by decide +kernel :
    (frontEnd (.sample false) (passing ["a", "b", "c", "d", "e", "g", "h", "i"])).isOk = true)
  have ran : (frontEnd (.sample false)
    (passing ["a", "b", "c", "d", "e", "g", "h", "i"])).toOption.map
        (fun c =>
          let lines := generateObjectCode c.tab c.headAst
            (namedCode tempText (intermediateCode (.sample false) c).code)
          ((findLabel lines "main".toList, lines.length, lines[44]?),
            (run (asmStep lines noExtern) 20 (alignedMain 24)).map fun d =>
              (d.pc, d.machine.rsp, d.machine.rbp))) =
      some ((some 24, 53, some (.call "f".toList)), some (44, 1888, 2000)) := by decide +kernel
  rw [accepted] at ran
  simp only [Except.toOption, Option.map_some, Option.some.injEq, Prod.mk.injEq] at ran
  obtain ⟨⟨main, length, line⟩, state⟩ := ran
  obtain ⟨c, ran, at'⟩ := Option.map_eq_some_iff.mp state
  simp only [Prod.mk.injEq] at at'
  obtain ⟨pc, rsp, rbp⟩ := at'
  let b := Compiled.plain rfl accepted
  have starts : b.Starts (alignedMain 24) :=
    ⟨main, by decide, by rw [show b.lines.length = 53 from length]; decide⟩
  obtain ⟨entry, aligned, clean, -⟩ := calls_aligned_when b noExtern_obeys starts
  obtain ⟨s, call, -, making, m, d, entered⟩ := entry 20 c _ ran (by rw [pc]; exact line)
  have frame := entered.frame
  have even : 16 ∣ d.machine.rsp + 8 := by omega
  have iff := aligned s call 20 c m d making entered even
  have here : 16 ∣ c.machine.rsp := by omega
  exact ⟨b, rfl, starts, clean, s, call, m, d, c, making, entered, even, here, iff.mp here⟩

end Ctds
