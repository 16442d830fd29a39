import Ctds.StackEffect

/-! The activations of a run: which method the machine is in, where its frame is, and the
frames and return addresses of its callers. Every step stays in the activation, calls a
new one below it, or returns to the caller with the stack pointers it had; and it writes
below the callers' frames only. -/

namespace Ctds

open Decimal FirstSeen Transition

/-- A method being run: its ENTER, its LEAVE, its name and its `%rbp`. -/
structure Activation where
  enter : Nat
  leave : Nat
  name : CString
  base : Int

/-- An activation in the CALL at position `call`. -/
structure Waiting extends Activation where
  call : Nat

section Stack

variable {env : Env} (b : Compiled env)

/-- The stack pointer in front of instruction `j` of the body. -/
def Activation.top (a : Activation) (j : Nat) : Int :=
  a.base - frameSize b.code a.enter a.name - 8 * argWords b.code j

/-- The word at `%rbp` is the caller's `%rbp`. -/
def Saved (mem : Int → Word) (base : Int) (callers : List Waiting) : Prop :=
  ∀ w ∈ callers.head?, mem base = BitVec.ofInt 64 w.base

/-- The frames of the callers, one above the other from a callee's `%rbp` on, and the return
addresses between them. The outermost one returns to an address outside the object code. -/
inductive Callers (mem : Int → Word) : Int → List Waiting → Prop
  | none {base : Int} (outside : b.lines.length ≤ (mem (base + 8)).toNat) : Callers mem base []
  | cons {base : Int} {w : Waiting} {rest : List Waiting}
    (method : InMethod b.code w.enter w.leave w.name) (nonneg : 0 ≤ w.base)
    (limit : w.base < 2 ^ 64) (gt : w.enter < w.call) (lt : w.call < w.leave)
    (site : 1 < (objectLines b.tab b.headAst b.code w.call).length)
    (top : base + 16 = w.top b w.call)
    (address : mem (base + 8) =
      BitVec.ofNat 64 (lineStart b.tab b.headAst b.code w.call + 1))
    (saved : Saved mem w.base rest) (others : Callers mem w.base rest) :
    Callers mem base (w :: rest)

/-- In the ENTER: where the activation is, and where its stack pointers are. -/
inductive Entering (a : Activation) (callers : List Waiting) (c : Config) : Prop
  | entered (d : Nat) (low : 1 ≤ d) (high : d ≤ 2)
    (pc : c.pc = lineStart b.tab b.headAst b.code a.enter + d)
    (rsp : c.machine.rsp = a.base + 8) (rbp : ∀ w ∈ callers.head?, c.machine.rbp = w.base)
  | pushed (pc : c.pc = lineStart b.tab b.headAst b.code a.enter + 3)
    (rsp : c.machine.rsp = a.base) (nonneg : 0 ≤ a.base)
      (saved : Saved c.machine.mem a.base callers)
  | prologue (d : Nat) (low : 4 ≤ d)
      (inside : d < (objectLines b.tab b.headAst b.code a.enter).length)
    (pc : c.pc = lineStart b.tab b.headAst b.code a.enter + d) (rbp : c.machine.rbp = a.base)
    (rsp : c.machine.rsp = if d = 4 then a.base else a.base - frameSize b.code a.enter a.name)
    (nonneg : 0 ≤ a.base) (saved : Saved c.machine.mem a.base callers)

/-- In the body or in a LEAVE. -/
inductive Running (a : Activation) (callers : List Waiting) (c : Config) : Prop
  | body (j d : Nat) (gt : a.enter < j) (lt : j < a.leave)
    (inside : d < (objectLines b.tab b.headAst b.code j).length)
    (pc : c.pc = lineStart b.tab b.headAst b.code j + d) (rbp : c.machine.rbp = a.base)
    (rsp : c.machine.rsp = a.top b j) (nonneg : 0 ≤ a.base)
    (saved : Saved c.machine.mem a.base callers)
  | leaving (l : Nat) (f : Ident) (d : Nat) (here : b.instrs[l]? = some (.leave f)) (first : d ≤ 1)
    (pc : c.pc = lineStart b.tab b.headAst b.code l + d) (rbp : c.machine.rbp = a.base)
    (rsp : c.machine.rsp ≤ a.base) (nonneg : 0 ≤ a.base)
    (saved : Saved c.machine.mem a.base callers)
  | emptied (l : Nat) (f : Ident) (here : b.instrs[l]? = some (.leave f))
    (pc : c.pc = lineStart b.tab b.headAst b.code l + 2) (rsp : c.machine.rsp = a.base)
    (saved : Saved c.machine.mem a.base callers)
  | popped (l : Nat) (f : Ident) (here : b.instrs[l]? = some (.leave f))
    (pc : c.pc = lineStart b.tab b.headAst b.code l + 3) (rsp : c.machine.rsp = a.base + 8)
    (rbp : ∀ w ∈ callers.head?, c.machine.rbp = w.base)

/-- The machine runs this activation, called from these. -/
structure Active (a : Activation) (callers : List Waiting) (c : Config) : Prop where
  method : InMethod b.code a.enter a.leave a.name
  limit : a.base < 2 ^ 64
  stack : Callers b c.machine.mem a.base callers
  phase : Entering b a callers c ∨ Running b a callers c

end Stack

section Frames

variable {env : Env} {b : Compiled env}

theorem Activation.top_le (a : Activation) (j : Nat) : a.top b j ≤ a.base := by
  have := frameSize_nonneg b.code a.enter a.name
  unfold Activation.top
  omega

theorem Saved.congr {mem mem' : Int → Word} {base : Int} {callers : List Waiting}
    (h : Saved mem base callers) (same : mem' base = mem base) : Saved mem' base callers :=
  fun w head => same.trans (h w head)

theorem Callers.congr {mem mem' : Int → Word} {base : Int} {callers : List Waiting}
    (h : Callers b mem base callers)
    (same : ∀ address, base + 8 ≤ address → mem' address = mem address) :
    Callers b mem' base callers := by
  induction h with
  | none outside => exact .none (by rwa [same _ (Int.le_refl _)])
  | @cons base w rest method nonneg limit gt lt site top address saved others ih =>
    have above := w.toActivation.top_le (b := b) w.call
    exact .cons method nonneg limit gt lt site top ((same _ (Int.le_refl _)).trans address)
      (saved.congr (same _ (by omega))) (ih fun address le => same address (by omega))

end Frames

theorem asmStep_straight {lines : List AsmLine} {ext : Extern} {c c' : Config} {line : AsmLine}
    (here : lines[c.pc]? = some line) (straight : line.isStraight = true)
    (step : asmStep lines ext c = some c') :
    ∃ m, execLine line c.machine = some (m, .next) ∧ c' = ⟨c.pc + 1, m⟩ := by
  rw [asmStep, here] at step
  cases exec : execLine line c.machine with
  | none => simp [exec] at step
  | some result =>
    obtain ⟨m, control⟩ := result
    obtain rfl := execLine_straight straight exec
    simp only [exec, Option.some.injEq] at step
    exact ⟨m, rfl, step.symm⟩

section Steps

variable {env : Env} {b : Compiled env} {a : Activation} {callers : List Waiting} {c c' : Config}

theorem enter_prefix {e l : Nat} {f : CString} (method : InMethod b.code e l f) :
    b.lines[lineStart b.tab b.headAst b.code e + 1]? = some (.label f) ∧
      b.lines[lineStart b.tab b.headAst b.code e + 2]? = some .pushqRbp ∧
      b.lines[lineStart b.tab b.headAst b.code e + 3]? = some .movqRspRbp := by
  have lines := objectLines_enter method
  exact ⟨b.line_of_instr (d := 1) (by rw [lines]; rfl),
    b.line_of_instr (d := 2) (by rw [lines]; rfl),
    b.line_of_instr (d := 3) (by rw [lines]; rfl)⟩

theorem line_inside {i d pc : Nat} (place : pc = lineStart b.tab b.headAst b.code i + d)
    (inside : d < (objectLines b.tab b.headAst b.code i).length) {line : AsmLine}
    (here : b.lines[pc]? = some line) : (objectLines b.tab b.headAst b.code i)[d]? = some line := by
  have at' := b.line_of_instr (List.getElem?_eq_getElem inside)
  rw [← place, here] at at'
  rw [List.getElem?_eq_getElem inside, ← at']

theorem Active.rsp_le (h : Active b a callers c) : c.machine.rsp ≤ a.base + 8 := by
  have size := frameSize_nonneg b.code a.enter a.name
  rcases h.phase with entering | running
  · cases entering with
    | entered d low high pc rsp rbp => omega
    | pushed pc rsp => omega
    | prologue d low inside pc rbp rsp =>
      rw [rsp]
      split <;> omega
  · cases running with
    | body j d gt lt inside pc rbp rsp =>
      have := a.top_le (b := b) j
      omega
    | leaving l f d here first pc rbp rsp => omega
    | emptied l f here pc rsp => omega
    | popped l f here pc rsp => omega

theorem Entering.writes (method : InMethod b.code a.enter a.leave a.name)
    (h : Entering b a callers c) {line : AsmLine} (here : b.lines[c.pc]? = some line) {offset : Int}
    (writes : line.writes = some offset) : c.machine.rbp = a.base ∧ offset < 0 := by
  obtain ⟨label, push, move⟩ := enter_prefix method
  cases h with
  | entered d low high pc =>
    obtain rfl | rfl : d = 1 ∨ d = 2 := by omega
    · rw [pc, label] at here
      obtain rfl := Option.some.inj here
      cases writes
    · rw [pc, push] at here
      obtain rfl := Option.some.inj here
      cases writes
  | pushed pc =>
    rw [pc, move] at here
    obtain rfl := Option.some.inj here
    cases writes
  | prologue d low inside pc rbp =>
    refine ⟨rbp, ?_⟩
    rcases enter_line method low (line_inside pc inside here) with ⟨-, -, rfl⟩ | ⟨-, -, -, neg⟩
    · cases writes
    · exact neg offset writes

theorem Running.place (h : Running b a callers c) {line : AsmLine}
    (here : b.lines[c.pc]? = some line) :
    (∃ j d, a.enter < j ∧ j < a.leave ∧ c.pc = lineStart b.tab b.headAst b.code j + d ∧
      (objectLines b.tab b.headAst b.code j)[d]? = some line ∧ c.machine.rbp = a.base) ∨
    line.pushes = false ∧ line.writes = none ∧ ∃ l f d, b.instrs[l]? = some (.leave f) ∧
      c.pc = lineStart b.tab b.headAst b.code l + d ∧
      (objectLines b.tab b.headAst b.code l)[d]? = some line := by
  cases h with
  | body j d gt lt inside pc rbp => exact .inl ⟨j, d, gt, lt, pc, line_inside pc inside here, rbp⟩
  | leaving l f d at' first pc =>
    have length := leave_length at'
    have lines := line_inside pc (by omega) here
    refine .inr ⟨?_, ?_, l, f, d, at', pc, lines⟩ <;>
    · rw [leave_lines at'] at lines
      obtain rfl | rfl : d = 0 ∨ d = 1 := by omega
      · obtain rfl := Option.some.inj lines
        rfl
      · obtain rfl := Option.some.inj lines
        rfl
  | emptied l f at' pc | popped l f at' pc =>
    have length := leave_length at'
    have lines := line_inside pc (by omega) here
    refine .inr ⟨?_, ?_, l, f, _, at', pc, lines⟩ <;>
    · rw [leave_lines at'] at lines
      obtain rfl := Option.some.inj lines
      rfl

theorem Active.writes (h : Active b a callers c) {line : AsmLine}
    (here : b.lines[c.pc]? = some line) {offset : Int} (writes : line.writes = some offset) :
    c.machine.rbp = a.base ∧ offset < 0 := by
  rcases h.phase with entering | running
  · exact entering.writes h.method here writes
  · rcases running.place here with ⟨j, d, gt, lt, -, at', rbp⟩ | ⟨-, none, -⟩
    · obtain ⟨-, dest, -, -, rfl⟩ := writes_inside h.method gt lt at' writes
      exact ⟨rbp, slotOffset_neg _ dest⟩
    · rw [none] at writes
      cases writes

theorem Active.mem (h : Active b a callers c) {ext : Extern} (obeys : ext.Obeys)
    (step : asmStep b.lines ext c = some c') {address : Int} (above : c.machine.rsp ≤ address)
    (outside : a.base ≤ address) : c'.machine.mem address = c.machine.mem address := by
  refine asmStep_mem obeys step (fun _ _ _ => above) fun line offset here writes => ?_
  obtain ⟨rbp, neg⟩ := h.writes here writes
  omega

theorem argWords_empty {e l j : Nat} {f : CString} (method : InMethod b.code e l f) (gt : e < j)
    (lt : j < l) (empty : objectLines b.tab b.headAst b.code j = []) :
    argWords b.code (j + 1) = argWords b.code j := by
  have inside : j < b.code.length := by have := method.length; omega
  obtain ⟨ir, atIr, -⟩ := b.code_getElem? (List.getElem?_eq_getElem inside)
  have at' := b.code_of_instrs atIr
  obtain ⟨p, s, -, lines⟩ := objectLines_inside b.tab b.headAst method gt lt at'
  have isLoad : (ir.named b.rename).instruct = .load := by
    have inner := b.inner_inside method gt lt atIr
    rw [empty] at lines
    cases ir with
    | load x => rfl
    | binary t left right dest =>
      rw [named_binary] at lines
      cases t <;> cases lines
    | unary t left dest =>
      rw [named_unary] at lines
      cases t <;> cases lines
    | param arg =>
      rw [named_param] at lines
      simp only [instrLines] at lines
      split at lines <;> cases lines
    | ret value =>
      rw [named_ret] at lines
      simp [instrLines] at lines
    | enter _ | leave _ | externDecl _ => cases inner
    | _ => cases lines
  rw [argWords_succ at' (by simp [isLoad]), argWords,
    b.argsBefore_eq_zero at' (by simp [isLoad]) (by simp [isLoad])]

theorem settle {e l j : Nat} {f : CString} (method : InMethod b.code e l f) (gt : e < j)
    (le : j ≤ l) :
    ∃ k, j ≤ k ∧ k ≤ l ∧ lineStart b.tab b.headAst b.code k = lineStart b.tab b.headAst b.code j ∧
      argWords b.code k = argWords b.code j ∧
      (k < l → 0 < (objectLines b.tab b.headAst b.code k).length) := by
  induction h : l - j generalizing j with
  | zero => exact ⟨j, Nat.le_refl j, le, rfl, rfl, fun lt => by omega⟩
  | succ n ih =>
    by_cases empty : objectLines b.tab b.headAst b.code j = []
    · obtain ⟨k, jk, kl, place, words, some⟩ := ih (j := j + 1) (by omega) (by omega) (by omega)
      refine ⟨k, by omega, kl, ?_, ?_, some⟩
      · rw [place, lineStart_succ, empty]
        rfl
      · rw [words, argWords_empty method gt (by omega) empty]
    · exact ⟨j, Nat.le_refl j, le, rfl, rfl, fun _ => List.length_pos_iff.mpr empty⟩

theorem Running.start (method : InMethod b.code a.enter a.leave a.name) {j : Nat} (gt : a.enter < j)
    (le : j ≤ a.leave) (pc : c.pc = lineStart b.tab b.headAst b.code j)
    (rbp : c.machine.rbp = a.base) (rsp : c.machine.rsp = a.top b j) (nonneg : 0 ≤ a.base)
    (saved : Saved c.machine.mem a.base callers) : Running b a callers c := by
  obtain ⟨k, jk, kl, place, words, lines⟩ := settle method gt le
  have top : a.top b k = a.top b j := by rw [Activation.top, Activation.top, words]
  rcases Nat.lt_or_eq_of_le kl with lt | rfl
  · exact .body k 0 (by omega) lt (lines lt) (by omega) rbp (by omega) nonneg saved
  · obtain ⟨s, -, stop, -⟩ := b.section_of_inMethod method
    have here : b.instrs[a.leave]? = some (.leave s.info.name) := stop ▸ s.at_leave env ⟨0, 0⟩
    have low := a.top_le (b := b) j
    exact .leaving a.leave s.info.name 0 here (Nat.zero_le 1) (by omega) rbp (by omega) nonneg saved

theorem Running.next (method : InMethod b.code a.enter a.leave a.name) {j d : Nat}
    (gt : a.enter < j)
    (lt : j < a.leave) (inside : d < (objectLines b.tab b.headAst b.code j).length)
    (pc : c.pc = lineStart b.tab b.headAst b.code j + d + 1) (rbp : c.machine.rbp = a.base)
    (rsp : c.machine.rsp =
      if (objectLines b.tab b.headAst b.code j).length = d + 1 then a.top b (j + 1) else a.top b j)
    (nonneg : 0 ≤ a.base) (saved : Saved c.machine.mem a.base callers) : Running b a callers c := by
  by_cases last : (objectLines b.tab b.headAst b.code j).length = d + 1
  · rw [if_pos last] at rsp
    exact .start method (Nat.lt_succ_of_lt gt) lt
      (by rw [lineStart_succ]; omega) rbp rsp nonneg saved
  · rw [if_neg last] at rsp
    exact .body j (d + 1) gt lt (by omega) pc rbp rsp nonneg saved

theorem nextPrologue (method : InMethod b.code a.enter a.leave a.name) {d : Nat} (low : 3 ≤ d)
    (inside : d < (objectLines b.tab b.headAst b.code a.enter).length)
    (pc : c.pc = lineStart b.tab b.headAst b.code a.enter + d + 1) (rbp : c.machine.rbp = a.base)
    (rsp : c.machine.rsp = if d = 3 then a.base else a.base - frameSize b.code a.enter a.name)
    (nonneg : 0 ≤ a.base) (saved : Saved c.machine.mem a.base callers) :
    Entering b a callers c ∨ Running b a callers c := by
  by_cases last : (objectLines b.tab b.headAst b.code a.enter).length = d + 1
  · have none : argWords b.code (a.enter + 1) = 0 := by
      obtain ⟨instr, here, isEnter, -⟩ := method.enter
      exact argWords_succ here (by simp [isEnter])
    have room : d = 3 → frameSize b.code a.enter a.name = 0 := by
      rintro rfl
      have size := frameSize_nonneg b.code a.enter a.name
      rw [objectLines_enter method, prologueLines] at last
      by_contra some
      have pos : 0 < frameSize b.code a.enter a.name := by omega
      rw [if_pos pos] at last
      simp at last
    refine .inr (.start method (Nat.lt_succ_self _) method.lt
      (by rw [lineStart_succ]; omega) rbp ?_ nonneg
      saved)
    rw [rsp, Activation.top, none]
    split
    · next three =>
      rw [room three]
      omega
    · omega
  · refine .inl (.prologue (d + 1) (by omega) (by omega) pc rbp ?_ nonneg saved)
    rw [rsp]
    simp only [Nat.reduceEqDiff]

end Steps

section Outcomes

variable {env : Env} {b : Compiled env} {a : Activation} {callers : List Waiting} {c c' : Config}
  {ext : Extern}

variable (b) in
/-- A step stays in the activation, calls another one, returns to the caller, or ends the run. -/
inductive Stepped (a : Activation) (callers : List Waiting) (c c' : Config) : Prop
  | stays (active : Active b a callers c')
    (running : Running b a callers c → Running b a callers c')
  | calls (w : Waiting) (a' : Activation) (caller : w.toActivation = a)
    (rbp : c.machine.rbp = a.base) (rsp : c.machine.rsp = w.top b w.call)
    (line : ∃ g, b.lines[c.pc]? = some (.call g)) (active : Active b a' (w :: callers) c')
  | returns (w : Waiting) (rest : List Waiting) (called : callers = w :: rest)
    (rsp : c'.machine.rsp = a.base + 16) (active : Active b w.toActivation rest c')
    (running : Running b w.toActivation rest c')
  | ends (outermost : callers = []) (rsp : c'.machine.rsp = a.base + 16)
    (outside : b.lines.length ≤ c'.pc)

theorem Active.stay (h : Active b a callers c) (obeys : ext.Obeys)
    (step : asmStep b.lines ext c = some c')
    (phase : Entering b a callers c' ∨ Running b a callers c') : Active b a callers c' :=
  have low := h.rsp_le
  ⟨h.method, h.limit, h.stack.congr fun _ le => h.mem obeys step (by omega) (by omega), phase⟩

theorem Active.run (h : Active b a callers c) (obeys : ext.Obeys)
    (step : asmStep b.lines ext c = some c') (running : Running b a callers c') :
    Stepped b a callers c c' :=
  .stays (h.stay obeys step (.inr running)) fun _ => running

theorem Active.saved (h : Active b a callers c) (obeys : ext.Obeys)
    (step : asmStep b.lines ext c = some c') (low : c.machine.rsp ≤ a.base)
    (saved : Saved c.machine.mem a.base callers) : Saved c'.machine.mem a.base callers :=
  saved.congr (h.mem obeys step low (Int.le_refl _))

theorem level_step {lines : List AsmLine} {line : AsmLine} (here : lines[c.pc]? = some line)
    (level : line.isLevel = true) (straight : line.isStraight = true)
    (step : asmStep lines ext c = some c') :
    c'.pc = c.pc + 1 ∧ c'.machine.rsp = c.machine.rsp ∧ c'.machine.rbp = c.machine.rbp := by
  obtain ⟨m, exec, rfl⟩ := asmStep_straight here straight step
  obtain ⟨rsp, rbp⟩ := (execLine_leaves exec).level level
  exact ⟨rfl, rsp, rbp⟩

theorem jump_step {lines : List AsmLine} {line : AsmLine} {name : CString}
    (here : lines[c.pc]? = some line)
    (jumps : line = .jmp (.label name) ∨ line = .jz (.label name))
    (step : asmStep lines ext c = some c') :
    c'.machine = c.machine ∧ (c'.pc = c.pc + 1 ∧ line ≠ .jmp (.label name) ∨
      findLabel lines name = some c'.pc) := by
  rw [asmStep, here] at step
  rcases jumps with rfl | rfl
  · obtain ⟨pc, found, rfl⟩ := Option.map_eq_some_iff.mp step
    exact ⟨rfl, .inr found⟩
  · have exec : execLine (.jz (.label name)) c.machine =
        if c.machine.flags.zero then some (c.machine, .jump name)
          else some (c.machine, .next) := rfl
    dsimp only at step
    rw [exec] at step
    by_cases zero : c.machine.flags.zero = true
    · rw [if_pos zero] at step
      obtain ⟨pc, found, rfl⟩ := Option.map_eq_some_iff.mp step
      exact ⟨rfl, .inr found⟩
    · rw [if_neg zero] at step
      obtain rfl := Option.some.inj step
      exact ⟨rfl, .inl ⟨rfl, by simp⟩⟩

theorem line_of_findLabel {lines : List AsmLine} {name : CString} {pc : Nat}
    (found : findLabel lines name = some pc) : lines[pc]? = some (.label name) := by
  obtain ⟨inside, here, -⟩ := List.findIdx?_eq_some_iff_getElem.mp found
  rw [List.getElem?_eq_getElem inside]
  exact congrArg some (of_decide_eq_true here)

theorem Callers.head (h : Callers b c.machine.mem a.base callers) :
    ∀ w ∈ callers.head?, 0 ≤ w.base ∧ w.base < 2 ^ 64 := by
  cases h with
  | none => intro w head; cases head
  | cons method nonneg limit =>
    intro w head
    obtain rfl := Option.some.inj head
    exact ⟨nonneg, limit⟩

theorem toNat_ofInt {v : Int} (nonneg : 0 ≤ v) (limit : v < 2 ^ 64) :
    ((BitVec.ofInt 64 v).toNat : Int) = v := by
  rw [BitVec.toNat_ofInt]
  omega

theorem step_entered (h : Active b a callers c) (obeys : ext.Obeys)
    (step : asmStep b.lines ext c = some c') {d : Nat} (low : 1 ≤ d) (high : d ≤ 2)
    (pc : c.pc = lineStart b.tab b.headAst b.code a.enter + d) (rsp : c.machine.rsp = a.base + 8)
    (rbp : ∀ w ∈ callers.head?, c.machine.rbp = w.base) : Active b a callers c' := by
  obtain ⟨label, push, -⟩ := enter_prefix h.method
  obtain rfl | rfl : d = 1 ∨ d = 2 := by omega
  · rw [← pc] at label
    obtain ⟨next, rsp', rbp'⟩ := level_step label rfl rfl step
    exact h.stay obeys step (.inl (.entered 2 (by omega) (by omega) (by omega) (rsp'.trans rsp)
      fun w head => rbp'.trans (rbp w head)))
  · rw [← pc] at push
    obtain ⟨m, exec, rfl⟩ := asmStep_straight push rfl step
    obtain ⟨m₁, pushed, eq⟩ := Option.map_eq_some_iff.mp exec
    obtain ⟨rfl, -⟩ := Prod.mk.inj eq
    obtain ⟨room, rfl⟩ := Machine.of_push pushed
    refine h.stay obeys step (.inl (.pushed (by simp only [pc]) (by simp only [rsp]; omega)
      (by omega) ?_))
    intro w head
    have place : c.machine.rsp - 8 = a.base := by omega
    simp only [place, Function.update_self, rbp w head]

theorem step_pushed (h : Active b a callers c) (obeys : ext.Obeys)
    (step : asmStep b.lines ext c = some c')
    (pc : c.pc = lineStart b.tab b.headAst b.code a.enter + 3) (rsp : c.machine.rsp = a.base)
    (nonneg : 0 ≤ a.base) (saved : Saved c.machine.mem a.base callers) : Active b a callers c' := by
  obtain ⟨-, -, move⟩ := enter_prefix h.method
  have saved' := h.saved obeys step (Int.le_of_eq rsp) saved
  rw [← pc] at move
  obtain ⟨m, exec, rfl⟩ := asmStep_straight move rfl step
  obtain ⟨rfl, -⟩ := Prod.mk.inj (Option.some.inj exec)
  have inside : 3 < (objectLines b.tab b.headAst b.code a.enter).length := by
    rw [objectLines_enter h.method, prologueLines]
    simp
  exact h.stay obeys step (nextPrologue h.method (Nat.le_refl 3) inside (by simp only [pc]) rsp
    (by simpa using rsp) nonneg saved')

theorem step_prologue (h : Active b a callers c) (obeys : ext.Obeys)
    (step : asmStep b.lines ext c = some c') {d : Nat} (low : 4 ≤ d)
    (inside : d < (objectLines b.tab b.headAst b.code a.enter).length)
    (pc : c.pc = lineStart b.tab b.headAst b.code a.enter + d) (rbp : c.machine.rbp = a.base)
    (rsp : c.machine.rsp = if d = 4 then a.base else a.base - frameSize b.code a.enter a.name)
    (nonneg : 0 ≤ a.base) (saved : Saved c.machine.mem a.base callers) : Active b a callers c' := by
  have size := frameSize_nonneg b.code a.enter a.name
  have saved' := h.saved obeys step (by split at rsp <;> omega) saved
  have at' := List.getElem?_eq_getElem inside
  have here := b.line_of_instr at'
  rw [← pc] at here
  have four : d ≠ 3 := by omega
  rcases enter_line h.method low at' with ⟨rfl, room, line⟩ | ⟨none, level, straight, -⟩
  · rw [line] at here
    obtain ⟨m, exec, rfl⟩ := asmStep_straight here rfl step
    rw [execLine] at exec
    split at exec
    · cases exec
    · obtain ⟨rfl, -⟩ := Prod.mk.inj (Option.some.inj exec)
      refine h.stay obeys step (nextPrologue h.method (by omega) inside (by simp only [pc]) rbp ?_
        nonneg saved')
      rw [if_pos rfl] at rsp
      rw [if_neg four]
      simp only [Machine.moveStackPointer, rsp]
  · obtain ⟨next, rsp', rbp'⟩ := level_step here level straight step
    refine h.stay obeys step (nextPrologue h.method (by omega) inside (by omega) (rbp'.trans rbp) ?_
      nonneg saved')
    rw [if_neg four, rsp', rsp]
    split
    · next first => rw [none first, Int.sub_zero]
    · rfl

theorem step_leaving (h : Active b a callers c) (obeys : ext.Obeys)
    (step : asmStep b.lines ext c = some c') {l d : Nat} {f : Ident}
    (at' : b.instrs[l]? = some (.leave f)) (first : d ≤ 1)
    (pc : c.pc = lineStart b.tab b.headAst b.code l + d) (rbp : c.machine.rbp = a.base)
    (rsp : c.machine.rsp ≤ a.base) (nonneg : 0 ≤ a.base)
    (saved : Saved c.machine.mem a.base callers) : Stepped b a callers c c' := by
  have lines := leave_lines at'
  have saved' := h.saved obeys step rsp saved
  obtain rfl | rfl : d = 0 ∨ d = 1 := by omega
  · have here := b.line_of_instr (i := l) (d := 0) (by rw [lines]; rfl)
    rw [← pc] at here
    obtain ⟨next, rsp', rbp'⟩ := level_step here rfl rfl step
    exact h.run obeys step (.leaving l f 1 at' (Nat.le_refl 1) (by omega) (rbp'.trans rbp)
      (by omega) nonneg saved')
  · have here := b.line_of_instr (i := l) (d := 1) (by rw [lines]; rfl)
    rw [← pc] at here
    obtain ⟨m, exec, rfl⟩ := asmStep_straight here rfl step
    obtain ⟨rfl, -⟩ := Prod.mk.inj (Option.some.inj exec)
    exact h.run obeys step (.emptied l f at' (by simp only [pc]) rbp saved')

theorem step_emptied (h : Active b a callers c) (obeys : ext.Obeys)
    (step : asmStep b.lines ext c = some c') {l : Nat} {f : Ident}
    (at' : b.instrs[l]? = some (.leave f))
    (pc : c.pc = lineStart b.tab b.headAst b.code l + 2) (rsp : c.machine.rsp = a.base)
    (saved : Saved c.machine.mem a.base callers) : Stepped b a callers c c' := by
  have here := b.line_of_instr (i := l) (d := 2) (by rw [leave_lines at']; rfl)
  rw [← pc] at here
  obtain ⟨m, exec, rfl⟩ := asmStep_straight here rfl step
  obtain ⟨rfl, -⟩ := Prod.mk.inj (Option.some.inj exec)
  refine h.run obeys step (.popped l f at' (by simp only [pc])
    (by simp only [Machine.popRbp, rsp]) fun w head => ?_)
  obtain ⟨low, high⟩ := h.stack.head w head
  simp only [Machine.popRbp, rsp, saved w head]
  exact toNat_ofInt low high

theorem step_popped (fits : b.lines.length ≤ 2 ^ 64) (h : Active b a callers c)
    (step : asmStep b.lines ext c = some c') {l : Nat} {f : Ident}
    (at' : b.instrs[l]? = some (.leave f))
    (pc : c.pc = lineStart b.tab b.headAst b.code l + 3) (rsp : c.machine.rsp = a.base + 8)
    (rbp : ∀ w ∈ callers.head?, c.machine.rbp = w.base) : Stepped b a callers c c' := by
  have here := b.line_of_instr (i := l) (d := 3) (by rw [leave_lines at']; rfl)
  rw [← pc] at here
  rw [asmStep, here] at step
  obtain rfl := Option.some.inj step
  have stack := h.stack
  cases stack with
  | none outside => exact .ends rfl (by dsimp only; omega) (by rw [rsp]; exact outside)
  | @cons _ w rest method nonneg limit gt lt site top address saved others =>
    have inside := (List.getElem?_eq_some_iff.mp
      (b.line_of_instr (List.getElem?_eq_getElem site))).1
    have back : Running b w.toActivation rest
        ⟨(c.machine.mem c.machine.rsp).toNat, { c.machine with rsp := c.machine.rsp + 8 }⟩ := by
      refine .body w.call 1 gt lt site ?_ (rbp w rfl) ?_ nonneg saved
      · dsimp only
        rw [rsp, address, BitVec.toNat_ofNat, Nat.mod_eq_of_lt (by omega)]
      · dsimp only
        rw [rsp, ← top]
        omega
    exact .returns w rest rfl (by dsimp only; omega) ⟨method, limit, others, .inr back⟩ back

theorem step_call (h : Active b a callers c) (obeys : ext.Obeys)
    (step : asmStep b.lines ext c = some c') {j : Nat} (gt : a.enter < j) (lt : j < a.leave)
    {g : Ident} (site : 1 < (objectLines b.tab b.headAst b.code j).length)
    (here : b.lines[c.pc]? = some (.call g.text))
    (pc : c.pc = lineStart b.tab b.headAst b.code j) (rbp : c.machine.rbp = a.base)
    (rsp : c.machine.rsp = a.top b j) (nonneg : 0 ≤ a.base)
    (saved : Saved c.machine.mem a.base callers) : Stepped b a callers c c' := by
  have low := a.top_le (b := b) j
  have saved' := h.saved obeys step (by omega) saved
  have stack' := h.stack.congr fun address le => h.mem obeys step (by omega) (by omega)
  rw [asmStep, here] at step
  dsimp only [execLine] at step
  cases found : findLabel b.lines g.text with
  | some target =>
    rw [found] at step
    obtain ⟨m, pushed, rfl⟩ := Option.map_eq_some_iff.mp step
    obtain ⟨i, d, place, label⟩ := b.label_of_line (line_of_findLabel found)
    rcases label with ⟨f, atEnter, rfl, same⟩ | ⟨f, -, -, same⟩ | ⟨n, -, -, same⟩
    · obtain ⟨s, rfl, rfl⟩ := section_of_enter b.compilable.shape atEnter
      have method := b.inMethod_of_section s
      obtain ⟨-, rfl⟩ := Machine.of_push pushed
      refine .calls ⟨a, j⟩ ⟨s.start env ⟨0, 0⟩, s.stop env ⟨0, 0⟩, s.info.name.text,
        c.machine.rsp - 16⟩ rfl rbp rsp ⟨_, here⟩ ⟨method, ?_, ?_, ?_⟩
      · have := h.limit
        dsimp only
        omega
      · refine .cons h.method nonneg h.limit gt lt site (by dsimp only; omega) ?_ saved' stack'
        have slot : c.machine.rsp - 16 + 8 = c.machine.rsp - 8 := by omega
        dsimp only
        rw [slot, Function.update_self, pc]
      · refine .inl (.entered 1 (Nat.le_refl 1) (by omega) place (by dsimp only; omega)
          fun w head => ?_)
        obtain rfl := Option.some.inj head
        exact rbp
    · exact absurd same.symm (leaveLabel_ne_ident _ _)
    · exact absurd same.symm (labelText_ne_ident _ _)
  | none =>
    rw [found] at step
    obtain ⟨m, ran, rfl⟩ := Option.map_eq_some_iff.mp step
    obtain ⟨rsp', rbp', -⟩ := obeys _ _ _ ran
    have behind : Running b a callers ⟨c.pc + 1, m⟩ := by
      refine .body j 1 gt lt site (by simp only [pc]) (rbp'.trans rbp)
        (rsp'.trans rsp) nonneg saved'
    exact .stays ⟨h.method, h.limit, stack', .inr behind⟩ fun _ => behind

theorem step_body (h : Active b a callers c) (obeys : ext.Obeys)
    (step : asmStep b.lines ext c = some c') {j d : Nat} (gt : a.enter < j) (lt : j < a.leave)
    (inside : d < (objectLines b.tab b.headAst b.code j).length)
    (pc : c.pc = lineStart b.tab b.headAst b.code j + d) (rbp : c.machine.rbp = a.base)
    (rsp : c.machine.rsp = a.top b j) (nonneg : 0 ≤ a.base)
    (saved : Saved c.machine.mem a.base callers) : Stepped b a callers c c' := by
  have low := a.top_le (b := b) j
  have saved' := h.saved obeys step (by omega) saved
  have at' := List.getElem?_eq_getElem inside
  have here := b.line_of_instr at'
  rw [← pc] at here
  generalize (objectLines b.tab b.headAst b.code j)[d] = line at at' here
  have kind := bodyLine h.method gt lt at'
  cases kind with
  | level level straight last =>
    obtain ⟨next, rsp', rbp'⟩ := level_step here level straight step
    refine h.run obeys step (.next h.method gt lt inside (by omega) (rbp'.trans rbp) ?_
      nonneg saved')
    rw [rsp', rsp]
    split
    · next final => rw [Activation.top, Activation.top, last final]
    · rfl
  | push src last more =>
    obtain ⟨m, exec, rfl⟩ := asmStep_straight here rfl step
    obtain ⟨m₁, result, eq⟩ := Option.map_eq_some_iff.mp exec
    obtain ⟨v, -, pushed⟩ := Option.bind_eq_some_iff.mp result
    obtain ⟨rfl, -⟩ := Prod.mk.inj eq
    obtain ⟨-, rfl⟩ := Machine.of_push pushed
    refine h.run obeys step (.next h.method gt lt inside (by simp only [pc]) rbp ?_
      nonneg saved')
    rw [if_pos last, Activation.top, more]
    rw [Activation.top] at rsp
    dsimp only
    push_cast
    omega
  | call g first site =>
    subst first
    exact step_call h obeys step gt lt site here pc rbp rsp nonneg saved
  | clean last none =>
    obtain ⟨m, exec, rfl⟩ := asmStep_straight here rfl step
    obtain ⟨rfl, -⟩ := Prod.mk.inj (Option.some.inj exec)
    refine h.run obeys step (.next h.method gt lt inside (by simp only [pc]) rbp ?_
      nonneg saved')
    rw [if_pos last, Activation.top, none]
    rw [Activation.top] at rsp
    dsimp only [Machine.moveStackPointer]
    push_cast
    omega
  | jump n k gt' lt' label none last none' jumps =>
    obtain ⟨machine, target⟩ := jump_step here jumps step
    rw [← machine] at rbp rsp
    have same : a.top b j = a.base - frameSize b.code a.enter a.name := by
      rw [Activation.top, none]
      omega
    rcases target with ⟨next, -⟩ | found
    · refine h.run obeys step (.next h.method gt lt inside (by omega) rbp ?_ nonneg saved')
      rw [if_pos last, rsp, Activation.top, Activation.top, none, none']
    · have first : (objectLines b.tab b.headAst b.code k)[0]? = some (.label (labelText n)) := by
        rw [objectLines_eq (b.code_of_instrs label)]
        rfl
      have line := b.line_of_instr first
      rw [b.findLabel_eq line] at found
      refine h.run obeys step (.start h.method gt' (Nat.le_of_lt lt')
        (Option.some.inj found).symm rbp ?_ nonneg saved')
      have zero := b.argsBefore_eq_zero (b.code_of_instrs label) (by
        simp [IrInstr.named, IrInstr.instr, Instr.map]) (by
        simp [IrInstr.named, IrInstr.instr, Instr.map])
      rw [rsp, Activation.top, Activation.top, none, argWords, zero]
  | ret name =>
    obtain ⟨machine, target⟩ := jump_step here (.inl rfl) step
    rw [← machine] at rbp rsp
    rcases target with ⟨-, other⟩ | found
    · exact absurd rfl other
    · obtain ⟨l, d', place, label⟩ := b.label_of_line (line_of_findLabel found)
      rcases label with ⟨f, -, -, same⟩ | ⟨f, atLeave, rfl, same⟩ | ⟨n, -, -, same⟩
      · exact absurd same (leaveLabel_ne_ident _ _)
      · exact h.run obeys step (.leaving l f 0 atLeave (Nat.zero_le 1) place rbp
          (by omega) nonneg saved')
      · exact absurd same.symm (labelText_ne_leaveLabel _ _)

theorem Entering.step (entering : Entering b a callers c) (h : Active b a callers c)
    (obeys : ext.Obeys) (step : asmStep b.lines ext c = some c') : Active b a callers c' := by
  cases entering with
  | entered d low high pc rsp rbp => exact step_entered h obeys step low high pc rsp rbp
  | pushed pc rsp nonneg saved => exact step_pushed h obeys step pc rsp nonneg saved
  | prologue d low inside pc rbp rsp nonneg saved =>
    exact step_prologue h obeys step low inside pc rbp rsp nonneg saved

theorem Running.step (fits : b.lines.length ≤ 2 ^ 64) (running : Running b a callers c)
    (h : Active b a callers c) (obeys : ext.Obeys) (step : asmStep b.lines ext c = some c') :
    Stepped b a callers c c' := by
  cases running with
  | body j d gt lt inside pc rbp rsp nonneg saved =>
    exact step_body h obeys step gt lt inside pc rbp rsp nonneg saved
  | leaving l f d here first pc rbp rsp nonneg saved =>
    exact step_leaving h obeys step here first pc rbp rsp nonneg saved
  | emptied l f here pc rsp saved => exact step_emptied h obeys step here pc rsp saved
  | popped l f here pc rsp rbp => exact step_popped fits h step here pc rsp rbp

/-- Every step of an activation. -/
theorem Active.step (fits : b.lines.length ≤ 2 ^ 64) (h : Active b a callers c)
    (obeys : ext.Obeys) (step : asmStep b.lines ext c = some c') : Stepped b a callers c c' := by
  by_cases running : Running b a callers c
  · exact running.step fits h obeys step
  · exact .stays ((h.phase.resolve_right running).step h obeys step) fun r => absurd r running

end Outcomes

section Places

variable {env : Env} {b : Compiled env} {a : Activation} {callers : List Waiting} {c c' : Config}
  {ext : Extern}

theorem lineStart_mono {i j : Nat} (le : i ≤ j) :
    lineStart b.tab b.headAst b.code i ≤ lineStart b.tab b.headAst b.code j := by
  induction j, le using Nat.le_induction with
  | base => exact Nat.le_refl _
  | succ j le ih =>
    rw [lineStart_succ]
    omega

theorem line_unique {i j d d' : Nat}
    (same : lineStart b.tab b.headAst b.code i + d = lineStart b.tab b.headAst b.code j + d')
    (inside : d < (objectLines b.tab b.headAst b.code i).length)
    (inside' : d' < (objectLines b.tab b.headAst b.code j).length) : i = j := by
  have apart : ∀ {i j d d' : Nat},
      lineStart b.tab b.headAst b.code i + d = lineStart b.tab b.headAst b.code j + d' →
      d < (objectLines b.tab b.headAst b.code i).length → j ≤ i := by
    intro i j d d' same inside
    by_contra before
    have later := lineStart_mono (b := b) (i := i + 1) (j := j) (by omega)
    rw [lineStart_succ] at later
    omega
  exact Nat.le_antisymm (apart same.symm inside') (apart same inside)

theorem InMethod.unique {code : List (Instr CString)} {e l e' l' j : Nat} {f f' : CString}
    (h : InMethod code e l f) (h' : InMethod code e' l' f') (gt : e < j) (lt : j < l)
    (gt' : e' < j) (lt' : j < l') : e = e' ∧ l = l' ∧ f = f' := by
  obtain ⟨first, enter, isEnter, name⟩ := h.enter
  obtain ⟨first', enter', isEnter', name'⟩ := h'.enter
  obtain ⟨last, leave, isLeave, -⟩ := h.leave
  obtain ⟨last', leave', isLeave', -⟩ := h'.leave
  have starts : e = e' := by
    rcases Nat.lt_trichotomy e e' with before | same | behind
    · exact absurd isEnter' (h.body before (by omega) enter').1
    · exact same
    · exact absurd isEnter (h'.body behind (by omega) enter).1
  have ends : l = l' := by
    rcases Nat.lt_trichotomy l l' with before | same | behind
    · exact absurd isLeave (h'.body (by omega) before leave).2
    · exact same
    · exact absurd isLeave' (h.body (by omega) behind leave').2
  subst starts
  obtain rfl := Option.some.inj (enter.symm.trans enter')
  exact ⟨rfl, ends, Option.some.inj (name.symm.trans name')⟩

theorem Active.at_inner (h : Active b a callers c) {i d : Nat} {ir : IrInstr}
    (here : b.instrs[i]? = some ir) (inner : ir.isInner = true)
    (pc : c.pc = lineStart b.tab b.headAst b.code i + d)
    (inside : d < (objectLines b.tab b.headAst b.code i).length) :
    Running b a callers c ∧ a.enter < i ∧ i < a.leave ∧ c.machine.rbp = a.base := by
  have line := b.line_of_instr (List.getElem?_eq_getElem inside)
  rw [← pc] at line
  rcases h.phase with entering | running
  · obtain ⟨d', place, inside'⟩ : ∃ d', c.pc = lineStart b.tab b.headAst b.code a.enter + d' ∧
        d' < (objectLines b.tab b.headAst b.code a.enter).length := by
      have long : 3 < (objectLines b.tab b.headAst b.code a.enter).length := by
        rw [objectLines_enter h.method, prologueLines]
        simp
      cases entering with
      | entered d' low high pc => exact ⟨d', pc, by omega⟩
      | pushed pc => exact ⟨3, pc, long⟩
      | prologue d' low inside pc => exact ⟨d', pc, inside⟩
    obtain rfl := line_unique (pc.symm.trans place) inside inside'
    obtain ⟨instr, enter, isEnter, -⟩ := h.method.enter
    obtain rfl := Option.some.inj ((b.code_of_instrs here).symm.trans enter)
    exact absurd isEnter (ir.isInner_iff.mp inner).1
  · rcases running.place line with
      ⟨j, d', gt, lt, place, at', rbp⟩ | ⟨-, -, l, f, d', leave, place, at'⟩
    · obtain rfl := line_unique (pc.symm.trans place) inside (List.getElem?_eq_some_iff.mp at').1
      exact ⟨running, gt, lt, rbp⟩
    · obtain rfl := line_unique (pc.symm.trans place) inside (List.getElem?_eq_some_iff.mp at').1
      obtain rfl := Option.some.inj (here.symm.trans leave)
      cases inner

end Places

section Runs

variable {env : Env} {b : Compiled env} {ext : Extern}

/-- A machine about to run `main`, to return to an address outside the object code. -/
structure Compiled.Starts (b : Compiled env) (c : Config) : Prop where
  main : findLabel b.lines "main".toList = some c.pc
  stack : c.machine.rsp < 2 ^ 64
  caller : b.lines.length ≤ (c.machine.mem c.machine.rsp).toNat

theorem Compiled.Starts.fits {c : Config} (h : b.Starts c) : b.lines.length ≤ 2 ^ 64 :=
  h.caller.trans (Nat.le_of_lt (BitVec.isLt _))

theorem Compiled.Starts.active {c : Config} (h : b.Starts c) : ∃ a, Active b a [] c := by
  obtain ⟨i, d, place, label⟩ := b.label_of_line (line_of_findLabel h.main)
  have isMain : "main".toList = (Ident.of "main").text := by decide
  rcases label with ⟨f, enter, rfl, name⟩ | ⟨f, -, -, name⟩ | ⟨n, -, -, name⟩
  · obtain ⟨s, rfl, rfl⟩ := section_of_enter b.compilable.shape enter
    refine ⟨⟨s.start env ⟨0, 0⟩, s.stop env ⟨0, 0⟩, s.info.name.text, c.machine.rsp - 8⟩,
      b.inMethod_of_section s, ?_, .none ?_,
        .inl (.entered 1 (Nat.le_refl 1) (by omega) place ?_ ?_)⟩
    · have := h.stack
      dsimp only
      omega
    · have top : c.machine.rsp - 8 + 8 = c.machine.rsp := by omega
      rw [top]
      exact h.caller
    · dsimp only
      omega
    · intro w head
      cases head
  · exact absurd (name.symm.trans isMain) (leaveLabel_ne_ident _ _)
  · exact absurd (name.symm.trans isMain) (labelText_ne_ident _ _)

/-- In every state of a run from `main` some activation is active, until `main` has returned. -/
theorem Compiled.Starts.reaches {start c : Config} (h : b.Starts start)
    (obeys : ext.Obeys) {n : Nat}
    (ran : run (asmStep b.lines ext) n start = some c) :
    (∃ a callers, Active b a callers c) ∨ b.lines.length ≤ c.pc := by
  let P (c : Config) : Prop := (∃ a callers, Active b a callers c) ∨ b.lines.length ≤ c.pc
  have keep : ∀ c c', P c → asmStep b.lines ext c = some c' → P c' := by
    rintro c c' (⟨a, callers, active⟩ | outside) step
    · cases active.step h.fits obeys step with
      | stays active => exact .inl ⟨a, callers, active⟩
      | calls w a' caller rbp rsp line active => exact .inl ⟨a', _, active⟩
      | returns w rest called rsp active => exact .inl ⟨_, rest, active⟩
      | ends outermost rsp outside => exact .inr outside
    · rw [asmStep, List.getElem?_eq_none outside] at step
      cases step
  obtain ⟨a, active⟩ := h.active
  have first : P start := .inl ⟨a, [], active⟩
  exact Reaches.invariant keep first ⟨n, ran⟩

/-- An activation on the stack: it runs, or it is in a call, made where `P` holds. -/
inductive OnStack (b : Compiled env) (a : Activation) (callers : List Waiting) (P : Nat → Prop)
    (c : Config) : Prop
  | runs (active : Active b a callers c) (running : Running b a callers c)
  | calling (a' : Activation) (inner : List Waiting) (site : Nat)
    (active : Active b a' (inner ++ ⟨a, site⟩ :: callers) c) (made : P site)

theorem Callers.lower {mem : Int → Word} {base : Int} {inner rest : List Waiting} {w : Waiting}
    (h : Callers b mem base (inner ++ w :: rest)) : base + 16 ≤ w.top b w.call := by
  induction inner generalizing base with
  | nil =>
    cases h with
    | cons method nonneg limit gt lt site top => exact Int.le_of_eq top
  | cons v inner ih =>
    cases h with
    | cons method nonneg limit gt lt site top address saved others =>
      have outer := ih others
      have := v.toActivation.top_le (b := b) v.call
      omega

section OnStack

variable {a : Activation} {callers : List Waiting} {P : Nat → Prop} {address : Int} {c c' : Config}

theorem OnStack.step (fits : b.lines.length ≤ 2 ^ 64) (h : OnStack b a callers P c)
    (obeys : ext.Obeys) (next : asmStep b.lines ext c = some c')
    (lasts : c'.machine.rsp ≤ a.base)
    (made : ∀ site, c.machine.rbp = a.base → c.machine.rsp = a.top b site →
      (∃ g, b.lines[c.pc]? = some (.call g)) → P site) : OnStack b a callers P c' := by
  cases h with
  | runs active running =>
    cases active.step fits obeys next with
    | stays active' running' => exact .runs active' (running' running)
    | calls w a' caller rbp rsp line active' =>
      obtain ⟨caller', site⟩ := w
      obtain rfl : caller' = a := caller
      exact .calling a' [] site active' (made site rbp rsp line)
    | returns w rest called rsp => omega
    | ends outermost rsp => omega
  | calling a' inner site active made' =>
    cases active.step fits obeys next with
    | stays active' => exact .calling a' inner site active' made'
    | calls w a'' caller rbp rsp line active' => exact .calling a'' (w :: inner) site active' made'
    | returns w rest called rsp active' running =>
      cases inner with
      | nil =>
        obtain ⟨rfl, rfl⟩ := List.cons.inj called
        exact .runs active' running
      | cons v inner =>
        obtain ⟨rfl, rfl⟩ := List.cons.inj called
        exact .calling v.toActivation inner site active' made'
    | ends outermost => simp at outermost

theorem OnStack.mem (h : OnStack b a callers P c) (obeys : ext.Obeys)
    (next : asmStep b.lines ext c = some c') (above : ∀ site, P site → a.top b site ≤ address)
    (covered : c.machine.rbp = a.base → ∀ line, b.lines[c.pc]? = some line →
      line.pushes = true → c.machine.rsp ≤ address)
    (apart : Running b a callers c → c.machine.rbp = a.base → ∀ line offset,
      b.lines[c.pc]? = some line → line.writes = some offset → address ≠ a.base + offset) :
    c'.machine.mem address = c.machine.mem address := by
  cases h with
  | runs active running =>
    refine asmStep_mem obeys next (fun line here pushes => ?_) fun line offset here writes => ?_
    · rcases running.place here with ⟨-, -, -, -, -, -, rbp⟩ | ⟨none, -⟩
      · exact covered rbp line here pushes
      · rw [none] at pushes
        cases pushes
    · rcases running.place here with ⟨-, -, -, -, -, -, rbp⟩ | ⟨-, none, -⟩
      · rw [rbp]
        exact apart running rbp line offset here writes
      · rw [none] at writes
        cases writes
  | calling a' inner site active made =>
    have lower := active.stack.lower
    have low := active.rsp_le
    have := above site made
    dsimp only at lower
    exact active.mem obeys next (by omega) (by omega)

variable {start : Config} {k n : Nat}

theorem OnStack.lasts (fits : b.lines.length ≤ 2 ^ 64) (obeys : ext.Obeys)
    (h : OnStack b a callers P c) (ran : run (asmStep b.lines ext) k start = some c)
    (le : k ≤ n) (ran' : run (asmStep b.lines ext) n start = some c')
    (lasts : ∀ m d, k < m → m ≤ n → run (asmStep b.lines ext) m start = some d →
      d.machine.rsp ≤ a.base)
    (made : ∀ m d site, k ≤ m → m < n → run (asmStep b.lines ext) m start = some d →
      d.machine.rbp = a.base → d.machine.rsp = a.top b site →
      (∃ g, b.lines[d.pc]? = some (.call g)) → P site) : OnStack b a callers P c' := by
  induction n, le using Nat.le_induction generalizing c' with
  | base =>
    obtain rfl := Option.some.inj (ran.symm.trans ran')
    exact h
  | succ n le ih =>
    obtain ⟨d, before⟩ := run_before ran'
    have stack := ih before (fun m d lt le => lasts m d lt (Nat.le_succ_of_le le))
      fun m d site le lt => made m d site le (Nat.lt_succ_of_lt lt)
    exact stack.step fits obeys (run_step before ran')
      (lasts _ _ (Nat.lt_succ_of_le le) (Nat.le_refl _) ran')
      fun site => made n d site le (Nat.lt_succ_self n) before

theorem OnStack.keeps (fits : b.lines.length ≤ 2 ^ 64) (obeys : ext.Obeys)
    (h : OnStack b a callers (a.top b · ≤ address) c)
    (ran : run (asmStep b.lines ext) k start = some c) (le : k ≤ n)
    (ran' : run (asmStep b.lines ext) n start = some c')
    (lasts : ∀ m d, k < m → m ≤ n → run (asmStep b.lines ext) m start = some d →
      d.machine.rsp ≤ a.base)
    (covered : ∀ m d line, k ≤ m → m < n → run (asmStep b.lines ext) m start = some d →
      d.machine.rbp = a.base → b.lines[d.pc]? = some line → line.pushes = true →
      d.machine.rsp ≤ address)
    (apart : ∀ m d line offset, k ≤ m → m < n →
      run (asmStep b.lines ext) m start = some d → Running b a callers d →
      d.machine.rbp = a.base → b.lines[d.pc]? = some line → line.writes = some offset →
      address ≠ a.base + offset) :
    c'.machine.mem address = c.machine.mem address := by
  induction n, le using Nat.le_induction generalizing c' with
  | base =>
    obtain rfl := Option.some.inj (ran.symm.trans ran')
    rfl
  | succ n le ih =>
    obtain ⟨d, before⟩ := run_before ran'
    have same := ih before (fun m d lt le => lasts m d lt (Nat.le_succ_of_le le))
      (fun m d line le lt => covered m d line le (Nat.lt_succ_of_lt lt))
      fun m d line offset le lt => apart m d line offset le (Nat.lt_succ_of_lt lt)
    have stack := h.lasts fits obeys ran le before
      (fun m d lt le => lasts m d lt (Nat.le_succ_of_le le))
      fun m d site le lt ran rbp rsp ⟨g, line⟩ =>
        rsp ▸ covered m d (.call g) le (Nat.lt_succ_of_lt lt) ran rbp line rfl
    rw [stack.mem obeys (run_step before ran') (fun site made => made)
      (fun rbp line => covered n d line le (Nat.lt_succ_self n) before rbp)
      fun running rbp line offset =>
        apart n d line offset le (Nat.lt_succ_self n) before running rbp, same]

end OnStack

end Runs

end Ctds
