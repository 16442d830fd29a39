import Ctds.Meaning
import Ctds.StackEffect

/-! The object code together with the functions of other object files, which act on a world:
input, output, files. A call of a name that no line defines runs such a function, every
other step is a step of the machine. Lines are then run as far as they pass control. -/

namespace Ctds

open Transition

section Io

variable {W : Type}

/-- What a function of another object file does to the machine and to the world. -/
abbrev ExternIo (W : Type) := List Char → Machine → W → Option (Machine × W)

/-- The name that the line at `pc` calls, if it is not a label of the object code. -/
def externName (lines : List AsmLine) (pc : Nat) : Option (List Char) :=
  match lines[pc]? with
  | some (.call name) => if (findLabel lines name).isNone then some name else none
  | _ => none

def ioStep (lines : List AsmLine) (ext : ExternIo W) (s : Config × W) : Option (Config × W) :=
  match externName lines s.1.pc with
  | some name => (ext name s.1.machine s.2).map fun (m, w) => (⟨s.1.pc + 1, m⟩, w)
  | none => (asmStep lines noExtern s.1).map fun c => (c, s.2)

/-- The first six arguments of a call are in their registers. -/
def Passed (args : List Value) (m : Machine) : Prop :=
  ∀ (i : Nat) v r, args[i]? = some v → argRegs[i]? = some r → m.reg r = v.word

/-- What a call leaves when it is over: the stack as it was, and the answer in `%rax`. -/
structure Returned (answer : Option Value) (m m' : Machine) : Prop where
  rsp : m'.rsp = m.rsp
  rbp : m'.rbp = m.rbp
  mem : ∀ address, m.rsp ≤ address → m'.mem address = m.mem address
  value : ∀ v, answer = some v → m'.reg .rax = v.word

/-- The functions of the other object files follow the calling convention: called with an
aligned stack and at most six arguments, all in registers, they do what the library says. -/
def ExternIo.Provides (ext : ExternIo W) (library : Callee W) : Prop :=
  ∀ name args answer w w' m, library name args w = some (answer, w') → args.length ≤ 6 →
    Passed args m → m.rsp % 16 = 0 → ∃ m', ext name m w = some (m', w') ∧ Returned answer m m'

variable {lines : List AsmLine} {ext : ExternIo W} {w : W}

theorem ioStep_asm {c c' : Config} (inside : externName lines c.pc = none)
    (step : asmStep lines noExtern c = some c') : ioStep lines ext (c, w) = some (c', w) := by
  rw [ioStep, inside]
  dsimp only
  rw [step]
  rfl

theorem externName_line {pc : Nat} {line : AsmLine} (here : lines[pc]? = some line)
    (noCall : ∀ name, line ≠ .call name) : externName lines pc = none := by
  unfold externName
  rw [here]
  split
  · next name eq => exact absurd (Option.some.inj eq) (noCall name)
  · rfl

/-- Where control is behind lines that end at `stop`. -/
def landing (lines : List AsmLine) (stop : Nat) (m : Machine) : Control → Option Config
  | .next => some ⟨stop, m⟩
  | .jump label => (findLabel lines label).map fun pc => ⟨pc, m⟩
  | .ret => some ⟨(m.mem m.rsp).toNat, { m with rsp := m.rsp + 8 }⟩
  | .call _ => none

theorem execLine_noCall {line : AsmLine} {m m' : Machine} {control : Control}
    (exec : execLine line m = some (m', control)) (other : ∀ name, control ≠ .call name)
    (name : List Char) : line ≠ .call name := by
  rintro rfl
  obtain ⟨-, rfl⟩ := Prod.mk.inj (Option.some.inj exec)
  exact other name rfl

theorem line_step {pc : Nat} {line : AsmLine} {m m' : Machine} {control : Control} {c : Config}
    (here : lines[pc]? = some line) (exec : execLine line m = some (m', control))
    (lands : landing lines (pc + 1) m' control = some c) :
    ioStep lines ext (⟨pc, m⟩, w) = some (c, w) := by
  have noCall := execLine_noCall exec fun name eq => by subst eq; cases lands
  refine ioStep_asm (externName_line here noCall) ?_
  unfold asmStep
  dsimp only
  rw [here]
  dsimp only
  rw [exec]
  cases control with
  | call name => cases lands
  | _ => exact lands

/-- Lines are run up to the one that passes control elsewhere. -/
theorem execLines_reaches {seg : List AsmLine} {pc : Nat} {m m' : Machine} {control : Control}
    {c : Config} (here : ∀ i, i < seg.length → lines[pc + i]? = seg[i]?)
    (ran : execLines seg m = some (m', control))
    (lands : landing lines (pc + seg.length) m' control = some c) :
    Reaches (ioStep lines ext) (⟨pc, m⟩, w) (c, w) := by
  induction seg generalizing pc m with
  | nil =>
    obtain ⟨rfl, rfl⟩ := Prod.mk.inj (Option.some.inj ran)
    obtain rfl := Option.some.inj lands
    exact .refl _
  | cons line rest ih =>
    have first : lines[pc]? = some line := here 0 (Nat.zero_lt_succ _)
    have later : ∀ i, i < rest.length → lines[pc + 1 + i]? = rest[i]? := fun i lt => by
      rw [Nat.add_assoc, Nat.add_comm 1]
      exact here (i + 1) (Nat.succ_lt_succ lt)
    have length : pc + (line :: rest).length = pc + 1 + rest.length := by
      rw [List.length_cons]
      omega
    rw [length] at lands
    rw [execLines] at ran
    split at ran
    · cases ran
    · next m₁ exec => exact .head (line_step first exec rfl) (ih later ran lands)
    · next m₁ other notNext exec =>
      obtain ⟨rfl, rfl⟩ := Prod.mk.inj (Option.some.inj ran)
      refine .single (line_step first exec ?_)
      cases other with
      | next => exact absurd rfl notNext
      | _ => exact lands

theorem pushes_of_level {line : AsmLine} (level : line.isLevel = true) : line.pushes = false := by
  cases line <;> first
    | rfl
    | cases level

theorem execLines_level {seg : List AsmLine} {m m' : Machine} {control : Control}
    (ran : execLines seg m = some (m', control)) (level : ∀ line ∈ seg, line.isLevel = true)
    (low : ∀ line ∈ seg, ∀ offset, line.writes = some offset → offset < 0) :
    m'.rsp = m.rsp ∧ m'.rbp = m.rbp ∧ ∀ address, m.rbp ≤ address → m'.mem address =
      m.mem address := by
  induction seg generalizing m with
  | nil =>
    obtain ⟨rfl, -⟩ := Prod.mk.inj (Option.some.inj ran)
    exact ⟨rfl, rfl, fun _ _ => rfl⟩
  | cons line rest ih =>
    have one : ∀ m₁ control', execLine line m = some (m₁, control') →
        m₁.rsp = m.rsp ∧ m₁.rbp = m.rbp ∧
          ∀ address, m.rbp ≤ address → m₁.mem address = m.mem address := by
      intro m₁ control' exec
      have flat := level line List.mem_cons_self
      have leaves := execLine_leaves exec
      refine ⟨(leaves.level flat).1, (leaves.level flat).2, fun address le => ?_⟩
      refine leaves.mem address (fun pushes => ?_) fun offset writes => ?_
      · rw [pushes_of_level flat] at pushes
        cases pushes
      · have := low line List.mem_cons_self offset writes
        omega
    rw [execLines] at ran
    split at ran
    · cases ran
    · next m₁ exec =>
      obtain ⟨rsp, rbp, mem⟩ := one m₁ .next exec
      obtain ⟨rsp', rbp', mem'⟩ := ih ran (fun line h => level line (List.mem_cons_of_mem _ h))
        fun line h => low line (List.mem_cons_of_mem _ h)
      exact ⟨rsp'.trans rsp, rbp'.trans rbp, fun address le =>
        (mem' address (rbp ▸ le)).trans (mem address le)⟩
    · next m₁ other _ exec =>
      obtain ⟨rfl, -⟩ := Prod.mk.inj (Option.some.inj ran)
      exact one m₁ other exec

end Io

end Ctds
