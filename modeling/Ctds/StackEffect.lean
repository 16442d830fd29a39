import Ctds.CallingConvention

/-! What the lines of the object code do to the stack: the two stack pointers, the word a
line writes, the words it pushes. And what the lines of a method's body can be: most leave
the pointers alone, the others push an argument, call, or drop the arguments again. -/

namespace Ctds

open Decimal FirstSeen Transition

def Operand.offset? : Operand → Option Int
  | slot offset => some offset
  | _ => none

/-- The offset from `%rbp` a line writes to. -/
def AsmLine.writes : AsmLine → Option Int
  | movqFromReg _ dst | movqImm _ dst => dst.offset?
  | _ => none

/-- The lines that put a word on the stack. -/
def AsmLine.pushes : AsmLine → Bool
  | pushqRbp | pushq _ | call _ => true
  | _ => false

/-- The lines that leave both stack pointers where they are. -/
def AsmLine.isLevel : AsmLine → Bool
  | pushqRbp | movqRspRbp | subqRsp _ | movqRbpRsp | popqRbp | pushq _ | addqRsp _ | call _ | ret =>
    false
  | _ => true

/-- What a line leaves of the stack: the two pointers, if it is level, and every word but
the one it writes and, if it pushes, the one below the stack pointer. -/
structure Leaves (line : AsmLine) (m m' : Machine) : Prop where
  level : line.isLevel = true → m'.rsp = m.rsp ∧ m'.rbp = m.rbp
  mem : ∀ address, (line.pushes = true → m.rsp ≤ address) →
    (∀ offset, line.writes = some offset → address ≠ m.rbp + offset) →
    m'.mem address = m.mem address

theorem leaves_self (line : AsmLine) (m : Machine) : Leaves line m m :=
  ⟨fun _ => ⟨rfl, rfl⟩, fun _ _ _ => rfl⟩

theorem leaves_write {line : AsmLine} {m m' : Machine} {v : Word} {dst : Operand}
    (wrote : m.write v dst = some m')
    (writes : ∀ offset, dst = .slot offset → line.writes = some offset) : Leaves line m m' := by
  cases dst with
  | slot offset =>
    obtain rfl := Option.some.inj wrote
    exact ⟨fun _ => ⟨rfl, rfl⟩, fun address _ apart =>
      Function.update_of_ne (apart offset (writes offset rfl)) _ _⟩
  | _ => cases wrote

theorem leaves_push {line : AsmLine} {m m' : Machine} {v : Word} (pushed : m.push v = some m')
    (pushes : line.pushes = true) (notLevel : line.isLevel = false) : Leaves line m m' :=
  ⟨fun level => absurd level (by simp [notLevel]),
    fun address above _ => (push_stack pushed).2.2 address (above pushes)⟩

theorem leaves_jump {line : AsmLine} {m m' : Machine} {control : Control} {op : Operand}
    (jump : jumpTo m op = some (m', control)) : Leaves line m m' := by
  cases op with
  | label name =>
    obtain ⟨rfl, -⟩ := Prod.mk.inj (Option.some.inj jump)
    exact leaves_self line m
  | _ => cases jump

theorem execLine_leaves {line : AsmLine} {m m' : Machine} {control : Control}
    (exec : execLine line m = some (m', control)) : Leaves line m m' := by
  cases line with
  | pushqRbp =>
    obtain ⟨m₁, pushed, eq⟩ := Option.map_eq_some_iff.mp exec
    obtain ⟨rfl, -⟩ := Prod.mk.inj eq
    exact leaves_push pushed rfl rfl
  | pushq src =>
    obtain ⟨m₁, result, eq⟩ := Option.map_eq_some_iff.mp exec
    obtain ⟨v, -, pushed⟩ := Option.bind_eq_some_iff.mp result
    obtain ⟨rfl, -⟩ := Prod.mk.inj eq
    exact leaves_push pushed rfl rfl
  | movqFromReg src dst =>
    obtain ⟨m₁, wrote, eq⟩ := Option.map_eq_some_iff.mp exec
    obtain ⟨rfl, -⟩ := Prod.mk.inj eq
    exact leaves_write wrote fun offset eq => by rw [eq]; rfl
  | movqImm src dst =>
    obtain ⟨m₁, result, eq⟩ := Option.map_eq_some_iff.mp exec
    obtain ⟨v, -, wrote⟩ := Option.bind_eq_some_iff.mp result
    obtain ⟨rfl, -⟩ := Prod.mk.inj eq
    exact leaves_write wrote fun offset eq => by rw [eq]; rfl
  | subqRsp size =>
    rw [execLine] at exec
    split at exec
    · cases exec
    · obtain ⟨rfl, -⟩ := Prod.mk.inj (Option.some.inj exec)
      exact ⟨fun level => (by cases level), fun _ _ _ => rfl⟩
  | movqToReg src dst | arith op src | sar src | cmpq src =>
    obtain ⟨m₁, result, eq⟩ := Option.map_eq_some_iff.mp exec
    obtain ⟨v, -, rfl⟩ := Option.map_eq_some_iff.mp result
    obtain ⟨rfl, -⟩ := Prod.mk.inj eq
    exact ⟨fun _ => ⟨rfl, rfl⟩, fun _ _ _ => rfl⟩
  | idivq src =>
    obtain ⟨m₁, result, eq⟩ := Option.map_eq_some_iff.mp exec
    obtain ⟨v, -, result⟩ := Option.bind_eq_some_iff.mp result
    obtain ⟨q, -, rfl⟩ := Option.map_eq_some_iff.mp result
    obtain ⟨rfl, -⟩ := Prod.mk.inj eq
    exact ⟨fun _ => ⟨rfl, rfl⟩, fun _ _ _ => rfl⟩
  | jmp target => exact leaves_jump exec
  | jz target =>
    rw [execLine] at exec
    split at exec
    · exact leaves_jump exec
    · obtain ⟨rfl, -⟩ := Prod.mk.inj (Option.some.inj exec)
      exact leaves_self _ _
  | movqRspRbp | movqRbpRsp | popqRbp | addqRsp size =>
    obtain ⟨rfl, -⟩ := Prod.mk.inj (Option.some.inj exec)
    exact ⟨fun level => (by cases level), fun _ _ _ => rfl⟩
  | _ =>
    obtain ⟨rfl, -⟩ := Prod.mk.inj (Option.some.inj exec)
    exact ⟨fun _ => ⟨rfl, rfl⟩, fun _ _ _ => rfl⟩

theorem execLine_call {line : AsmLine} {m m' : Machine} {name : List Char}
    (exec : execLine line m = some (m', .call name)) : line = .call name ∧ m' = m := by
  by_cases straight : line.isStraight = true
  · cases execLine_straight straight exec
  · cases line with
    | call g =>
      obtain ⟨rfl, control⟩ := Prod.mk.inj (Option.some.inj exec)
      obtain rfl := Control.call.inj control
      exact ⟨rfl, rfl⟩
    | jmp target => cases target <;> simp [execLine, jumpTo] at exec
    | jz target =>
      rw [execLine] at exec
      cases target <;> split at exec <;> simp [jumpTo] at exec
    | ret => simp [execLine] at exec
    | _ => exact absurd rfl straight

/-- The same for a step, with the words an external function may change. -/
theorem asmStep_mem {lines : List AsmLine} {ext : Extern} (obeys : ext.Obeys) {c c' : Config}
    (step : asmStep lines ext c = some c') {address : Int}
    (above : ∀ line, lines[c.pc]? = some line → line.pushes = true → c.machine.rsp ≤ address)
    (apart : ∀ line offset, lines[c.pc]? = some line → line.writes = some offset →
      address ≠ c.machine.rbp + offset) :
    c'.machine.mem address = c.machine.mem address := by
  unfold asmStep at step
  split at step
  · cases step
  · next line here =>
    split at step
    · cases step
    · next m exec =>
      obtain rfl := Option.some.inj step
      exact (execLine_leaves exec).mem address (above line here) fun offset =>
        apart line offset here
    · next m label exec =>
      obtain ⟨pc, -, rfl⟩ := Option.map_eq_some_iff.mp step
      exact (execLine_leaves exec).mem address (above line here) fun offset =>
        apart line offset here
    · next m name exec =>
      have call := execLine_call exec
      obtain ⟨rfl, rfl⟩ := call
      split at step
      · obtain ⟨m', pushed, rfl⟩ := Option.map_eq_some_iff.mp step
        exact (push_stack pushed).2.2 address (above _ here rfl)
      · obtain ⟨m', ran, rfl⟩ := Option.map_eq_some_iff.mp step
        exact (obeys _ _ _ ran).2.2 address (above _ here rfl)
    · next m exec =>
      obtain rfl := Option.some.inj step
      exact (execLine_leaves exec).mem address (above line here) fun offset =>
        apart line offset here

/-- How many words of arguments lie on the stack in front of instruction `j`. -/
def argWords (code : List (Instr CString)) (j : Nat) : Nat := argsBefore code j - 6

theorem argWords_succ {code : List (Instr CString)} {j : Nat} {instr : Instr CString}
    (here : code[j]? = some instr) (notParam : instr.instruct ≠ .param) :
    argWords code (j + 1) = 0 := by
  obtain ⟨t, var1, var2, reg⟩ := instr
  rw [argWords, argsBefore, here]
  cases t with
  | param => exact absurd rfl notParam
  | _ => rfl

section Body

variable {env : Env} (b : Compiled env)

/-- What line `d` of instruction `j` of a body can be, and what it means for the words of
arguments on the stack. -/
inductive BodyLine (e l j d : Nat) : AsmLine → Prop
  | level {line : AsmLine} (level : line.isLevel = true) (straight : line.isStraight = true)
    (last : (objectLines b.tab b.headAst b.code j).length = d + 1 →
      argWords b.code (j + 1) = argWords b.code j) : BodyLine e l j d line
  | push (src : Operand) (last : (objectLines b.tab b.headAst b.code j).length = d + 1)
    (more : argWords b.code (j + 1) = argWords b.code j + 1) : BodyLine e l j d (.pushq src)
  | call (g : Ident) (first : d = 0) (site : 1 < (objectLines b.tab b.headAst b.code j).length) :
    BodyLine e l j d (.call g.text)
  | clean (last : (objectLines b.tab b.headAst b.code j).length = d + 1)
    (none : argWords b.code (j + 1) = 0) : BodyLine e l j d (.addqRsp (argWords b.code j * 8))
  | jump {line : AsmLine} (n k : Nat) (gt : e < k) (lt : k < l)
    (label : b.instrs[k]? = some (.label n)) (none : argWords b.code j = 0)
    (last : (objectLines b.tab b.headAst b.code j).length = d + 1)
    (none' : argWords b.code (j + 1) = 0)
    (jumps : line = .jmp (.label (labelText n)) ∨ line = .jz (.label (labelText n))) :
    BodyLine e l j d line
  | ret (name : CString) : BodyLine e l j d (.jmp (.label (leaveLabel name)))

variable {b}

theorem getElem?_singleton {α : Type*} {a a' : α} {d : Nat} (h : [a][d]? = some a') :
    d = 0 ∧ a = a' := by
  cases d with
  | zero => exact ⟨rfl, Option.some.inj h⟩
  | succ d => cases h

theorem BodyLine.of_level {e l j d : Nat} {line : AsmLine} {lines : List AsmLine}
    (eq : objectLines b.tab b.headAst b.code j = lines)
    (here : (objectLines b.tab b.headAst b.code j)[d]? = some line)
    (quiet : ∀ line ∈ lines, line.isLevel = true ∧ line.isStraight = true)
    (same : argWords b.code (j + 1) = argWords b.code j) : BodyLine b e l j d line := by
  have := quiet line (List.mem_of_getElem? (eq ▸ here))
  exact .level this.1 this.2 fun _ => same

theorem objectLines_call {e l j : Nat} {f : CString} (method : InMethod b.code e l f) (gt : e < j)
    (lt : j < l) {g : Ident} {dest : Nat} (here : b.instrs[j]? = some (.call g dest)) :
    objectLines b.tab b.headAst b.code j = .call g.text :: .movqFromReg .rax
      (operandFor (methodNames b.tab b.headAst b.code e f l) (tempText (b.rename dest))) ::
      (if 0 < argWords b.code j then [.addqRsp (argWords b.code j * 8)] else []) := by
  have at' := b.code_of_instrs here
  have inside := (List.getElem?_eq_some_iff.mp at').1
  obtain ⟨p, s, state, lines⟩ := objectLines_inside b.tab b.headAst method gt lt at'
  obtain ⟨-, words⟩ := b.objectState_counts (Nat.le_of_lt inside)
  rw [state] at words
  obtain rfl : s = argWords b.code j := words
  exact lines

theorem bodyLine {e l j d : Nat} {f : CString} (method : InMethod b.code e l f) (gt : e < j)
    (lt : j < l) {line : AsmLine}
    (here : (objectLines b.tab b.headAst b.code j)[d]? = some line) : BodyLine b e l j d line := by
  have inside : j < b.code.length := by have := method.length; omega
  obtain ⟨ir, atIr, named⟩ := b.code_getElem? (List.getElem?_eq_getElem inside)
  have at' := b.code_of_instrs atIr
  have inner := b.inner_inside method gt lt atIr
  obtain ⟨p, s, state, lines⟩ := objectLines_inside b.tab b.headAst method gt lt at'
  obtain ⟨count, words⟩ := b.objectState_counts (Nat.le_of_lt inside)
  rw [state] at count words
  obtain rfl : p = argsBefore b.code j := count
  obtain rfl : s = argWords b.code j := words
  have quiet : (ir.named b.rename).instruct ≠ .param → (ir.named b.rename).instruct ≠ .call →
      argWords b.code j = 0 := fun notParam notCall => by
    rw [argWords, b.argsBefore_eq_zero at' notParam notCall]
  have after := argWords_succ at'
  cases ir with
  | load x =>
    rw [lines] at here
    cases here
  | loadval v dest | label n | storeVal v dest =>
    refine .of_level lines here ?_
      ((after (by simp [IrInstr.named, IrInstr.instr, Instr.map])).trans
      (quiet (by simp [IrInstr.named, IrInstr.instr, Instr.map])
        (by simp [IrInstr.named, IrInstr.instr, Instr.map])).symm)
    simp [instrLines, IrInstr.named, IrInstr.instr, Instr.map, AsmLine.isLevel, AsmLine.isStraight]
  | store source dest =>
    rw [named_store] at *
    refine .of_level lines here ?_ ((after (by simp)).trans (quiet (by simp) (by simp)).symm)
    simp [instrLines, AsmLine.isLevel, AsmLine.isStraight]
  | binary t left right dest =>
    rw [named_binary] at *
    refine .of_level lines here ?_ ((after ?_).trans (quiet ?_ ?_).symm) <;>
      cases t <;> simp [instrLines, binaryLines, BinaryInstr.type, AsmLine.isLevel,
        AsmLine.isStraight]
  | unary t left dest =>
    rw [named_unary] at *
    refine .of_level lines here ?_ ((after ?_).trans (quiet ?_ ?_).symm) <;>
      cases t <;> simp [instrLines, UnaryInstr.type, AsmLine.isLevel, AsmLine.isStraight]
  | shiftRight left count dest =>
    rw [named_shiftRight] at *
    refine .of_level lines here ?_ ((after (by simp)).trans (quiet (by simp) (by simp)).symm)
    simp [instrLines, binaryLines, AsmLine.isLevel, AsmLine.isStraight]
  | jmp n =>
    obtain ⟨k, above, below, label⟩ := b.target_inside method gt lt atIr rfl
    have none := quiet (by simp [IrInstr.named, IrInstr.instr, Instr.map])
      (by simp [IrInstr.named, IrInstr.instr, Instr.map])
    have none' := after (by simp [IrInstr.named, IrInstr.instr, Instr.map])
    have only : objectLines b.tab b.headAst b.code j = [.jmp (.label (labelText n))] := lines
    rw [only] at here
    obtain ⟨rfl, rfl⟩ := getElem?_singleton here
    exact .jump n k above below label none (by rw [only]; rfl) none' (.inl rfl)
  | jmpf condition n =>
    obtain ⟨k, above, below, label⟩ := b.target_inside method gt lt atIr rfl
    rw [named_jmpf] at *
    have none := quiet (by simp) (by simp)
    have none' := after (by simp)
    have three : objectLines b.tab b.headAst b.code j =
        [.movqToReg (operandFor (methodNames b.tab b.headAst b.code e f l)
          (condition.name b.rename))
          .rax, .testq, .jz (.label (labelText n))] := lines
    rw [three] at here
    cases d with
    | zero =>
      obtain rfl := Option.some.inj here
      exact .level rfl rfl fun _ => none'.trans none.symm
    | succ d =>
      cases d with
      | zero =>
        obtain rfl := Option.some.inj here
        exact .level rfl rfl fun _ => none'.trans none.symm
      | succ d =>
        obtain ⟨rfl, rfl⟩ := getElem?_singleton here
        exact .jump n k above below label none (by rw [three]; rfl) none' (.inr rfl)
  | param arg =>
    rw [named_param] at *
    have count : argsBefore b.code (j + 1) = argsBefore b.code j + 1 := by
      rw [argsBefore, at']
    rcases Nat.lt_or_ge (argsBefore b.code j) 6 with few | many
    · obtain ⟨r, reg⟩ := argRegs_getElem? few
      refine .of_level lines here ?_ (by rw [argWords, argWords, count]; omega)
      simp [instrLines, reg, AsmLine.isLevel, AsmLine.isStraight]
    · have none : argRegs[argsBefore b.code j]? = none := List.getElem?_eq_none many
      simp only [instrLines, none] at lines
      rw [lines] at here
      obtain ⟨rfl, rfl⟩ := getElem?_singleton here
      exact .push _ (by rw [lines]; rfl) (by rw [argWords, argWords, count]; omega)
  | call g dest =>
    have three := objectLines_call method gt lt atIr
    have none' := after (by simp [IrInstr.named, IrInstr.instr, Instr.map])
    rw [three] at here
    cases d with
    | zero =>
      obtain rfl := Option.some.inj here
      exact .call g rfl (by rw [three]; simp)
    | succ d =>
      cases d with
      | zero =>
        obtain rfl := Option.some.inj here
        refine .level rfl rfl fun last => ?_
        rw [three] at last
        split at last
        · cases last
        · omega
      | succ d =>
        rw [List.getElem?_cons_succ, List.getElem?_cons_succ] at here
        split at here
        · next pushed =>
          obtain ⟨rfl, rfl⟩ := getElem?_singleton here
          exact .clean (by rw [three, if_pos pushed]; rfl) none'
        · cases here
  | ret value =>
    rw [named_ret] at *
    have none := quiet (by simp) (by simp)
    have none' := after (by simp)
    have mem := List.mem_of_getElem? here
    rw [lines] at mem
    simp only [instrLines, List.mem_append, List.mem_singleton] at mem
    rcases mem with mem | rfl
    · split at mem
      · obtain rfl := List.mem_singleton.mp mem
        exact .level rfl rfl fun _ => none'.trans none.symm
      · cases mem
    · exact .ret _
  | enter _ | leave _ | externDecl _ => cases inner

theorem offset_operandFor {names : List CString} {var : Option CString} {offset : Int}
    (slot : (operandFor names var).offset? = some offset) :
    ∃ name, var = some name ∧ offset = slotOffset names name := by
  unfold operandFor at slot
  split at slot
  · cases slot
  · next name =>
    split at slot
    · cases slot
    · split at slot
      · cases slot
      · exact ⟨name, rfl, (Option.some.inj slot).symm⟩

theorem writes_instrLines (all : List CString) (code : List (Instr CString)) (i : Nat)
    (instr : Instr CString) (p s : Nat) : ∀ line ∈ instrLines all code i instr p s,
      line.writes = none ∨ line.writes = (operandFor all instr.reg).offset? := by
  obtain ⟨t, var1, var2, reg⟩ := instr
  intro line mem
  cases t with
  | param =>
    simp only [instrLines] at mem
    split at mem <;> obtain rfl := List.mem_singleton.mp mem <;> exact .inl rfl
  | ret =>
    simp only [instrLines, List.mem_append, List.mem_singleton] at mem
    rcases mem with mem | rfl
    · split at mem
      · obtain rfl := List.mem_singleton.mp mem
        exact .inl rfl
      · cases mem
    · exact .inl rfl
  | call =>
    simp only [instrLines, List.mem_append, List.mem_singleton] at mem
    rcases mem with (rfl | mem) | mem
    · exact .inl rfl
    · split at mem
      · obtain rfl := List.mem_singleton.mp mem
        exact .inr rfl
      · cases mem
    · split at mem
      · obtain rfl := List.mem_singleton.mp mem
        exact .inl rfl
      · cases mem
  | _ =>
    revert line
    simp [instrLines, binaryLines, AsmLine.writes]

theorem writes_inside {e l j d : Nat} {f : CString} (method : InMethod b.code e l f) (gt : e < j)
    (lt : j < l) {line : AsmLine} {offset : Int}
    (here : (objectLines b.tab b.headAst b.code j)[d]? = some line)
    (writes : line.writes = some offset) :
    ∃ instr dest, b.code[j]? = some instr ∧ instr.reg = some dest ∧
      offset = slotOffset (methodNames b.tab b.headAst b.code e f l) dest := by
  have inside : j < b.code.length := by have := method.length; omega
  have at' := List.getElem?_eq_getElem inside
  obtain ⟨p, s, -, lines⟩ := objectLines_inside b.tab b.headAst method gt lt at'
  have mem := List.mem_of_getElem? here
  rw [lines] at mem
  rcases writes_instrLines _ _ _ _ _ _ line mem with none | slot
  · rw [none] at writes
    cases writes
  · obtain ⟨dest, reg, eq⟩ := offset_operandFor (slot.symm.trans writes)
    exact ⟨_, dest, at', reg, eq⟩

theorem frameSize_nonneg (code : List (Instr CString)) (e : Nat) (f : CString) :
    0 ≤ frameSize code e f := by
  unfold frameSize alignStack
  split <;> omega

theorem enter_line {e l d : Nat} {f : CString} (method : InMethod b.code e l f) (low : 4 ≤ d)
    {line : AsmLine} (here : (objectLines b.tab b.headAst b.code e)[d]? = some line) :
    (d = 4 ∧ 0 < frameSize b.code e f ∧ line = .subqRsp (frameSize b.code e f)) ∨
      (d = 4 → frameSize b.code e f = 0) ∧ line.isLevel = true ∧ line.isStraight = true ∧
        ∀ offset, line.writes = some offset → offset < 0 := by
  have moves : ∀ (all : List CString) (params : List Args) (k : Nat),
      ∀ line ∈ moveLines all params k, line.isLevel = true ∧ line.isStraight = true ∧
        ∀ offset, line.writes = some offset → offset < 0 := by
    intro all params k line mem
    rcases mem_moveLines mem with ⟨r, name, rfl⟩ | ⟨offset, rfl⟩
    · refine ⟨rfl, rfl, fun offset writes => ?_⟩
      obtain rfl := Option.some.inj writes
      exact slotOffset_neg all name
    · exact ⟨rfl, rfl, fun offset writes => (by cases writes)⟩
  obtain ⟨d, rfl⟩ := Nat.exists_eq_add_of_le' low
  rw [objectLines_enter method, prologueLines, List.append_assoc] at here
  simp only [List.cons_append, List.nil_append, List.getElem?_cons_succ] at here
  by_cases room : 0 < frameSize b.code e f
  · rw [if_pos room] at here
    cases d with
    | zero => exact .inl ⟨rfl, room, (Option.some.inj here).symm⟩
    | succ d =>
      rw [List.cons_append, List.getElem?_cons_succ, List.nil_append] at here
      exact .inr ⟨fun four => absurd four (by omega), moves _ _ _ line (List.mem_of_getElem? here)⟩
  · rw [if_neg room, List.nil_append] at here
    have := frameSize_nonneg b.code e f
    exact .inr ⟨fun _ => by omega, moves _ _ _ line (List.mem_of_getElem? here)⟩

theorem leave_lines {l : Nat} {f : Ident} (here : b.instrs[l]? = some (.leave f)) :
    objectLines b.tab b.headAst b.code l =
      [.label (leaveLabel f.text), .movqRbpRsp, .popqRbp, .ret] := by
  rw [objectLines_eq (b.code_of_instrs here)]
  rfl

theorem leave_length {l : Nat} {f : Ident} (here : b.instrs[l]? = some (.leave f)) :
    (objectLines b.tab b.headAst b.code l).length = 4 := by
  rw [leave_lines here]
  rfl

end Body

end Ctds
