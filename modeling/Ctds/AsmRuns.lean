import Ctds.Labels
import Ctds.Lowering

/-! Runs over the object code of a program: every line belongs to an instruction, every
label is defined once, so that a jump or a call goes to the lines of its target, and
lines that pass control to the next one are run one after the other. -/

namespace Ctds

open Decimal Transition

theorem label_not_mem_moveArguments (args : List Args) (argIdx : Nat) (os : ObjState)
    (name : CString) : .label name ∉ (moveArguments args argIdx os).2 := by
  induction args generalizing argIdx os with
  | nil => simp [moveArguments]
  | cons arg rest ih =>
    rw [moveArguments]
    dsimp only
    rw [List.mem_append, not_or]
    refine ⟨?_, ih _ _⟩
    cases argRegs[argIdx]? <;> simp

theorem label_generateEnter {tab : SymbolTable} {headAst : List AstNode}
    {code : List (Instr CString)} {k d : Nat} {f : CString} {os : ObjState} {name : CString}
    (here : (generateEnter tab headAst code k f os).2[d]? = some (.label name)) :
    d = 1 ∧ name = f := by
  unfold generateEnter at here
  dsimp only at here
  match d, here with
  | 0, here => cases here
  | 1, here =>
    obtain rfl := AsmLine.label.inj (Option.some.inj here)
    exact ⟨rfl, rfl⟩
  | d + 2, here =>
    have rest := List.mem_of_getElem? (l := AsmLine.pushqRbp :: .movqRspRbp :: (_ ++ _)) here
    simp only [List.mem_cons, List.mem_append, label_not_mem_moveArguments, or_false, false_or,
      reduceCtorEq] at rest
    split at rest <;> simp at rest

theorem label_not_mem_generateCall (instr : Instr CString) (os : ObjState) (name : CString) :
    .label name ∉ (generateCall instr os).2 := by
  unfold generateCall
  rw [List.mem_append, List.mem_append, not_or, not_or]
  refine ⟨⟨by simp, ?_⟩, ?_⟩
  · cases instr.reg <;> simp
  · split <;> simp

theorem label_generateInstr {tab : SymbolTable} {headAst : List AstNode}
    {code : List (Instr CString)} {k d : Nat} {ρ : Nat → Nat} {i : IrInstr} {os : ObjState}
    {name : CString}
    (here : (generateInstr tab headAst code k (i.named ρ) os).2[d]? = some (.label name)) :
    (∃ f, i = .enter f ∧ d = 1 ∧ name = f.text) ∨
      (∃ f, i = .leave f ∧ d = 0 ∧ name = leaveLabel f.text) ∨
      ∃ n, i = .label n ∧ d = 0 ∧ name = labelText n := by
  have mem := List.mem_of_getElem? here
  cases i with
  | enter f =>
    obtain ⟨rfl, rfl⟩ := label_generateEnter here
    exact .inl ⟨f, rfl, rfl, rfl⟩
  | leave f =>
    cases d with
    | zero => exact .inr (.inl ⟨f, rfl, rfl, (AsmLine.label.inj (Option.some.inj here)).symm⟩)
    | succ d =>
      have rest := List.mem_of_getElem? (l := [AsmLine.movqRbpRsp, .popqRbp, .ret]) here
      simp at rest
  | label n =>
    cases d with
    | zero => exact .inr (.inr ⟨n, rfl, rfl, (AsmLine.label.inj (Option.some.inj here)).symm⟩)
    | succ d => cases here
  | binary t left right dest =>
    rw [named_binary] at mem
    cases t <;> simp [generateInstr, BinaryInstr.type, generateArith, generateDivision,
      generateComparison] at mem
  | unary t left dest =>
    rw [named_unary] at mem
    cases t <;> simp [generateInstr, UnaryInstr.type, generateMin, generateNeg] at mem
  | ret value =>
    rw [named_ret] at mem
    cases value <;> simp [generateInstr, generateRet] at mem
  | param arg =>
    rw [named_param] at mem
    simp only [generateInstr, generateParam] at mem
    split at mem <;> simp at mem
  | call f dest =>
    exact absurd mem (label_not_mem_generateCall _ _ _)
  | _ =>
    simp [IrInstr.named, IrInstr.instr, Instr.map, generateInstr, generateLoadval, generateStore,
      generateShiftRight, generateJmp, generateJmpf] at mem

theorem labelText_ne_ident (n : Nat) (x : Ident) : labelText n ≠ x.text := by
  intro same
  have first := startsWith_ident (c := '_') (by decide) x
  rw [← same] at first
  cases first

theorem leaveLabel_ne_ident (f : CString) (x : Ident) : leaveLabel f ≠ x.text := by
  intro same
  have first := startsWith_ident (c := '.') (by decide) x
  rw [← same] at first
  cases first

theorem labelText_ne_leaveLabel (n : Nat) (f : CString) : labelText n ≠ leaveLabel f := by
  intro same
  have first : '_' = '.' := (List.cons.inj same).1
  revert first
  decide

theorem leaveLabel_inj {f g : CString} (same : leaveLabel f = leaveLabel g) : f = g :=
  List.append_cancel_left same

namespace Compiled

variable {env : Env} (b : Compiled env)

theorem enter_unique {i j : Nat} {f : Ident} (at' : b.instrs[i]? = some (.enter f))
    (other : b.instrs[j]? = some (.enter f)) : i = j := by
  obtain ⟨s, rfl, name⟩ := section_of_enter b.compilable.shape at'
  obtain ⟨s', rfl, name'⟩ := section_of_enter b.compilable.shape other
  exact (b.section_start (name.trans name'.symm) _).1

theorem leave_unique {i j : Nat} {f : Ident} (at' : b.instrs[i]? = some (.leave f))
    (other : b.instrs[j]? = some (.leave f)) : i = j := by
  obtain ⟨s, rfl, name⟩ := section_of_leave b.compilable.shape at'
  obtain ⟨s', rfl, name'⟩ := section_of_leave b.compilable.shape other
  exact (b.section_start (name.trans name'.symm) _).2

theorem instr_of_line {pc : Nat} {line : AsmLine} (here : b.lines[pc]? = some line) :
    (pc = 0 ∧ line = .text) ∨ ∃ i d, i < b.code.length ∧
      pc = lineStart b.tab b.headAst b.code i + d ∧
      (objectLines b.tab b.headAst b.code i)[d]? = some line := by
  rw [lines, generateObjectCode_eq] at here
  cases pc with
  | zero => exact .inl ⟨rfl, (Option.some.inj here).symm⟩
  | succ p =>
    obtain ⟨i, d, lt, place, at'⟩ := Placed.getElem?_flatMap_range here
    refine .inr ⟨i, d, lt, ?_, at'⟩
    rw [place, lineStart]
    omega

theorem line_of_instr {i d : Nat} {line : AsmLine}
    (here : (objectLines b.tab b.headAst b.code i)[d]? = some line) :
    b.lines[lineStart b.tab b.headAst b.code i + d]? = some line := by
  have inside : i < b.code.length := by
    by_contra out
    rw [objectLines, List.getElem?_eq_none (Nat.le_of_not_lt out)] at here
    cases here
  have placed := objectLines_placed b.tab b.headAst inside
  rw [← here]
  exact placed.getElem? (List.getElem?_eq_some_iff.mp here).1

theorem label_of_line {pc : Nat} {name : CString} (here : b.lines[pc]? = some (.label name)) :
    ∃ i d, pc = lineStart b.tab b.headAst b.code i + d ∧
      ((∃ f, b.instrs[i]? = some (.enter f) ∧ d = 1 ∧ name = f.text) ∨
        (∃ f, b.instrs[i]? = some (.leave f) ∧ d = 0 ∧ name = leaveLabel f.text) ∨
        ∃ n, b.instrs[i]? = some (.label n) ∧ d = 0 ∧ name = labelText n) := by
  rcases b.instr_of_line here with ⟨-, eq⟩ | ⟨i, d, lt, place, at'⟩
  · cases eq
  · obtain ⟨ir, atIr, eq⟩ := b.code_getElem? (List.getElem?_eq_getElem lt)
    rw [objectLines_eq (List.getElem?_eq_getElem lt), eq] at at'
    refine ⟨i, d, place, ?_⟩
    simp only [atIr, Option.some.injEq]
    exact label_generateInstr at'

theorem label_line_unique {p q : Nat} {name : CString} (here : b.lines[p]? = some (.label name))
    (other : b.lines[q]? = some (.label name)) : p = q := by
  obtain ⟨i, d, rfl, label⟩ := b.label_of_line here
  obtain ⟨j, d', rfl, label'⟩ := b.label_of_line other
  have same : i = j ∧ d = d' := by
    rcases label with ⟨f, at', rfl, rfl⟩ | ⟨f, at', rfl, rfl⟩ | ⟨n, at', rfl, rfl⟩ <;>
    rcases label' with ⟨g, other', rfl, eq⟩ | ⟨g, other', rfl, eq⟩ | ⟨k, other', rfl, eq⟩
    · obtain rfl := Ident.ext_text eq
      exact ⟨b.enter_unique at' other', rfl⟩
    · exact absurd eq.symm (leaveLabel_ne_ident _ _)
    · exact absurd eq.symm (labelText_ne_ident _ _)
    · exact absurd eq (leaveLabel_ne_ident _ _)
    · obtain rfl := Ident.ext_text (leaveLabel_inj eq)
      exact ⟨b.leave_unique at' other', rfl⟩
    · exact absurd eq.symm (labelText_ne_leaveLabel _ _)
    · exact absurd eq (labelText_ne_ident _ _)
    · exact absurd eq (labelText_ne_leaveLabel _ _)
    · obtain rfl := labelText_inj eq
      exact ⟨(programCode_labels b.compilable.shape ⟨0, 0⟩).unique at' other', rfl⟩
  rw [same.1, same.2]

/-- A jump or a call goes to the one line that defines its label. -/
theorem findLabel_eq {pc : Nat} {name : CString} (here : b.lines[pc]? = some (.label name)) :
    findLabel b.lines name = some pc := by
  obtain ⟨lt, eq⟩ := List.getElem?_eq_some_iff.mp here
  rw [findLabel, List.findIdx?_eq_some_iff_getElem]
  refine ⟨lt, by simpa using eq, fun q before => ?_⟩
  rw [decide_eq_true_eq]
  intro other
  have := b.label_line_unique here
    (List.getElem?_eq_some_iff.mpr ⟨Nat.lt_trans before lt, other⟩)
  omega

end Compiled

/-- The lines that pass control to the next one, if they do not fault. -/
def AsmLine.isStraight : AsmLine → Bool
  | jmp _ | jz _ | call _ | ret => false
  | _ => true

theorem execLine_straight {line : AsmLine} (straight : line.isStraight = true) {m m' : Machine}
    {control : Control} (exec : execLine line m = some (m', control)) : control = .next := by
  cases line with
  | jmp _ | jz _ | call _ | ret => cases straight
  | subqRsp size =>
    rw [execLine] at exec
    split at exec
    · cases exec
    · exact (Prod.mk.inj (Option.some.inj exec)).2.symm
  | pushqRbp | movqToReg _ _ | movqFromReg _ _ | movqImm _ _ | arith _ _ | idivq _ | sar _
  | cmpq _ | pushq _ =>
    obtain ⟨_, -, eq⟩ := Option.map_eq_some_iff.mp exec
    exact (Prod.mk.inj eq).2.symm
  | _ => exact (Prod.mk.inj (Option.some.inj exec)).2.symm

theorem run_straight {lines : List AsmLine} (ext : Extern) {seg : List AsmLine} {pc : Nat}
    (straight : ∀ line ∈ seg, line.isStraight = true)
    (here : ∀ i, i < seg.length → lines[pc + i]? = seg[i]?) (m : Machine) :
    run (asmStep lines ext) seg.length ⟨pc, m⟩ =
      (execLines seg m).map fun r => ⟨pc + seg.length, r.1⟩ := by
  induction seg generalizing pc m with
  | nil => rfl
  | cons line rest ih =>
    have first : lines[pc]? = some line := here 0 (Nat.zero_lt_succ _)
    have later : ∀ i, i < rest.length → lines[pc + 1 + i]? = rest[i]? := fun i lt => by
      rw [Nat.add_assoc, Nat.add_comm 1]
      exact here (i + 1) (Nat.succ_lt_succ lt)
    cases exec : execLine line m with
    | none => simp [run, asmStep, first, exec, execLines_fault exec]
    | some result =>
      obtain ⟨m', control⟩ := result
      obtain rfl := execLine_straight (straight line List.mem_cons_self) exec
      have one : asmStep lines ext ⟨pc, m⟩ = some ⟨pc + 1, m'⟩ := by
        simp [asmStep, first, exec]
      rw [List.length_cons, run_succ one, execLines_next exec,
        ih (fun line mem => straight line (List.mem_cons_of_mem _ mem)) later, Nat.add_assoc,
        Nat.add_comm 1]

end Ctds
