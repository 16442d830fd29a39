import Ctds.Accepted
import Ctds.IrSemantics
import Ctds.SlotMap

/-! Where the lines of an instruction come from: the generator's state in front of it. From
the ENTER of a method to its LEAVE that state is the list of names seen so far, the
parameters first. -/

namespace Ctds

open FirstSeen

section States

variable (tab : SymbolTable) (headAst : List AstNode) (code : List (Instr CString))

/-- The state of `generate_object_code` in front of instruction `i`. -/
def objectState : Nat → ObjState
  | 0 => .init
  | i + 1 =>
    match code[i]? with
    | none => objectState i
    | some instr => (generateInstr tab headAst code i instr (objectState i)).1

def objectLines (i : Nat) : List AsmLine :=
  match code[i]? with
  | none => []
  | some instr => (generateInstr tab headAst code i instr (objectState tab headAst code i)).2

variable {tab headAst code}

theorem objectState_succ {i : Nat} {instr : Instr CString} (here : code[i]? = some instr) :
    objectState tab headAst code (i + 1) =
      (generateInstr tab headAst code i instr (objectState tab headAst code i)).1 := by
  rw [objectState, here]

theorem objectLines_eq {i : Nat} {instr : Instr CString} (here : code[i]? = some instr) :
    objectLines tab headAst code i =
      (generateInstr tab headAst code i instr (objectState tab headAst code i)).2 := by
  rw [objectLines, here]

variable (tab headAst code) in
theorem generateFrom_eq (pre rest : List (Instr CString)) (split : code = pre ++ rest) :
    generateFrom tab headAst code pre.length rest (objectState tab headAst code pre.length) =
      (List.range' pre.length rest.length).map (objectLines tab headAst code) := by
  induction rest generalizing pre with
  | nil => rfl
  | cons instr rest ih =>
    have here : code[pre.length]? = some instr := by rw [split]; simp
    have next := ih (pre ++ [instr]) (by rw [split]; simp)
    rw [List.length_append, List.length_singleton, objectState_succ here] at next
    rw [generateFrom, List.length_cons, List.range'_succ, List.map_cons, objectLines_eq here]
    exact congrArg _ next

theorem generateObjectCode_eq :
    generateObjectCode tab headAst code =
      .text :: (List.range code.length).flatMap (objectLines tab headAst code) := by
  have all := generateFrom_eq tab headAst code [] code rfl
  rw [generateObjectCode, List.flatMap_def, List.range_eq_range']
  exact congrArg (fun groups => AsmLine.text :: List.flatten groups) all

/-- The number of the first line of instruction `i`. -/
def lineStart (tab : SymbolTable) (headAst : List AstNode) (code : List (Instr CString)) (i : Nat) :
    Nat :=
  1 + ((List.range i).flatMap (objectLines tab headAst code)).length

theorem lineStart_succ (i : Nat) :
    lineStart tab headAst code (i + 1) =
      lineStart tab headAst code i + (objectLines tab headAst code i).length := by
  simp [lineStart, List.range_succ, Nat.add_assoc]

variable (tab headAst) in
theorem objectBlock_placed {i n : Nat} (inside : i + n ≤ code.length) :
    Placed (generateObjectCode tab headAst code) (lineStart tab headAst code i)
      ((List.range' i n).flatMap (objectLines tab headAst code)) := by
  have split : List.range code.length =
      List.range i ++ (List.range' i n ++ List.range' (i + n) (code.length - (i + n))) := by
    have first := List.range'_append_1 (s := i) (m := n) (n := code.length - (i + n))
    have join := List.range'_append_1 (s := 0) (m := i) (n := n + (code.length - (i + n)))
    have count : i + (n + (code.length - (i + n))) = code.length := by omega
    rw [Nat.zero_add, count] at join
    rw [List.range_eq_range', List.range_eq_range', first, join]
  refine ⟨.text :: (List.range i).flatMap (objectLines tab headAst code),
    (List.range' (i + n) (code.length - (i + n))).flatMap (objectLines tab headAst code), ?_, ?_⟩
  · rw [generateObjectCode_eq, split, List.flatMap_append, List.flatMap_append]
    rfl
  · simp [lineStart, Nat.add_comm]

variable (tab headAst) in
theorem objectLines_placed {i : Nat} (inside : i < code.length) :
    Placed (generateObjectCode tab headAst code) (lineStart tab headAst code i)
      (objectLines tab headAst code i) := by
  have block := objectBlock_placed tab headAst (i := i) (n := 1) inside
  simpa using block

end States

/-- The lines that move the parameters into their slots. -/
def moveLines (all : List CString) : List Args → Nat → List AsmLine
  | [], _ => []
  | arg :: rest, argIdx =>
    (match argRegs[argIdx]? with
      | some r => [AsmLine.movqFromReg r (.slot (slotOffset all arg.name.text))]
      | none => [.movqToReg (.slot (16 + (argIdx - 6) * 8)) .rax,
          .movqFromReg .rax (.slot (slotOffset all arg.name.text))]) ++
      moveLines all rest (argIdx + 1)

theorem mem_moveLines {all : List CString} {args : List Args} {k : Nat} {line : AsmLine}
    (mem : line ∈ moveLines all args k) :
    (∃ r name, line = .movqFromReg r (.slot (slotOffset all name))) ∨
      ∃ offset, line = .movqToReg (.slot offset) .rax := by
  induction args generalizing k with
  | nil => cases mem
  | cons arg rest ih =>
    rw [moveLines, List.mem_append] at mem
    rcases mem with mem | mem
    · split at mem
      · exact .inl ⟨_, _, List.mem_singleton.mp mem⟩
      · simp only [List.mem_cons, List.not_mem_nil, or_false] at mem
        rcases mem with first | second
        · exact .inr ⟨_, first⟩
        · exact .inl ⟨_, _, second⟩
    · exact ih mem

def argNames (args : List Args) : List CString := args.map fun arg => arg.name.text

theorem moveArguments_frame {all : List CString} (args : List Args) (argIdx : Nat)
    {names : List CString} (p s : Nat) (seen : seeAll names (argNames args) <+: all) :
    moveArguments args argIdx (.frame names p s) =
      (.frame (seeAll names (argNames args)) p s, moveLines all args argIdx) := by
  induction args generalizing argIdx names with
  | nil => rfl
  | cons arg rest ih =>
    have rest' : seeAll (see names arg.name.text) (argNames rest) <+: all := seen
    have here : see names arg.name.text <+: all := (prefix_seeAll _ _).trans rest'
    have offset : slotOffset (see names arg.name.text) arg.name.text =
        slotOffset all arg.name.text := by
      rw [slotOffset, slotOffset, position_initial here (mem_see.mpr (.inr rfl))]
    rw [moveArguments, getVarOffset_frame]
    dsimp only
    rw [ih (argIdx + 1) rest', moveLines, offset]
    rfl

/-- From the ENTER of a method at position `e` to its LEAVE at position `l`. -/
structure InMethod (code : List (Instr CString)) (e l : Nat) (f : CString) : Prop where
  enter : ∃ instr, code[e]? = some instr ∧ instr.instruct = .enter ∧ instr.var1 = some f
  leave : ∃ instr, code[l]? = some instr ∧ instr.instruct = .leave ∧ instr.var1 = some f
  lt : e < l
  body : ∀ {j : Nat} {instr : Instr CString}, e < j → j < l → code[j]? = some instr →
    instr.instruct ≠ .enter ∧ instr.instruct ≠ .leave

theorem inMethod_of_range {code : List (Instr CString)} {e l : Nat} {f : CString} (lt : e < l)
    (enter : code[e]? = some ⟨.enter, some f, none, none⟩)
    (leave : code[l]? = some ⟨.leave, some f, none, none⟩)
    (body : ((code.take l).drop (e + 1)).all
      fun instr => decide (instr.instruct ≠ .enter ∧ instr.instruct ≠ .leave)) :
    InMethod code e l f := by
  refine ⟨⟨_, enter, rfl, rfl⟩, ⟨_, leave, rfl, rfl⟩, lt, fun {j instr} gt lt here => ?_⟩
  have place : e + 1 + (j - (e + 1)) = j := by omega
  have at' : ((code.take l).drop (e + 1))[j - (e + 1)]? = some instr := by
    rw [List.getElem?_drop, place, List.getElem?_take_of_lt lt, here]
  exact of_decide_eq_true (List.all_eq_true.mp body instr (List.mem_of_getElem? at'))

/-- The names that have slots in front of instruction `j` of the method. -/
def methodNames (tab : SymbolTable) (headAst : List AstNode) (code : List (Instr CString))
    (e : Nat) (f : CString) (j : Nat) : List CString :=
  seeAll [] (argNames (funcArgs tab headAst f) ++
    ((code.take j).drop (e + 1)).flatMap slotOperands)

section Inside

variable {tab : SymbolTable} {headAst : List AstNode} {code : List (Instr CString)} {e l j : Nat}
  {f : CString} {instr : Instr CString}

theorem methodNames_succ (lt : e < j) (here : code[j]? = some instr) :
    methodNames tab headAst code e f (j + 1) =
      seeAll (methodNames tab headAst code e f j) (slotOperands instr) := by
  have inside : j < code.length := (List.getElem?_eq_some_iff.mp here).1
  have short : e + 1 ≤ (code.take j).length := by
    rw [List.length_take]
    omega
  rw [methodNames, methodNames, List.take_add_one, here, Option.toList,
    List.drop_append_of_le_length short,
    List.flatMap_append, ← List.append_assoc, seeAll_append]
  simp

variable (tab headAst) in
theorem methodNames_initial {k : Nat} (lt : e < j) (le : j ≤ k) (inside : k ≤ code.length) :
    methodNames tab headAst code e f j <+: methodNames tab headAst code e f k := by
  induction k, le using Nat.le_induction with
  | base => exact List.prefix_rfl
  | succ k le ih =>
    rw [methodNames_succ (Nat.lt_of_lt_of_le lt le) (List.getElem?_eq_getElem inside)]
    exact (ih (Nat.le_of_succ_le inside)).trans (prefix_seeAll _ _)

theorem methodNames_nodup (tab : SymbolTable) (headAst : List AstNode)
    (code : List (Instr CString)) (e : Nat) (f : CString) (j : Nat) :
    (methodNames tab headAst code e f j).Nodup := nodup_seeAll List.nodup_nil _

theorem InMethod.endFuncIdx (h : InMethod code e l f) : endFuncIdx code f e = l := by
  obtain ⟨last, at', isLeave, name⟩ := h.leave
  have split : l = e + 1 + (l - (e + 1)) := by have := h.lt; omega
  have found : (code.drop (e + 1)).findIdx? (fun instr =>
      decide (instr.instruct = .leave) && instr.var1 == some f) = some (l - (e + 1)) := by
    rw [List.findIdx?_eq_some_iff_getElem]
    have inside : l < code.length := (List.getElem?_eq_some_iff.mp at').1
    refine ⟨by rw [List.length_drop]; have := h.lt; omega, ?_, ?_⟩
    · rw [List.getElem_drop]
      simp only [← split, (List.getElem?_eq_some_iff.mp at').2, isLeave, name]
      simp
    · intro k lt
      rw [List.getElem_drop]
      have at'' := List.getElem?_eq_getElem (l := code) (i := e + 1 + k) (by omega)
      have notLeave := (h.body (by omega) (by omega) at'').2
      simp [notLeave]
  rw [Ctds.endFuncIdx, found]
  exact split.symm

/-- The names the first pass of I_ENTER counts. -/
def firstPassNames (range : List (Instr CString)) : List CString :=
  (range.flatMap Instr.operands).filter firstPassName

theorem seen_frame (more names : List CString) (p s : Nat) :
    more.foldl (fun os name => (getVarOffset name os).1) (.frame names p s) =
      .frame (seeAll names more) p s := by
  induction more generalizing names with
  | nil => rfl
  | cons name rest ih =>
    rw [List.foldl_cons, getVarOffset_frame]
    exact ih (see names name)

theorem totalStackSize_eq (range : List (Instr CString)) (os : ObjState) :
    totalStackSize range os = alignStack (8 * (firstPassNames range).dedup.length) := by
  have pass := seen_frame (firstPassNames range) [] os.paramCount os.stackParams
  have start : { os with varMap := [], currentStackOffset := 0 } =
      ObjState.frame [] os.paramCount os.stackParams := rfl
  rw [totalStackSize, firstPass, start]
  refine congrArg alignStack ?_
  rw [← length_seeAll]
  have size := congrArg (fun os => -os.currentStackOffset) pass
  refine size.trans ?_
  simp [ObjState.frame]

/-- What the prologue takes from `%rsp`. -/
def frameSize (code : List (Instr CString)) (e : Nat) (f : CString) : Int :=
  alignStack (8 * (firstPassNames (codeRange code e (endFuncIdx code f e))).dedup.length)

/-- The lines of the ENTER, with the slots the method ends up with. -/
def enterLines (all : List CString) (size : Int) (f : CString) (args : List Args) : List AsmLine :=
  [.globl f, .label f, .pushqRbp, .movqRspRbp] ++ (if 0 < size then [.subqRsp size] else []) ++
    moveLines all args 0

theorem generateEnter_frame {all : List CString}
    (seen : seeAll [] (argNames (funcArgs tab headAst f)) <+: all) (os : ObjState) :
    generateEnter tab headAst code e f os =
      (.frame (seeAll [] (argNames (funcArgs tab headAst f))) os.paramCount os.stackParams,
        enterLines all (frameSize code e f) f (funcArgs tab headAst f)) := by
  have moved := moveArguments_frame (funcArgs tab headAst f) 0 os.paramCount os.stackParams seen
  have start : { os with varMap := [], currentStackOffset := 0 } =
      ObjState.frame [] os.paramCount os.stackParams := rfl
  rw [generateEnter, start, moved, totalStackSize_eq]
  rfl

theorem methodNames_enter (tab : SymbolTable) (headAst : List AstNode)
    (code : List (Instr CString)) (e : Nat) (f : CString) :
    methodNames tab headAst code e f (e + 1) = seeAll [] (argNames (funcArgs tab headAst f)) := by
  have none : (code.take (e + 1)).drop (e + 1) = [] :=
    List.drop_eq_nil_of_le (List.length_take_le _ _)
  rw [methodNames, none]
  simp

theorem InMethod.length (h : InMethod code e l f) : l ≤ code.length := by
  obtain ⟨last, at', -⟩ := h.leave
  exact Nat.le_of_lt (List.getElem?_eq_some_iff.mp at').1

variable (tab headAst) in
theorem objectState_enter (h : InMethod code e l f) :
    objectState tab headAst code (e + 1) =
        .frame (methodNames tab headAst code e f (e + 1))
          (objectState tab headAst code e).paramCount (objectState tab headAst code e).stackParams ∧
      objectLines tab headAst code e =
        enterLines (methodNames tab headAst code e f l) (frameSize code e f) f
          (funcArgs tab headAst f) := by
  obtain ⟨instr, here, isEnter, name⟩ := h.enter
  have grows := methodNames_initial tab headAst (f := f) (Nat.lt_succ_self e)
    h.lt h.length
  rw [methodNames_enter] at grows ⊢
  rw [objectState_succ here, objectLines_eq here, generateInstr, isEnter]
  simp only [name, Option.getD_some, generateEnter_frame grows]
  exact ⟨trivial, trivial⟩

variable (tab headAst) in
theorem objectState_inside (h : InMethod code e l f) (lt : e < j) (le : j ≤ l) :
    ∃ p s, objectState tab headAst code j = .frame (methodNames tab headAst code e f j) p s := by
  induction j, lt using Nat.le_induction with
  | base => exact ⟨_, _, (objectState_enter tab headAst h).1⟩
  | succ j lt ih =>
    obtain ⟨p, s, state⟩ := ih (Nat.le_of_succ_le le)
    obtain ⟨last, at', -⟩ := h.leave
    have inside : j < code.length :=
      Nat.lt_trans le (List.getElem?_eq_some_iff.mp at').1
    have here := List.getElem?_eq_getElem inside
    obtain ⟨notEnter, notLeave⟩ := h.body lt le here
    rw [objectState_succ here, state, methodNames_succ lt here,
      generateInstr_frame notEnter notLeave List.prefix_rfl]
    exact ⟨_, _, rfl⟩

theorem slotOperands_initial (h : InMethod code e l f) (gt : e < j) (lt : j < l)
    (here : code[j]? = some instr) :
    seeAll (methodNames tab headAst code e f j) (slotOperands instr) <+:
      methodNames tab headAst code e f l := by
  rw [← methodNames_succ gt here]
  exact methodNames_initial tab headAst (Nat.lt_succ_of_lt gt) lt h.length

theorem slotOperands_subset (h : InMethod code e l f) (gt : e < j) (lt : j < l)
    (here : code[j]? = some instr) {name : CString} (asked : name ∈ slotOperands instr) :
    name ∈ methodNames tab headAst code e f l :=
  (slotOperands_initial h gt lt here).subset (mem_seeAll.mpr (.inr asked))

variable (tab headAst) in
/-- The lines of an instruction of the method, with the slots the method ends up with. -/
theorem objectLines_inside (h : InMethod code e l f) (gt : e < j) (lt : j < l)
    (here : code[j]? = some instr) :
    ∃ p s, objectState tab headAst code j = .frame (methodNames tab headAst code e f j) p s ∧
      objectLines tab headAst code j =
        instrLines (methodNames tab headAst code e f l) code j instr p s := by
  obtain ⟨p, s, state⟩ := objectState_inside tab headAst h gt (Nat.le_of_lt lt)
  obtain ⟨notEnter, notLeave⟩ := h.body gt lt here
  refine ⟨p, s, state, ?_⟩
  rw [objectLines_eq here, state,
    generateInstr_frame notEnter notLeave (slotOperands_initial h gt lt here)]

end Inside

end Ctds
