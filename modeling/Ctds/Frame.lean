import Mathlib.Data.Finset.Card
import Ctds.Lowering

/-! The frame of a method against the slots its lines use. The prologue makes room for the
names the first pass counts; the slots go to the parameters and to the names of the
instructions. The two differ by the parameters the method never mentions. -/

namespace Ctds

open FirstSeen Decimal Fallible

def Operand.offsets : Operand → List Int
  | slot offset => [offset]
  | _ => []

/-- The offsets from `%rbp` in a line. -/
def AsmLine.offsets : AsmLine → List Int
  | movqToReg op _ | movqFromReg _ op | arith _ op | idivq op | sar op | cmpq op | jmp op | jz op
  | pushq op => op.offsets
  | movqImm src dst => src.offsets ++ dst.offsets
  | _ => []

def offsetsOf (lines : List AsmLine) : List Int := lines.flatMap AsmLine.offsets

@[simp] theorem offsets_label (name : CString) : (Operand.label name).offsets = [] := rfl

@[simp] theorem offsets_imm (text : CString) : (Operand.imm text).offsets = [] := rfl

theorem offsets_operandFor (names : List CString) (var : Option CString) :
    (operandFor names var).offsets = (operandNames var).map (slotOffset names) := by
  cases var with
  | none => rfl
  | some name =>
    by_cases label : startsWith '_' name = true
    · simp [operandFor, operandNames, isSlotName, label, Operand.offsets]
    · by_cases number : startsNumber name = true
      · simp [operandFor, operandNames, isSlotName, label, number, Operand.offsets]
      · simp [operandFor, operandNames, isSlotName, label, number, Operand.offsets]

theorem mem_offsetsOf_instrLines {instr : Instr CString}
    (label : instr.instruct = .label → operandNames instr.var1 = []) (names : List CString)
    (code : List (Instr CString)) (k p s : Nat) (offset : Int) :
    offset ∈ offsetsOf (instrLines names code k instr p s) ↔
      offset ∈ (slotOperands instr).map (slotOffset names) := by
  obtain ⟨t, var1, var2, reg⟩ := instr
  cases t with
  | label =>
    simp only at label
    simp [instrLines, offsetsOf, AsmLine.offsets, slotOperands, label]
  | ret =>
    cases var1 with
    | none => simp [instrLines, offsetsOf, AsmLine.offsets, slotOperands, operandNames]
    | some name =>
      simp [instrLines, offsetsOf, AsmLine.offsets, slotOperands, offsets_operandFor]
  | param =>
    cases register : argRegs[p]? <;>
      simp [instrLines, offsetsOf, AsmLine.offsets, slotOperands, offsets_operandFor, register]
  | call =>
    cases reg with
    | none =>
      by_cases pushed : 0 < s <;>
        simp [instrLines, offsetsOf, AsmLine.offsets, slotOperands, operandNames, pushed]
    | some name =>
      by_cases pushed : 0 < s <;>
        simp [instrLines, offsetsOf, AsmLine.offsets, slotOperands, offsets_operandFor, pushed]
  | _ =>
    simp [instrLines, binaryLines, offsetsOf, AsmLine.offsets, slotOperands, offsets_operandFor]

theorem mem_offsetsOf_moveLines {all : List CString} {args : List Args} (k : Nat) {offset : Int}
    (neg : offset < 0) :
    offset ∈ offsetsOf (moveLines all args k) ↔ offset ∈ (argNames args).map (slotOffset all) := by
  induction args generalizing k with
  | nil => simp [moveLines, offsetsOf, argNames]
  | cons arg rest ih =>
    have tail := ih (k + 1)
    simp only [offsetsOf, argNames, List.map_cons, List.mem_cons] at tail ⊢
    rw [moveLines, List.flatMap_append, List.mem_append, tail]
    refine or_congr ?_ Iff.rfl
    cases register : argRegs[k]? with
    | some r => simp [AsmLine.offsets, Operand.offsets]
    | none =>
      have pushed : 6 ≤ k := List.getElem?_eq_none_iff.mp register
      have above : offset ≠ 16 + ((k : Int) - 6) * 8 := by omega
      simp [AsmLine.offsets, Operand.offsets, above]

section Method

variable {env : Env} {b : Compiled env} {e l : Nat} {f : CString}

theorem operandNames_of_label {instr : Instr CString} (mem : instr ∈ b.code)
    (label : instr.instruct = .label) : operandNames instr.var1 = [] := by
  rw [b.code_eq] at mem
  obtain ⟨i, -, rfl⟩ := List.mem_map.mp mem
  cases i with
  | label n => exact operandNames_label n
  | binary t _ _ _ => cases t <;> cases label
  | unary t _ _ => cases t <;> cases label
  | _ => cases label

theorem offsetsOf_leave (method : InMethod b.code e l f) :
    offsetsOf (objectLines b.tab b.headAst b.code l) = [] := by
  obtain ⟨instr, here, isLeave, -⟩ := method.leave
  rw [objectLines_eq here, generateInstr, isLeave]
  rfl

theorem mem_offsetsOf_enter (method : InMethod b.code e l f) {offset : Int} (neg : offset < 0) :
    offset ∈ offsetsOf (objectLines b.tab b.headAst b.code e) ↔
      offset ∈ (argNames (funcArgs b.tab b.headAst f)).map
        (slotOffset (methodNames b.tab b.headAst b.code e f l)) := by
  rw [(objectState_enter b.tab b.headAst method).2, ← mem_offsetsOf_moveLines 0 neg,
    enterLines]
  split <;> simp [offsetsOf, AsmLine.offsets]

/-- The slots used from the ENTER of a method to its LEAVE are those of its names. -/
theorem mem_methodOffsets (method : InMethod b.code e l f) {offset : Int} (neg : offset < 0) :
    (∃ k, e ≤ k ∧ k ≤ l ∧ offset ∈ offsetsOf (objectLines b.tab b.headAst b.code k)) ↔
      offset ∈ (methodNames b.tab b.headAst b.code e f l).map
        (slotOffset (methodNames b.tab b.headAst b.code e f l)) := by
  have inside : ∀ {k : Nat} {instr : Instr CString}, e < k → k < l → b.code[k]? = some instr →
      (offset ∈ offsetsOf (objectLines b.tab b.headAst b.code k) ↔
        offset ∈ (slotOperands instr).map
          (slotOffset (methodNames b.tab b.headAst b.code e f l))) := by
    intro k instr gt lt here
    obtain ⟨p, s, -, lines⟩ := objectLines_inside b.tab b.headAst method gt lt here
    rw [lines]
    exact mem_offsetsOf_instrLines (operandNames_of_label (List.mem_of_getElem? here)) _ _ _ _ _ _
  constructor
  · rintro ⟨k, ge, le, mem⟩
    rcases Nat.eq_or_lt_of_le ge with rfl | gt
    · rw [mem_offsetsOf_enter method neg] at mem
      obtain ⟨name, here, rfl⟩ := List.mem_map.mp mem
      exact List.mem_map_of_mem (mem_seeAll.mpr (.inr (List.mem_append_left _ here)))
    · rcases Nat.eq_or_lt_of_le le with rfl | lt
      · rw [offsetsOf_leave method] at mem
        cases mem
      · have here := List.getElem?_eq_getElem (l := b.code) (Nat.lt_of_lt_of_le lt method.length)
        rw [inside gt lt here] at mem
        obtain ⟨name, asked, rfl⟩ := List.mem_map.mp mem
        exact List.mem_map_of_mem (slotOperands_subset method gt lt here asked)
  · intro mem
    obtain ⟨name, here, rfl⟩ := List.mem_map.mp mem
    rcases (mem_seeAll.mp here).resolve_left (by simp) |> List.mem_append.mp with param | asked
    · exact ⟨e, Nat.le_refl e, Nat.le_of_lt method.lt,
        (mem_offsetsOf_enter method neg).mpr (List.mem_map_of_mem param)⟩
    · obtain ⟨instr, range, asked⟩ := List.mem_flatMap.mp asked
      obtain ⟨k, at'⟩ := List.mem_iff_getElem?.mp range
      rw [List.getElem?_drop, List.getElem?_take] at at'
      split at at'
      · next lt =>
        exact ⟨e + 1 + k, by omega, Nat.le_of_lt lt,
          (inside (by omega) lt at').mpr (List.mem_map_of_mem asked)⟩
      · cases at'

/-- The amount the prologue of the method takes from `%rsp`. -/
def stackSize (b : Compiled env) (e : Nat) (f : CString) : Int :=
  totalStackSize (codeRange b.code e (endFuncIdx b.code f e)) (objectState b.tab b.headAst b.code e)

/-- No slot lies below the frame; so a push or a call inside the method, which writes below
the frame, keeps every slot. -/
structure FrameCovers (b : Compiled env) (e l : Nat) (f : CString) : Prop where
  offsets : ∀ k, e ≤ k → k ≤ l → ∀ line ∈ objectLines b.tab b.headAst b.code k,
    ∀ offset ∈ line.offsets, offset < 0 → -stackSize b e f ≤ offset
  pushes : ∀ k, e ≤ k → k ≤ l → ∀ line ∈ objectLines b.tab b.headAst b.code k,
    ∀ offset ∈ line.offsets, ∀ (m m' : Machine) (v : Word), m.rsp ≤ m.rbp - stackSize b e f →
      m.push v = some m' → m'.mem (m.rbp + offset) = m.mem (m.rbp + offset)

/-- The names the first pass makes room for. -/
def countedNames (b : Compiled env) (e : Nat) (f : CString) : Finset CString :=
  (firstPassNames (codeRange b.code e (endFuncIdx b.code f e))).toFinset

def paramNames (b : Compiled env) (f : CString) : Finset CString :=
  (argNames (funcArgs b.tab b.headAst f)).toFinset

/-- The names that get a slot. -/
def slotNames (b : Compiled env) (e l : Nat) (f : CString) : Finset CString :=
  (methodNames b.tab b.headAst b.code e f l).toFinset

theorem stackSize_eq (b : Compiled env) (e : Nat) (f : CString) :
    stackSize b e f = 8 * ((countedNames b e f).card + (countedNames b e f).card % 2 : Nat) := by
  rw [stackSize, totalStackSize_eq, countedNames, List.card_toFinset, alignStack]
  split <;> omega

theorem push_frame {m m' : Machine} {v : Word} (pushed : m.push v = some m') {address : Int}
    (above : m.rsp - 8 < address) : m'.mem address = m.mem address := by
  obtain ⟨-, rfl⟩ := Machine.of_push pushed
  exact Function.update_of_ne (Int.ne_of_gt above) _ _

theorem slotOffsets_iff {names : List CString} (nodup : names.Nodup) {size : Int}
    (pos : 0 ≤ size) :
    (∀ offset ∈ names.map (slotOffset names), -size ≤ offset) ↔
      8 * (names.length : Int) ≤ size := by
  constructor
  · intro h
    rcases Nat.eq_zero_or_pos names.length with zero | more
    · omega
    · have last := List.getElem?_eq_getElem (l := names) (i := names.length - 1) (by omega)
      have at' := h _ (List.mem_map_of_mem (List.mem_of_getElem? last))
      rw [slotOffset, position_getElem? nodup last] at at'
      omega
  · intro h offset mem
    obtain ⟨name, here, rfl⟩ := List.mem_map.mp mem
    have := position_lt here
    unfold slotOffset
    omega

theorem operandNames_sub {var : Option CString} {name : CString} (mem : name ∈ operandNames var) :
    name ∈ var.toList ∧ firstPassName name = true := by
  rw [operandNames, List.mem_filter] at mem
  refine ⟨mem.1, ?_⟩
  have slot := mem.2
  rw [isSlotName, Bool.and_eq_true] at slot
  rw [firstPassName, Bool.and_eq_true]
  refine ⟨?_, slot.1⟩
  cases name with
  | nil => rfl
  | cons c cs =>
    by_contra digit
    have isDigit : c.isDigit = true := by simpa using digit
    have notMinus : c ≠ '-' := by
      rintro rfl
      cases isDigit
    have number : startsNumber (c :: cs) = true := by
      unfold startsNumber
      split <;> simp_all
    simp [number] at slot

theorem slotOperands_sub {instr : Instr CString} {name : CString}
    (mem : name ∈ slotOperands instr) :
    name ∈ instr.operands ∧ firstPassName name = true := by
  have from3 : name ∈ operandNames instr.var1 ++
    (operandNames instr.var2 ++ operandNames instr.reg) := by
    unfold slotOperands at mem
    split at mem <;> simp only [List.mem_append, List.not_mem_nil] at mem ⊢ <;> tauto
  simp only [List.mem_append] at from3
  simp only [Instr.operands, List.mem_append]
  rcases from3 with h | h | h
  · exact ⟨.inl (.inl (operandNames_sub h).1), (operandNames_sub h).2⟩
  · exact ⟨.inl (.inr (operandNames_sub h).1), (operandNames_sub h).2⟩
  · exact ⟨.inr (operandNames_sub h).1, (operandNames_sub h).2⟩

theorem slotNames_subset (method : InMethod b.code e l f) :
    slotNames b e l f ⊆ paramNames b f ∪ countedNames b e f := by
  intro name mem
  rw [slotNames, List.mem_toFinset, methodNames, mem_seeAll] at mem
  rw [Finset.mem_union, paramNames, countedNames, List.mem_toFinset, List.mem_toFinset]
  rcases List.mem_append.mp (mem.resolve_left (by simp)) with param | asked
  · exact .inl param
  · obtain ⟨instr, range, asked⟩ := List.mem_flatMap.mp asked
    obtain ⟨operand, counted⟩ := slotOperands_sub asked
    refine .inr (List.mem_filter.mpr ⟨List.mem_flatMap.mpr ⟨instr, ?_, operand⟩, counted⟩)
    obtain ⟨k, at'⟩ := List.mem_iff_getElem?.mp range
    rw [List.getElem?_drop, List.getElem?_take] at at'
    split at at'
    · next lt =>
      rw [method.endFuncIdx]
      refine List.mem_iff_getElem?.mpr ⟨k + 1, ?_⟩
      have place : e + (k + 1) = e + 1 + k := by omega
      rw [codeRange, List.getElem?_take_of_lt (by omega), List.getElem?_drop, place, at']
    · cases at'

theorem paramNames_subset : paramNames b f ⊆ slotNames b e l f := by
  intro name mem
  rw [paramNames, List.mem_toFinset] at mem
  rw [slotNames, List.mem_toFinset, methodNames, mem_seeAll]
  exact .inr (List.mem_append_left _ mem)

theorem card_slotNames (method : InMethod b.code e l f) :
    (slotNames b e l f).card + (countedNames b e f \ slotNames b e l f).card =
      (countedNames b e f).card + (paramNames b f \ countedNames b e f).card := by
  have more : slotNames b e l f \ countedNames b e f = paramNames b f \ countedNames b e f := by
    apply Finset.Subset.antisymm
    · intro name mem
      rw [Finset.mem_sdiff] at mem ⊢
      refine ⟨?_, mem.2⟩
      exact (Finset.mem_union.mp (slotNames_subset method mem.1)).resolve_right mem.2
    · exact Finset.sdiff_subset_sdiff paramNames_subset (Finset.Subset.refl _)
  have left := Finset.card_sdiff_add_card (countedNames b e f) (slotNames b e l f)
  have right := Finset.card_sdiff_add_card (slotNames b e l f) (countedNames b e f)
  rw [Finset.union_comm] at right
  rw [← more]
  omega

/-- The frame covers the slots exactly when the parameters that are never mentioned fit into
the room of the counted names that get no slot, and into the padding. -/
theorem frame_covers_iff (b : Compiled env) {e l : Nat} {f : CString}
    (method : InMethod b.code e l f) :
    FrameCovers b e l f ↔
      (paramNames b f \ countedNames b e f).card ≤
        (countedNames b e f \ slotNames b e l f).card + (countedNames b e f).card % 2 := by
  have size := stackSize_eq b e f
  have count := card_slotNames method
  have slots := methodNames_nodup b.tab b.headAst b.code e f l
  have length : (slotNames b e l f).card = (methodNames b.tab b.headAst b.code e f l).length :=
    List.toFinset_card_of_nodup slots
  have bound := slotOffsets_iff slots (by omega : 0 ≤ stackSize b e f)
  have covered : 8 * ((methodNames b.tab b.headAst b.code e f l).length : Int) ≤ stackSize b e f ↔
      (paramNames b f \ countedNames b e f).card ≤
        (countedNames b e f \ slotNames b e l f).card + (countedNames b e f).card % 2 := by
    omega
  rw [← covered, ← bound]
  constructor
  · intro h offset mem
    obtain ⟨name, -, eq⟩ := List.mem_map.mp mem
    have neg : offset < 0 := eq ▸ slotOffset_neg _ _
    obtain ⟨k, ge, le, used⟩ := (mem_methodOffsets method neg).mpr mem
    obtain ⟨line, here, inLine⟩ := List.mem_flatMap.mp used
    exact h.offsets k ge le line here offset inLine neg
  · intro h
    have offsets : ∀ k, e ≤ k → k ≤ l → ∀ line ∈ objectLines b.tab b.headAst b.code k,
        ∀ offset ∈ line.offsets, offset < 0 → -stackSize b e f ≤ offset :=
      fun k ge le line here offset inLine neg =>
        h offset ((mem_methodOffsets method neg).mp
          ⟨k, ge, le, List.mem_flatMap.mpr ⟨line, here, inLine⟩⟩)
    refine ⟨offsets, fun k ge le line here offset inLine m m' v below pushed => ?_⟩
    refine push_frame pushed ?_
    rcases Int.lt_or_le offset 0 with neg | nonneg
    · have := offsets k ge le line here offset inLine neg
      omega
    · omega

end Method

/-- Five parameters that the method never mentions, and a call. -/
def spareParameters : ProgramSyn :=
  let g : Ident := .of "g"
  let x : Ident := .of "x"
  let args : List Ident := [.of "a", .of "b",
    .of "c", .of "d", .of "e"]
  [.methodDecl ⟨1, none, g, [], some (.mk 1 [] (.cons (.returnVoid 1) .nil))⟩,
    .methodDecl ⟨2, some .integer, .of "f", args.map (⟨2, .integer, ·⟩),
      some (.mk 2 [⟨3, .integer, x, some (.integerLiteral 3 1)⟩]
        (.cons (.methodCall 4 g .nil) (.cons (.returnExpr 5 (.id 5 x)) .nil)))⟩,
    .methodDecl ⟨6, some .integer, .of "main", [],
      some (.mk 6 [] (.cons (.returnExpr 6 (.integerLiteral 6 0)) .nil))⟩]

theorem spareParameters_code :
    ∃ b : Compiled (.sample false), b.prog = spareParameters ∧
      InMethod b.code 3 9 "f".toList ∧ InMethod b.code 10 13 "main".toList ∧
      stackSize b 3 "f".toList = 48 ∧
      objectLines b.tab b.headAst b.code 5 =
        [.movqToReg (.slot (-48)) .rax, .movqFromReg .rax (.slot (-56))] ∧
      paramNames b "main".toList = ∅ := by
  obtain ⟨checked, accepted⟩ := isOk_iff.mp (by decide +kernel :
    (frontEnd (.sample false) spareParameters).isOk = true)
  have facts : (frontEnd (.sample false) spareParameters).toOption.map (fun c =>
        let code := namedCode tempText (intermediateCode (.sample false) c).code
        (code, totalStackSize (codeRange code 3 (endFuncIdx code "f".toList 3))
            (objectState c.tab c.headAst code 3), objectLines c.tab c.headAst code 5,
          argNames (funcArgs c.tab c.headAst "main".toList))) =
      some ([⟨.enter, some "g".toList, none, none⟩, ⟨.ret, none, none, none⟩,
        ⟨.leave, some "g".toList, none, none⟩, ⟨.enter, some "f".toList, none, none⟩,
        ⟨.loadval, some "1".toList, none, some (tempText 0)⟩,
        ⟨.store, some (tempText 0), none, some "x".toList⟩,
        ⟨.call, some "g".toList, none, some (tempText 1)⟩,
        ⟨.load, some "x".toList, none, none⟩, ⟨.ret, some "x".toList, none, none⟩,
        ⟨.leave, some "f".toList, none, none⟩, ⟨.enter, some "main".toList, none, none⟩,
        ⟨.loadval, some "0".toList, none, some (tempText 2)⟩,
        ⟨.ret, some (tempText 2), none, none⟩, ⟨.leave, some "main".toList, none, none⟩], 48,
        [.movqToReg (.slot (-48)) .rax, .movqFromReg .rax (.slot (-56))], []) := by decide +kernel
  rw [accepted] at facts
  simp only [Except.toOption, Option.map_some, Option.some.injEq, Prod.mk.injEq] at facts
  obtain ⟨code, size, lines, args⟩ := facts
  let b := Compiled.plain rfl accepted
  have code' : b.code = _ := code
  refine ⟨b, rfl, ?_, ?_, size, lines, congrArg List.toFinset args⟩
  · rw [code']
    exact inMethod_of_range (by decide) rfl rfl (by decide)
  · rw [code']
    exact inMethod_of_range (by decide) rfl rfl (by decide)

/-- `x` of the method `f` has a slot below its frame. -/
theorem frame_not_covered :
    ∃ b : Compiled (.sample false), b.prog = spareParameters ∧
      InMethod b.code 3 9 "f".toList ∧ ¬ FrameCovers b 3 9 "f".toList := by
  obtain ⟨b, prog, method, -, size, lines, -⟩ := spareParameters_code
  refine ⟨b, prog, method, fun covers => ?_⟩
  have above := covers.offsets 5 (by decide) (by decide) (.movqFromReg .rax (.slot (-56)))
    (by rw [lines]; simp) (-56) (by simp [AsmLine.offsets, Operand.offsets]) (by decide)
  rw [size] at above
  exact absurd above (by decide)

/-- A method without parameters has a frame that covers its slots. -/
theorem frame_covers_main :
    ∃ b : Compiled (.sample false), b.prog = spareParameters ∧
      FrameCovers b 10 13 "main".toList := by
  obtain ⟨b, prog, -, method, -, -, none⟩ := spareParameters_code
  refine ⟨b, prog, (frame_covers_iff b method).mpr ?_⟩
  rw [none, Finset.empty_sdiff, Finset.card_empty]
  exact Nat.zero_le _

end Ctds
