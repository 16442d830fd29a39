import Ctds.Activations

/-! The jumps of the object code. Those of `if` and `while` go to labels of their own method;
a `return` goes to the epilogue of the method whose name is what `current_func_name` keeps of
its own method's name, so to its own if the name fits into the buffer. -/

namespace Ctds

open Decimal

def IrInstr.isJump : IrInstr → Bool
  | jmp _ | jmpf _ _ | ret _ => true
  | _ => false

/-- The label a line jumps to, as it is printed. -/
def AsmLine.jumpTo? : AsmLine → Option CString
  | jmp target | jz target => some target.text
  | _ => none

section Sections

variable {env : Env} {tab : SymbolTable} {sentences : List AstNode}

theorem Operands.isJump {t u : Nat} {code : List IrInstr} {rs : List Var}
    (h : Operands t code rs u) : ∀ i ∈ code, i.isJump = false := by
  intro i mem
  have operand := h.all i mem
  cases i <;> first | rfl | cases operand

theorem declaration_isJump {line : Int} {arity : OperatorArity} {left right : AstNode}
    (shape : isStmt tab (.common line arity .decl left right) = true) (c : Counters) :
    ∀ i ∈ (stmtCode env tab (.common line arity .decl left right) c).1, i.isJump = false := by
  simp only [isStmt, Bool.and_eq_true] at shape
  simp only [stmtCode]
  by_cases null : right.isNull
  · rw [if_pos null]
    simp
  · rw [if_neg null]
    have value := (exprCode_operands env tab right (by simpa [null] using shape.2)
      Operator.decl.code c.temp).isJump
    intro i mem
    rw [List.mem_append] at mem
    rcases mem with mem | mem
    · exact value i mem
    · obtain ⟨x, -, rfl⟩ := List.mem_map.mp mem
      rfl

theorem section_of_jump (shape : ∀ node ∈ sentences, isSentence tab node = true) {c : Counters}
    {i : Nat} {ir : IrInstr} (here : (programCode env tab sentences c).1[i]? = some ir)
    (jump : ir.isJump = true) :
    ∃ s : Section tab sentences, s.start env c < i ∧ i < s.stop env c := by
  have inner : ir.isInner = true := by
    cases ir with
    | enter _ | leave _ | externDecl _ => cases jump
    | _ => rfl
  rcases inner_place shape here inner with within | ⟨before, line, arity, left, right, after, d,
    split, -, at'⟩
  · exact within
  · have declared := shape (.common line arity .decl left right) (by simp [split])
    rw [declaration_isJump declared _ ir (List.mem_of_getElem? at')] at jump
    cases jump

end Sections

theorem jumpTo_moveArguments (args : List Args) (argIdx : Nat) (os : ObjState) :
    ∀ line ∈ (moveArguments args argIdx os).2, line.jumpTo? = none := by
  induction args generalizing argIdx os with
  | nil => simp [moveArguments]
  | cons arg rest ih =>
    intro line mem
    rw [moveArguments] at mem
    dsimp only at mem
    rcases List.mem_append.mp mem with mem | mem
    · cases reg : argRegs[argIdx]? with
      | some r =>
        rw [reg] at mem
        rw [List.mem_singleton.mp mem]
        rfl
      | none =>
        rw [reg] at mem
        simp only [List.mem_cons, List.not_mem_nil, or_false] at mem
        rcases mem with rfl | rfl <;> rfl
    · exact ih _ _ line mem

theorem jumpTo_generateEnter (tab : SymbolTable) (headAst : List AstNode)
    (code : List (Instr CString)) (k : Nat) (f : CString) (os : ObjState) :
    ∀ line ∈ (generateEnter tab headAst code k f os).2, line.jumpTo? = none := by
  intro line mem
  unfold generateEnter at mem
  dsimp only at mem
  rcases List.mem_append.mp mem with mem | mem
  · rcases List.mem_append.mp mem with mem | mem
    · simp only [List.mem_cons, List.not_mem_nil, or_false] at mem
      rcases mem with rfl | rfl | rfl | rfl <;> rfl
    · split at mem
      · rw [List.mem_singleton.mp mem]
        rfl
      · cases mem
  · exact jumpTo_moveArguments _ _ _ line mem

theorem jumpTo_generateCall (instr : Instr CString) (os : ObjState) :
    ∀ line ∈ (generateCall instr os).2, line.jumpTo? = none := by
  intro line mem
  unfold generateCall at mem
  rw [List.mem_append, List.mem_append, List.mem_singleton] at mem
  rcases mem with (rfl | saved) | clean
  · rfl
  · cases reg : instr.reg with
    | none =>
      rw [reg] at saved
      cases saved
    | some name =>
      rw [reg] at saved
      obtain rfl := List.mem_singleton.mp saved
      rfl
  · obtain ⟨-, rfl⟩ : _ ∧ line = .addqRsp _ := by simpa using clean
    rfl

theorem jumpTo_generateInstr {tab : SymbolTable} {headAst : List AstNode}
    {code : List (Instr CString)} {k : Nat} {ρ : Nat → Nat} {i : IrInstr} {os : ObjState}
    {line : AsmLine} {target : CString}
    (mem : line ∈ (generateInstr tab headAst code k (i.named ρ) os).2)
    (jumps : line.jumpTo? = some target) :
    (∃ n, i.target? = some n ∧ target = labelText n) ∨
      ∃ value, i = .ret value ∧ target = leaveLabel (currentFuncName code k) := by
  have quiet : (∀ line ∈ (generateInstr tab headAst code k (i.named ρ) os).2, line.jumpTo? = none) →
      False := fun none => by
    rw [none line mem] at jumps
    cases jumps
  cases i with
  | enter f => exact (quiet (jumpTo_generateEnter tab headAst code k f.text os)).elim
  | jmp n =>
    obtain rfl := List.mem_singleton.mp mem
    exact .inl ⟨n, rfl, (Option.some.inj jumps).symm⟩
  | jmpf condition n =>
    rw [named_jmpf] at mem
    simp only [generateInstr, generateJmpf, List.mem_cons, List.not_mem_nil, or_false] at mem
    rcases mem with rfl | rfl | rfl
    · cases jumps
    · cases jumps
    · exact .inl ⟨n, rfl, (Option.some.inj jumps).symm⟩
  | ret value =>
    refine .inr ⟨value, rfl, ?_⟩
    rw [named_ret] at mem
    cases value with
    | none =>
      obtain rfl := List.mem_singleton.mp mem
      exact (Option.some.inj jumps).symm
    | some x =>
      simp only [generateInstr, generateRet, Option.map_some, List.mem_cons, List.not_mem_nil,
        or_false] at mem
      rcases mem with rfl | rfl
      · cases jumps
      · exact (Option.some.inj jumps).symm
  | binary t left right dest =>
    refine (quiet ?_).elim
    rw [named_binary]
    cases t <;> simp [generateInstr, BinaryInstr.type, generateArith, generateDivision,
      generateComparison, AsmLine.jumpTo?]
  | unary t left dest =>
    refine (quiet ?_).elim
    rw [named_unary]
    cases t <;> simp [generateInstr, UnaryInstr.type, generateMin, generateNeg, AsmLine.jumpTo?]
  | param arg =>
    refine (quiet ?_).elim
    rw [named_param]
    simp only [generateInstr, generateParam]
    split <;> simp [AsmLine.jumpTo?]
  | call f dest =>
    exact (quiet (jumpTo_generateCall _ os)).elim
  | _ =>
    refine (quiet ?_).elim
    simp [IrInstr.named, IrInstr.instr, Instr.map, generateInstr, generateLoadval, generateStore,
      generateShiftRight, generateLeave, generateLabel, AsmLine.jumpTo?]

theorem currentFuncName_inside {code : List (Instr CString)} {e l j : Nat} {f : CString}
    (method : InMethod code e l f) (ge : e ≤ j) (lt : j < l) :
    currentFuncName code j = f.take 63 := by
  obtain ⟨first, enter, isEnter, name⟩ := method.enter
  have found : (code.take (j + 1)).reverse.find? (fun instr => decide (instr.instruct = .enter)) =
      some first := by
    have inside : j < code.length := by have := method.length; omega
    induction j, ge using Nat.le_induction with
    | base =>
      rw [List.take_add_one, enter, Option.toList_some, List.reverse_append, List.reverse_singleton,
        List.singleton_append, List.find?_cons_of_pos (by simpa using isEnter)]
    | succ j ge ih =>
      have here := List.getElem?_eq_getElem inside
      have notEnter := (method.body (Nat.lt_succ_of_le ge) lt here).1
      rw [List.take_add_one, here, Option.toList_some, List.reverse_append, List.reverse_singleton,
        List.singleton_append, List.find?_cons_of_neg (by simpa using notEnter)]
      exact ih (Nat.lt_of_succ_lt lt) (Nat.lt_of_succ_lt inside)
  rw [currentFuncName, found]
  dsimp only
  rw [name]
  rfl

section Targets

variable {env : Env} {b : Compiled env}

/-- The target of a jump at instruction `j` of the method is defined once, behind the prologue
and not behind the epilogue of the method; for a return it is the epilogue's label. -/
structure StaysInside (s : Section b.tab b.headAst) (j : Nat) (target : CString) : Prop where
  once : ∃! q : Nat, b.lines[q]? = some (AsmLine.label target)
  inside : ∀ q, b.lines[q]? = some (.label target) →
    lineStart b.tab b.headAst b.code (s.start env ⟨0, 0⟩ + 1) ≤ q ∧
      q ≤ lineStart b.tab b.headAst b.code (s.stop env ⟨0, 0⟩)
  epilogue : ∀ value, b.instrs[j]? = some (.ret value) → target = leaveLabel s.info.name.text

/-- The line is one of instruction `j`, which stands in the body of the method. -/
structure LineOf (s : Section b.tab b.headAst) (j p : Nat) : Prop where
  gt : s.start env ⟨0, 0⟩ < j
  lt : j < s.stop env ⟨0, 0⟩
  line : ∃ d, p = lineStart b.tab b.headAst b.code j + d ∧
    d < (objectLines b.tab b.headAst b.code j).length

variable (b) in
def JumpsStayInside : Prop :=
  ∀ p line target, b.lines[p]? = some line → line.jumpTo? = some target →
    ∃ (s : Section b.tab b.headAst) (j : Nat), LineOf s j p ∧ StaysInside s j target

theorem defined_once {q : Nat} {name : CString} (here : b.lines[q]? = some (.label name)) :
    ∃! q : Nat, b.lines[q]? = some (AsmLine.label name) :=
  ⟨q, here, fun _ other => b.label_line_unique other here⟩

theorem label_inside {s : Section b.tab b.headAst} {j n : Nat} {ir : IrInstr}
    (gt : s.start env ⟨0, 0⟩ < j) (lt : j < s.stop env ⟨0, 0⟩) (here : b.instrs[j]? = some ir)
    (target : ir.target? = some n) : StaysInside s j (labelText n) := by
  obtain ⟨k, gt', lt', label⟩ := b.target_inside (b.inMethod_of_section s) gt lt here target
  have first : (objectLines b.tab b.headAst b.code k)[0]? = some (.label (labelText n)) := by
    rw [objectLines_eq (b.code_of_instrs label)]
    rfl
  have line := b.line_of_instr first
  refine ⟨defined_once line, fun q other => ?_, fun value isRet => ?_⟩
  · rw [b.label_line_unique other line]
    exact ⟨lineStart_mono gt', lineStart_mono (Nat.le_of_lt lt')⟩
  · obtain rfl := Option.some.inj (here.symm.trans isRet)
    cases target

theorem epilogue_inside_iff (s : Section b.tab b.headAst) {j : Nat} {value : Option Var}
    (here : b.instrs[j]? = some (.ret value)) :
    StaysInside s j (leaveLabel (s.info.name.text.take 63)) ↔ s.info.name.text.length ≤ 63 := by
  refine ⟨fun stays => ?_, fun fits => ?_⟩
  · have own := leaveLabel_inj (stays.epilogue value here)
    have length := congrArg List.length own
    rw [List.length_take] at length
    omega
  · rw [List.take_of_length_le fits]
    have last : b.instrs[s.stop env ⟨0, 0⟩]? = some (.leave s.info.name) := s.at_leave env ⟨0, 0⟩
    have first : (objectLines b.tab b.headAst b.code (s.stop env ⟨0, 0⟩))[0]? =
        some (.label (leaveLabel s.info.name.text)) := by
      rw [leave_lines last]
      rfl
    have line := b.line_of_instr first
    refine ⟨defined_once line, fun q other => ?_, fun _ _ => rfl⟩
    rw [b.label_line_unique other line]
    exact ⟨lineStart_mono (b.inMethod_of_section s).lt, Nat.le_refl _⟩

/-- A jump stays in its method exactly if it comes from an `if` or a `while`, or the name of the
method has at most 63 characters. -/
theorem jump_stays_inside_iff (b : Compiled env) {p : Nat} {line : AsmLine} {target : CString}
    (here : b.lines[p]? = some line) (jumps : line.jumpTo? = some target) :
    ∃ (s : Section b.tab b.headAst) (j : Nat), LineOf s j p ∧ (StaysInside s j target ↔
      ((∃ value, b.instrs[j]? = some (.ret value)) → s.info.name.text.length ≤ 63)) := by
  rcases b.instr_of_line here with ⟨-, rfl⟩ | ⟨j, d, lt, place, at'⟩
  · cases jumps
  · obtain ⟨ir, atIr, named⟩ := b.code_getElem? (List.getElem?_eq_getElem lt)
    have inside := (List.getElem?_eq_some_iff.mp at').1
    have mem := List.mem_of_getElem? at'
    rw [objectLines_eq (List.getElem?_eq_getElem lt), named] at mem
    have kind := jumpTo_generateInstr mem jumps
    have jump : ir.isJump = true := by
      rcases kind with ⟨n, target, -⟩ | ⟨value, rfl, -⟩
      · cases ir <;> first | rfl | cases target
      · rfl
    obtain ⟨s, gt, lt'⟩ := section_of_jump b.compilable.shape atIr jump
    refine ⟨s, j, ⟨gt, lt', d, place, inside⟩, ?_⟩
    rcases kind with ⟨n, label, rfl⟩ | ⟨value, rfl, rfl⟩
    · refine iff_of_true (label_inside gt lt' atIr label) ?_
      rintro ⟨value, isRet⟩
      obtain rfl := Option.some.inj (atIr.symm.trans isRet)
      cases label
    · rw [currentFuncName_inside (b.inMethod_of_section s) (Nat.le_of_lt gt) lt',
        epilogue_inside_iff s atIr]
      exact ⟨fun fits _ => fits, fun h => h ⟨value, atIr⟩⟩

end Targets

/-- A method of this name that returns, and a `main` that returns from an `if` and behind it. -/
def returning (name : Ident) : ProgramSyn :=
  let answer (v : BitVec 32) : StmtSyn := .returnExpr 1 (.integerLiteral 1 v)
  [.methodDecl ⟨1, some .integer, name, [], some (.mk 1 [] (.cons (answer 1) .nil))⟩,
    .methodDecl ⟨1, some .integer, .of "main", [], some (.mk 1 []
      (.cons (.ifThen 1 (.trueLiteral 1) (.mk 1 [] (.cons (answer 2) .nil)))
        (.cons (answer 3) .nil)))⟩]

/-- With a name of 64 characters the return jumps to a label that no line defines. -/
theorem jumps_not_inside :
    ∃ b : Compiled (.sample false),
      b.prog = returning (.of "aaaaaaaaaaaaaaaaaaaaaaaaaaaaaaaaaaaaaaaaaaaaaaaaaaaaaaaaaaaaaaaa") ∧
      ¬ JumpsStayInside b := by
  obtain ⟨checked, accepted⟩ := Fallible.isOk_iff.mp (by decide +kernel :
    (frontEnd (.sample false)
      (returning (.of "aaaaaaaaaaaaaaaaaaaaaaaaaaaaaaaaaaaaaaaaaaaaaaaaaaaaaaaaaaaaaaaa"))).isOk =
        true)
  have printed : (frontEnd (.sample false)
        (returning
          (.of "aaaaaaaaaaaaaaaaaaaaaaaaaaaaaaaaaaaaaaaaaaaaaaaaaaaaaaaaaaaaaaaa"))).toOption.map
          (fun c =>
            let target := leaveLabel (List.replicate 63 'a')
            let lines := generateObjectCode c.tab c.headAst
              (namedCode tempText (intermediateCode (.sample false) c).code)
            (lines[8]?, lines.all fun line => decide (line ≠ .label target))) =
      some (some (.jmp (.label (leaveLabel (List.replicate 63 'a')))), true) := by decide +kernel
  rw [accepted] at printed
  simp only [Except.toOption, Option.map_some, Option.some.injEq, Prod.mk.injEq, List.all_eq_true,
    decide_eq_true_eq] at printed
  obtain ⟨jump, undefined⟩ := printed
  let b := Compiled.plain rfl accepted
  refine ⟨b, rfl, fun stays => ?_⟩
  obtain ⟨s, j, -, inside⟩ := stays 8 _ _ jump rfl
  obtain ⟨q, here, -⟩ := inside.once
  exact undefined _ (List.mem_of_getElem? here) rfl

/-- The return of a method `f` goes to its epilogue. -/
theorem jump_stays_inside_f :
    ∃ (b : Compiled (.sample false)) (s : Section b.tab b.headAst) (j : Nat),
      b.prog = returning (.of "f") ∧ LineOf s j 8 ∧ StaysInside s j ".L_leave_f".toList := by
  obtain ⟨checked, accepted⟩ := Fallible.isOk_iff.mp (by decide +kernel :
    (frontEnd (.sample false) (returning (.of "f"))).isOk = true)
  have printed : (frontEnd (.sample false) (returning (.of "f"))).toOption.map (fun c =>
        let lines := generateObjectCode c.tab c.headAst
          (namedCode tempText (intermediateCode (.sample false) c).code)
        (lines[8]?, (c.headAst.filterMap methodSym?).all fun sym =>
          (c.tab.entry sym).all fun info => decide (info.name.text.length ≤ 63))) =
      some (some (.jmp (.label ".L_leave_f".toList)), true) := by decide +kernel
  rw [accepted] at printed
  simp only [Except.toOption, Option.map_some, Option.some.injEq, Prod.mk.injEq, List.all_eq_true,
    List.mem_filterMap] at printed
  obtain ⟨jump, short⟩ := printed
  let b := Compiled.plain rfl accepted
  obtain ⟨s, j, place, iff⟩ := jump_stays_inside_iff b (p := 8) jump rfl
  refine ⟨b, s, j, rfl, place, iff.mpr fun _ => ?_⟩
  have fits := short s.sym ⟨_, s.mem, rfl⟩
  have entry := s.entry
  rw [show checked.tab.entry s.sym = some s.info from entry] at fits
  simpa using fits

end Ctds
