import Ctds.Emitted
import Ctds.MethodCode

/-! The intermediate code of an accepted program: what `gen_code` emits for its sentences,
with the names the temporaries have in the end. Each method's code stands between an ENTER
and a LEAVE of its own, and PARAMs stand directly in front of their CALL. -/

namespace Ctds

open Decimal

/-- Every string is some temporary's name, whatever was renamed. -/
def TempTexts (s : OptState) : Prop :=
  (∀ k, ∃ n, s.heap k = tempText n) ∧ ∀ entry ∈ s.tmpList, ∃ n, entry.temp = tempText n

theorem strcpy_tempText {location : NamePtr} {text : CString} {heap : Nat → CString}
    (known : ∃ n, text = tempText n) (h : ∀ k, ∃ n, heap k = tempText n) (k : Nat) :
    ∃ n, strcpy location text heap k = tempText n := by
  cases location with
  | str _ => exact h k
  | temp j =>
    by_cases same : k = j
    · subst same
      simpa [strcpy] using known
    · simpa [strcpy, Function.update_of_ne same] using h k

theorem copyAll_tempText {text : CString} (known : ∃ n, text = tempText n) (list : List NamePtr)
    {heap : Nat → CString} (h : ∀ k, ∃ n, heap k = tempText n) (k : Nat) :
    ∃ n, list.foldl (fun heap location => strcpy location text heap) heap k = tempText n := by
  induction list generalizing heap with
  | nil => exact h k
  | cons location rest ih => exact ih (strcpy_tempText known h)

theorem nodeAt_eq {list : List CantApTemp} {idx : Option Nat} {i : Nat} {entry : CantApTemp}
    (h : nodeAt list idx = some (i, entry)) : idx = some i ∧ list[i]? = some entry := by
  unfold nodeAt at h
  cases idx with
  | none => cases h
  | some j =>
    simp only [Option.bind_some, Option.map_eq_some_iff, Prod.mk.injEq] at h
    obtain ⟨e, here, rfl, rfl⟩ := h
    exact ⟨rfl, here⟩

theorem checkOptimize_tempTexts {s s' : OptState} {ptr : NamePtr} (h : TempTexts s)
    (step : checkOptimize s ptr = some s') : TempTexts s' := by
  obtain ⟨heap, entries⟩ := h
  have replaced : ∀ {list : List CantApTemp} {i : Nat} {e e' : CantApTemp},
      (∀ entry ∈ list, ∃ n, entry.temp = tempText n) → (∃ n, e.temp = tempText n) →
      e'.temp = e.temp → ∀ entry ∈ list.set i e', ∃ n, entry.temp = tempText n := by
    intro list i e e' all known same entry mem
    rcases List.mem_or_eq_of_mem_set mem with mem | rfl
    · exact all entry mem
    · rw [same]
      exact known
  simp only [checkOptimize] at step
  split at step
  · split at step
    · cases step
    · next freeAt actualAt =>
      obtain ⟨-, free⟩ := nodeAt_eq freeAt
      obtain ⟨-, actual⟩ := nodeAt_eq actualAt
      have freeText := entries _ (List.mem_of_getElem? free)
      have actualText := entries _ (List.mem_of_getElem? actual)
      split at step <;> obtain rfl := Option.some.inj step
      · exact ⟨heap, replaced entries actualText rfl⟩
      · exact ⟨copyAll_tempText freeText _ heap,
          replaced (replaced entries freeText rfl) actualText rfl⟩
    · next actualAt =>
      obtain ⟨-, actual⟩ := nodeAt_eq actualAt
      obtain rfl := Option.some.inj step
      exact ⟨heap, replaced entries (entries _ (List.mem_of_getElem? actual)) rfl⟩
  · obtain rfl := Option.some.inj step
    exact ⟨heap, entries⟩

theorem checkOperands_tempTexts {operands : List NamePtr} {s s' : OptState} (h : TempTexts s)
    (steps : checkOperands operands s = some s') : TempTexts s' := by
  induction operands generalizing s with
  | nil => exact Option.some.inj steps ▸ h
  | cons ptr rest ih =>
    rw [checkOperands, Option.bind_eq_some_iff] at steps
    obtain ⟨mid, first, others⟩ := steps
    exact ih (checkOptimize_tempTexts h first) others

theorem ptr_str {x : Var} {text : CString} (h : NamePtr.str text = x.ptr) :
    ∃ y : Ident, text = y.text := by
  cases x with
  | temp n => cases h
  | user y => exact ⟨y, NamePtr.str.inj h⟩

theorem operand_cases {i : IrInstr} {text : CString} (mem : .str text ∈ i.instr.operands) :
    (∃ x : Ident, text = x.text) ∨ startsNumber text = true ∨ ∃ n, text = labelText n := by
  cases i with
  | loadval value dest | storeVal value dest =>
    simp [IrInstr.instr, Instr.operands] at mem
    grind [startsNumber_intText]
  | _ =>
    simp [IrInstr.instr, Instr.operands] at mem
    grind [startsNumber_natText, ptr_str]

theorem operand_dollar {i : IrInstr} {op : NamePtr} (mem : op ∈ i.instr.operands)
    (dollar : startsWith '$' (op.text tempText) = true) : ∃ n, op = .temp n := by
  cases op with
  | temp n => exact ⟨n, rfl⟩
  | str text =>
    rw [NamePtr.text] at dollar
    rcases operand_cases mem with ⟨x, rfl⟩ | number | ⟨n, rfl⟩
    · rw [startsWith_ident (by decide)] at dollar
      cases dollar
    · rw [startsWith_number (by decide) (by decide) number] at dollar
      cases dollar
    · cases dollar

theorem increaseTempAp_tempText {fresh : BitVec 64} {n : Nat} {list list' : List CantApTemp}
    (counted : increaseTempAp fresh (.temp n) list = some list')
    (h : ∀ entry ∈ list, ∃ n, entry.temp = tempText n) :
    ∀ entry ∈ list', ∃ n, entry.temp = tempText n := by
  induction list generalizing list' with
  | nil =>
    obtain ⟨instances, -, rfl⟩ := Option.map_eq_some_iff.mp counted
    intro entry mem
    obtain rfl := List.mem_singleton.mp mem
    exact ⟨n, rfl⟩
  | cons first rest ih =>
    intro entry mem
    rw [increaseTempAp] at counted
    split at counted
    · obtain rfl := Option.some.inj counted
      rcases List.mem_cons.mp mem with rfl | mem
      · exact h first List.mem_cons_self
      · exact h entry (List.mem_cons_of_mem _ mem)
    · obtain ⟨rest', others, rfl⟩ := Option.map_eq_some_iff.mp counted
      rcases List.mem_cons.mp mem with rfl | mem
      · exact h _ List.mem_cons_self
      · exact ih others (fun e m => h e (List.mem_cons_of_mem _ m)) entry mem

theorem countOperands_tempText {env : Env} {list list' : List CantApTemp} {operands : List NamePtr}
    (known : ∀ op ∈ operands, startsWith '$' (op.text tempText) = true → ∃ n, op = .temp n)
    (h : ∀ entry ∈ list, ∃ n, entry.temp = tempText n)
    (counted : operands.foldlM (countOperand env) list = some list') :
    ∀ entry ∈ list', ∃ n, entry.temp = tempText n := by
  induction operands generalizing list with
  | nil => exact Option.some.inj counted ▸ h
  | cons op rest ih =>
    rw [List.foldlM_cons, Option.bind_eq_bind, Option.bind_eq_some_iff] at counted
    obtain ⟨mid, first, others⟩ := counted
    refine ih (fun op mem => known op (List.mem_cons_of_mem _ mem)) ?_ others
    unfold countOperand at first
    split at first
    · next dollar =>
      obtain ⟨n, rfl⟩ := known op List.mem_cons_self dollar
      exact increaseTempAp_tempText first h
    · exact Option.some.inj first ▸ h

theorem IrInstr.isInner_iff (i : IrInstr) :
    i.isInner = true ↔
      i.instr.instruct ≠ .enter ∧ i.instr.instruct ≠ .leave ∧ i.instr.instruct ≠ .externDecl := by
  cases i with
  | binary t _ _ _ => cases t <;> simp [IrInstr.isInner, IrInstr.instr, BinaryInstr.type]
  | unary t _ _ => cases t <;> simp [IrInstr.isInner, IrInstr.instr, UnaryInstr.type]
  | _ => simp [IrInstr.isInner, IrInstr.instr]

theorem Section.inMethod {env : Env} {tab : SymbolTable} {sentences : List AstNode}
    (s : Section tab sentences) (shape : ∀ node ∈ sentences, isSentence tab node = true)
    (c : Counters) (ρ : Nat → Nat) :
    InMethod ((programCode env tab sentences c).1.map (IrInstr.named ρ)) (s.start env c)
      (s.stop env c) s.info.name.text := by
  have named : ∀ {k : Nat} {ir : IrInstr}, (programCode env tab sentences c).1[k]? = some ir →
      ((programCode env tab sentences c).1.map (IrInstr.named ρ))[k]? = some (ir.named ρ) :=
    fun here => by rw [List.getElem?_map, here]; rfl
  refine ⟨⟨_, named (s.at_enter env c), rfl, rfl⟩, ⟨_, named (s.at_leave env c), rfl, rfl⟩, ?_, ?_⟩
  · rw [Section.stop]
    omega
  · intro j instr gt lt here
    rw [List.getElem?_map, Option.map_eq_some_iff] at here
    obtain ⟨ir, atIr, rfl⟩ := here
    have inner := (s.body_emits shape env c).inner _ (s.mem_body gt lt atIr)
    obtain ⟨notEnter, notLeave, -⟩ := ir.isInner_iff.mp inner
    exact ⟨notEnter, notLeave⟩

/-- A program that reached the object code generator: what the front end made of it, and
the strings of its temporaries. Under `-opt` the pass over them has come to its end. -/
structure Compiled (env : Env) where
  prog : ProgramSyn
  checked : Checked
  heap : Nat → CString
  accepted : frontEnd env prog = .ok checked
  named : finalHeap env (intermediateCode env checked) = some heap

namespace Compiled

variable {env : Env} (b : Compiled env)

def tab : SymbolTable := b.checked.tab

def headAst : List AstNode := b.checked.headAst

/-- The instructions as `gen_code` emits them. -/
def instrs : List IrInstr := (programCode env b.tab b.headAst ⟨0, 0⟩).1

/-- The code buffer in front of `generate_object_code`. -/
def code : List (Instr CString) := namedCode b.heap (intermediateCode env b.checked).code

def lines : List AsmLine := generateObjectCode b.tab b.headAst b.code

theorem objectCode_eq : objectCode env b.checked = some b.lines := by
  simp only [objectCode, b.named, Option.map_some]
  rfl

theorem compilable : Compilable b.checked := frontEnd_compilable b.accepted

theorem intermediateCode_eq :
    intermediateCode env b.checked =
      resetCode.append env b.instrs (programCode env b.tab b.headAst ⟨0, 0⟩).2 :=
  genSentences_eq env b.checked.tab b.compilable.shape resetCode

theorem heap_tempHeap : ∃ ρ, b.heap = tempHeap ρ := by
  have named := b.named
  unfold finalHeap at named
  split at named
  · obtain ⟨s, pass, eq⟩ := Option.map_eq_some_iff.mp named
    obtain ⟨tmpList, counted, optimized⟩ := Option.bind_eq_some_iff.mp pass
    have start : TempTexts ⟨tempText, tmpList⟩ := by
      refine ⟨fun k => ⟨k, rfl⟩, ?_⟩
      rw [b.intermediateCode_eq, GenState.append, resetCode, Option.bind_some] at counted
      refine countOperands_tempText (fun op mem dollar => ?_) (by simp) counted
      obtain ⟨i, -, here⟩ := List.mem_flatMap.mp mem
      exact operand_dollar here dollar
    have final := (checkOperands_tempTexts start optimized).1
    choose ρ texts using final
    exact ⟨ρ, eq ▸ funext texts⟩
  · exact ⟨id, (Option.some.inj named).symm⟩

/-- Without optimizations nothing is renamed. -/
def plain {prog : ProgramSyn} {checked : Checked} (off : env.optimizations = false)
    (accepted : frontEnd env prog = .ok checked) : Compiled env where
  prog := prog
  checked := checked
  heap := tempText
  accepted := accepted
  named := by rw [finalHeap, if_neg (by simp [off])]

/-- The number of the temporary whose name the n-th one ends up with. -/
noncomputable def rename : Nat → Nat := b.heap_tempHeap.choose

theorem code_eq : b.code = b.instrs.map (IrInstr.named b.rename) := by
  have heap : b.heap = tempHeap b.rename := b.heap_tempHeap.choose_spec
  rw [code, b.intermediateCode_eq, heap]
  simp [GenState.append, resetCode, namedCode, IrInstr.named, Function.comp_def]

theorem code_getElem? {i : Nat} {instr : Instr CString} (here : b.code[i]? = some instr) :
    ∃ ir, b.instrs[i]? = some ir ∧ instr = ir.named b.rename := by
  rw [b.code_eq, List.getElem?_map, Option.map_eq_some_iff] at here
  obtain ⟨ir, at', eq⟩ := here
  exact ⟨ir, at', eq.symm⟩

theorem code_of_instrs {i : Nat} {ir : IrInstr} (here : b.instrs[i]? = some ir) :
    b.code[i]? = some (ir.named b.rename) := by
  rw [b.code_eq, List.getElem?_map, here]
  rfl

theorem eq_enter {i : IrInstr} (isEnter : i.instr.instruct = .enter) : ∃ f, i = .enter f := by
  cases i with
  | enter f => exact ⟨f, rfl⟩
  | binary t _ _ _ => cases t <;> cases isEnter
  | unary t _ _ => cases t <;> cases isEnter
  | _ => cases isEnter

/-- What stands between an ENTER and its LEAVE is the code of the method's body. -/
theorem section_of_inMethod {e l : Nat} {f : CString} (h : InMethod b.code e l f) :
    ∃ s : Section b.tab b.headAst, s.start env ⟨0, 0⟩ = e ∧ s.stop env ⟨0, 0⟩ = l ∧
      s.info.name.text = f := by
  obtain ⟨enter, atE, isEnter, name⟩ := h.enter
  obtain ⟨leave, atL, isLeave, -⟩ := h.leave
  obtain ⟨first, irE, rfl⟩ := b.code_getElem? atE
  obtain ⟨last, irL, rfl⟩ := b.code_getElem? atL
  obtain ⟨f', rfl⟩ := eq_enter isEnter
  obtain ⟨s, start, rfl⟩ := section_of_enter b.compilable.shape irE
  have stop : b.instrs[s.stop env ⟨0, 0⟩]? = some (.leave s.info.name) := s.at_leave env ⟨0, 0⟩
  refine ⟨s, start, ?_, Option.some.inj name⟩
  rcases Nat.lt_trichotomy (s.stop env ⟨0, 0⟩) l with before | same | behind
  · have inside : e < s.stop env ⟨0, 0⟩ := by
      rw [Section.stop, start]
      omega
    exact absurd rfl (h.body inside before (b.code_of_instrs stop)).2
  · exact same
  · have inner : last.isInner = true :=
      (s.body_emits b.compilable.shape env ⟨0, 0⟩).inner _
        (s.mem_body (start ▸ h.lt) behind irL)
    exact absurd isLeave (last.isInner_iff.mp inner).2.1

theorem inMethod_of_section (s : Section b.tab b.headAst) :
    InMethod b.code (s.start env ⟨0, 0⟩) (s.stop env ⟨0, 0⟩) s.info.name.text := by
  rw [b.code_eq]
  exact s.inMethod b.compilable.shape ⟨0, 0⟩ b.rename

end Compiled

end Ctds
