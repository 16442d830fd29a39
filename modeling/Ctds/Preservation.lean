import Ctds.TypedRuns

/-! Without optimizations a method's code has the meaning of its body in every run that
finds 0 or 1 in the bool variables it reads. Bool and int variables of one name share a
word, and a bool variable can then hold more than a bit, where AND is not `&&`. -/

namespace Ctds

open Transition Word Fallible

/-- The code that `gen_code` leaves for these sentences. -/
def emittedCode (env : Env) (tab : SymbolTable) (sentences : List AstNode) :
    List (Instr CString) :=
  namedCode tempText (genSentences env tab sentences resetCode).code

theorem emittedCode_eq (env : Env) {tab : SymbolTable} {sentences : List AstNode}
    (shape : ∀ node ∈ sentences, isSentence tab node = true) :
    emittedCode env tab sentences = irCode (programCode env tab sentences ⟨0, 0⟩).1 := by
  rw [emittedCode, genSentences_eq env tab shape]
  simp only [namedCode, GenState.append, resetCode, List.nil_append, List.map_map, irCode,
    GenState.counters]
  rfl

section Body

variable (env : Env) {tab : SymbolTable} {sentences : List AstNode} (s : Section tab sentences)
  (oracle : Oracle)

/-- The code between ENTER and LEAVE stops with the same variables, events and return. -/
def Followed (store : Store) (s' : SourceState) (completion : Completion) : Prop :=
  let code := emittedCode env tab sentences
  ∃ t, Reaches (irStep code oracle) ⟨s.start env ⟨0, 0⟩ + 1, store, [], []⟩ t ∧
    irStep code oracle t = none ∧ irResult code t = some completion ∧
    t.events = s'.events ∧ Agrees t.store s'.store

/-- Every bool variable that the run reads holds 0 or 1 when it is read. -/
def ReadsTruthValues (fuel : Nat) (store : Store) : Prop :=
  (runStmt tab true oracle fuel s.block ⟨store, []⟩).isSome = true

variable {env s oracle}

theorem followed_of_typed (off : env.optimizations = false)
    (shape : ∀ node ∈ sentences, isSentence tab node = true) (methods : tab.MethodsOk)
    {methodReturnType : RetType}
    (accepted : acceptedOrNull env tab methodReturnType s.block = true)
    (answers : OracleTyped tab oracle) {fuel : Nat} {store : Store} {s' : SourceState}
    {completion : Completion}
    (typed : runStmt tab true oracle fuel s.block ⟨store, []⟩ = some (s', completion)) :
    Followed env s oracle store s' completion := by
  have here := shape _ s.mem
  rw [isSentence, Bool.and_eq_true] at here
  have unique : LabelsUnique (programCode env tab sentences ⟨0, 0⟩).1 :=
    (programCode_labels shape _).labelsUnique
  have arrives := stmtCode_runs unique off methods answers fuel s.block
    (isStmtOrNull_of_branch here.2) accepted _ _ store ⟨store, []⟩ s' completion
    (s.placed env ⟨0, 0⟩).left.tail (fun _ => rfl) typed
  rw [Followed, emittedCode_eq env shape]
  cases completion with
  | normal =>
    obtain ⟨store', reaches, agrees⟩ := arrives
    obtain ⟨final, result⟩ := irStep_leave oracle (s := ⟨_, store', [], s'.events⟩)
      (irCode_getElem? (s.at_leave env ⟨0, 0⟩))
    exact ⟨_, reaches, final, result, rfl, agrees⟩
  | returned value => exact arrives

/-- A run that reads truth values in its bool variables is followed by the code; and where
no name belongs to a bool variable and to another one, every run does. -/
theorem gen_code_preserves (off : env.optimizations = false)
    (shape : ∀ node ∈ sentences, isSentence tab node = true) (methods : tab.MethodsOk)
    {methodReturnType : RetType}
    (accepted : acceptedOrNull env tab methodReturnType s.block = true)
    (answers : OracleTyped tab oracle) {fuel : Nat} {store : Store} {s' : SourceState}
    {completion : Completion}
    (ran : runStmt tab false oracle fuel s.block ⟨store, []⟩ = some (s', completion)) :
    (ReadsTruthValues s oracle fuel store → Followed env s oracle store s' completion) ∧
      (NamesUniform tab (leafIds s.block) → BoolsHold tab (leafIds s.block) store →
        AnswersBits tab oracle → ReadsTruthValues s oracle fuel store) := by
  have here := shape _ s.mem
  rw [isSentence, Bool.and_eq_true] at here
  have body := isStmtOrNull_of_branch here.2
  refine ⟨fun reads => ?_, fun uniform holds bits => ?_⟩
  · obtain ⟨result, typed⟩ := Option.isSome_iff_exists.mp reads
    have same := runStmt_refined tab oracle fuel s.block ⟨store, []⟩ result typed
    rw [ran, Option.some.injEq] at same
    subst same
    exact followed_of_typed off shape methods accepted answers typed
  · obtain ⟨typed, -⟩ := runStmt_typed off uniform methods bits fuel s.block body accepted
      (fun _ mem => mem) ⟨store, []⟩ s' completion holds ran
    exact Option.isSome_iff_exists.mpr ⟨_, typed⟩

end Body

/-- A program that is one bool method. -/
def boolMain (body : BlockSyn) : ProgramSyn :=
  [.methodDecl ⟨9, some .bool, .of "main", [], some body⟩]

def bVar : Ident := .of "b"

/-- `bool b = true; { integer b = 2; } return b && true;` -/
def mixedNames : BlockSyn :=
  .mk 9 [⟨2, .bool, bVar, some (.trueLiteral 2)⟩]
    (.cons (.block (.mk 5 [⟨4, .integer, bVar, some (.integerLiteral 4 2)⟩] .nil))
    (.cons (.returnExpr 6 (.binary 6 .and (.id 6 bVar) (.trueLiteral 6))) .nil))

/-- `bool b = true; while (b && true) { b = !b; } return b;` -/
def uniformNames : BlockSyn :=
  .mk 9 [⟨2, .bool, bVar, some (.trueLiteral 2)⟩]
    (.cons (.whileLoop 5 (.binary 3 .and (.id 3 bVar) (.trueLiteral 3))
      (.mk 5 [] (.cons (.assign 4 bVar (.neg 4 (.id 4 bVar))) .nil)))
    (.cons (.returnExpr 6 (.id 6 bVar)) .nil))

/-- The one method of a program. -/
def onlyMethod (sentences : List AstNode) : Option (IdPtr × AstNode) :=
  match sentences with
  | [.methodDecl _ sym block] => some (sym, block)
  | _ => none

theorem section_of_only {tab : SymbolTable} {sentences : List AstNode} {sym : IdPtr}
    {block : AstNode} {info : SymbolInfo} (only : onlyMethod sentences = some (sym, block))
    (entry : tab.entry sym = some info) (own : info.methodView.isExtern = false) :
    ∃ s : Section tab sentences, s.before = [] ∧ s.block = block := by
  unfold onlyMethod at only
  split at only
  · next line sym' block' =>
    obtain ⟨rfl, rfl⟩ := Prod.mk.inj (Option.some.inj only)
    exact ⟨⟨[], line, sym', block', [], info, rfl, entry, own⟩, rfl, rfl⟩
  · cases only

def zeroes : Store := fun _ => 0

def answersZero : Oracle := fun _ _ _ => 0

/-- The runs of a program that is one method: whether the method is extern, its body
accepted and the run typed, how the run ends, and whether and how the code has stopped
after `n` steps. -/
def bothRuns (fuel n : Nat) (checked : Checked) :
    Option (List Bool × Option Completion × Option (Bool × Option Completion)) :=
  let code := emittedCode (.sample false) checked.tab checked.headAst
  (onlyMethod checked.headAst).bind fun (sym, block) =>
    (checked.tab.entry sym).map fun info =>
      ([info.methodView.isExtern, stmtAccepted (.sample false) checked.tab .bool block,
        (runStmt checked.tab true answersZero fuel block ⟨zeroes, []⟩).isSome],
        (runStmt checked.tab false answersZero fuel block ⟨zeroes, []⟩).map Prod.snd,
        (run (irStep code answersZero) n ⟨1, zeroes, [], []⟩).map fun t =>
          ((irStep code answersZero t).isNone, irResult code t))

theorem bothRuns_section {checked : Checked} {fuel n : Nat} {ok typed : Bool}
    {ended : Option Completion} {stopped : Option (Bool × Option Completion)}
    (facts : bothRuns fuel n checked = some ([false, ok, typed], ended, stopped)) :
    ∃ s : Section checked.tab checked.headAst, s.start (.sample false) ⟨0, 0⟩ = 0 ∧
      stmtAccepted (.sample false) checked.tab .bool s.block = ok ∧
      (runStmt checked.tab true answersZero fuel s.block ⟨zeroes, []⟩).isSome = typed ∧
      (runStmt checked.tab false answersZero fuel s.block ⟨zeroes, []⟩).map Prod.snd = ended ∧
      ((run (irStep (emittedCode (.sample false) checked.tab checked.headAst) answersZero) n
        ⟨1, zeroes, [], []⟩).map fun t =>
          ((irStep (emittedCode (.sample false) checked.tab checked.headAst) answersZero t).isNone,
            irResult (emittedCode (.sample false) checked.tab checked.headAst) t)) = stopped := by
  obtain ⟨⟨sym, block⟩, only, rest⟩ := Option.bind_eq_some_iff.mp facts
  obtain ⟨info, entry, eq⟩ := Option.map_eq_some_iff.mp rest
  simp only [Prod.mk.injEq, List.cons.injEq, and_true] at eq
  obtain ⟨⟨own, rfl, rfl⟩, rfl, rfl⟩ := eq
  obtain ⟨s, before, rfl⟩ := section_of_only only entry own
  exact ⟨s, by rw [Section.start, before]; rfl, rfl, rfl, rfl, rfl⟩

theorem answersZero_typed (tab : SymbolTable) : OracleTyped tab answersZero :=
  fun _ _ _ _ _ _ _ _ => .inl rfl

theorem zeroes_hold (tab : SymbolTable) (ids : List IdPtr) : BoolsHold tab ids zeroes :=
  fun _ _ _ _ _ => .inl rfl

/-- The body above returns true; its code returns `2 AND 1`, which is false. -/
theorem gen_code_not_preserves :
    ∃ (checked : Checked) (s : Section checked.tab checked.headAst) (s' : SourceState)
      (completion : Completion),
      frontEnd (.sample false) (boolMain mixedNames) = .ok checked ∧
      stmtAccepted (.sample false) checked.tab .bool s.block = true ∧
      OracleTyped checked.tab answersZero ∧ BoolsHold checked.tab (leafIds s.block) zeroes ∧
      runStmt checked.tab false answersZero 0 s.block ⟨zeroes, []⟩ = some (s', completion) ∧
      ¬ Followed (.sample false) s answersZero zeroes s' completion := by
  obtain ⟨checked, accepted⟩ := isOk_iff.mp (by decide +kernel :
    (frontEnd (.sample false) (boolMain mixedNames)).isOk = true)
  have facts : (frontEnd (.sample false) (boolMain mixedNames)).toOption.bind (bothRuns 0 7) =
      some ([false, true, false], some (.returned (some 1)),
        some (true, some (.returned (some 0)))) := by decide +kernel
  rw [accepted] at facts
  obtain ⟨s, start, ok, -, ended, stopped⟩ := bothRuns_section facts
  obtain ⟨⟨s', completion⟩, ran, returned⟩ := Option.map_eq_some_iff.mp ended
  obtain ⟨t, reached, final⟩ := Option.map_eq_some_iff.mp stopped
  obtain ⟨stop, result⟩ := Prod.mk.inj final
  refine ⟨checked, s, s', completion, accepted, ok, answersZero_typed _, zeroes_hold _ _, ran, ?_⟩
  rintro ⟨t', reaches, stop', result', -⟩
  rw [start] at reaches
  obtain rfl : t' = t :=
    reaches.final_unique stop' ⟨7, reached⟩ (Option.isNone_iff_eq_none.mp stop)
  obtain rfl : completion = .returned (some 1) := returned
  rw [result] at result'
  exact absurd result' (by decide)

/-- The loop above reads truth values only, in its code as in its body. -/
theorem gen_code_preserves_loop :
    ∃ (checked : Checked) (s : Section checked.tab checked.headAst) (s' : SourceState)
      (completion : Completion),
      frontEnd (.sample false) (boolMain uniformNames) = .ok checked ∧
      runStmt checked.tab false answersZero 1 s.block ⟨zeroes, []⟩ = some (s', completion) ∧
      completion = .returned (some 0) ∧
      Followed (.sample false) s answersZero zeroes s' completion := by
  obtain ⟨checked, accepted⟩ := isOk_iff.mp (by decide +kernel :
    (frontEnd (.sample false) (boolMain uniformNames)).isOk = true)
  have facts : (frontEnd (.sample false) (boolMain uniformNames)).toOption.bind (bothRuns 1 0) =
      some ([false, true, true], some (.returned (some 0)), some (false, none)) := by decide +kernel
  rw [accepted] at facts
  obtain ⟨s, -, ok, typed, ended, -⟩ := bothRuns_section facts
  obtain ⟨⟨s', completion⟩, ran, returned⟩ := Option.map_eq_some_iff.mp ended
  have compilable := frontEnd_compilable accepted
  exact ⟨checked, s, s', completion, accepted, ran, returned,
    (gen_code_preserves rfl compilable.shape compilable.wf.methods (acceptedOrNull_of_accepted ok)
      (answersZero_typed _) ran).1 typed⟩

end Ctds
