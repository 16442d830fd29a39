import Ctds.ProgramRuns
import Ctds.RewriteMeaning

/-! The compiler, from the trees of the parser to the lines of the assembler file. A method
that has a meaning in the source comes back with it, with `-opt` and without: the analyzer
keeps the meaning, the code generator follows it, and the lines simulate the code. -/

namespace Ctds

open Fallible Transition

section Compiler

variable {env : Env} {b : Compiled env}

/-- What a body must be for the code to do what it means: no two variables share a name, the
constants fit, and no variable is taken for its address. -/
structure PlainBody (env : Env) (tab : SymbolTable) (block : AstNode) : Prop
    extends KeptBody env block where
  apart : NamesApart tab (leafIds block)
  shifts : LiteralShifts env (subnodes block)

theorem Compiled.sentences (b : Compiled env) {ps : ParserState} (parsed : parse b.prog = .ok ps) :
    b.tab = ps.tab ∧ b.headAst = ps.headAst.map (rewriteSentence env ps.tab) ∧
      ∀ node ∈ ps.headAst, isSentence ps.tab node = true := by
  obtain ⟨ps', parsed', tab, analyzed⟩ := frontEnd_ok b.accepted
  obtain rfl := Except.ok.inj (parsed.symm.trans parsed')
  exact ⟨tab, analyzed_sentences parsed analyzed⟩

theorem Section.parsed (s : Section b.tab b.headAst) {ps : ParserState}
    (parsed : parse b.prog = .ok ps) :
    ∃ body, .methodDecl s.line s.sym body ∈ ps.headAst ∧ s.block = rewrite env body := by
  obtain ⟨tab, head, shape⟩ := b.sentences parsed
  have rewritten : ∀ {node : AstNode}, node ∈ b.headAst →
      node ∈ ps.headAst.map (rewriteSentence env ps.tab) := fun mem => head ▸ mem
  obtain ⟨node, old, eq⟩ := List.mem_map.mp (rewritten s.mem)
  obtain ⟨info, body, entry, rfl, block⟩ := rewriteSentence_methodDecl (shape node old) eq
  rw [← tab] at entry
  have same : info = s.info := Option.some.inj (entry.symm.trans s.entry)
  refine ⟨body, old, ?_⟩
  rw [block, same, rewriteBody, s.own]
  rfl

/-- Calls mean after the analyzer what they meant before it. -/
theorem callMeaning_compiled {W : Type} (b : Compiled env) {ps : ParserState}
    (parsed : parse b.prog = .ok ps)
    (plain : ∀ line sym block, .methodDecl line sym block ∈ ps.headAst →
      PlainBody env ps.tab block) (library : Callee W) (fuel depth : Nat) :
    AnswersMore (callMeaning ps.tab ps.headAst library fuel depth)
      (callMeaning b.tab b.headAst library fuel depth) := by
  obtain ⟨tab, head, shape⟩ := b.sentences parsed
  rw [tab, head]
  exact callMeaning_rewritten library fuel depth shape fun line sym block mem =>
    (plain line sym block mem).toKeptBody

theorem plain_follow {W : Type} (b : Compiled env) {ps : ParserState}
    (parsed : parse b.prog = .ok ps)
    (plain : ∀ line sym block, .methodDecl line sym block ∈ ps.headAst →
      PlainBody env ps.tab block) : BodiesFollow b W := by
  have tab := (b.sentences parsed).1
  refine bodies_follow (fun s => ?_) (fun s => ?_) W
  · obtain ⟨body, mem, block⟩ := s.parsed parsed
    have apart := (plain _ _ _ mem).apart
    rw [← tab] at apart
    rw [block]
    exact apart.rewritten
  · obtain ⟨body, mem, block⟩ := s.parsed parsed
    rw [block]
    exact (plain _ _ _ mem).shifts.rewritten

/-- The object code does what the program means: a call of a method that has a meaning, at its
label, comes back with the answer, the stack and the world that the meaning gives. A call
that uses a global variable has none. -/
theorem program_runs {W : Type} {size : Nat} {ext : ExternIo W} {library : Callee W}
    {ps : ParserState} (parsed : parse b.prog = .ok ps)
    (plain : ∀ line sym block, .methodDecl line sym block ∈ ps.headAst →
      PlainBody env ps.tab block) (runnable : Runnable b size) (provides : ext.Provides library)
    {fuel depth : Nat} {g : Ident} {args : List Value} {answer : Option Value} {w w' : W}
    (means : callMeaning ps.tab ps.headAst library fuel depth g.text args w = some (answer, w'))
    {pc : Nat} (label : findLabel b.lines g.text = some pc) {m : Machine}
    (few : args.length ≤ 6) (passed : Passed args m) (aligned : m.rsp % 16 = 8)
    (room : depth * (size + 16) ≤ m.rsp) (high : m.rsp ≤ 2 ^ 64) (low : 0 ≤ m.rbp)
    (limit : m.rbp < 2 ^ 64) :
    ∃ m', Reaches (ioStep b.lines ext) (⟨pc, m⟩, w) (⟨(m.mem m.rsp).toNat, m'⟩, w') ∧
      Back answer m m' := by
  have compiled := callMeaning_compiled b parsed plain library fuel depth _ _ _ _ means
  have follow := plain_follow (W := W) b parsed plain
  cases depth with
  | zero => cases means
  | succ depth =>
    have serves := calls_serve runnable follow provides fuel depth
    refine label_runs runnable follow serves (Int.natCast_nonneg _) rfl compiled label few passed
      aligned ?_ high low limit
    have more : ((depth + 1 : Nat) : Int) * (size + 16) = depth * (size + 16) + (size + 16) := by
      rw [Int.natCast_add, Int.add_mul]
      simp
    rw [more] at room
    push_cast
    omega

end Compiler

def methodPlace (code : List (Instr CString)) (e : Nat) : Option (Nat × Nat × CString) :=
  match code[e]? with
  | some ⟨.enter, some f, _, _⟩ => some (e, endFuncIdx code f e, f)
  | _ => none

/-- The places of the methods in the code, as the first pass finds them. -/
def methodPlaces (code : List (Instr CString)) : List (Nat × Nat × CString) :=
  (List.range code.length).filterMap (methodPlace code)

theorem InMethod.mem_places {code : List (Instr CString)} {e l : Nat} {f : CString}
    (method : InMethod code e l f) : (e, l, f) ∈ methodPlaces code := by
  obtain ⟨⟨type, var1, var2, reg⟩, here, isEnter, name⟩ := method.enter
  dsimp only at isEnter name
  subst isEnter name
  refine List.mem_filterMap.mpr ⟨e, List.mem_range.mpr (List.getElem?_eq_some_iff.mp here).1, ?_⟩
  simp [methodPlace, here, method.endFuncIdx]

/-- The names of a method: those of the first pass, those with a slot, the parameters. -/
def methodFits (tab : SymbolTable) (headAst : List AstNode) (code : List (Instr CString))
    (size : Nat) : Nat × Nat × CString → Bool
  | (e, l, f) =>
    let counted := (firstPassNames (codeRange code e l)).toFinset
    let slots := (methodNames tab headAst code e f l).toFinset
    let params := (argNames (funcArgs tab headAst f)).toFinset
    decide (counted.card ≤ maxVarsPerFunction ∧ slots.card ≤ maxVarsPerFunction ∧
      (params \ counted).card ≤ (counted \ slots).card + counted.card % 2 ∧
      frameSize code e f ≤ size ∧ f.length ≤ 63)

def runnableTest (tab : SymbolTable) (headAst : List AstNode) (code : List (Instr CString))
    (size : Nat) : Bool :=
  decide (code.length ≤ maxCodeSize) &&
    decide ((generateObjectCode tab headAst code).length < 2 ^ 64) &&
    (methodPlaces code).all (methodFits tab headAst code size) &&
    (List.range (code.length + 1)).all fun i => decide (argsBefore code i ≤ 6)

theorem argsBefore_behind {code : List (Instr CString)} {i : Nat} (behind : code.length < i) :
    argsBefore code i = 0 := by
  cases i with
  | zero => rfl
  | succ i =>
    rw [argsBefore, List.getElem?_eq_none (by omega)]

theorem Runnable.of_test {env : Env} {b : Compiled env} {size : Nat}
    (test : runnableTest b.tab b.headAst b.code size = true) : Runnable b size := by
  simp only [runnableTest, Bool.and_eq_true, decide_eq_true_eq, List.all_eq_true,
    List.mem_range] at test
  obtain ⟨⟨⟨short, lines⟩, methods⟩, few⟩ := test
  have fits : ∀ e l f, InMethod b.code e l f → (countedNames b e f).card ≤ maxVarsPerFunction ∧
      (slotNames b e l f).card ≤ maxVarsPerFunction ∧
      (paramNames b f \ countedNames b e f).card ≤
        (countedNames b e f \ slotNames b e l f).card + (countedNames b e f).card % 2 ∧
      frameSize b.code e f ≤ size ∧ f.length ≤ 63 := fun e l f method => by
    have here := methods _ method.mem_places
    rw [methodFits, decide_eq_true_eq, ← method.endFuncIdx] at here
    rwa [← method.endFuncIdx]
  have size : programSize env b.tab b.headAst = b.code.length := by
    rw [← codeWrites_length, codeWrites, List.length_range, Compiled.code, namedCode,
      List.length_map]
  refine ⟨(tables_fit_iff b).mpr ⟨size ▸ short, fun e l f method => ?_⟩, lines, ?_, ?_, ?_, ?_⟩
  · exact ⟨(fits e l f method).1, (fits e l f method).2.1⟩
  · exact fun e l f method => (frame_covers_iff b method).mpr (fits e l f method).2.2.1
  · exact fun e l f method => (fits e l f method).2.2.2.1
  · exact fun e l f method => (fits e l f method).2.2.2.2
  · intro i
    by_cases inside : i < b.code.length + 1
    · exact few i inside
    · rw [argsBefore_behind (by omega)]
      exact Nat.zero_le _

/-- An operator that takes a variable for its address. -/
def shiftsVariable (env : Env) : AstNode → Bool
  | .common _ _ op _ (.leaf line (.id p)) => (divisionShift env op (.leaf line (.id p))).isSome
  | _ => false

theorem literalShifts_iff {env : Env} {nodes : List AstNode} :
    LiteralShifts env nodes ↔ ∀ node ∈ nodes, shiftsVariable env node = false := by
  constructor
  · intro h node mem
    unfold shiftsVariable
    split
    · next line arity op left line' p =>
      exact Bool.eq_false_iff.mpr fun shifted => h _ _ _ _ _ mem shifted line' p rfl
    · rfl
  · rintro h line arity op left right mem shifted line' p rfl
    have here := h _ mem
    rw [shiftsVariable, shifted] at here
    cases here

instance (env : Env) (nodes : List AstNode) : Decidable (LiteralShifts env nodes) :=
  decidable_of_iff _ literalShifts_iff.symm

instance (env : Env) (tab : SymbolTable) (block : AstNode) : Decidable (PlainBody env tab block) :=
  decidable_of_iff (KeptBody env block ∧ NamesApart tab (leafIds block) ∧
      LiteralShifts env (subnodes block))
    ⟨fun ⟨kept, apart, shifts⟩ => ⟨kept, apart, shifts⟩,
      fun h => ⟨h.toKeptBody, h.apart, h.shifts⟩⟩

def plainSentence (env : Env) (tab : SymbolTable) : AstNode → Bool
  | .methodDecl _ _ block => decide (PlainBody env tab block)
  | _ => true

def printerIo : ExternIo (List Word) := fun name m printed =>
  if name = printName.text then some (m, printed ++ [m.reg .rdi]) else none

theorem printer_provides : printerIo.Provides printer := by
  intro name args answer w w' m means few passed aligned
  unfold printer at means
  split at means
  · next v =>
    simp only [Option.ite_none_right_eq_some, Option.some.injEq, Prod.mk.injEq] at means
    obtain ⟨rfl, rfl, rfl⟩ := means
    have inRdi : m.reg .rdi = v := passed 0 (.int v) .rdi rfl rfl
    exact ⟨m, by rw [printerIo, if_pos rfl, inRdi], rfl, rfl, fun _ _ => rfl,
      fun u eq => by cases eq⟩
  · cases means

def atEntry : Machine where
  reg _ := 0
  rsp := 4088
  rbp := 0
  mem _ := 0
  flags := ⟨false, false, false⟩

/-- With `-opt`, where `2 + 1` is folded and the division is a shift, the program prints 3. -/
theorem factorial_runs :
    ∃ (b : Compiled (.sample true)) (pc : Nat) (m' : Machine), b.prog = factorial ∧
      findLabel b.lines "main".toList = some pc ∧
      Reaches (ioStep b.lines printerIo) (⟨pc, atEntry⟩, []) (⟨0, m'⟩, [3]) := by
  obtain ⟨ps, parsed⟩ := isOk_iff.mp (by decide +kernel : (parse factorial).isOk = true)
  obtain ⟨checked, accepted⟩ := isOk_iff.mp (by decide +kernel :
    (frontEnd (.sample true) factorial).isOk = true)
  obtain ⟨b, prog, rfl⟩ := Compiled.exists_of_accepted accepted fun _ _ _ => rfl
  have trees : (parse factorial).toOption.map (fun ps =>
        (ps.headAst.all (plainSentence (.sample true) ps.tab),
          callMeaning ps.tab ps.headAst printer 0 5 "main".toList [] [])) =
      some (true, some (none, [3])) := by decide +kernel
  rw [parsed] at trees
  obtain ⟨plain, means⟩ := Prod.mk.inj (Option.some.inj trees)
  have facts : (frontEnd (.sample true) factorial).toOption.bind (fun c =>
        (finalHeap (.sample true) (intermediateCode (.sample true) c)).map fun heap =>
          let code := namedCode heap (intermediateCode (.sample true) c).code
          (runnableTest c.tab c.headAst code 32,
            findLabel (generateObjectCode c.tab c.headAst code) "main".toList)) =
      some (true, some 42) := by decide +kernel
  rw [accepted, Except.toOption, Option.bind_some, b.named, Option.map_some] at facts
  obtain ⟨test, label⟩ := Prod.mk.inj (Option.some.inj facts)
  have bodies : ∀ line sym block, .methodDecl line sym block ∈ ps.headAst →
      PlainBody (.sample true) ps.tab block := fun line sym block mem =>
    of_decide_eq_true (List.all_eq_true.mp plain _ mem)
  obtain ⟨m', reaches, -⟩ := program_runs (b := b) (g := .of "main") (m := atEntry) (prog ▸ parsed)
    bodies (Runnable.of_test test) printer_provides means label (by decide)
    (fun i v r found => by cases found) (by decide) (by decide) (by decide) (by decide) (by decide)
  exact ⟨b, 42, m', prog, label, reaches⟩

end Ctds
