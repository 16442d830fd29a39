import Ctds.Activations
import Ctds.Shadowing

/-! Variables declared at top level. Each method keeps them in a slot of its own frame, so a
method finds in one what the same activation stored there last, and nothing else: not what
other methods or other activations stored, and not the initialiser, whose code stands
outside every method. -/

namespace Ctds

open Decimal FirstSeen Transition Fallible

def SymbolInfo.withName (name : Ident) : SymbolInfo → SymbolInfo
  | id _ type => id name type
  | methodDecl method => methodDecl { method with name := name }

def SymbolTable.renamed (tab : SymbolTable) (p : IdPtr) (name : Ident) : SymbolTable :=
  { tab with ids := tab.ids.modify p fun cell => { cell with info := cell.info.withName name } }

namespace IrInstr

/-- The operands whose slots the lines read. A LOAD has no lines. -/
def sources : IrInstr → List Var
  | store source _ => [source]
  | binary _ left right _ => [left, right]
  | shiftRight left _ _ | unary _ left _ => [left]
  | jmpf condition _ => [condition]
  | param arg => [arg]
  | ret value => value.toList
  | _ => []

def storedTo? : IrInstr → Option Ident
  | store _ dest | storeVal _ dest => some dest
  | _ => none

end IrInstr

/-- A variable declared at top level. -/
structure GlobalVar {env : Env} (b : Compiled env) where
  sym : IdPtr
  info : SymbolInfo
  entry : b.tab.entry sym = some info
  declared : ∃ line arity leafLine right,
    AstNode.common line arity .decl (.leaf leafLine (.id sym)) right ∈ b.headAst

section Sharing

variable {env : Env} {b : Compiled env} (g : GlobalVar b)

namespace GlobalVar

def name : Ident := g.info.name

/-- The code if the variable had another name: the operands that differ are the variable. -/
def marked : List IrInstr :=
  let other : Ident := if g.name = .of "a" then .of "b" else .of "a"
  (programCode env (b.tab.renamed g.sym other) b.headAst ⟨0, 0⟩).1

/-- Instruction `i` reads the variable. -/
def ReadAt (i : Nat) : Prop :=
  (g.marked[i]?).map IrInstr.sources ≠ (b.instrs[i]?).map IrInstr.sources

/-- Instruction `i` stores into the variable. -/
def StoredAt (i : Nat) : Prop :=
  (b.instrs[i]?).bind IrInstr.storedTo? = some g.name ∧
    (g.marked[i]?).bind IrInstr.storedTo? ≠ some g.name

end GlobalVar

/-- The machine is in a line of instruction `i`, which is one of the method. -/
structure InLine (s : Section b.tab b.headAst) (i : Nat) (c : Config) : Prop where
  gt : s.start env ⟨0, 0⟩ < i
  lt : i < s.stop env ⟨0, 0⟩
  line : ∃ d, c.pc = lineStart b.tab b.headAst b.code i + d ∧
    d < (objectLines b.tab b.headAst b.code i).length

namespace GlobalVar

/-- The machine is about to move `v` from `%rax` into the variable's slot. -/
def Stores (v : Word) (c : Config) : Prop :=
  ∃ i, g.StoredAt i ∧ c.pc = lineStart b.tab b.headAst b.code i + 1 ∧ c.machine.reg .rax = v

/-- The same for any variable of this name. -/
def StoresNamesake (c : Config) : Prop :=
  ∃ i, (b.instrs[i]?).bind IrInstr.storedTo? = some g.name ∧
    c.pc = lineStart b.tab b.headAst b.code i + 1

variable (ext : Extern) (start : Config)

/-- The last store before step `n` was made in step `k`, whatever method made it. -/
structure LastStore (k n : Nat) (v : Word) : Prop where
  before : k < n
  stores : ∃ c, run (asmStep b.lines ext) k start = some c ∧ g.Stores v c
  last : ∀ m c w, k < m → m < n → run (asmStep b.lines ext) m start = some c → ¬ g.Stores w c

/-- What is read after `n` steps is what was last stored, or else the initial value. -/
def SharedAt (initial : Word) (n : Nat) : Prop :=
  ∀ s i c, run (asmStep b.lines ext) n start = some c → InLine s i c → g.ReadAt i →
    (∀ k v, g.LastStore ext start k n v → valueIn (slotMapOf b s) c.machine g.name.text = v) ∧
    ((∀ k c v, k < n → run (asmStep b.lines ext) k start = some c → ¬ g.Stores v c) →
      valueIn (slotMapOf b s) c.machine g.name.text = initial)

/-- What is read after `n` steps was stored last by the same activation: its `%rbp` is `base`
and stays on the stack. Since then it has not stored into a namesake, and its frame covered
the slot whenever it pushed a word or made a call. -/
structure OwnStore (s : Section b.tab b.headAst) (k n : Nat) (v : Word) (base : Int) : Prop where
  last : g.LastStore ext start k n v
  stored : ∀ c, run (asmStep b.lines ext) k start = some c → c.machine.rbp = base
  reads : ∀ c, run (asmStep b.lines ext) n start = some c → c.machine.rbp = base
  lasts : ∀ m c, k < m → m ≤ n → run (asmStep b.lines ext) m start = some c → c.machine.rsp ≤ base
  alone : ∀ m c, k < m → m < n → run (asmStep b.lines ext) m start = some c →
    c.machine.rbp = base → ¬ g.StoresNamesake c
  covered : ∀ m c line, k < m → m < n → run (asmStep b.lines ext) m start = some c →
    c.machine.rbp = base → b.lines[c.pc]? = some line → line.pushes = true →
    c.machine.rsp ≤ base + slotOf (slotMapOf b s) g.name.text

end GlobalVar

theorem store_code {i : Nat} {x : Ident} (stored : (b.instrs[i]?).bind IrInstr.storedTo? = some x) :
    ∃ ir var1, b.instrs[i]? = some ir ∧ ir.isInner = true ∧
      b.code[i]? = some ⟨.store, var1, none, some x.text⟩ ∧
      (objectLines b.tab b.headAst b.code i).length = 2 := by
  obtain ⟨ir, here, isStore⟩ := Option.bind_eq_some_iff.mp stored
  have code := b.code_of_instrs here
  cases ir with
  | store source dest =>
    obtain rfl := Option.some.inj isStore
    rw [named_store] at code
    exact ⟨_, _, here, rfl, code, by rw [objectLines_eq code]; rfl⟩
  | storeVal v dest =>
    obtain rfl := Option.some.inj isStore
    exact ⟨_, _, here, rfl, code, by rw [objectLines_eq code]; rfl⟩
  | _ => cases isStore

theorem stored_of_reg {i : Nat} {x : Ident} {instr : Instr CString} (here : b.code[i]? = some instr)
    (reg : instr.reg = some x.text) : (b.instrs[i]?).bind IrInstr.storedTo? = some x := by
  obtain ⟨ir, atIr, rfl⟩ := b.code_getElem? here
  rw [atIr, Option.bind_some]
  have temp : ∀ n, some (tempText (b.rename n)) ≠ some x.text := fun n same =>
    tempText_ne_ident _ x (Option.some.inj same)
  cases ir with
  | store source dest =>
    rw [named_store] at reg
    exact congrArg some (Ident.ext_text (Option.some.inj reg))
  | storeVal v dest => exact congrArg some (Ident.ext_text (Option.some.inj reg))
  | loadval v dest | call f dest => exact absurd reg (temp dest)
  | binary t left right dest =>
    rw [named_binary] at reg
    exact absurd reg (temp dest)
  | shiftRight left count dest =>
    rw [named_shiftRight] at reg
    exact absurd reg (temp dest)
  | unary t left dest =>
    rw [named_unary] at reg
    exact absurd reg (temp dest)
  | jmpf condition n =>
    rw [named_jmpf] at reg
    exact absurd (Option.some.inj reg) (labelText_ne_ident n x)
  | _ => cases reg

theorem store_lines {e l i : Nat} {f : CString} {x : Ident} {var1 : Option CString}
    (method : InMethod b.code e l f) (gt : e < i) (lt : i < l)
    (here : b.code[i]? = some ⟨.store, var1, none, some x.text⟩) :
    x.text ∈ methodNames b.tab b.headAst b.code e f l ∧
      ∃ src, objectLines b.tab b.headAst b.code i = [.movqToReg src .rax,
        .movqFromReg .rax (.slot
        (slotOffset (methodNames b.tab b.headAst b.code e f l) x.text))] := by
  obtain ⟨p, k, -, lines⟩ := objectLines_inside b.tab b.headAst method gt lt here
  refine ⟨slotOperands_subset method gt lt here ?_,
    operandFor (methodNames b.tab b.headAst b.code e f l) var1, ?_⟩
  · exact List.mem_append_right _ (operandNames_user x ▸ List.mem_singleton_self _)
  · rw [lines, ← operandFor_user]
    rfl

theorem slotOf_method {s : Section b.tab b.headAst} {name : CString}
    (mem : name ∈ methodNames b.tab b.headAst b.code (s.start env ⟨0, 0⟩) s.info.name.text
      (s.stop env ⟨0, 0⟩)) :
    slotOf (slotMapOf b s) name =
      slotOffset (methodNames b.tab b.headAst b.code (s.start env ⟨0, 0⟩)
      s.info.name.text (s.stop env ⟨0, 0⟩)) name := by
  have method := b.inMethod_of_section s
  obtain ⟨_, _, final⟩ := objectState_inside b.tab b.headAst method method.lt (Nat.le_refl _)
  rw [slotMapOf, final]
  exact slotOf_eq mem

section Own

variable {g : GlobalVar b} {ext : Extern} {start : Config} {s : Section b.tab b.headAst} {k n : Nat}
  {v : Word} {base : Int}

theorem GlobalVar.LastStore.unique {k' : Nat} {v' : Word} (h : g.LastStore ext start k n v)
    (h' : g.LastStore ext start k' n v') : v' = v := by
  obtain ⟨c, ran, stores⟩ := h.stores
  obtain ⟨c', ran', stores'⟩ := h'.stores
  rcases Nat.lt_trichotomy k k' with before | rfl | behind
  · exact absurd stores' (h.last k' c' v' before h'.before ran')
  · obtain rfl := Option.some.inj (ran.symm.trans ran')
    obtain ⟨i, -, -, rfl⟩ := stores
    obtain ⟨i', -, -, rfl⟩ := stores'
    rfl
  · exact absurd stores (h'.last k c v behind h.before ran)

theorem store_step (starts : b.Starts start) (obeys : ext.Obeys)
    (own : g.OwnStore ext start s k n v base) {c : Config}
    (ran : run (asmStep b.lines ext) n start = some c) :
    ∃ a callers d, a.base = base ∧ run (asmStep b.lines ext) (k + 1) start = some d ∧
      Active b a callers d ∧ Running b a callers d ∧
      g.name.text ∈ methodNames b.tab b.headAst b.code a.enter a.name a.leave ∧
      d.machine.mem (base + slotOffset (methodNames b.tab b.headAst b.code a.enter a.name a.leave)
        g.name.text) = v := by
  obtain ⟨c₀, ran₀, i, stored, pc, value⟩ := own.last.stores
  obtain ⟨ir, var1, atIr, inner, code, two⟩ := store_code stored.1
  have here := b.line_of_instr (List.getElem?_eq_getElem (l := objectLines b.tab b.headAst b.code i)
    (i := 1) (by omega))
  rw [← pc] at here
  obtain ⟨d, ran₁⟩ := run_until (k := k + 1) ran own.last.before
  rcases starts.reaches obeys ran₀ with ⟨a, callers, active⟩ | outside
  · obtain ⟨running, gt, lt, rbp⟩ := active.at_inner atIr inner pc (by omega)
    obtain rfl : a.base = base := rbp.symm.trans (own.stored c₀ ran₀)
    obtain ⟨mem, src, lines⟩ := store_lines active.method gt lt code
    have step := run_step ran₀ ran₁
    have lasts := own.lasts _ d (Nat.lt_succ_self k) own.last.before ran₁
    simp only [lines, List.getElem_cons_succ, List.getElem_cons_zero] at here
    have moved : d.machine.mem (a.base + slotOffset
        (methodNames b.tab b.headAst b.code a.enter a.name a.leave) g.name.text) = v := by
      obtain ⟨m, exec, rfl⟩ := asmStep_straight here rfl step
      obtain ⟨rfl, -⟩ := Prod.mk.inj (Option.some.inj exec)
      rw [← rbp, ← value]
      exact Function.update_self _ _ _
    have stack : OnStack b a callers (fun _ => False) c₀ := .runs active running
    have next := stack.step starts.fits obeys step lasts fun _ _ _ ⟨_, call⟩ => by
      rw [here] at call
      cases call
    cases next with
    | runs active' running' => exact ⟨a, callers, d, rfl, ran₁, active', running', mem, moved⟩
    | calling a' inner site active' made => exact made.elim
  · rw [List.getElem?_eq_none outside] at here
    cases here

theorem writes_namesake {a : Activation} {callers : List Waiting} {c : Config}
    (method : InMethod b.code a.enter a.leave a.name) (running : Running b a callers c)
    (mem : g.name.text ∈ methodNames b.tab b.headAst b.code a.enter a.name a.leave)
    {line : AsmLine} (here : b.lines[c.pc]? = some line) {offset : Int}
    (writes : line.writes = some offset)
    (same : slotOffset (methodNames b.tab b.headAst b.code a.enter a.name a.leave) g.name.text =
      offset) : g.StoresNamesake c := by
  rcases running.place here with ⟨j, d, gt, lt, pc, at', -⟩ | ⟨-, none, -⟩
  · obtain ⟨instr, dest, code, reg, rfl⟩ := writes_inside method gt lt at' writes
    have stored := stored_of_reg code (reg.trans (congrArg some (slotOffset_inj mem same).symm))
    obtain ⟨ir, var1, -, -, code', -⟩ := store_code stored
    obtain ⟨-, src, lines⟩ := store_lines method gt lt code'
    rw [lines] at at'
    cases d with
    | zero =>
      obtain rfl := Option.some.inj at'
      cases writes
    | succ d =>
      obtain ⟨rfl, -⟩ := getElem?_singleton at'
      exact ⟨j, stored, pc⟩
  · rw [none] at writes
    cases writes

/-- The same activation, and so the same slot, from the store to the read. -/
theorem own_activation (starts : b.Starts start) (obeys : ext.Obeys)
    (own : g.OwnStore ext start s k n v base) {c d : Config} {i : Nat}
    (ran : run (asmStep b.lines ext) n start = some c) (inLine : InLine s i c)
    {a : Activation} {callers : List Waiting} (isBase : a.base = base)
    (ran' : run (asmStep b.lines ext) (k + 1) start = some d) (active : Active b a callers d)
    (running : Running b a callers d) :
    a.enter = s.start env ⟨0, 0⟩ ∧ a.leave = s.stop env ⟨0, 0⟩ ∧ a.name = s.info.name.text := by
  obtain ⟨gt, lt, d', pc, inside⟩ := inLine
  have method := b.inMethod_of_section s
  have short : i < b.code.length := by have := method.length; omega
  obtain ⟨ir, atIr, -⟩ := b.code_getElem? (List.getElem?_eq_getElem short)
  have inner := b.inner_inside method gt lt atIr
  have stack : OnStack b a callers (fun _ => True) d := .runs active running
  cases stack.lasts starts.fits obeys ran' own.last.before ran
    (fun m e lt le ran => isBase ▸ own.lasts m e (Nat.lt_of_succ_lt lt) le ran)
      (fun _ _ _ _ _ _ _ _ _ => trivial) with
  | runs active' running' =>
    obtain ⟨-, gt', lt', -⟩ := active'.at_inner atIr inner pc inside
    exact active.method.unique method gt' lt' gt lt
  | calling a' rest site active' made =>
    obtain ⟨-, -, -, rbp⟩ := active'.at_inner atIr inner pc inside
    have lower := active'.stack.lower
    have top := a.top_le (b := b) site
    have reads := own.reads c ran
    dsimp only at lower
    omega

theorem own_read (starts : b.Starts start) (obeys : ext.Obeys)
    (own : g.OwnStore ext start s k n v base) {c : Config} {i : Nat}
    (ran : run (asmStep b.lines ext) n start = some c) (inLine : InLine s i c) :
    valueIn (slotMapOf b s) c.machine g.name.text = v := by
  obtain ⟨a, callers, d, isBase, ran', active, running, mem, moved⟩ :=
    store_step starts obeys own ran
  obtain ⟨enter, leave, name⟩ :=
    own_activation starts obeys own ran inLine isBase ran' active running
  rw [valueIn, own.reads c ran]
  have slot : slotOf (slotMapOf b s) g.name.text =
      slotOffset (methodNames b.tab b.headAst b.code a.enter a.name a.leave) g.name.text := by
    rw [enter, leave, name] at mem ⊢
    exact slotOf_method mem
  have stack : OnStack b a callers (a.top b · ≤ base + slotOf (slotMapOf b s) g.name.text) d :=
    .runs active running
  have kept := stack.keeps starts.fits obeys ran' own.last.before ran
    (fun m e lt le ran => isBase ▸ own.lasts m e (Nat.lt_of_succ_lt lt) le ran)
    (fun m e line le lt ran rbp => own.covered m e line le lt ran (isBase ▸ rbp))
    fun m e line offset le lt ran running' rbp here writes same =>
      own.alone m e le lt ran (isBase ▸ rbp) (writes_namesake active.method running' mem here writes
        (by omega))
  rw [kept, slot]
  exact moved

end Own

/-- A variable is shared as far as every read finds what its own activation stored. -/
theorem globals_shared_when (b : Compiled env) (g : GlobalVar b) {ext : Extern} {start : Config}
    (obeys : ext.Obeys) (starts : b.Starts start) (initial : Word) {n : Nat}
    (own : ∀ s i c, run (asmStep b.lines ext) n start = some c → InLine s i c → g.ReadAt i →
      ∃ k v base, g.OwnStore ext start s k n v base) :
    g.SharedAt ext start initial n := by
  intro s i c ran inLine read
  obtain ⟨k, v, base, own⟩ := own s i c ran inLine read
  refine ⟨fun k' v' last => ?_, fun never => ?_⟩
  · rw [own.last.unique last]
    exact own_read starts obeys own ran inLine
  · obtain ⟨d, ran', stores⟩ := own.last.stores
    exact absurd stores (never k d v own.last.before ran')

end Sharing

/-- `integer x = 5;`, a method `set` that stores 7 into it, and a `main` that returns it after
this statement. -/
def globalX (first : StmtSyn) : ProgramSyn :=
  let x : Ident := .of "x"
  [.varDecl ⟨1, .integer, x, some (.integerLiteral 1 5)⟩,
    .methodDecl ⟨2, none, .of "set", [],
      some (.mk 2 [] (.cons (.assign 2 x (.integerLiteral 2 7)) (.cons (.returnVoid 2) .nil)))⟩,
    .methodDecl ⟨3, some .integer, .of "main", [],
      some (.mk 3 [] (.cons first (.cons (.returnExpr 3 (.id 3 x)) .nil)))⟩]

/-- Its code, with this name for the variable. -/
def globalXCode (first : List IrInstr) (x : Ident) : List IrInstr :=
  [.loadval 5 0, .store (.temp 0) x, .enter (.of "set"), .loadval 7 1,
    .store (.temp 1) x, .ret none,
    .leave (.of "set"), .enter (.of "main")] ++ first ++
    [.load x, .ret (some (.user x)), .leave (.of "main")]

/-- A machine in front of `main`, with 1000 in every word of the stack. -/
def beforeMain : Config where
  pc := 18
  machine :=
    { reg := fun _ => 0
      rsp := 2000
      rbp := 2000
      mem := fun _ => 1000
      flags := ⟨false, false, false⟩ }

theorem noExtern_obeys : noExtern.Obeys := fun _ _ _ ran => (by cases ran)

/-- `main` reads the variable from a slot of its own frame, not what `set` stored. -/
theorem globals_not_shared :
    ∃ (b : Compiled (.sample false)) (g : GlobalVar b),
      b.prog = globalX (.methodCall 3 (.of "set") .nil) ∧ g.name = .of "x" ∧
      b.Starts beforeMain ∧ ¬ ∀ n, g.SharedAt noExtern beforeMain 5 n := by
  obtain ⟨checked, accepted⟩ := isOk_iff.mp (by decide +kernel :
    (frontEnd (.sample false) (globalX (.methodCall 3 (.of "set") .nil))).isOk = true)
  have tree : (frontEnd (.sample false) (globalX (.methodCall 3 (.of "set") .nil))).toOption.map
        (fun c => (c.headAst.head?, c.tab.entry 0)) =
      some (some (.common 1 .binary .decl (.leaf 1 (.id 0)) (.leaf 1 (.int 5))),
        some (.id (.of "x") .int)) := by decide +kernel
  have code : (frontEnd (.sample false) (globalX (.methodCall 3 (.of "set") .nil))).toOption.map
        (fun c =>
          let instrs tab := (programCode (.sample false) tab c.headAst ⟨0, 0⟩).1
          (instrs c.tab, instrs (c.tab.renamed 0 (.of "a")))) =
      some (globalXCode [.call (.of "set") 2] (.of "x"),
        globalXCode [.call (.of "set") 2] (.of "a")) := by decide +kernel
  have ran : (frontEnd (.sample false) (globalX (.methodCall 3 (.of "set") .nil))).toOption.map
        (fun c =>
          let code := namedCode tempText (intermediateCode (.sample false) c).code
          let lines := generateObjectCode c.tab c.headAst code
          let state n := run (asmStep lines noExtern) n beforeMain
          ((findLabel lines "main".toList, lines.length),
            [1, 4, 10].map (lineStart c.tab c.headAst code),
              (state 11).map (fun d => (d.pc, d.machine.reg .rax)),
            (List.range 18).all fun m => m ≤ 11 || ((state m).all fun d => d.pc ≠ 3 ∧ d.pc ≠ 11))) =
      some ((some 18, 30), [2, 10, 24], some (11, 7), true) := by decide +kernel
  have value : (frontEnd (.sample false) (globalX (.methodCall 3 (.of "set") .nil))).toOption.map
        (fun c =>
          let code := namedCode tempText (intermediateCode (.sample false) c).code
          let lines := generateObjectCode c.tab c.headAst code
          let slots := (objectState c.tab c.headAst code 11).varMap
          ((objectLines c.tab c.headAst code 10).length,
            (run (asmStep lines noExtern) 18 beforeMain).map fun d =>
            (d.pc, valueIn slots d.machine "x".toList))) = some (2, some (24, 1000)) := by
              decide +kernel
  rw [accepted] at tree code ran value
  simp only [Except.toOption, Option.map_some, Option.some.injEq, Prod.mk.injEq, List.map_cons,
    List.map_nil, List.cons.injEq, and_true, List.all_eq_true,
      Bool.or_eq_true] at tree code ran value
  obtain ⟨⟨main, length⟩, ⟨start₁, start₄, start₁₀⟩, eleven, between⟩ := ran
  obtain ⟨two, eighteen⟩ := value
  obtain ⟨d, ran₁₁, at₁₁⟩ := Option.map_eq_some_iff.mp eleven
  obtain ⟨c, ran₁₈, at₁₈⟩ := Option.map_eq_some_iff.mp eighteen
  obtain ⟨pc₁₁, rax⟩ := Prod.mk.inj at₁₁
  obtain ⟨pc₁₈, word⟩ := Prod.mk.inj at₁₈
  let b := Compiled.plain rfl accepted
  let g : GlobalVar b := ⟨0, .id (.of "x") .int, tree.2, 1, .binary, 1, .leaf 1 (.int 5),
    List.mem_of_mem_head? tree.1⟩
  have instrs : b.instrs = _ := code.1
  have marked : g.marked = _ := code.2
  have name : g.name = .of "x" := rfl
  have stored : ∀ i, (b.instrs[i]?).bind IrInstr.storedTo? = some (.of "x") → i = 1 ∨ i = 4 := by
    have all : ∀ i < 12, (b.instrs[i]?).bind IrInstr.storedTo? = some (.of "x") →
        i = 1 ∨ i = 4 := by
      rw [instrs]
      decide
    intro i isStore
    obtain ⟨ir, here, -⟩ := Option.bind_eq_some_iff.mp isStore
    have inside := (List.getElem?_eq_some_iff.mp here).1
    rw [instrs] at inside
    exact all i inside isStore
  have method : InMethod b.code 7 11 "main".toList := by
    rw [b.code_eq, instrs]
    exact inMethod_of_range (by decide) rfl rfl rfl
  obtain ⟨s, start, stop, -⟩ := b.section_of_inMethod method
  have starts : b.Starts beforeMain :=
    ⟨main, by decide, by rw [show b.lines.length = 30 from length]; decide⟩
  refine ⟨b, g, rfl, rfl, starts, fun shared => ?_⟩
  have last : g.LastStore noExtern beforeMain 11 18 7 := by
    refine ⟨by decide, ⟨d, ran₁₁, 4, ⟨by rw [instrs]; rfl, by rw [marked, name]; decide⟩, ?_, rax⟩,
      ?_⟩
    · rw [pc₁₁]
      exact (congrArg (· + 1) start₄).symm
    · rintro m c w gt lt ran ⟨i, isStore, pc, -⟩
      have away : (run (asmStep b.lines noExtern) m beforeMain).all
          (fun d => decide (d.pc ≠ 3 ∧ d.pc ≠ 11)) = true :=
        (between m (List.mem_range.mpr lt)).resolve_left (by simpa using gt)
      rw [ran, Option.all_some] at away
      obtain ⟨notThree, notEleven⟩ := of_decide_eq_true away
      rcases stored i isStore.1 with rfl | rfl
      · exact notThree (pc.trans (congrArg (· + 1) start₁))
      · exact notEleven (pc.trans (congrArg (· + 1) start₄))
  have inLine : InLine s 10 c :=
    ⟨by rw [start]; decide, by rw [stop]; decide, 0, pc₁₈.trans start₁₀.symm,
      Nat.lt_of_lt_of_eq (by decide) two.symm⟩
  have read :=
    (shared 18 s 10 c ran₁₈ inLine (by rw [GlobalVar.ReadAt, instrs, marked]; decide)).1 11 7 last
  rw [slotMapOf, stop] at read
  exact absurd (word.symm.trans read) (by decide)

/-- `main` finds the 7 that it stored itself. -/
theorem globals_shared_main :
    ∃ (b : Compiled (.sample false)) (g : GlobalVar b) (s : Section b.tab b.headAst),
      b.prog = globalX (.assign 3 (.of "x") (.integerLiteral 3 7)) ∧ g.name = .of "x" ∧
      (∃ i c, run (asmStep b.lines noExtern) 7 beforeMain = some c ∧ InLine s i c ∧ g.ReadAt i) ∧
      g.SharedAt noExtern beforeMain 5 7 := by
  obtain ⟨checked, accepted⟩ := isOk_iff.mp (by decide +kernel :
    (frontEnd (.sample false) (globalX (.assign 3 (.of "x") (.integerLiteral 3 7)))).isOk = true)
  have tree : (frontEnd (.sample false)
        (globalX (.assign 3 (.of "x") (.integerLiteral 3 7)))).toOption.map (fun c =>
          (c.headAst.head?, c.tab.entry 0)) =
      some (some (.common 1 .binary .decl (.leaf 1 (.id 0)) (.leaf 1 (.int 5))),
        some (.id (.of "x") .int)) := by decide +kernel
  have code : (frontEnd (.sample false)
        (globalX (.assign 3 (.of "x") (.integerLiteral 3 7)))).toOption.map (fun c =>
          let instrs tab := (programCode (.sample false) tab c.headAst ⟨0, 0⟩).1
          (instrs c.tab, instrs (c.tab.renamed 0 (.of "a")))) =
      some (globalXCode [.loadval 7 2, .store (.temp 2) (.of "x")] (.of "x"),
        globalXCode [.loadval 7 2, .store (.temp 2) (.of "a")] (.of "a")) := by decide +kernel
  have places : (frontEnd (.sample false)
        (globalX (.assign 3 (.of "x") (.integerLiteral 3 7)))).toOption.map (fun c =>
          let code := namedCode tempText (intermediateCode (.sample false) c).code
          let lines := generateObjectCode c.tab c.headAst code
          ((findLabel lines "main".toList, lines.length),
            [9, 11].map (lineStart c.tab c.headAst code),
            (objectLines c.tab c.headAst code 11).length)) =
      some ((some 18, 31), [23, 25], 2) := by decide +kernel
  have stored : (frontEnd (.sample false)
        (globalX (.assign 3 (.of "x") (.integerLiteral 3 7)))).toOption.map (fun c =>
          let code := namedCode tempText (intermediateCode (.sample false) c).code
          (run (asmStep (generateObjectCode c.tab c.headAst code) noExtern) 6 beforeMain).map
            fun d => (d.pc, d.machine.reg .rax, d.machine.rbp)) =
      some (some (24, 7, 1992)) := by decide +kernel
  have reads : (frontEnd (.sample false)
        (globalX (.assign 3 (.of "x") (.integerLiteral 3 7)))).toOption.map (fun c =>
          let code := namedCode tempText (intermediateCode (.sample false) c).code
          (run (asmStep (generateObjectCode c.tab c.headAst code) noExtern) 7 beforeMain).map
            fun d => (d.pc, d.machine.rsp, d.machine.rbp)) =
      some (some (25, 1960, 1992)) := by decide +kernel
  rw [accepted] at tree code places stored reads
  simp only [Except.toOption, Option.map_some, Option.some.injEq, Prod.mk.injEq, List.map_cons,
    List.map_nil, List.cons.injEq, and_true] at tree code places
  obtain ⟨⟨main, length⟩, ⟨start₉, start₁₁⟩, two⟩ := places
  obtain ⟨d, ran₆, at₆⟩ := Option.map_eq_some_iff.mp (Option.some.inj stored)
  obtain ⟨c, ran₇, at₇⟩ := Option.map_eq_some_iff.mp (Option.some.inj reads)
  simp only [Prod.mk.injEq] at at₆ at₇
  obtain ⟨pc₆, rax, rbp₆⟩ := at₆
  obtain ⟨pc₇, rsp₇, rbp₇⟩ := at₇
  let b := Compiled.plain rfl accepted
  let g : GlobalVar b := ⟨0, .id (.of "x") .int, tree.2, 1, .binary, 1, .leaf 1 (.int 5),
    List.mem_of_mem_head? tree.1⟩
  have instrs : b.instrs = _ := code.1
  have marked : g.marked = _ := code.2
  have name : g.name = .of "x" := rfl
  have method : InMethod b.code 7 12 "main".toList := by
    rw [b.code_eq, instrs]
    exact inMethod_of_range (by decide) rfl rfl rfl
  obtain ⟨s, start, stop, -⟩ := b.section_of_inMethod method
  have starts : b.Starts beforeMain :=
    ⟨main, by decide, by rw [show b.lines.length = 31 from length]; decide⟩
  have inLine : InLine s 11 c :=
    ⟨by rw [start]; decide, by rw [stop]; decide, 0, pc₇.trans start₁₁.symm,
      Nat.lt_of_lt_of_eq (by decide) two.symm⟩
  have read : g.ReadAt 11 := by
    rw [GlobalVar.ReadAt, instrs, marked]
    decide
  refine ⟨b, g, s, rfl, rfl, ⟨11, c, ran₇, inLine, read⟩,
    globals_shared_when b g noExtern_obeys starts 5 fun s i c' _ _ _ => ⟨6, 7, 1992, ?_⟩⟩
  have only : ∀ {d'}, run (asmStep b.lines noExtern) 7 beforeMain = some d' → d' = c := fun ran =>
    Option.some.inj (ran.symm.trans ran₇)
  refine ⟨⟨by decide, ⟨d, ran₆, 9, ⟨by rw [instrs]; rfl, by rw [marked, name]; decide⟩,
    ?_, rax⟩, ?_⟩,
    ?_, ?_, ?_, ?_, ?_⟩
  · rw [pc₆]
    exact (congrArg (· + 1) start₉).symm
  · intro m e w gt lt
    omega
  · intro e ran
    rw [Option.some.inj (ran.symm.trans ran₆), rbp₆]
  · intro e ran
    rw [only ran, rbp₇]
  · intro m e gt le ran
    obtain rfl : m = 7 := by omega
    rw [only ran, rsp₇]
    decide
  · intro m e gt lt
    omega
  · intro m e line gt lt
    omega

end Ctds
