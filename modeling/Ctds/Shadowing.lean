import Ctds.CallingConvention

/-! Nested declarations of one name. The parser gives each declaration a symbol of its
own; the intermediate code and the slot map know it by its name only. -/

namespace Ctds

open Decimal FirstSeen Transition Fallible

/-- A parameter, which has no node of its own, or a declared variable with its symbol. -/
structure Declaration where
  name : Ident
  sym : Option IdPtr
deriving DecidableEq

def declarationOf (tab : SymbolTable) : AstNode → Option Declaration
  | .common _ _ .decl (.leaf _ (.id p)) _ => (tab.entry p).map fun info => ⟨info.name, some p⟩
  | _ => none

/-- The declarations of a block itself. -/
def ownDeclarations (tab : SymbolTable) : AstNodeList → List Declaration
  | .nil => []
  | .cons first next => (declarationOf tab first).toList ++ ownDeclarations tab next

mutual
/-- Each declaration in the tree with the declarations of its name around it. -/
def redeclarations (tab : SymbolTable) (outer : List Declaration) :
    AstNode → List (Declaration × Declaration)
  | .block _ stmts =>
    let own := ownDeclarations tab stmts
    (own.flatMap fun inner =>
        (outer.filter fun o => decide (o.name = inner.name)).map fun o => (o, inner)) ++
      redeclarationsList tab (own ++ outer) stmts
  | .ifStmt _ _ thenBlock elseBlock =>
    redeclarations tab outer thenBlock ++ redeclarations tab outer elseBlock
  | .whileStmt _ _ block => redeclarations tab outer block
  | _ => []
def redeclarationsList (tab : SymbolTable) (outer : List Declaration) :
    AstNodeList → List (Declaration × Declaration)
  | .nil => []
  | .cons first next => redeclarations tab outer first ++ redeclarationsList tab outer next
end

/-- The pairs of a method. Its own block shares the scope of its parameters. -/
def methodRedeclarations (tab : SymbolTable) (method : MethodInfo) :
    AstNode → List (Declaration × Declaration)
  | .block _ stmts =>
    redeclarationsList tab
      (ownDeclarations tab stmts ++ method.args.map fun arg => ⟨arg.name, none⟩) stmts
  | _ => []

/-- The symbol of a declaration is an entry of its name. -/
def Declaration.Known (tab : SymbolTable) (d : Declaration) : Prop :=
  ∀ p, d.sym = some p → ∃ info, tab.entry p = some info ∧ info.name = d.name

theorem ownDeclarations_known {tab : SymbolTable} {stmts : AstNodeList} {d : Declaration}
    (mem : d ∈ ownDeclarations tab stmts) : d.Known tab := by
  induction stmts using ownDeclarations.induct with
  | case1 => simp [ownDeclarations] at mem
  | case2 first next ih =>
    rw [ownDeclarations, List.mem_append] at mem
    rcases mem with here | later
    · rw [Option.mem_toList] at here
      unfold declarationOf at here
      split at here
      · obtain ⟨info, entry, rfl⟩ := Option.map_eq_some_iff.mp here
        intro p sym
        obtain rfl := Option.some.inj sym
        exact ⟨info, entry, rfl⟩
      · cases here
    · exact ih later

mutual
theorem redeclarations_spec (tab : SymbolTable) :
    ∀ (node : AstNode) (outer : List Declaration) (pair : Declaration × Declaration),
      pair ∈ redeclarations tab outer node → pair.1.name = pair.2.name ∧ pair.2.Known tab
  | .block line stmts, outer, pair, mem => by
    rw [redeclarations, List.mem_append, List.mem_flatMap] at mem
    rcases mem with ⟨inner, own, here⟩ | deeper
    · obtain ⟨o, found, rfl⟩ := List.mem_map.mp here
      exact ⟨of_decide_eq_true (List.mem_filter.mp found).2, ownDeclarations_known own⟩
    · exact redeclarationsList_spec tab stmts _ pair deeper
  | .ifStmt line condition thenBlock elseBlock, outer, pair, mem => by
    rw [redeclarations, List.mem_append] at mem
    exact mem.elim (redeclarations_spec tab thenBlock outer pair)
      (redeclarations_spec tab elseBlock outer pair)
  | .whileStmt line condition block, outer, pair, mem => by
    rw [redeclarations] at mem
    exact redeclarations_spec tab block outer pair mem
  | .null, _, _, mem | .common .., _, _, mem | .leaf .., _, _, mem | .methodCall .., _, _, mem
  | .methodDecl .., _, _, mem => by simp [redeclarations] at mem
theorem redeclarationsList_spec (tab : SymbolTable) :
    ∀ (stmts : AstNodeList) (outer : List Declaration) (pair : Declaration × Declaration),
      pair ∈ redeclarationsList tab outer stmts → pair.1.name = pair.2.name ∧ pair.2.Known tab
  | .nil, _, _, mem => by simp [redeclarationsList] at mem
  | .cons first next, outer, pair, mem => by
    rw [redeclarationsList, List.mem_append] at mem
    exact mem.elim (redeclarations_spec tab first outer pair)
      (redeclarationsList_spec tab next outer pair)
end

theorem methodRedeclarations_spec {tab : SymbolTable} {method : MethodInfo} {block : AstNode}
    {pair : Declaration × Declaration} (mem : pair ∈ methodRedeclarations tab method block) :
    pair.1.name = pair.2.name ∧ pair.2.Known tab := by
  unfold methodRedeclarations at mem
  split at mem
  · exact redeclarationsList_spec tab _ _ _ mem
  · cases mem

mutual
/-- The statements of a tree for which code is emitted. -/
def emittedStmts (env : Env) : AstNode → List AstNode
  | .ifStmt line condition thenBlock elseBlock =>
    .ifStmt line condition thenBlock elseBlock ::
      (emittedStmts env thenBlock ++ emittedStmts env elseBlock)
  | .whileStmt line condition block =>
    .whileStmt line condition block :: emittedStmts env block
  | .block _ stmts => emittedStmtList env stmts
  | node => [node]
def emittedStmtList (env : Env) : AstNodeList → List AstNode
  | .nil => []
  | .cons first next =>
    emittedStmts env first ++
      if first.isReturn ∧ env.optimizations then [] else emittedStmtList env next
end

mutual
theorem stmtCode_placed (env : Env) (tab : SymbolTable) {node : AstNode} :
    ∀ (tree : AstNode), node ∈ emittedStmts env tree → ∀ (c : Counters),
      ∃ k c', Placed (stmtCode env tab tree c).1 k (stmtCode env tab node c').1
  | .ifStmt line condition thenBlock elseBlock, mem, c => by
    rw [emittedStmts, List.mem_cons, List.mem_append] at mem
    rcases mem with rfl | inThen | inElse
    · exact ⟨0, c, .whole _⟩
    · obtain ⟨k, c', placed⟩ := stmtCode_placed env tab thenBlock inThen _
      rw [stmtCode]
      exact ⟨_, c', (Placed.whole _).left.left.right.tail.trans placed⟩
    · obtain ⟨k, c', placed⟩ := stmtCode_placed env tab elseBlock inElse _
      rw [stmtCode]
      exact ⟨_, c', (Placed.whole _).left.right.tail.tail.trans placed⟩
  | .whileStmt line condition block, mem, c => by
    rw [emittedStmts, List.mem_cons] at mem
    rcases mem with rfl | inside
    · exact ⟨0, c, .whole _⟩
    · obtain ⟨k, c', placed⟩ := stmtCode_placed env tab block inside _
      rw [stmtCode]
      exact ⟨_, c', (Placed.whole _).left.right.tail.trans placed⟩
  | .block line stmts, mem, c => by
    rw [emittedStmts] at mem
    simp only [stmtCode]
    exact blockCode_placed env tab stmts mem c
  | .null, mem, c | .common .., mem, c | .leaf .., mem, c | .methodCall .., mem, c
  | .methodDecl .., mem, c => by
    simp only [emittedStmts, List.mem_singleton] at mem
    exact ⟨0, c, mem ▸ .whole _⟩
theorem blockCode_placed (env : Env) (tab : SymbolTable) {node : AstNode} :
    ∀ (stmts : AstNodeList), node ∈ emittedStmtList env stmts → ∀ (c : Counters),
      ∃ k c', Placed (blockCode env tab stmts c).1 k (stmtCode env tab node c').1
  | .nil, mem, _ => by simp [emittedStmtList] at mem
  | .cons first next, mem, c => by
    rw [emittedStmtList, List.mem_append] at mem
    rw [blockCode]
    by_cases stops : first.isReturn = true ∧ env.optimizations = true
    · rw [if_pos stops] at mem ⊢
      exact stmtCode_placed env tab first (mem.resolve_right (by simp)) c
    · rw [if_neg stops] at mem ⊢
      dsimp only
      rcases mem with mem | mem
      · obtain ⟨k, c', placed⟩ := stmtCode_placed env tab first mem c
        exact ⟨_, c', (Placed.whole _).left.trans placed⟩
      · obtain ⟨k, c', placed⟩ := blockCode_placed env tab next mem (stmtCode env tab first c).2
        exact ⟨_, c', (Placed.whole _).right.trans placed⟩
end

/-- The symbol an initialisation or an assignment writes. -/
def writtenSym : AstNode → Option IdPtr
  | .common _ _ .decl (.leaf _ (.id p)) right => if right.isNull then none else some p
  | .common _ _ .assign (.leaf _ (.id p)) _ => some p
  | _ => none

theorem writtenSym_code (env : Env) {tab : SymbolTable} {node : AstNode} {p : IdPtr}
    (writes : writtenSym node = some p) {info : SymbolInfo} (entry : tab.entry p = some info)
    (c : Counters) : ∃ code last, (stmtCode env tab node c).1 = code ++ [last] ∧
      ((∃ source, last = .store source info.name) ∨ ∃ v, last = .storeVal v info.name) := by
  unfold writtenSym at writes
  split at writes
  · next line arity line' q right =>
    split at writes
    · cases writes
    · next init =>
      obtain rfl := Option.some.inj writes
      simp only [stmtCode, if_neg init, targetOf, entry, storeTo, Option.map_some, Option.toList,
        List.map_cons, List.map_nil]
      exact ⟨_, _, rfl, .inl ⟨_, rfl⟩⟩
  · next line arity line' q right =>
    obtain rfl := Option.some.inj writes
    simp only [stmtCode, targetOf, entry, storeTo, Option.map_some, Option.toList, List.map_cons,
      List.map_nil]
    split
    · exact ⟨[], _, rfl, .inr ⟨_, rfl⟩⟩
    · exact ⟨_, _, rfl, .inl ⟨_, rfl⟩⟩
  · cases writes

section Method

variable {env : Env} (b : Compiled env) (s : Section b.tab b.headAst)

/-- The slot map of the method. -/
def slotMapOf : List VarLocation :=
  (objectState b.tab b.headAst b.code (s.stop env ⟨0, 0⟩)).varMap

/-- The slot of a declaration, if the method uses it. -/
def storage (d : Declaration) : Option Int := findVar d.name.text (slotMapOf b s)

/-- A statement of the method, with code of its own, that initialises or assigns a
declared variable. -/
def Writes (d : Declaration) (node : AstNode) : Prop :=
  node ∈ emittedStmts env s.block ∧ ∃ p, d.sym = some p ∧ writtenSym node = some p

/-- The statement's code stands in the method and ends at position `j`. -/
def EndsAt (node : AstNode) (j : Nat) : Prop :=
  ∃ k c, Placed b.instrs k (stmtCode env b.tab node c).1 ∧ s.start env ⟨0, 0⟩ < k ∧
    k + (stmtCode env b.tab node c).1.length ≤ s.stop env ⟨0, 0⟩ ∧
    j + 1 = k + (stmtCode env b.tab node c).1.length

/-- Two declarations with storage of their own: writing the second leaves the first alone. -/
structure StoredApart (outer inner : Declaration) : Prop where
  different : storage b s outer ≠ storage b s inner
  unchanged : ∀ node j, Writes b s inner node → EndsAt b s node j →
    ∀ (m m' : Machine) (control : Control),
      execLines (objectLines b.tab b.headAst b.code j) m = some (m', control) →
        valueIn (slotMapOf b s) m' outer.name.text = valueIn (slotMapOf b s) m outer.name.text

variable {b s}

theorem storage_eq {outer inner : Declaration} (same : outer.name = inner.name) :
    storage b s outer = storage b s inner := by
  rw [storage, storage, same]

theorem exists_endsAt {d : Declaration} {node : AstNode} (writes : Writes b s d node)
    (known : d.Known b.tab) : ∃ j, EndsAt b s node j := by
  obtain ⟨emitted, p, sym, written⟩ := writes
  obtain ⟨info, entry, -⟩ := known p sym
  obtain ⟨k, c, placed⟩ := stmtCode_placed env b.tab s.block emitted
    (programCode env b.tab s.before ⟨0, 0⟩).2
  obtain ⟨code, last, eq, -⟩ := writtenSym_code env written entry c
  have body := (s.placed env ⟨0, 0⟩).left.tail.trans placed
  have inside := placed.length_le
  refine ⟨s.start env ⟨0, 0⟩ + 1 + k + code.length, _, c, body, by omega, ?_,
    by rw [eq, List.length_append, List.length_singleton, Nat.add_assoc]⟩
  rw [Section.stop, Section.body, Nat.add_assoc]
  exact Nat.add_le_add_left inside _

theorem write_lines {d : Declaration} {node : AstNode} {j : Nat} (writes : Writes b s d node)
    (endsAt : EndsAt b s node j) (known : d.Known b.tab) :
    ∃ src offset, objectLines b.tab b.headAst b.code j =
        [.movqToReg src .rax, .movqFromReg .rax (.slot offset)] ∧
      storage b s d = some offset := by
  obtain ⟨-, p, sym, written⟩ := writes
  obtain ⟨k, c, placed, gt, le, position⟩ := endsAt
  obtain ⟨info, entry, same⟩ := known p sym
  obtain ⟨code, last, eq, isStore⟩ := writtenSym_code env written entry c
  rw [eq] at placed
  rw [eq, List.length_append, List.length_singleton] at le position
  obtain rfl : j = k + code.length := by omega
  have method := b.inMethod_of_section s
  have here := b.code_of_instrs placed.last
  obtain ⟨_, _, -, lines⟩ := objectLines_inside b.tab b.headAst method
    (by omega) (by omega) here
  have isStore' : ∃ var1, last.named b.rename = ⟨.store, var1, none, some d.name.text⟩ := by
    rcases isStore with ⟨source, rfl⟩ | ⟨v, rfl⟩
    · exact ⟨_, by rw [named_store, same]⟩
    · exact ⟨_, by rw [← same]; rfl⟩
  obtain ⟨var1, isStore'⟩ := isStore'
  have asked : d.name.text ∈ methodNames b.tab b.headAst b.code
    (s.start env ⟨0, 0⟩) s.info.name.text
      (s.stop env ⟨0, 0⟩) := by
    refine slotOperands_subset method (by omega) (by omega) here ?_
    rw [isStore', slotOperands]
    exact List.mem_append_right _ (operandNames_user d.name ▸ List.mem_singleton_self _)
  obtain ⟨_, _, final⟩ := objectState_inside b.tab b.headAst method method.lt
    (Nat.le_refl _)
  let names := methodNames b.tab b.headAst b.code (s.start env ⟨0, 0⟩) s.info.name.text
    (s.stop env ⟨0, 0⟩)
  refine ⟨operandFor names var1, slotOffset names d.name.text, ?_, ?_⟩
  · rw [lines, isStore', ← operandFor_user]
    rfl
  · rw [storage, slotMapOf, final, ObjState.frame, findVar_slots, if_pos asked]

/-- The two declarations of a pair have one slot, and every initialisation or assignment of
the inner one writes it: the word read for the outer one is then the one written. -/
theorem shadowing_shares (b : Compiled env) (s : Section b.tab b.headAst)
    {outer inner : Declaration}
    (pair : (outer, inner) ∈ methodRedeclarations b.tab s.info.methodView s.block) :
    ¬ StoredApart b s outer inner ∧
      ∀ node, Writes b s inner node → ∃ j, EndsAt b s node j ∧
        ∀ (m m' : Machine) (control : Control),
          execLines (objectLines b.tab b.headAst b.code j) m = some (m', control) →
            valueIn (slotMapOf b s) m' outer.name.text = m'.reg .rax := by
  obtain ⟨same, known⟩ := methodRedeclarations_spec pair
  have shared : storage b s outer = storage b s inner := storage_eq same
  refine ⟨fun apart => apart.different shared, fun node writes => ?_⟩
  obtain ⟨j, endsAt⟩ := exists_endsAt writes known
  refine ⟨j, endsAt, fun m m' control exec => ?_⟩
  obtain ⟨src, offset, lines, slot⟩ := write_lines writes endsAt known
  rw [lines] at exec
  rw [← shared] at slot
  rw [valueIn, slotOf, show findVar outer.name.text (slotMapOf b s) = _ from slot, Option.getD_some]
  cases value : m.read src with
  | none =>
    rw [execLines_fault (by rw [execLine, value]; rfl)] at exec
    cases exec
  | some v =>
    rw [execLines_move value] at exec
    obtain ⟨rfl, -⟩ := Prod.mk.inj (Option.some.inj exec)
    exact Function.update_self _ _ _

end Method

/-- `integer v; v = 1; { integer v; v = 42; } return v;`. -/
def shadowedVariable : ProgramSyn :=
  let v : Ident := .of "v"
  [.methodDecl ⟨1, some .integer, .of "main", [],
    some (.mk 1 [⟨2, .integer, v, none⟩]
      (.cons (.assign 3 v (.integerLiteral 3 1))
      (.cons (.block (.mk 4 [⟨4, .integer, v, none⟩]
        (.cons (.assign 5 v (.integerLiteral 5 42)) .nil)))
      (.cons (.returnExpr 6 (.id 6 v)) .nil))))⟩]

/-- A machine with an empty stack. -/
def emptyStack : Machine where
  reg _ := 0
  rsp := 2000
  rbp := 2000
  mem _ := 0
  flags := ⟨false, false, false⟩

/-- The pairs of a program that is one method. -/
def onlyRedeclarations (c : Checked) : Option (Bool × List (Declaration × Declaration)) :=
  match c.headAst with
  | [.methodDecl _ sym block] => (c.tab.entry sym).map fun info =>
    (info.methodView.isExtern, methodRedeclarations c.tab info.methodView block)
  | _ => none

theorem shadowedVariable_code :
    ∃ (b : Compiled (.sample false)) (s : Section b.tab b.headAst) (outer inner : Declaration),
      b.prog = shadowedVariable ∧
      (outer, inner) ∈ methodRedeclarations b.tab s.info.methodView s.block ∧
      ∃ c, run (asmStep b.lines noExtern) 12 ⟨2, emptyStack⟩ = some c ∧
      c.machine.reg .rax = 42 := by
  obtain ⟨checked, accepted⟩ := isOk_iff.mp (by decide +kernel :
    (frontEnd (.sample false) shadowedVariable).isOk = true)
  have facts : (frontEnd (.sample false) shadowedVariable).toOption.map (fun c =>
        let code := namedCode tempText (intermediateCode (.sample false) c).code
        let lines := generateObjectCode c.tab c.headAst code
        (onlyRedeclarations c, (run (asmStep lines noExtern) 12 ⟨2, emptyStack⟩).map fun d =>
          d.machine.reg .rax)) =
      some (some (false, [(⟨.of "v", some 0⟩, ⟨.of "v", some 1⟩)]),
        some 42) := by decide +kernel
  rw [accepted] at facts
  simp only [Except.toOption, Option.map_some, Option.some.injEq, Prod.mk.injEq] at facts
  obtain ⟨pairs, value⟩ := facts
  let b := Compiled.plain rfl accepted
  unfold onlyRedeclarations at pairs
  split at pairs
  · next line sym block one =>
    obtain ⟨info, entry, eq⟩ := Option.map_eq_some_iff.mp pairs
    obtain ⟨own, list⟩ := Prod.mk.inj eq
    let s : Section b.tab b.headAst := ⟨[], line, sym, block, [], info, one, entry, own⟩
    have pair := List.mem_singleton_self
      ((⟨.of "v", some 0⟩, ⟨.of "v", some 1⟩) :
        Declaration × Declaration)
    rw [← list] at pair
    exact ⟨b, s, _, _, rfl, pair, Option.map_eq_some_iff.mp value⟩
  · cases pairs

/-- The assignment of 42 to the inner `v` is what `return v` of the outer one returns. -/
theorem shadowing_wrong :
    ∃ (b : Compiled (.sample false)) (s : Section b.tab b.headAst) (outer inner : Declaration),
      b.prog = shadowedVariable ∧
      (outer, inner) ∈ methodRedeclarations b.tab s.info.methodView s.block ∧
      ¬ StoredApart b s outer inner ∧
      ∃ c, run (asmStep b.lines noExtern) 12 ⟨2, emptyStack⟩ = some c ∧
      c.machine.reg .rax = 42 := by
  obtain ⟨b, s, outer, inner, prog, pair, ran⟩ := shadowedVariable_code
  refine ⟨b, s, outer, inner, prog, pair, fun apart => apart.different ?_, ran⟩
  exact storage_eq (methodRedeclarations_spec pair).1

theorem shadowing_shares_main :
    ∃ (b : Compiled (.sample false)) (s : Section b.tab b.headAst) (outer inner : Declaration),
      b.prog = shadowedVariable ∧ ¬ StoredApart b s outer inner := by
  obtain ⟨b, s, outer, inner, prog, pair, -⟩ := shadowedVariable_code
  exact ⟨b, s, outer, inner, prog, (shadowing_shares b s pair).1⟩

end Ctds
