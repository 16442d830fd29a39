import Ctds.TableStack

/-! Runs of the five calls that change the symbol table, from the uninitialised one.
`Recorded` is what the calls describe: a stack of scopes with the names declared in each,
and the symbols in the order of the calls. The table mirrors it after every call. -/

namespace Ctds

open Fallible LinkedCells Scoping

/-- The calls that change the table. -/
inductive TableOp where
  | pushScope
  | popScope
  | addId (line : Int) (name : Ident) (type : Ty)
  | addGlobalId (line : Int) (name : Ident) (type : Ty)
  | addMethod (line : Int) (name : Ident) (retType : ReturnType) (methodScope : Option ScopePtr)
      (isExtern : Bool)

def runOp (tab : SymbolTable) : TableOp → Except Error SymbolTable
  | .pushScope => .ok tab.pushScope
  | .popScope => .ok tab.popScope
  | .addId line name type => (tab.addId line name type).map Prod.fst
  | .addGlobalId line name type => (tab.addGlobalId line name type).map Prod.fst
  | .addMethod line name retType methodScope isExtern =>
    tab.addMethod line name retType methodScope isExtern

def runOps (ops : List TableOp) (tab : SymbolTable) : Except Error SymbolTable :=
    ops.foldlM runOp tab

/-- What a run of calls declares: the symbols in the order of the calls, and the scope each
went to. -/
structure Recorded where
  stack : SymbolStack
  symbols : List SymbolInfo

namespace Recorded

def empty : Recorded := ⟨.empty, []⟩

def declare (r : Recorded) (info : SymbolInfo) : Recorded :=
  ⟨r.stack.declare info.name r.symbols.length, r.symbols ++ [info]⟩

def declareGlobal (r : Recorded) (info : SymbolInfo) : Recorded :=
  ⟨r.stack.declareGlobal info.name r.symbols.length, r.symbols ++ [info]⟩

def record (r : Recorded) : TableOp → Recorded
  | .pushScope => { r with stack := r.stack.push }
  | .popScope => { r with stack := r.stack.pop }
  | .addId _ name type => r.declare (.id name type)
  | .addGlobalId _ name type => r.declareGlobal (.id name type)
  | .addMethod _ name retType methodScope isExtern =>
    r.declareGlobal (.methodDecl ⟨name, 0, retType, [], methodScope, isExtern⟩)

def recordAll (ops : List TableOp) (r : Recorded) : Recorded := ops.foldl record r

end Recorded

/-- The table is the stack of scopes that the calls describe, and in each scope the names
are distinct. -/
structure Mirrors (tab : SymbolTable) (r : Recorded) : Prop where
  tracks : tab.Tracks r.stack
  symbols : tab.ids.map IdTable.info = r.symbols
  distinct : ∀ scope ∈ r.stack.scopes, (scope.map Prod.fst).Nodup

theorem Mirrors.length {tab : SymbolTable} {r : Recorded} (h : Mirrors tab r) :
    tab.ids.length = r.symbols.length := by
  rw [← h.symbols, List.length_map]

theorem distinct_declareAt {s : SymbolStack} {k : Nat} {name : Ident} {p : IdPtr}
    (distinct : ∀ scope ∈ s.scopes, (scope.map Prod.fst).Nodup)
    (absent : (s.scopes.getD k []).lookup name = none) :
    ∀ scope ∈ (s.declareAt k name p).scopes, (scope.map Prod.fst).Nodup := by
  intro scope mem
  obtain ⟨j, isAt⟩ := List.mem_iff_getElem?.mp mem
  by_cases same : k = j
  · subst same
    simp only [ScopeStack.declareAt, List.getElem?_modify_eq, Option.map_eq_map,
      Option.map_eq_some_iff] at isAt
    obtain ⟨old, here, rfl⟩ := isAt
    rw [List.getD_eq_getElem?_getD, here, Option.getD_some, List.lookup_eq_none_iff] at absent
    rw [List.map_append, List.nodup_append]
    refine ⟨distinct old (List.mem_of_getElem? here), List.nodup_singleton _, ?_⟩
    rintro a first b last rfl
    obtain ⟨binding, inside, rfl⟩ := List.mem_map.mp first
    obtain rfl : binding.1 = name := by simpa using last
    simpa using absent binding inside
  · simp only [ScopeStack.declareAt, List.getElem?_modify_ne _ _ same] at isAt
    exact distinct scope (List.mem_of_getElem? isAt)

theorem distinct_opened {s : SymbolStack}
    (distinct : ∀ scope ∈ s.scopes, (scope.map Prod.fst).Nodup) :
    ∀ scope ∈ s.opened.scopes, (scope.map Prod.fst).Nodup := by
  unfold ScopeStack.opened
  split
  · simp [ScopeStack.start]
  · exact distinct

theorem global_absent {s : SymbolStack} {name : Ident} (absent : s.view.lookup name = none) :
    (s.opened.scopes.getD 0 []).lookup name = none := by
  obtain ⟨inner, chain, -⟩ := ScopeStack.chain_cons s.opened_scopes
  rw [← Environment.lookup_opened, ← ScopeStack.view_opened, Environment.lookup,
    List.findSome?_eq_none_iff] at absent
  exact absent _ (by simp [ScopeStack.view, chain])

theorem current_absent {s : SymbolStack} {name : Ident}
    (absent : s.view.head?.bind (·.lookup name) = none) :
    (s.opened.scopes.getD (s.opened.chain.headD 0) []).lookup name = none := by
  cases chain : s.opened.chain with
  | nil => exact absurd (ScopeStack.chain_eq_nil.mp chain) s.opened_scopes
  | cons k rest =>
    have view := s.view_opened
    rw [ScopeStack.view, chain, List.map_cons] at view
    cases old : s.view with
    | nil =>
      rw [old] at view
      obtain ⟨here, -⟩ := List.cons.inj view
      rw [List.headD_cons, here]
      rfl
    | cons scope others =>
      rw [old] at view absent
      obtain ⟨here, -⟩ := List.cons.inj view
      rw [List.headD_cons, here]
      exact absent

theorem runOp_mirrors {tab tab' : SymbolTable} {r : Recorded} {op : TableOp} (h : Mirrors tab r)
    (run : runOp tab op = .ok tab') : Mirrors tab' (r.record op) := by
  cases op with
  | pushScope =>
    obtain rfl := Except.ok.inj run
    refine ⟨h.tracks.pushScope, (SymbolTable.pushScope_infos tab).trans h.symbols, ?_⟩
    · intro scope mem
      rcases List.mem_append.mp mem with mem | mem
      · exact distinct_opened h.distinct scope mem
      · rw [List.mem_singleton.mp mem]
        exact .nil
  | popScope =>
    obtain rfl := Except.ok.inj run
    exact ⟨h.tracks.popScope, (SymbolTable.popScope_infos tab).trans h.symbols, h.distinct⟩
  | addId line name type =>
    cases added : tab.addId line name type with
    | error err => simp [runOp, added, Except.map] at run
    | ok result =>
      obtain ⟨tab₁, dir⟩ := result
      simp only [runOp, added, Except.map, Except.ok.injEq] at run
      subst run
      obtain ⟨tracks, rfl, infos, absent⟩ := h.tracks.addId added
      rw [h.length] at tracks
      exact ⟨tracks, by rw [infos, h.symbols]; rfl,
        distinct_declareAt (distinct_opened h.distinct) (current_absent absent)⟩
  | addGlobalId line name type =>
    simp only [runOp, SymbolTable.addGlobalId] at run
    split at run
    · cases run
    · next absent =>
      simp only [Except.map, Except.ok.injEq] at run
      subst run
      rw [h.tracks.find, Option.not_isSome_iff_eq_none] at absent
      obtain ⟨tracks, infos⟩ := h.tracks.addGlobal (.id name type)
      rw [h.length] at tracks
      exact ⟨tracks, by rw [infos, h.symbols]; rfl,
        distinct_declareAt (distinct_opened h.distinct) (global_absent absent)⟩
  | addMethod line name retType methodScope isExtern =>
    obtain ⟨tracks, absent, infos⟩ := h.tracks.addMethod run
    rw [h.length] at tracks
    exact ⟨tracks, by rw [infos, h.symbols]; rfl,
      distinct_declareAt (distinct_opened h.distinct) (global_absent absent)⟩

theorem runOps_mirrors {ops : List TableOp} {tab tab' : SymbolTable} {r : Recorded}
    (h : Mirrors tab r) (run : runOps ops tab = .ok tab') :
    Mirrors tab' (Recorded.recordAll ops r) := by
  induction ops generalizing tab r with
  | nil =>
    obtain rfl := Except.ok.inj run
    exact h
  | cons op rest ih =>
    simp only [runOps, List.foldlM_cons, bind_eq_ok] at run
    obtain ⟨tab₁, first, later⟩ := run
    exact ih (runOp_mirrors h first) later

/-- Calls between a push and the matching pop: nothing goes to the global scope. -/
inductive LocalOps : List TableOp → Prop
  | nil : LocalOps []
  | addId (line : Int) (name : Ident) (type : Ty) : LocalOps [.addId line name type]
  | block {inner : List TableOp} (h : LocalOps inner) :
      LocalOps (.pushScope :: inner ++ [.popScope])
  | append {first next : List TableOp} (h : LocalOps first) (g : LocalOps next) :
      LocalOps (first ++ next)

theorem recordAll_append (first next : List TableOp) (r : Recorded) :
    Recorded.recordAll (first ++ next) r = Recorded.recordAll next (Recorded.recordAll first r) :=
  List.foldl_append

theorem recordAll_block (inner : List TableOp) (r : Recorded) :
    (Recorded.recordAll (.pushScope :: inner ++ [.popScope]) r).stack.view =
      (Recorded.recordAll inner { r with stack := r.stack.push }).stack.view.pop := by
  rw [recordAll_append]
  exact ScopeStack.view_pop _

theorem localOps_balanced {ops : List TableOp} (h : LocalOps ops) (r : Recorded) :
    ∃ steps, Environment.Balanced steps ∧
      (Recorded.recordAll ops r).stack.view = steps.foldl Environment.apply r.stack.view := by
  induction h generalizing r with
  | nil => exact ⟨[], .nil, rfl⟩
  | addId line name type =>
    refine ⟨[.declare name r.symbols.length], .declare _ _, ?_⟩
    have view := r.stack.view_declare name r.symbols.length
    rw [Environment.declare_opened] at view
    exact view
  | block _ ih =>
    obtain ⟨steps, balanced, view⟩ := ih { r with stack := r.stack.push }
    refine ⟨.push :: steps ++ [.pop], .block balanced, ?_⟩
    rw [recordAll_block, view, r.stack.view_push, List.cons_append, List.foldl_cons,
      List.foldl_append]
    rfl
  | append _ _ ih ih' =>
    obtain ⟨steps, balanced, view⟩ := ih r
    obtain ⟨steps', balanced', view'⟩ := ih' (Recorded.recordAll _ r)
    refine ⟨steps ++ steps', .append balanced balanced', ?_⟩
    rw [recordAll_append, view', view, List.foldl_append]

/-- After a scope is closed every name means what it meant before it was opened. -/
theorem segment_lookup {inner : List TableOp} (h : LocalOps inner) (r : Recorded) (name : Ident) :
    (Recorded.recordAll (.pushScope :: inner ++ [.popScope]) r).stack.view.lookup name =
      r.stack.view.lookup name := by
  obtain ⟨steps, balanced, view⟩ := localOps_balanced h { r with stack := r.stack.push }
  have closed := Environment.block_opened balanced r.stack.view
  rw [List.cons_append, List.foldl_cons, List.foldl_append] at closed
  rw [recordAll_block, view, r.stack.view_push, ← Environment.lookup_opened r.stack.view,
    ← closed]
  rfl

/-- The symbol table is an environment stack, after any calls that raise no error. -/
theorem symbol_table_environment {ops : List TableOp} {tab : SymbolTable}
    (run : runOps ops .empty = .ok tab) :
    let r := Recorded.recordAll ops .empty
    (Linked TableStack.up tab.scopes tab.stackLevel r.stack.chain ∧
      r.stack.chain.getLast? = tab.globalLevel) ∧
    (tab.scopes.length = r.stack.scopes.length ∧
      ∀ (level : Nat) scope added, tab.scopes[level]? = some scope →
        r.stack.scopes[level]? = some added →
        Linked IdTable.next tab.ids scope.headBlock (added.map Prod.snd) ∧
        scope.endBlock = (added.map Prod.snd).getLast? ∧
        (added.map Prod.fst).Nodup ∧
        ∀ b ∈ added, ∃ info : SymbolInfo, r.symbols[b.2]? = some info ∧
          tab.entry b.2 = some info ∧ info.name = b.1) ∧
    (∀ name, tab.find name =
      r.stack.chain.findSome? fun level => (r.stack.scopes.getD level []).lookup name) ∧
    ∀ inner tab', LocalOps inner →
      runOps (.pushScope :: inner ++ [.popScope]) tab = .ok tab' →
      ∀ name, tab'.find name = tab.find name := by
  intro r
  have h : Mirrors tab r :=
    runOps_mirrors ⟨SymbolTable.tracks_empty, rfl, by simp [Recorded.empty, ScopeStack.empty]⟩ run
  refine ⟨⟨h.tracks.chain, h.tracks.global.symm⟩, ⟨h.tracks.count, ?_⟩, ?_, ?_⟩
  · intro level scope added scopeAt addedAt
    have frame : (SymbolTable.framesOf r.stack)[level]? = some (added.map Prod.snd) := by
      rw [SymbolTable.framesOf, List.getElem?_map, addedAt, Option.map_some]
    obtain ⟨linked, isLast⟩ := h.tracks.rep.linked scopeAt frame
    have mem := List.mem_of_getElem? addedAt
    refine ⟨linked, isLast, h.distinct added mem, fun b inside => ?_⟩
    obtain ⟨info, entry, name⟩ := Option.map_eq_some_iff.mp (h.tracks.names added mem b inside)
    refine ⟨info, ?_, entry, name⟩
    rw [← h.symbols, List.getElem?_map]
    exact entry
  · intro name
    rw [h.tracks.find, Environment.lookup, ScopeStack.view, List.findSome?_map]
    rfl
  · intro inner tab' isLocal later name
    rw [(runOps_mirrors h later).tracks.find, segment_lookup isLocal, h.tracks.find]

/-- A method added from inside the scope of another call's block. -/
def nestedCalls : List TableOp :=
  [.addId 1 (.of "x") .int, .pushScope, .addId 2 (.of "x") .bool,
    .addMethod 3 (.of "f") .int none false, .popScope, .addGlobalId 4 (.of "y") .int]

theorem symbol_table_environment_nested :
    ∃ tab, runOps nestedCalls .empty = .ok tab ∧ tab.find (.of "x") = some 0 ∧
      ∀ inner tab', LocalOps inner →
        runOps (.pushScope :: inner ++ [.popScope]) tab = .ok tab' →
        ∀ name, tab'.find name = tab.find name :=
  ⟨_, rfl, by decide, (symbol_table_environment (rfl : runOps nestedCalls .empty = .ok _)).2.2.2⟩

end Ctds
