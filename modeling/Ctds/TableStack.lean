import Ctds.Lib.ScopeStack
import Ctds.Scopes

/-! The symbol table as an environment stack. `Tracks` connects the linked cells and the
chain of up links to the stack of scopes of the library; every operation of
`symbol_table.c` does to the table what the library's operation does to the stack, and
`find` is the lookup in the environment of the open scopes. -/

namespace Ctds

open Fallible LinkedCells Scoping

abbrev SymbolStack := ScopeStack Ident IdPtr

namespace SymbolTable

/-- The cells of each scope, without their names. -/
def framesOf (s : SymbolStack) : Frames := s.scopes.map (·.map Prod.snd)

structure Tracks (tab : SymbolTable) (s : SymbolStack) : Prop where
  rep : tab.Represents (framesOf s)
  names : ∀ scope ∈ s.scopes, ∀ b ∈ scope, (tab.entry b.2).map SymbolInfo.name = some b.1
  chain : Linked TableStack.up tab.scopes tab.stackLevel s.chain
  global : tab.globalLevel = s.chain.getLast?

theorem tracks_empty : empty.Tracks ScopeStack.empty :=
  ⟨⟨rfl, by simp [empty], by simp [framesOf, ScopeStack.empty],
    by simp [framesOf, ScopeStack.empty], by simp [empty]⟩, by simp [ScopeStack.empty], .nil, rfl⟩

theorem Tracks.count {tab : SymbolTable} {s : SymbolStack} (h : tab.Tracks s) :
    tab.scopes.length = s.scopes.length := by
  rw [← h.rep.count, framesOf, List.length_map]

theorem find?_eq_lookup {tab : SymbolTable} (name : Ident) {scope : Scope Ident IdPtr}
    (names : ∀ b ∈ scope, (tab.entry b.2).map SymbolInfo.name = some b.1) :
    (scope.map Prod.snd).find? (tab.named name) = scope.lookup name := by
  induction scope with
  | nil => rfl
  | cons b rest ih =>
    have here := names b List.mem_cons_self
    rw [List.map_cons, List.find?_cons, List.lookup_cons, named, here,
      ih fun b mem => names b (List.mem_cons_of_mem _ mem)]
    by_cases same : b.1 = name
    · simp [same]
    · have other : (name == b.1) = false := beq_eq_false_iff_ne.mpr (Ne.symm same)
      simp [same, other]

theorem Tracks.findInBlock {tab : SymbolTable} {s : SymbolStack} (h : tab.Tracks s)
    (name : Ident) {k : Nat} (inside : k < s.scopes.length) :
    tab.findInBlock name k = (s.scopes.getD k []).lookup name := by
  have scopeAt := List.getElem?_eq_getElem inside
  have frame : (framesOf s)[k]? = some (s.scopes[k].map Prod.snd) := by
    rw [framesOf, List.getElem?_map, scopeAt, Option.map_some]
  rw [h.rep.findInBlock name frame, find?_eq_lookup name (h.names _ (List.getElem_mem inside)),
    List.getD_eq_getElem?_getD, scopeAt, Option.getD_some]

theorem findUp_linked {tab : SymbolTable} (name : Ident) {level : Option ScopePtr}
    {chain : List ScopePtr} (h : Linked TableStack.up tab.scopes level chain) {fuel : Nat}
    (enough : chain.length ≤ fuel) :
    tab.findUp name fuel level = chain.findSome? (tab.findInBlock name) := by
  induction h generalizing fuel with
  | nil => simp [findUp]
  | @cons k scope rest here _ ih =>
    cases fuel with
    | zero => simp at enough
    | succ fuel =>
      rw [List.length_cons, Nat.succ_le_succ_iff] at enough
      rw [findUp, List.findSome?_cons]
      cases tab.findInBlock name k with
      | some p => rfl
      | none =>
        simp only [here, Option.bind_some]
        exact ih enough

/-- `find` gives the declaration in the innermost open scope that has the name. -/
theorem Tracks.find {tab : SymbolTable} {s : SymbolStack} (h : tab.Tracks s) (name : Ident) :
    tab.find name = s.view.lookup name := by
  have nodup : s.chain.Nodup := s.decreasing.imp Nat.ne_of_gt
  have enough : s.chain.length ≤ tab.scopes.length := h.chain.length_le nodup
  rw [SymbolTable.find, findUp_linked name h.chain enough, Environment.lookup, ScopeStack.view,
    List.findSome?_map]
  exact findSome?_congr fun k mem => h.findInBlock name (s.inside k mem)

theorem Tracks.findInCurrentScope {tab : SymbolTable} {s : SymbolStack} (h : tab.Tracks s)
    (name : Ident) :
    tab.findInCurrentScope name = s.view.head?.bind (·.lookup name) := by
  rw [SymbolTable.findInCurrentScope, h.chain.head, ScopeStack.view, List.head?_map]
  cases chain : s.chain with
  | nil => rfl
  | cons k rest => exact h.findInBlock name (s.inside k (chain ▸ List.mem_cons_self))

theorem Tracks.findGlobal {tab : SymbolTable} {s : SymbolStack} (h : tab.Tracks s)
    (name : Ident) : tab.findGlobal name = s.view.getLast?.bind (·.lookup name) := by
  rw [SymbolTable.findGlobal, h.global, ScopeStack.view, List.getLast?_map]
  cases last : s.chain.getLast? with
  | none => rfl
  | some k => exact h.findInBlock name (s.inside k (List.mem_of_getLast? last))

theorem Tracks.stackLevel_none {tab : SymbolTable} {s : SymbolStack} (h : tab.Tracks s) :
    tab.stackLevel = none ↔ s.scopes.length = 0 := by
  rw [← ScopeStack.chain_eq_nil, h.chain.head, List.head?_eq_none_iff]

theorem Tracks.globalLevel_none {tab : SymbolTable} {s : SymbolStack} (h : tab.Tracks s) :
    tab.globalLevel = none ↔ s.scopes.length = 0 := by
  rw [← ScopeStack.chain_eq_nil, h.global, List.getLast?_eq_none_iff]

theorem Tracks.allocateScope {tab : SymbolTable} {s s' : SymbolStack} (h : tab.Tracks s)
    (global : Option ScopePtr) (scopes : s'.scopes = s.scopes ++ [[]])
    (chain : s'.chain = s.scopes.length :: s.chain) (isGlobal : global = s'.chain.getLast?) :
    { tab.allocateScope tab.stackLevel with
      globalLevel := global, stackLevel := some tab.scopes.length }.Tracks s' := by
  have below : if tab.scopes.length = 0 then tab.stackLevel = none
      else ∃ u, tab.stackLevel = some u ∧ u < tab.scopes.length := by
    rw [h.count]
    split
    · next none => exact h.stackLevel_none.mpr none
    · next some =>
      obtain ⟨u, level⟩ := Option.ne_none_iff_exists'.mp fun none =>
        some (h.stackLevel_none.mp none)
      have head := h.chain.head
      rw [level] at head
      exact ⟨u, level, s.inside u (List.mem_of_head? head.symm)⟩
  refine ⟨?_, ?_, ?_, isGlobal⟩
  · have rep := h.rep.allocateScope tab.stackLevel below
    have frames : framesOf s' = framesOf s ++ [[]] := by
      rw [framesOf, scopes, List.map_append]
      rfl
    rw [frames]
    exact rep.relevel _ _
  · intro scope mem b inside
    rw [scopes, List.mem_append, List.mem_singleton] at mem
    rcases mem with mem | rfl
    · exact h.names scope mem b inside
    · cases inside
  · have older : Linked TableStack.up (tab.scopes ++ [⟨none, none, tab.stackLevel⟩])
        tab.stackLevel s.chain := h.chain.append _
    have linked : Linked TableStack.up (tab.scopes ++ [⟨none, none, tab.stackLevel⟩])
        (some tab.scopes.length) (tab.scopes.length :: s.chain) :=
      .cons List.getElem?_concat_length older
    rw [chain, ← h.count]
    exact linked

theorem Tracks.stInit {tab : SymbolTable} {s : SymbolStack} (h : tab.Tracks s) :
    tab.stInit.Tracks s.opened := by
  unfold SymbolTable.stInit
  cases global : tab.globalLevel with
  | some g =>
    rw [ScopeStack.opened_of_open]
    · exact h
    · intro none
      rw [h.globalLevel_none.mpr none] at global
      cases global
  | none =>
    have none := h.globalLevel_none.mp global
    have noScopes : s.scopes = [] := List.eq_nil_of_length_eq_zero none
    have noChain : s.chain = [] := ScopeStack.chain_eq_nil.mpr none
    have empty : tab.scopes.length = 0 := h.count.trans none
    have tracks : SymbolTable.Tracks _ ScopeStack.start := h.allocateScope
      (some tab.scopes.length) (by rw [noScopes]; rfl) (by rw [none, noChain]; rfl)
      (by rw [empty]; rfl)
    rw [h.stackLevel_none.mpr none] at tracks
    rw [ScopeStack.opened_of_empty none]
    exact tracks

theorem Tracks.initialized {tab : SymbolTable} {s : SymbolStack} (h : tab.Tracks s)
    {level : Option ScopePtr} (ask : level = none ↔ s.scopes.length = 0) :
    (tab.initialized level).Tracks s.opened := by
  unfold SymbolTable.initialized
  cases level with
  | none => exact h.stInit
  | some k =>
    rw [ScopeStack.opened_of_open fun none => by cases ask.mpr none]
    exact h

theorem initialized_ids (tab : SymbolTable) (level : Option ScopePtr) :
    (tab.initialized level).ids = tab.ids := by
  unfold SymbolTable.initialized stInit
  split
  · split <;> rfl
  · rfl

theorem pushScope_infos (tab : SymbolTable) :
    tab.pushScope.ids.map IdTable.info = tab.ids.map IdTable.info :=
  congrArg (List.map IdTable.info) (initialized_ids tab tab.stackLevel)

theorem popScope_infos (tab : SymbolTable) :
    tab.popScope.ids.map IdTable.info = tab.ids.map IdTable.info := by
  unfold SymbolTable.popScope
  split
  · rfl
  · split <;> rfl

theorem popScope_entry (tab : SymbolTable) (p : IdPtr) : tab.popScope.entry p = tab.entry p := by
  rw [SymbolTable.entry, SymbolTable.entry, ← List.getElem?_map, ← List.getElem?_map,
    popScope_infos]

theorem Tracks.pushScope {tab : SymbolTable} {s : SymbolStack} (h : tab.Tracks s) :
    tab.pushScope.Tracks s.push := by
  have opened := h.initialized h.stackLevel_none
  refine opened.allocateScope (tab.initialized tab.stackLevel).globalLevel rfl rfl ?_
  have bottom := s.opened.bottom
  rw [opened.global, ScopeStack.push, List.getLast?_cons, bottom,
    if_neg s.opened_scopes, Option.getD_some]

theorem Tracks.popScope {tab : SymbolTable} {s : SymbolStack} (h : tab.Tracks s) :
    tab.popScope.Tracks s.pop := by
  unfold SymbolTable.popScope
  have chain := h.chain
  have keep : ∀ {level : Option ScopePtr},
      Linked TableStack.up tab.scopes level (dropInner s.chain) →
      { tab with stackLevel := level }.Tracks s.pop := fun linked =>
    ⟨h.rep.relevel _ _, h.names, linked, h.global.trans (getLast?_dropInner s.chain).symm⟩
  cases level : tab.stackLevel with
  | none =>
    have noChain : s.chain = [] := ScopeStack.chain_eq_nil.mpr (h.stackLevel_none.mp level)
    exact keep (by rw [level, noChain]; exact .nil)
  | some k =>
    rw [level] at chain
    rcases same : s.chain with _ | ⟨j, _ | ⟨outer, rest⟩⟩
    · rw [same] at chain
      cases chain
    · have isGlobal : tab.globalLevel = some k := by
        rw [same] at chain
        cases chain
        rw [h.global, same]
        rfl
      simp only [isGlobal, if_true]
      exact keep (by rw [level, same]; rwa [same] at chain)
    · rw [same] at chain
      obtain ⟨scope, here, up⟩ : ∃ scope, tab.scopes[k]? = some scope ∧
          Linked TableStack.up tab.scopes scope.up (outer :: rest) := by
        cases chain with
        | cons here up => exact ⟨_, here, up⟩
      have notGlobal : tab.globalLevel ≠ some k := by
        intro isGlobal
        have decreasing := s.decreasing
        have last := h.global
        rw [isGlobal, same, List.getLast?_cons_cons] at last
        have head : some k = some j := by simpa using chain.head
        rw [same, List.pairwise_cons] at decreasing
        have below := decreasing.1 k (List.mem_of_getLast? last.symm)
        exact Nat.lt_irrefl j ((Option.some.inj head) ▸ below)
      simp only [notGlobal, if_false, here, Option.bind_some]
      exact keep (by rw [same]; exact up)

theorem link_infos (tab : SymbolTable) (level : ScopePtr) (info : SymbolInfo) :
    (tab.link level info).ids.map IdTable.info = tab.ids.map IdTable.info ++ [info] := by
  have same : ∀ (ids : List IdTable) (p q : IdPtr),
      (setNext ids p q).map IdTable.info = ids.map IdTable.info := by
    intro ids p q
    refine List.ext_getElem? fun k => ?_
    rw [List.getElem?_map, List.getElem?_map, setNext_info]
  unfold SymbolTable.link
  split
  · simp
  · rw [same]
    simp

theorem map_modify_append {α β : Type} (f : α → β) (lists : List (List α)) (k : Nat)
    (more : List α) :
    (lists.modify k (· ++ more)).map (·.map f) =
      (lists.map (·.map f)).set k ((lists.getD k []).map f ++ more.map f) := by
  refine List.ext_getElem? fun j => ?_
  rw [List.getElem?_map, List.getElem?_set, List.getElem?_map, List.length_map,
    List.getD_eq_getElem?_getD]
  by_cases same : k = j
  · subst same
    rw [List.getElem?_modify_eq]
    by_cases inside : k < lists.length
    · simp [inside]
    · simp [inside]
  · rw [List.getElem?_modify_ne _ _ same, if_neg same]

theorem Tracks.link {tab : SymbolTable} {s : SymbolStack} (h : tab.Tracks s) {k : ScopePtr}
    (inside : k < s.scopes.length) (info : SymbolInfo) :
    (tab.link k info).Tracks (s.declareAt k info.name tab.ids.length) := by
  obtain ⟨global, stack, -⟩ := link_levels tab k info
  have frame : (framesOf s)[k]? = some ((s.scopes.getD k []).map Prod.snd) := by
    rw [framesOf, List.getElem?_map, List.getD_eq_getElem?_getD, List.getElem?_eq_getElem inside,
      Option.map_some, Option.getD_some]
  have frames : framesOf (s.declareAt k info.name tab.ids.length) =
      (framesOf s).set k ((s.scopes.getD k []).map Prod.snd ++ [tab.ids.length]) :=
    map_modify_append Prod.snd s.scopes k [(info.name, tab.ids.length)]
  have old : ∀ scope ∈ s.scopes, ∀ b ∈ scope,
      ((tab.link k info).entry b.2).map SymbolInfo.name = some b.1 := by
    intro scope mem b here
    have name := h.names scope mem b here
    obtain ⟨info', entry, -⟩ := Option.map_eq_some_iff.mp name
    rw [link_entry info (entry_lt entry), name]
  refine ⟨?_, ?_, ?_, ?_⟩
  · rw [frames]
    exact h.rep.link frame info
  · intro scope mem b here
    obtain ⟨j, isAt⟩ := List.mem_iff_getElem?.mp mem
    by_cases same : k = j
    · subst same
      simp only [ScopeStack.declareAt, List.getElem?_modify_eq, List.getElem?_eq_getElem inside,
        Option.map_eq_map, Option.map_some, Option.some.injEq] at isAt
      subst isAt
      rcases List.mem_append.mp here with here | here
      · exact old _ (List.getElem_mem inside) b here
      · obtain rfl := List.mem_singleton.mp here
        rw [link_entry_new, Option.map_some]
    · simp only [ScopeStack.declareAt, List.getElem?_modify_ne _ _ same] at isAt
      exact old scope (List.mem_of_getElem? isAt) b here
  · have chain : Linked TableStack.up (tab.link k info).scopes tab.stackLevel s.chain := by
      unfold SymbolTable.link
      split
      · exact h.chain.modify_keep k fun _ => rfl
      · exact h.chain.modify_keep k fun _ => rfl
    rw [stack]
    exact chain
  · rw [global]
    exact h.global

theorem Tracks.addId {tab tab' : SymbolTable} {s : SymbolStack} (h : tab.Tracks s) {line : Int}
    {name : Ident} {type : Ty} {dir : IdPtr} (added : tab.addId line name type = .ok (tab', dir)) :
    tab'.Tracks (s.declare name dir) ∧ dir = tab.ids.length ∧
      tab'.ids.map IdTable.info = tab.ids.map IdTable.info ++ [.id name type] ∧
      (s.view.head?.bind (·.lookup name)) = none := by
  have opened := h.initialized h.stackLevel_none
  unfold SymbolTable.addId at added
  dsimp only at added
  split at added
  · cases added
  · next absent =>
    rw [Except.ok.injEq, Prod.mk.injEq] at added
    obtain ⟨rfl, rfl⟩ := added
    have head := opened.chain.head
    rw [opened.findInCurrentScope, ScopeStack.view_opened] at absent
    refine ⟨?_, by rw [initialized_ids], by rw [link_infos, initialized_ids], ?_⟩
    · rw [ScopeStack.declare, head, ← List.headD_eq_head?_getD]
      have inside : s.opened.chain.headD 0 < s.opened.scopes.length := by
        cases chain : s.opened.chain with
        | nil => exact absurd (ScopeStack.chain_eq_nil.mp chain) s.opened_scopes
        | cons k rest => exact s.opened.inside k (chain ▸ List.mem_cons_self)
      exact opened.link inside (.id name type)
    · cases view : s.view with
      | nil => rfl
      | cons scope rest =>
        simp only [view, Environment.opened, List.head?_cons, Option.bind_some] at absent
        exact Option.not_isSome_iff_eq_none.mp absent

theorem Tracks.addGlobal {tab : SymbolTable} {s : SymbolStack} (h : tab.Tracks s)
    (info : SymbolInfo) :
    ((tab.initialized tab.globalLevel).link
        ((tab.initialized tab.globalLevel).globalLevel.getD 0) info).Tracks
      (s.declareGlobal info.name tab.ids.length) ∧
      ((tab.initialized tab.globalLevel).link
        ((tab.initialized tab.globalLevel).globalLevel.getD 0) info).ids.map IdTable.info =
        tab.ids.map IdTable.info ++ [info] := by
  have opened := h.initialized h.globalLevel_none
  have bottom := s.opened.bottom
  rw [if_neg s.opened_scopes] at bottom
  rw [opened.global, bottom, Option.getD_some, link_infos, initialized_ids]
  refine ⟨?_, rfl⟩
  have link := opened.link (Nat.pos_of_ne_zero s.opened_scopes) info
  rwa [initialized_ids] at link

theorem Tracks.addMethod {tab tab' : SymbolTable} {s : SymbolStack} (h : tab.Tracks s) {line : Int}
    {name : Ident} {retType : ReturnType} {methodScope : Option ScopePtr} {isExtern : Bool}
    (added : tab.addMethod line name retType methodScope isExtern = .ok tab') :
    tab'.Tracks (s.declareGlobal name tab.ids.length) ∧ s.view.lookup name = none ∧
      tab'.ids.map IdTable.info = tab.ids.map IdTable.info ++
        [.methodDecl ⟨name, 0, retType, [], methodScope, isExtern⟩] := by
  unfold SymbolTable.addMethod at added
  split at added
  · cases added
  · next absent =>
    rw [h.find, Option.not_isSome_iff_eq_none] at absent
    obtain ⟨tracks, infos⟩ :=
      h.addGlobal (.methodDecl ⟨name, 0, retType, [], methodScope, isExtern⟩)
    obtain rfl := Except.ok.inj added
    exact ⟨tracks, absent, infos⟩

theorem Tracks.withArgs {tab : SymbolTable} {s : SymbolStack} (h : tab.Tracks s) (p : IdPtr)
    (list : List Args) : (tab.withArgs p list).Tracks s := by
  refine ⟨withArgs_represents h.rep _ _, ?_, h.chain, h.global⟩
  intro scope mem b inside
  rw [withArgs_entry, Option.map_map, ← h.names scope mem b inside]
  cases tab.entry b.2 with
  | none => rfl
  | some info =>
    simp only [Option.map_some, Function.comp_apply]
    split <;> simp [setArgs_name]

end SymbolTable

end Ctds
