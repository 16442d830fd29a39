import Mathlib.Data.List.Find
import Ctds.Lib.LinkedCells
import Ctds.Shape

/-! The symbol table as a stack of frames: for each scope the list of its entries, oldest
first. `Represents` connects the linked cells of `symbol_table.c` to the frames; every
operation keeps it, and keeps the entries and the global names there were before. -/

namespace Ctds

open Fallible LinkedCells

abbrev Frames := List (List IdPtr)

namespace SymbolTable

def named (tab : SymbolTable) (name : Ident) (p : IdPtr) : Bool :=
  decide ((tab.entry p).map SymbolInfo.name = some name)

structure Represents (tab : SymbolTable) (frames : Frames) : Prop where
  count : frames.length = tab.scopes.length
  linked : ∀ {level : Nat} {scope : TableStack} {ps : List IdPtr},
    tab.scopes[level]? = some scope → frames[level]? = some ps →
    Linked IdTable.next tab.ids scope.headBlock ps ∧ scope.endBlock = ps.getLast?
  nodup : ∀ {level : Nat} {ps : List IdPtr}, frames[level]? = some ps → ps.Nodup
  apart : ∀ {level level' : Nat} {ps ps' : List IdPtr}, frames[level]? = some ps →
    frames[level']? = some ps' → level ≠ level' → ∀ p ∈ ps, p ∉ ps'
  up : ∀ {level : Nat} {scope : TableStack}, tab.scopes[level]? = some scope →
    if level = 0 then scope.up = none else ∃ u, scope.up = some u ∧ u < level

/-- Before the first scope is opened both levels are null; afterwards scope 0 is the
global one. -/
def Levels (tab : SymbolTable) : Prop :=
  (tab.scopes = [] ∧ tab.globalLevel = none ∧ tab.stackLevel = none) ∨
    (tab.globalLevel = some 0 ∧ ∃ s, tab.stackLevel = some s ∧ s < tab.scopes.length)

/-- What `add_method` and `add_current_list` write into every method symbol. -/
def MethodsOk (tab : SymbolTable) : Prop :=
  ∀ (p : IdPtr) (method : MethodInfo), tab.entry p = some (.methodDecl method) →
    method.numArgs = method.args.length ∧ method.returnType ≠ .null

structure WellFormed (tab : SymbolTable) : Prop where
  frames : ∃ frames, tab.Represents frames
  levels : tab.Levels
  methods : tab.MethodsOk

theorem wellFormed_empty : empty.WellFormed :=
  ⟨⟨[], rfl, by simp [empty], by simp, by simp, by simp [empty]⟩, .inl ⟨rfl, rfl, rfl⟩,
    by simp [MethodsOk, entry, empty]⟩

theorem findFrom_linked (tab : SymbolTable) (name : Ident) {start : Option IdPtr} {ps : List IdPtr}
    (h : Linked IdTable.next tab.ids start ps) {fuel : Nat} (enough : ps.length ≤ fuel) :
    tab.findFrom name fuel start = ps.find? (tab.named name) := by
  induction h generalizing fuel with
  | nil => simp [findFrom]
  | @cons p cell ps here rest ih =>
    cases fuel with
    | zero => simp at enough
    | succ fuel =>
      have entry : tab.entry p = some cell.info := by simp [SymbolTable.entry, here]
      rw [List.length_cons, Nat.succ_le_succ_iff] at enough
      simp only [findFrom, here, List.find?_cons, named, entry, Option.map_some, Option.some.injEq]
      by_cases same : cell.info.name = name
      · simp [same]
      · simp only [same, if_false, decide_false]
        exact ih enough

theorem Represents.findInBlock {tab : SymbolTable} {frames : Frames} (h : tab.Represents frames)
    (name : Ident) {level : ScopePtr} {ps : List IdPtr} (frame : frames[level]? = some ps) :
    tab.findInBlock name level = ps.find? (tab.named name) := by
  have inside : level < tab.scopes.length := by
    rw [← h.count]
    exact (List.getElem?_eq_some_iff.mp frame).1
  have scope := List.getElem?_eq_getElem inside
  have linked := (h.linked scope frame).1
  rw [SymbolTable.findInBlock, scope]
  exact tab.findFrom_linked name linked (linked.length_le (h.nodup frame))

/-- Entries stay, and a global name keeps its first entry. -/
structure Extends (tab tab' : SymbolTable) : Prop where
  grows : tab.Grows tab'
  entry : ∀ {p : IdPtr} {info : SymbolInfo}, tab.entry p = some info → tab'.entry p = some info
  findGlobal : ∀ {name : Ident} {p : IdPtr},
    tab.findGlobal name = some p → tab'.findGlobal name = some p
  global : ∀ {g : ScopePtr}, tab.globalLevel = some g → tab'.globalLevel = some g

theorem Extends.refl (tab : SymbolTable) : tab.Extends tab := ⟨Nat.le_refl _, id, id, id⟩

theorem Extends.trans {tab tab' tab'' : SymbolTable} (h : tab.Extends tab')
    (g : tab'.Extends tab'') : tab.Extends tab'' :=
  ⟨Nat.le_trans h.grows g.grows, fun e => g.entry (h.entry e),
    fun e => g.findGlobal (h.findGlobal e), fun e => g.global (h.global e)⟩

theorem entry_lt {tab : SymbolTable} {p : IdPtr} {info : SymbolInfo}
    (h : tab.entry p = some info) : p < tab.ids.length := by
  have some := hasEntry_iff.mpr ⟨info, h⟩
  simpa [hasEntry] using some

theorem allocateScope_cases {tab : SymbolTable} {parent : Option ScopePtr} {level : Nat}
    {scope : TableStack} (h : (tab.allocateScope parent).scopes[level]? = some scope) :
    tab.scopes[level]? = some scope ∨ level = tab.scopes.length ∧ scope = ⟨none, none, parent⟩ := by
  by_cases old : level < tab.scopes.length
  · rw [SymbolTable.allocateScope, List.getElem?_append_left old] at h
    exact .inl h
  · have last : level = tab.scopes.length := by
      have := (List.getElem?_eq_some_iff.mp h).1
      simp only [SymbolTable.allocateScope, List.length_append, List.length_singleton] at this
      omega
    subst last
    simp only [SymbolTable.allocateScope, List.getElem?_concat_length, Option.some.injEq] at h
    exact .inr ⟨rfl, h.symm⟩

theorem Represents.allocateScope {tab : SymbolTable} {frames : Frames}
    (h : tab.Represents frames) (parent : Option ScopePtr)
    (below : if tab.scopes.length = 0 then parent = none
      else ∃ u, parent = some u ∧ u < tab.scopes.length) :
    (tab.allocateScope parent).Represents (frames ++ [[]]) := by
  have frame : ∀ {level : Nat} {ps : List IdPtr}, (frames ++ [[]])[level]? = some ps →
      frames[level]? = some ps ∨ ps = [] := by
    intro level ps hf
    rw [List.getElem?_append] at hf
    split at hf
    · exact .inl hf
    · exact .inr (List.mem_singleton.mp (List.mem_of_getElem? hf))
  refine ⟨by simp [SymbolTable.allocateScope, h.count], ?_, ?_, ?_, ?_⟩
  · intro level scope ps hs hf
    rcases allocateScope_cases hs with old | ⟨rfl, rfl⟩
    · have lt := (List.getElem?_eq_some_iff.mp old).1
      rw [List.getElem?_append_left (h.count ▸ lt)] at hf
      exact h.linked old hf
    · rw [← h.count, List.getElem?_concat_length, Option.some.injEq] at hf
      subst hf
      exact ⟨.nil, rfl⟩
  · intro level ps hf
    rcases frame hf with hf | rfl
    · exact h.nodup hf
    · exact .nil
  · intro level level' ps ps' hf hf' ne p mem
    rcases frame hf with hf | rfl
    · rcases frame hf' with hf' | rfl
      · exact h.apart hf hf' ne p mem
      · simp
    · cases mem
  · intro level scope hs
    rcases allocateScope_cases hs with old | ⟨rfl, rfl⟩
    · exact h.up old
    · exact below

theorem link_eq {tab : SymbolTable} {level : ScopePtr} {scope : TableStack}
    (at' : tab.scopes[level]? = some scope) (info : SymbolInfo) :
    tab.link level info =
      { tab with
        ids := match scope.endBlock with
          | none => tab.ids ++ [⟨info, none⟩]
          | some last => setNext (tab.ids ++ [⟨info, none⟩]) last tab.ids.length
        scopes := tab.scopes.modify level fun s =>
          { s with
            headBlock := if scope.endBlock = none then some tab.ids.length else s.headBlock
            endBlock := some tab.ids.length } } := by
  cases last : scope.endBlock <;> simp [SymbolTable.link, at', last]

theorem Linked.link_other {tab : SymbolTable} {scope : TableStack} {ps qs : List IdPtr}
    {start : Option IdPtr} (h : Linked IdTable.next tab.ids start qs)
    (isLast : scope.endBlock = ps.getLast?) (apart : ∀ p ∈ ps, p ∉ qs) (info : SymbolInfo) :
    Linked IdTable.next
      (match scope.endBlock with
        | none => tab.ids ++ [⟨info, none⟩]
        | some last => setNext (tab.ids ++ [⟨info, none⟩]) last tab.ids.length) start qs := by
  cases last : scope.endBlock with
  | none => exact h.append _
  | some q =>
    have mem : q ∈ ps := List.mem_of_getLast? (isLast ▸ last)
    exact (h.append _).modify_off (apart q mem) _

theorem Linked.link_here {tab : SymbolTable} {scope : TableStack} {ps : List IdPtr}
    (h : Linked IdTable.next tab.ids scope.headBlock ps) (isLast : scope.endBlock = ps.getLast?)
    (nodup : ps.Nodup) (info : SymbolInfo) :
    Linked IdTable.next
      (match scope.endBlock with
        | none => tab.ids ++ [⟨info, none⟩]
        | some last => setNext (tab.ids ++ [⟨info, none⟩]) last tab.ids.length)
      (if scope.endBlock = none then some tab.ids.length else scope.headBlock)
      (ps ++ [tab.ids.length]) := by
  cases last : scope.endBlock with
  | none =>
    have empty : ps = [] := List.getLast?_eq_none_iff.mp (isLast ▸ last)
    subst empty
    simp only [if_true, List.nil_append]
    exact .cons (by simp : _ = some (⟨info, none⟩ : IdTable)) .nil
  | some q =>
    have isLast' : ps.getLast? = some q := isLast ▸ last
    simpa [setNext] using h.link nodup isLast' (rfl : IdTable.next ⟨info, none⟩ = none) fun _ => rfl

/-- The list of one scope grows by the fresh entry. -/
theorem Represents.link {tab : SymbolTable} {frames : Frames} (h : tab.Represents frames)
    {level : ScopePtr} {ps : List IdPtr} (frame : frames[level]? = some ps) (info : SymbolInfo) :
    (tab.link level info).Represents (frames.set level (ps ++ [tab.ids.length])) := by
  obtain ⟨inside, -⟩ := List.getElem?_eq_some_iff.mp frame
  have scopeAt := List.getElem?_eq_getElem (h.count ▸ inside)
  obtain ⟨linked, isLast⟩ := h.linked scopeAt frame
  have old : ∀ {level' : Nat} {qs : List IdPtr}, frames[level']? = some qs →
      tab.ids.length ∉ qs := fun {level' qs} hf mem => by
    have := List.getElem?_eq_getElem (h.count ▸ (List.getElem?_eq_some_iff.mp hf).1)
    exact Nat.lt_irrefl _ ((h.linked this hf).1.lt mem)
  have frameAt : ∀ {level' : Nat} {qs : List IdPtr},
      (frames.set level (ps ++ [tab.ids.length]))[level']? = some qs →
      (level' = level ∧ qs = ps ++ [tab.ids.length]) ∨
        (level' ≠ level ∧ frames[level']? = some qs) := by
    intro level' qs hf
    by_cases same : level' = level
    · subst same
      rw [List.getElem?_set_self inside, Option.some.injEq] at hf
      exact .inl ⟨rfl, hf.symm⟩
    · rw [List.getElem?_set_ne (Ne.symm same)] at hf
      exact .inr ⟨same, hf⟩
  rw [link_eq scopeAt]
  refine ⟨by simp [h.count], ?_, ?_, ?_, ?_⟩
  · intro level' scope' qs hs hf
    rcases frameAt hf with ⟨rfl, rfl⟩ | ⟨ne, hf⟩
    · simp only [List.getElem?_modify_eq, scopeAt, Option.map_eq_map, Option.map_some,
        Option.some.injEq] at hs
      subst hs
      exact ⟨Linked.link_here linked isLast (h.nodup frame) info, by simp⟩
    · simp only [List.getElem?_modify_ne _ _ (Ne.symm ne)] at hs
      obtain ⟨linked', isLast'⟩ := h.linked hs hf
      exact ⟨Linked.link_other linked' isLast (h.apart frame hf (Ne.symm ne)) info, isLast'⟩
  · intro level' qs hf
    rcases frameAt hf with ⟨rfl, rfl⟩ | ⟨-, hf⟩
    · exact List.nodup_append.mpr ⟨h.nodup frame, List.nodup_singleton _, fun p mem q same => by
        rintro rfl
        exact old frame (List.mem_singleton.mp same ▸ mem)⟩
    · exact h.nodup hf
  · intro level₁ level₂ qs₁ qs₂ hf₁ hf₂ ne p mem
    rcases frameAt hf₁ with ⟨rfl, rfl⟩ | ⟨ne₁, old₁⟩ <;>
      rcases frameAt hf₂ with ⟨rfl, rfl⟩ | ⟨ne₂, old₂⟩
    · exact absurd rfl ne
    · rcases List.mem_append.mp mem with mem | mem
      · exact h.apart frame old₂ ne p mem
      · exact List.mem_singleton.mp mem ▸ old old₂
    · have apart := h.apart old₁ frame ne p mem
      rw [List.mem_append, List.mem_singleton, not_or]
      exact ⟨apart, fun same => old old₁ (same ▸ mem)⟩
    · exact h.apart old₁ old₂ ne p mem
  · intro level' scope' hs
    by_cases same : level' = level
    · subst same
      simp only [List.getElem?_modify_eq, scopeAt, Option.map_eq_map, Option.map_some,
        Option.some.injEq] at hs
      subst hs
      have up := h.up scopeAt
      exact up
    · simp only [List.getElem?_modify_ne _ _ (Ne.symm same)] at hs
      exact h.up hs

theorem setNext_info (ids : List IdTable) (last next q : IdPtr) :
    ((setNext ids last next)[q]?).map IdTable.info = (ids[q]?).map IdTable.info := by
  by_cases same : last = q
  · subst same
    rw [setNext, List.getElem?_modify_eq]
    cases ids[last]? <;> rfl
  · rw [setNext, List.getElem?_modify_ne _ _ same]

theorem link_entry {tab : SymbolTable} {level : ScopePtr} (info : SymbolInfo) {p : IdPtr}
    (old : p < tab.ids.length) : (tab.link level info).entry p = tab.entry p := by
  unfold SymbolTable.link entry
  split
  · rw [List.getElem?_append_left old]
  · rw [setNext_info, List.getElem?_append_left old]

theorem link_entry_new (tab : SymbolTable) (level : ScopePtr) (info : SymbolInfo) :
    (tab.link level info).entry tab.ids.length = some info := by
  unfold SymbolTable.link entry
  split
  · simp
  · rw [setNext_info]
    simp

theorem link_length (tab : SymbolTable) (level : ScopePtr) (info : SymbolInfo) :
    (tab.link level info).ids.length = tab.ids.length + 1 := by
  unfold SymbolTable.link
  split <;> simp [setNext]

theorem link_levels (tab : SymbolTable) (level : ScopePtr) (info : SymbolInfo) :
    (tab.link level info).globalLevel = tab.globalLevel ∧
      (tab.link level info).stackLevel = tab.stackLevel ∧
      (tab.link level info).scopes.length = tab.scopes.length := by
  unfold SymbolTable.link
  split <;> simp

theorem named_of_entry {tab tab' : SymbolTable} {p : IdPtr} (same : tab'.entry p = tab.entry p)
    (name : Ident) : tab'.named name p = tab.named name p := by
  rw [named, named, same]

theorem Extends.of_frames {tab tab' : SymbolTable} {frames frames' : Frames}
    (h : tab.Represents frames) (h' : tab'.Represents frames')
    (entries : ∀ p < tab.ids.length, tab'.entry p = tab.entry p)
    (grows : tab.Grows tab')
    (level : ∀ {g : ScopePtr}, tab.globalLevel = some g → tab'.globalLevel = some g)
    (frame : ∀ {g : Nat} {ps : List IdPtr}, frames[g]? = some ps →
      ∃ more, frames'[g]? = some (ps ++ more)) : tab.Extends tab' := by
  refine ⟨grows, fun {p info} e => (entries p (entry_lt e)).trans e, ?_, level⟩
  intro name p found
  cases global : tab.globalLevel with
  | none => simp [SymbolTable.findGlobal, global] at found
  | some g =>
    rw [SymbolTable.findGlobal, global, Option.bind_some] at found
    have inside : g < frames.length := by
      by_contra out
      have : tab.scopes[g]? = none := List.getElem?_eq_none (h.count ▸ Nat.le_of_not_lt out)
      simp [SymbolTable.findInBlock, this] at found
    have at' := List.getElem?_eq_getElem inside
    obtain ⟨more, at''⟩ := frame at'
    rw [h.findInBlock name at'] at found
    rw [SymbolTable.findGlobal, level global, Option.bind_some, h'.findInBlock name at'',
      List.find?_append]
    have same : ∀ q ∈ frames[g], tab'.named name q = tab.named name q := fun q mem => by
      have scopeAt := List.getElem?_eq_getElem (h.count ▸ inside)
      exact named_of_entry (entries q ((h.linked scopeAt at').1.lt mem)) name
    have found' : frames[g].find? (tab'.named name) = some p := by
      rw [← found]
      exact List.find?_congr same
    rw [found']
    rfl

def Keeps (tab tab' : SymbolTable) : Prop := tab.WellFormed → tab'.WellFormed ∧ tab.Extends tab'

theorem Represents.relevel {tab : SymbolTable} {frames : Frames} (h : tab.Represents frames)
    (global stack : Option ScopePtr) :
    { tab with globalLevel := global, stackLevel := stack }.Represents frames :=
  ⟨h.count, h.linked, h.nodup, h.apart, h.up⟩

theorem stInit_keeps {tab : SymbolTable} (wf : tab.WellFormed) :
    tab.stInit.WellFormed ∧ tab.Extends tab.stInit ∧ tab.stInit.globalLevel = some 0 := by
  obtain ⟨⟨frames, rep⟩, levels, methods⟩ := wf
  rcases levels with ⟨none, global, stack⟩ | ⟨global, s, stack, lt⟩
  · have noFrames : frames = [] := List.eq_nil_of_length_eq_zero (by rw [rep.count, none]; rfl)
    have eq : tab.stInit = { tab.allocateScope Option.none with
        globalLevel := some 0, stackLevel := some 0 } := by
      simp [stInit, global, none]
    have rep' := (rep.allocateScope Option.none (by simp [none])).relevel (some 0) (some 0)
    rw [eq]
    refine ⟨⟨⟨_, rep'⟩, .inr ⟨rfl, 0, rfl, by simp [SymbolTable.allocateScope]⟩, methods⟩, ?_, rfl⟩
    refine .of_frames rep rep' (fun p _ => rfl) (Nat.le_refl _) ?_ ?_
    · intro g h
      simp [global] at h
    · intro g ps h
      simp [noFrames] at h
  · have eq : tab.stInit = tab := by simp [stInit, global]
    rw [eq]
    exact ⟨⟨⟨frames, rep⟩, .inr ⟨global, s, stack, lt⟩, methods⟩, .refl tab, global⟩

theorem initialized_keeps {tab : SymbolTable} (wf : tab.WellFormed) :
    (tab.initialized tab.stackLevel).WellFormed ∧
      tab.Extends (tab.initialized tab.stackLevel) ∧
      (tab.initialized tab.stackLevel).globalLevel = some 0 := by
  unfold SymbolTable.initialized
  cases stack : tab.stackLevel with
  | none => exact stInit_keeps wf
  | some s =>
    refine ⟨wf, .refl tab, ?_⟩
    rcases wf.levels with ⟨-, -, stack'⟩ | ⟨global, -⟩
    · simp [stack] at stack'
    · exact global

theorem pushScope_keeps (tab : SymbolTable) : tab.Keeps tab.pushScope := by
  intro wf
  obtain ⟨⟨⟨frames, rep⟩, levels, methods⟩, extends', global⟩ := initialized_keeps wf
  rcases levels with ⟨-, global', -⟩ | ⟨-, s, stack, lt⟩
  · simp [global] at global'
  · have below : if (tab.initialized tab.stackLevel).scopes.length = 0
        then (tab.initialized tab.stackLevel).stackLevel = none
        else ∃ u, (tab.initialized tab.stackLevel).stackLevel = some u ∧
          u < (tab.initialized tab.stackLevel).scopes.length := by
      rw [if_neg (Nat.ne_of_gt (Nat.zero_lt_of_lt lt))]
      exact ⟨s, stack, lt⟩
    have rep' := (rep.allocateScope _ below).relevel (some 0)
      (some (tab.initialized tab.stackLevel).scopes.length)
    have eq : tab.pushScope = { (tab.initialized tab.stackLevel).allocateScope
        (tab.initialized tab.stackLevel).stackLevel with
        globalLevel := some 0,
        stackLevel := some (tab.initialized tab.stackLevel).scopes.length } := by
      simp [pushScope, SymbolTable.allocateScope, global]
    rw [eq]
    refine ⟨⟨⟨_, rep'⟩, .inr ⟨rfl, _, rfl, by simp [SymbolTable.allocateScope]⟩, methods⟩,
      extends'.trans ?_⟩
    refine .of_frames rep rep' (fun p _ => rfl) (Nat.le_refl _) (fun h => global ▸ h) ?_
    intro g ps h
    refine ⟨[], ?_⟩
    rw [List.append_nil, List.getElem?_append_left (List.getElem?_eq_some_iff.mp h).1, h]

theorem pushScope_global {tab : SymbolTable} (wf : tab.WellFormed) :
    tab.pushScope.globalLevel = some 0 := (initialized_keeps wf).2.2

theorem popScope_keeps (tab : SymbolTable) : tab.Keeps tab.popScope := by
  intro wf
  obtain ⟨⟨frames, rep⟩, levels, methods⟩ := wf
  rcases levels with ⟨none, global, stack⟩ | ⟨global, s, stack, lt⟩
  · have eq : tab.popScope = tab := by simp [popScope, stack]
    rw [eq]
    exact ⟨⟨⟨frames, rep⟩, .inl ⟨none, global, stack⟩, methods⟩, .refl tab⟩
  · by_cases top : s = 0
    · have eq : tab.popScope = tab := by simp [popScope, stack, global, top]
      rw [eq]
      exact ⟨⟨⟨frames, rep⟩, .inr ⟨global, s, stack, lt⟩, methods⟩, .refl tab⟩
    · have scopeAt := List.getElem?_eq_getElem lt
      have up := rep.up scopeAt
      rw [if_neg top] at up
      obtain ⟨u, upAt, below⟩ := up
      have eq : tab.popScope = { tab with globalLevel := some 0, stackLevel := some u } := by
        simp [popScope, stack, global, Ne.symm top, scopeAt, upAt]
      have rep' := rep.relevel (some 0) (some u)
      rw [eq]
      exact ⟨⟨⟨_, rep'⟩, .inr ⟨rfl, u, rfl, Nat.lt_trans below lt⟩, methods⟩,
        .of_frames rep rep' (fun p _ => rfl) (Nat.le_refl _) (fun h => global ▸ h)
          fun h => ⟨[], by simpa using h⟩⟩

theorem link_keeps {tab : SymbolTable} (wf : tab.WellFormed) {level : ScopePtr}
    (inside : level < tab.scopes.length) (info : SymbolInfo)
    (method : ∀ method, info = .methodDecl method →
      method.numArgs = method.args.length ∧ method.returnType ≠ .null) :
    (tab.link level info).WellFormed ∧ tab.Extends (tab.link level info) := by
  obtain ⟨⟨frames, rep⟩, levels, methods⟩ := wf
  have frame := List.getElem?_eq_getElem (rep.count.symm ▸ inside)
  have rep' := rep.link frame info
  obtain ⟨global, stack, count⟩ := link_levels tab level info
  constructor
  · refine ⟨⟨_, rep'⟩, ?_, ?_⟩
    · unfold Levels
      rw [global, stack, count]
      rcases levels with ⟨none, -⟩ | ready
      · simp [none] at inside
      · exact .inr ready
    · intro p other here
      by_cases old : p < tab.ids.length
      · exact methods p other ((link_entry info old).symm.trans here)
      · have last : p = tab.ids.length := by
          have lt := entry_lt here
          rw [link_length] at lt
          exact Nat.le_antisymm (Nat.le_of_lt_succ lt) (Nat.le_of_not_lt old)
        subst last
        rw [link_entry_new] at here
        exact method other (Option.some.inj here)
  · refine .of_frames rep rep' (fun p old => link_entry info old) ?_ (fun h => global ▸ h) ?_
    · rw [Grows, link_length]
      exact Nat.le_succ _
    · intro g ps at'
      by_cases same : g = level
      · subst same
        rw [frame, Option.some.injEq] at at'
        subst at'
        exact ⟨[tab.ids.length],
          by rw [List.getElem?_set_self (List.getElem?_eq_some_iff.mp frame).1]⟩
      · exact ⟨[], by rw [List.getElem?_set_ne (Ne.symm same), List.append_nil, at']⟩

theorem addId_keeps {tab tab' : SymbolTable} {line : Int} {name : Ident} {type : Ty} {dir : IdPtr}
    (h : tab.addId line name type = .ok (tab', dir)) (wf : tab.WellFormed) :
    tab'.WellFormed ∧ tab.Extends tab' ∧ tab'.entry dir = some (.id name type) := by
  obtain ⟨wf₁, extends₁, global⟩ := initialized_keeps wf
  unfold addId at h
  dsimp only at h
  split at h
  · cases h
  · rw [Except.ok.injEq, Prod.mk.injEq] at h
    obtain ⟨rfl, rfl⟩ := h
    rcases wf₁.levels with ⟨-, global', -⟩ | ⟨-, s, stack, lt⟩
    · simp [global] at global'
    · rw [stack, Option.getD_some]
      obtain ⟨wf₂, extends₂⟩ := link_keeps wf₁ lt (.id name type) nofun
      exact ⟨wf₂, extends₁.trans extends₂, link_entry_new _ _ _⟩

theorem link_findInBlock {tab : SymbolTable} (wf : tab.WellFormed) {level : ScopePtr}
    (inside : level < tab.scopes.length) (info : SymbolInfo) {name : Ident}
    (known : (tab.findInBlock name level).isSome ∨ info.name = name) :
    ((tab.link level info).findInBlock name level).isSome := by
  obtain ⟨frames, rep⟩ := wf.frames
  have frame := List.getElem?_eq_getElem (rep.count.symm ▸ inside)
  have scopeAt := List.getElem?_eq_getElem inside
  have rep' := rep.link frame info
  rw [rep'.findInBlock name (List.getElem?_set_self (List.getElem?_eq_some_iff.mp frame).1),
    List.find?_isSome]
  rcases known with found | rfl
  · rw [rep.findInBlock name frame, List.find?_isSome] at found
    obtain ⟨p, mem, isNamed⟩ := found
    refine ⟨p, List.mem_append_left _ mem, ?_⟩
    rw [named_of_entry (link_entry info ((rep.linked scopeAt frame).1.lt mem))]
    exact isNamed
  · exact ⟨tab.ids.length, List.mem_append_right _ List.mem_cons_self, by
      simp [named, link_entry_new]⟩

theorem addId_current {tab tab' : SymbolTable} {line : Int} {name : Ident} {type : Ty} {dir : IdPtr}
    (h : tab.addId line name type = .ok (tab', dir)) (wf : tab.WellFormed) :
    tab.findInCurrentScope name = none ∧ ∀ other,
      (tab.findInCurrentScope other).isSome ∨ name = other →
        (tab'.findInCurrentScope other).isSome := by
  obtain ⟨wf₁, -, global⟩ := initialized_keeps wf
  have same : ∀ other, (tab.findInCurrentScope other).isSome →
      ((tab.initialized tab.stackLevel).findInCurrentScope other).isSome := by
    intro other found
    cases stack : tab.stackLevel with
    | none => simp [findInCurrentScope, stack] at found
    | some s => simpa [SymbolTable.initialized] using found
  unfold addId at h
  dsimp only at h
  split at h
  · cases h
  · next absent =>
    rw [Except.ok.injEq, Prod.mk.injEq] at h
    obtain ⟨rfl, rfl⟩ := h
    refine ⟨?_, fun other known => ?_⟩
    · by_contra found
      exact absent (same name (Option.isSome_iff_ne_none.mpr found))
    · rcases wf₁.levels with ⟨-, global', -⟩ | ⟨-, s, stack, lt⟩
      · simp [global] at global'
      · rw [stack, Option.getD_some, findInCurrentScope, (link_levels _ _ _).2.1, stack,
          Option.bind_some]
        refine link_findInBlock wf₁ lt _ (known.imp_left fun found => ?_)
        have found' := same other found
        rwa [findInCurrentScope, stack, Option.bind_some] at found'

theorem findUp_none {tab : SymbolTable} {frames : Frames} (rep : tab.Represents frames)
    {name : Ident} {fuel : Nat} {level : ScopePtr} (inside : level < tab.scopes.length)
    (enough : level + 1 ≤ fuel) (h : tab.findUp name fuel (some level) = none) :
    tab.findInBlock name 0 = none := by
  induction fuel generalizing level with
  | zero => exact absurd enough (Nat.not_succ_le_zero level)
  | succ fuel ih =>
    rw [findUp] at h
    cases found : tab.findInBlock name level with
    | some p => simp [found] at h
    | none =>
      have scopeAt := List.getElem?_eq_getElem inside
      have up := rep.up scopeAt
      by_cases top : level = 0
      · exact top ▸ found
      · rw [if_neg top] at up
        obtain ⟨u, upAt, below⟩ := up
        simp only [found, scopeAt, Option.bind_some, upAt] at h
        exact ih (Nat.lt_trans below inside)
          (Nat.le_trans (Nat.succ_le_of_lt below) (Nat.le_of_succ_le_succ enough)) h

theorem find_none {tab : SymbolTable} (wf : tab.WellFormed) (global : tab.globalLevel = some 0)
    {name : Ident} (h : tab.find name = none) : tab.findGlobal name = none := by
  obtain ⟨⟨frames, rep⟩, levels, -⟩ := wf
  rcases levels with ⟨-, global', -⟩ | ⟨-, s, stack, lt⟩
  · simp [global] at global'
  · rw [findGlobal, global, Option.bind_some]
    rw [find, stack] at h
    exact findUp_none rep lt (Nat.succ_le_of_lt lt) h

theorem addMethod_keeps {tab tab' : SymbolTable} {line : Int} {name : Ident}
    {retType : ReturnType} {methodScope : Option ScopePtr} {isExtern : Bool}
    (h : tab.addMethod line name retType methodScope isExtern = .ok tab') (wf : tab.WellFormed)
    (global : tab.globalLevel = some 0) (known : retType ≠ .null) :
    tab'.WellFormed ∧ tab.Extends tab' ∧ tab'.globalLevel = some 0 ∧
      tab'.findGlobal name = some tab.ids.length ∧
      tab'.entry tab.ids.length =
        some (.methodDecl ⟨name, 0, retType, [], methodScope, isExtern⟩) := by
  unfold addMethod at h
  split at h
  · cases h
  · next notFound =>
    have absent : tab.findGlobal name = none := find_none wf global (by simpa using notFound)
    have inside : 0 < tab.scopes.length := by
      rcases wf.levels with ⟨-, global', -⟩ | ⟨-, s, -, lt⟩
      · simp [global] at global'
      · exact Nat.zero_lt_of_lt lt
    simp only [SymbolTable.initialized, global, Option.isNone_some, Bool.false_eq_true, if_false,
      Option.getD_some, Except.ok.injEq] at h
    subst h
    obtain ⟨wf', extends'⟩ := link_keeps wf inside
      (.methodDecl ⟨name, 0, retType, [], methodScope, isExtern⟩)
        (by rintro _ ⟨⟩; exact ⟨rfl, known⟩)
    have entry := link_entry_new tab 0 (.methodDecl ⟨name, 0, retType, [], methodScope, isExtern⟩)
    have global' : (tab.link 0
      (.methodDecl ⟨name, 0, retType, [], methodScope, isExtern⟩)).globalLevel
        = some 0 := (link_levels _ _ _).1.trans global
    refine ⟨wf', extends', global', ?_, entry⟩
    obtain ⟨frames, rep⟩ := wf.frames
    obtain ⟨ps, frame⟩ : ∃ ps, frames[0]? = some ps :=
      ⟨_, List.getElem?_eq_getElem (rep.count.symm ▸ inside)⟩
    have rep' := rep.link frame (.methodDecl ⟨name, 0, retType, [], methodScope, isExtern⟩)
    rw [findGlobal, global, Option.bind_some, rep.findInBlock name frame] at absent
    rw [findGlobal, global', Option.bind_some, rep'.findInBlock name
      (List.getElem?_set_self (List.getElem?_eq_some_iff.mp frame).1), List.find?_append]
    have same : ∀ q ∈ ps, named (tab.link 0 (.methodDecl
        ⟨name, 0, retType, [], methodScope, isExtern⟩)) name q = tab.named name q := fun q mem => by
      have scopeAt := List.getElem?_eq_getElem inside
      exact named_of_entry (link_entry _ ((rep.linked scopeAt frame).1.lt mem)) name
    rw [List.find?_congr same, absent]
    simp [named, entry, SymbolInfo.name]

/-- The symbol of a declared method: the one its name leads to. -/
structure Declared (tab : SymbolTable) (sym : IdPtr) (method : MethodInfo) : Prop where
  entry : tab.entry sym = some (.methodDecl method)
  found : tab.findGlobal method.name = some sym
  returnType : method.returnType ≠ .null

theorem Declared.extends {tab tab' : SymbolTable} {sym : IdPtr} {method : MethodInfo}
    (h : tab.Declared sym method) (ext : tab.Extends tab') : tab'.Declared sym method :=
  ⟨ext.entry h.entry, ext.findGlobal h.found, h.returnType⟩

theorem setArgs_name (list : List Args) (info : SymbolInfo) :
    (setArgs list info).name = info.name := by
  cases info <;> rfl

/-- The table after `add_current_list` wrote the parameters of entry `p`. -/
def withArgs (tab : SymbolTable) (p : IdPtr) (list : List Args) : SymbolTable :=
  { tab with ids := tab.ids.modify p fun cell => { cell with info := setArgs list cell.info } }

theorem withArgs_entry (tab : SymbolTable) (p : IdPtr) (list : List Args) (q : IdPtr) :
    (tab.withArgs p list).entry q = (tab.entry q).map fun info =>
      if p = q then setArgs list info else info := by
  unfold withArgs SymbolTable.entry
  by_cases same : p = q
  · subst same
    simp only [List.getElem?_modify_eq, Option.map_eq_map, Option.map_map, if_true]
    rfl
  · simp only [List.getElem?_modify_ne _ _ same, if_neg same, Option.map_map]
    rfl

theorem withArgs_represents {tab : SymbolTable} {frames : Frames} (rep : tab.Represents frames)
    (p : IdPtr) (list : List Args) : (tab.withArgs p list).Represents frames :=
  ⟨rep.count, fun hs hf => ⟨(rep.linked hs hf).1.modify_keep p fun _ => rfl, (rep.linked hs hf).2⟩,
    rep.nodup, rep.apart, rep.up⟩

theorem withArgs_findGlobal {tab : SymbolTable} (wf : tab.WellFormed) (p : IdPtr)
    (list : List Args) (name : Ident) :
    (tab.withArgs p list).findGlobal name = tab.findGlobal name := by
  obtain ⟨frames, rep⟩ := wf.frames
  have rep' := withArgs_represents rep p list
  have sameName : ∀ q, (tab.withArgs p list).named name q = tab.named name q := fun q => by
    rw [named, named, withArgs_entry, Option.map_map]
    cases tab.entry q with
    | none => rfl
    | some info =>
      simp only [Option.map_some, Function.comp_apply]
      split <;> simp [setArgs_name]
  unfold findGlobal
  change tab.globalLevel.bind _ = _
  cases global : tab.globalLevel with
  | none => rfl
  | some g =>
    simp only [Option.bind_some]
    by_cases inside : g < frames.length
    · have frame := List.getElem?_eq_getElem inside
      rw [rep'.findInBlock name frame, rep.findInBlock name frame]
      exact List.find?_congr fun q _ => sameName q
    · have out : tab.scopes[g]? = none :=
        List.getElem?_eq_none (rep.count ▸ Nat.le_of_not_lt inside)
      have out' : (tab.withArgs p list).scopes[g]? = none := out
      rw [SymbolTable.findInBlock, SymbolTable.findInBlock, out, out']

theorem Extends.withArgs {tab tab' : SymbolTable} (ext : tab.Extends tab')
    (wf : tab'.WellFormed) {p : IdPtr} (young : tab.ids.length ≤ p) (list : List Args) :
    tab.Extends (tab'.withArgs p list) := by
  refine ⟨?_, ?_, ?_, ext.global⟩
  · have grows := ext.grows
    simpa [Grows, SymbolTable.withArgs] using grows
  · intro q info old
    have ne : p ≠ q := fun same => Nat.not_lt_of_le (same ▸ young) (entry_lt old)
    rw [withArgs_entry, ext.entry old, Option.map_some, if_neg ne]
  · intro name q found
    rw [withArgs_findGlobal wf, ext.findGlobal found]

theorem addCurrentList_eq {tab tab' : SymbolTable} {name : Ident} {list : List Args}
    (h : tab.addCurrentList name list = .ok tab') :
    ∃ p, tab.findGlobal name = some p ∧ tab' = tab.withArgs p list := by
  unfold addCurrentList at h
  split at h
  · cases h
  · next p found => exact ⟨p, found, (Except.ok.inj h).symm⟩

theorem WellFormed.withArgs {tab : SymbolTable} (wf : tab.WellFormed) (p : IdPtr)
    (list : List Args) : (tab.withArgs p list).WellFormed := by
  obtain ⟨⟨frames, rep⟩, levels, methods⟩ := wf
  refine ⟨⟨frames, withArgs_represents rep p list⟩, levels, ?_⟩
  intro q method here
  rw [withArgs_entry, Option.map_eq_some_iff] at here
  obtain ⟨info, old, eq⟩ := here
  by_cases same : p = q
  · rw [if_pos same] at eq
    cases info with
    | id name type => cases eq
    | methodDecl before =>
      obtain rfl := SymbolInfo.methodDecl.inj eq
      exact ⟨rfl, (methods q before old).2⟩
  · rw [if_neg same] at eq
    exact methods q method (eq ▸ old)

end SymbolTable

end Ctds
