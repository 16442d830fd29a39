import Mathlib.Data.List.Basic

/-! Nested scopes. An environment is the list of the open scopes, innermost first, and a
name means its declaration in the innermost scope that has one. A scope stack also keeps
the scopes that were closed: the open ones are a chain of positions that ends at the
first scope ever opened. -/

namespace Ctds.Scoping

universe u v
variable {Name : Type u} {Value : Type v}

abbrev Scope (Name : Type u) (Value : Type v) := List (Name × Value)
abbrev Environment (Name : Type u) (Value : Type v) := List (Scope Name Value)

/-- The innermost of at least two goes; the outermost always stays. -/
def dropInner {α : Type u} : List α → List α
  | _ :: outer :: rest => outer :: rest
  | list => list

theorem map_dropInner {α : Type u} {β : Type v} (f : α → β) (list : List α) :
    (dropInner list).map f = dropInner (list.map f) := by
  rcases list with _ | ⟨a, _ | ⟨b, rest⟩⟩ <;> rfl

theorem dropInner_sublist {α : Type u} (list : List α) : (dropInner list).Sublist list := by
  rcases list with _ | ⟨a, _ | ⟨b, rest⟩⟩
  · exact .refl _
  · exact .refl _
  · exact List.sublist_cons_self a _

theorem getLast?_dropInner {α : Type u} (list : List α) :
    (dropInner list).getLast? = list.getLast? := by
  rcases list with _ | ⟨a, _ | ⟨b, rest⟩⟩ <;> simp [dropInner]

theorem findSome?_congr {α : Type u} {β : Type v} {f g : α → Option β} {list : List α}
    (same : ∀ a ∈ list, f a = g a) : list.findSome? f = list.findSome? g := by
  induction list with
  | nil => rfl
  | cons a rest ih =>
    rw [List.findSome?_cons, List.findSome?_cons, same a List.mem_cons_self,
      ih fun b mem => same b (List.mem_cons_of_mem a mem)]

namespace Environment

/-- The first scope is opened by whatever needs one. -/
def opened : Environment Name Value → Environment Name Value
  | [] => [[]]
  | env => env

def push (env : Environment Name Value) : Environment Name Value := [] :: env.opened

def pop (env : Environment Name Value) : Environment Name Value := dropInner env

def declare (name : Name) (value : Value) : Environment Name Value → Environment Name Value
  | [] => [[(name, value)]]
  | scope :: rest => (scope ++ [(name, value)]) :: rest

def declareGlobal (name : Name) (value : Value) : Environment Name Value → Environment Name Value
  | [] => [[(name, value)]]
  | [scope] => [scope ++ [(name, value)]]
  | scope :: outer :: rest => scope :: declareGlobal name value (outer :: rest)

theorem declare_opened (env : Environment Name Value) (name : Name) (value : Value) :
    env.opened.declare name value = env.declare name value := by
  cases env <;> rfl

theorem declareGlobal_concat (name : Name) (value : Value) (inner : Environment Name Value)
    (scope : Scope Name Value) :
    declareGlobal name value (inner ++ [scope]) = inner ++ [scope ++ [(name, value)]] := by
  induction inner with
  | nil => rfl
  | cons first inner ih =>
    cases inner with
    | nil => rfl
    | cons second inner => exact congrArg (first :: ·) ih

section Lookup

variable [BEq Name]

def lookup (env : Environment Name Value) (name : Name) : Option Value :=
  env.findSome? fun scope => scope.lookup name

@[simp] theorem lookup_opened (env : Environment Name Value) (name : Name) :
    env.opened.lookup name = env.lookup name := by
  cases env <;> rfl

theorem lookup_isSome_names [LawfulBEq Name] {scope : Scope Name Value} {name : Name} :
    (scope.lookup name).isSome ↔ name ∈ scope.map Prod.fst := by
  induction scope with
  | nil => simp
  | cons b rest ih =>
    by_cases same : name = b.1
    · simp [same]
    · have differ : (name == b.1) = false := by simpa using same
      rw [List.lookup_cons, differ, List.map_cons, List.mem_cons]
      simpa only [same, false_or] using ih

end Lookup

/-- What one step of a program does to its environment. -/
inductive Op (Name : Type u) (Value : Type v) where
  | push
  | pop
  | declare (name : Name) (value : Value)
  | declareGlobal (name : Name) (value : Value)

def apply (env : Environment Name Value) : Op Name Value → Environment Name Value
  | .push => env.push
  | .pop => env.pop
  | .declare name value => env.declare name value
  | .declareGlobal name value => env.declareGlobal name value

/-- Every scope that is opened is closed again, and no declaration is global. -/
inductive Balanced : List (Op Name Value) → Prop
  | nil : Balanced []
  | declare (name : Name) (value : Value) : Balanced [.declare name value]
  | block {inner : List (Op Name Value)} (h : Balanced inner) :
      Balanced (.push :: inner ++ [.pop])
  | append {first next : List (Op Name Value)} (h : Balanced first) (g : Balanced next) :
      Balanced (first ++ next)

/-- The scopes around the innermost one are as they were. -/
theorem balanced_keeps {ops : List (Op Name Value)} (h : Balanced ops) (scope : Scope Name Value)
    (rest : Environment Name Value) :
    ∃ scope', ops.foldl apply (scope :: rest) = scope' :: rest := by
  induction h generalizing scope rest with
  | nil => exact ⟨scope, rfl⟩
  | declare name value => exact ⟨scope ++ [(name, value)], rfl⟩
  | block _ ih =>
    obtain ⟨inner', run⟩ := ih [] (scope :: rest)
    refine ⟨scope, ?_⟩
    rw [List.cons_append, List.foldl_cons, List.foldl_append]
    change List.foldl apply (List.foldl apply ([] :: scope :: rest) _) _ = _
    rw [run]
    rfl
  | append _ _ ih ih' =>
    obtain ⟨scope₁, run⟩ := ih scope rest
    obtain ⟨scope₂, run'⟩ := ih' scope₁ rest
    exact ⟨scope₂, by rw [List.foldl_append, run, run']⟩

theorem block_opened {inner : List (Op Name Value)} (h : Balanced inner)
    (env : Environment Name Value) :
    (Op.push :: inner ++ [Op.pop]).foldl apply env = env.opened := by
  obtain ⟨scope, rest, isOpen⟩ : ∃ scope rest, env.opened = scope :: rest := by
    cases env with
    | nil => exact ⟨[], [], rfl⟩
    | cons scope rest => exact ⟨scope, rest, rfl⟩
  obtain ⟨inner', run⟩ := balanced_keeps h [] (scope :: rest)
  rw [List.cons_append, List.foldl_cons, List.foldl_append]
  change List.foldl apply (List.foldl apply ([] :: env.opened) _) _ = _
  rw [isOpen, run]
  rfl

end Environment

/-- All scopes ever opened, in order, and the positions of the open ones. -/
structure ScopeStack (Name : Type u) (Value : Type v) where
  scopes : List (Scope Name Value)
  chain : List Nat
  decreasing : chain.Pairwise (· > ·)
  inside : ∀ k ∈ chain, k < scopes.length
  bottom : chain.getLast? = if scopes.length = 0 then none else some 0

namespace ScopeStack

def empty : ScopeStack Name Value := ⟨[], [], .nil, by simp, rfl⟩

/-- The environment of the open scopes. -/
def view (s : ScopeStack Name Value) : Environment Name Value :=
  s.chain.map fun k => s.scopes.getD k []

theorem chain_eq_nil {s : ScopeStack Name Value} : s.chain = [] ↔ s.scopes.length = 0 := by
  have bottom := s.bottom
  constructor
  · intro none
    by_contra some
    simp [none, some] at bottom
  · intro none
    simpa [none] using bottom

theorem chain_cons {s : ScopeStack Name Value} (isOpen : s.scopes.length ≠ 0) :
    ∃ inner, s.chain = inner ++ [0] ∧ ∀ k ∈ inner, 0 < k := by
  have bottom := s.bottom
  rw [if_neg isOpen, List.getLast?_eq_some_iff] at bottom
  obtain ⟨inner, chain⟩ := bottom
  refine ⟨inner, chain, fun k mem => ?_⟩
  have decreasing := s.decreasing
  rw [chain, List.pairwise_append] at decreasing
  exact decreasing.2.2 k mem 0 List.mem_cons_self

/-- The first scope, open and empty. -/
def start : ScopeStack Name Value :=
  ⟨[[]], [0], List.pairwise_singleton _ _, by simp, by simp⟩

def opened (s : ScopeStack Name Value) : ScopeStack Name Value :=
  if s.scopes.length = 0 then start else s

theorem opened_of_empty {s : ScopeStack Name Value} (none : s.scopes.length = 0) :
    s.opened = start := if_pos none

theorem opened_of_open {s : ScopeStack Name Value} (isOpen : s.scopes.length ≠ 0) :
    s.opened = s := if_neg isOpen

theorem opened_scopes (s : ScopeStack Name Value) : s.opened.scopes.length ≠ 0 := by
  unfold opened
  split
  · exact Nat.one_ne_zero
  · assumption

def push (s : ScopeStack Name Value) : ScopeStack Name Value where
  scopes := s.opened.scopes ++ [[]]
  chain := s.opened.scopes.length :: s.opened.chain
  decreasing := List.pairwise_cons.mpr ⟨s.opened.inside, s.opened.decreasing⟩
  inside k mem := by
    rw [List.length_append, List.length_singleton]
    rcases List.mem_cons.mp mem with rfl | mem
    · exact Nat.lt_succ_self _
    · exact Nat.lt_succ_of_lt (s.opened.inside k mem)
  bottom := by
    have bottom := s.opened.bottom
    rw [if_neg s.opened_scopes] at bottom
    rw [List.getLast?_cons, bottom, List.length_append, List.length_singleton,
      if_neg (Nat.succ_ne_zero _)]
    rfl

def pop (s : ScopeStack Name Value) : ScopeStack Name Value where
  scopes := s.scopes
  chain := dropInner s.chain
  decreasing := s.decreasing.sublist (dropInner_sublist s.chain)
  inside k mem := s.inside k ((dropInner_sublist s.chain).subset mem)
  bottom := (getLast?_dropInner s.chain).trans s.bottom

/-- One more declaration in the scope at a position. -/
def declareAt (s : ScopeStack Name Value) (k : Nat) (name : Name) (value : Value) :
    ScopeStack Name Value where
  scopes := s.scopes.modify k (· ++ [(name, value)])
  chain := s.chain
  decreasing := s.decreasing
  inside k mem := by
    rw [List.length_modify]
    exact s.inside k mem
  bottom := by
    rw [List.length_modify]
    exact s.bottom

def declare (s : ScopeStack Name Value) (name : Name) (value : Value) : ScopeStack Name Value :=
  s.opened.declareAt (s.opened.chain.headD 0) name value

def declareGlobal (s : ScopeStack Name Value) (name : Name) (value : Value) :
    ScopeStack Name Value :=
  s.opened.declareAt 0 name value

def apply (s : ScopeStack Name Value) : Environment.Op Name Value → ScopeStack Name Value
  | .push => s.push
  | .pop => s.pop
  | .declare name value => s.declare name value
  | .declareGlobal name value => s.declareGlobal name value

theorem view_opened (s : ScopeStack Name Value) : s.opened.view = s.view.opened := by
  unfold opened
  split
  · next none =>
    have chain := chain_eq_nil.mpr none
    simp [view, chain, Environment.opened, start]
  · next some =>
    obtain ⟨inner, chain, -⟩ := chain_cons some
    cases view : s.view with
    | nil => simp [ScopeStack.view, chain] at view
    | cons scope rest => rfl

theorem view_push (s : ScopeStack Name Value) : s.push.view = s.view.push := by
  have older : ∀ k ∈ s.opened.chain,
      (s.opened.scopes ++ [[]]).getD k [] = s.opened.scopes.getD k [] := by
    intro k mem
    rw [List.getD_eq_getElem?_getD, List.getElem?_append_left (s.opened.inside k mem),
      List.getD_eq_getElem?_getD]
  rw [Environment.push, ← view_opened]
  simp only [view, push, List.map_cons, List.map_congr_left older]
  simp

theorem view_pop (s : ScopeStack Name Value) : s.pop.view = s.view.pop :=
  map_dropInner _ s.chain

theorem view_declareAt {s : ScopeStack Name Value} (inner : List Nat) {outer : List Nat} {k : Nat}
    (chain : s.chain = inner ++ k :: outer) (name : Name) (value : Value) :
    (s.declareAt k name value).view =
      inner.map (s.scopes.getD · []) ++ (s.scopes.getD k [] ++ [(name, value)]) ::
        outer.map (s.scopes.getD · []) := by
  have decreasing := s.decreasing
  have inside := s.inside k (by simp [chain])
  have others : ∀ j, j ≠ k →
      (s.scopes.modify k (· ++ [(name, value)])).getD j [] = s.scopes.getD j [] := by
    intro j ne
    rw [List.getD_eq_getElem?_getD, List.getElem?_modify_ne _ _ (Ne.symm ne),
      List.getD_eq_getElem?_getD]
  have here : (s.scopes.modify k (· ++ [(name, value)])).getD k [] =
      s.scopes.getD k [] ++ [(name, value)] := by
    rw [List.getD_eq_getElem?_getD, List.getElem?_modify_eq, List.getElem?_eq_getElem inside,
      List.getD_eq_getElem?_getD, List.getElem?_eq_getElem inside]
    rfl
  rw [chain, List.pairwise_append, List.pairwise_cons] at decreasing
  obtain ⟨-, ⟨below, -⟩, above⟩ := decreasing
  simp only [view, declareAt, chain, List.map_append, List.map_cons, here]
  rw [List.map_congr_left fun j mem => others j (Nat.ne_of_gt (above j mem k List.mem_cons_self)),
    List.map_congr_left fun j mem => others j (Nat.ne_of_lt (below j mem))]

theorem view_declare (s : ScopeStack Name Value) (name : Name) (value : Value) :
    (s.declare name value).view = s.view.opened.declare name value := by
  rw [← view_opened]
  cases chain : s.opened.chain with
  | nil => exact absurd (chain_eq_nil.mp chain) s.opened_scopes
  | cons k outer =>
    have view := view_declareAt [] chain name value
    rw [declare, chain, List.headD_cons, view]
    simp [ScopeStack.view, chain, Environment.declare]

theorem view_declareGlobal (s : ScopeStack Name Value) (name : Name) (value : Value) :
    (s.declareGlobal name value).view = s.view.opened.declareGlobal name value := by
  rw [← view_opened]
  obtain ⟨inner, chain, -⟩ := chain_cons s.opened_scopes
  have view := view_declareAt inner chain name value
  rw [declareGlobal, view]
  simp only [ScopeStack.view, chain, List.map_append, List.map_cons, List.map_nil,
    Environment.declareGlobal_concat]

theorem push_chain (s : ScopeStack Name Value) :
    s.push.chain = s.opened.scopes.length :: s.opened.chain := rfl

theorem declareGlobal_chain (s : ScopeStack Name Value) (name : Name) (value : Value) :
    (s.declareGlobal name value).chain = s.opened.chain := rfl

theorem pop_chain (s : ScopeStack Name Value) : s.pop.chain = dropInner s.chain := rfl

/-- The scopes at these positions are as they were. -/
structure Retains (low high : Nat) (s s' : ScopeStack Name Value) : Prop where
  grows : s.scopes.length ≤ s'.scopes.length
  same : ∀ k, low ≤ k → k < high → s'.scopes[k]? = s.scopes[k]?

theorem Retains.refl (low high : Nat) (s : ScopeStack Name Value) : Retains low high s s :=
  ⟨Nat.le_refl _, fun _ _ _ => rfl⟩

theorem Retains.trans {low high : Nat} {s t u : ScopeStack Name Value} (h : Retains low high s t)
    (g : Retains low high t u) : Retains low high s u :=
  ⟨Nat.le_trans h.grows g.grows, fun k ge lt => (g.same k ge lt).trans (h.same k ge lt)⟩

theorem Retains.isOpen {low high : Nat} {s t : ScopeStack Name Value} (h : Retains low high s t)
    (isOpen : s.scopes.length ≠ 0) : t.scopes.length ≠ 0 := by
  have grows := h.grows
  omega

theorem Retains.within {low high low' high' : Nat} {s t : ScopeStack Name Value}
    (h : Retains low high s t) (ge : low ≤ low') (le : high' ≤ high) : Retains low' high' s t :=
  ⟨h.grows, fun k ge' lt => h.same k (Nat.le_trans ge ge') (Nat.lt_of_lt_of_le lt le)⟩

theorem retains_push (s : ScopeStack Name Value) :
    Retains 0 s.opened.scopes.length s.opened s.push := by
  refine ⟨?_, fun k _ lt => ?_⟩
  · simp [push]
  · rw [push, List.getElem?_append_left lt]

theorem retains_pop (low high : Nat) (s : ScopeStack Name Value) : Retains low high s s.pop :=
  ⟨Nat.le_refl _, fun _ _ _ => rfl⟩

theorem retains_declareAt {low high k : Nat} (s : ScopeStack Name Value) (name : Name)
    (value : Value) (outside : k < low ∨ high ≤ k) :
    Retains low high s (s.declareAt k name value) := by
  refine ⟨?_, fun j ge lt => ?_⟩
  · exact Nat.le_of_eq (List.length_modify ..).symm
  · rw [declareAt, List.getElem?_modify_ne _ _ (by omega)]

theorem retains_declareGlobal {low : Nat} (high : Nat) (s : ScopeStack Name Value) (name : Name)
    (value : Value) (pos : 0 < low) : Retains low high s.opened (s.declareGlobal name value) :=
  s.opened.retains_declareAt name value (.inl pos)

/-- Declarations in the innermost scope. -/
structure Declares (s s' : ScopeStack Name Value) : Prop where
  chain : s'.chain = s.chain
  count : s'.scopes.length = s.scopes.length
  others : ∀ k, s.chain.head? ≠ some k → s'.scopes[k]? = s.scopes[k]?

theorem Declares.refl (s : ScopeStack Name Value) : s.Declares s := ⟨rfl, rfl, fun _ _ => rfl⟩

theorem Declares.trans {s t u : ScopeStack Name Value} (h : s.Declares t) (g : t.Declares u) :
    s.Declares u :=
  ⟨g.chain.trans h.chain, g.count.trans h.count,
    fun k ne => (g.others k (h.chain ▸ ne)).trans (h.others k ne)⟩

theorem Declares.retains {s t : ScopeStack Name Value} (h : s.Declares t) {low high k : Nat}
    (head : s.chain.head? = some k) (outside : k < low ∨ high ≤ k) : Retains low high s t := by
  refine ⟨Nat.le_of_eq h.count.symm, fun j ge lt => h.others j ?_⟩
  rw [head, ne_eq, Option.some.injEq]
  omega

theorem declares_declare (s : ScopeStack Name Value) (name : Name) (value : Value) :
    s.opened.Declares (s.declare name value) := by
  refine ⟨rfl, List.length_modify .., fun k ne => ?_⟩
  obtain ⟨inner, chain, -⟩ := chain_cons s.opened_scopes
  have head : s.opened.chain.headD 0 ≠ k := by
    rw [List.headD_eq_head?_getD]
    intro same
    cases isHead : s.opened.chain.head? with
    | none => simp [chain] at isHead
    | some j =>
      rw [isHead, Option.getD_some] at same
      exact ne (same ▸ isHead)
  rw [declare, declareAt, List.getElem?_modify_ne _ _ head]

/-- Scopes that were opened and closed again. -/
structure Closes (s s' : ScopeStack Name Value) : Prop where
  chain : s'.chain = s.chain
  retains : Retains 0 s.scopes.length s s'

theorem Closes.refl (s : ScopeStack Name Value) : s.Closes s := ⟨rfl, .refl _ _ s⟩

theorem Closes.trans {s t u : ScopeStack Name Value} (h : s.Closes t) (g : t.Closes u) :
    s.Closes u :=
  ⟨g.chain.trans h.chain,
    h.retains.trans (g.retains.within (Nat.le_refl 0) h.retains.grows)⟩

theorem closes_block {s t u : ScopeStack Name Value} (isOpen : s.scopes.length ≠ 0)
    (declared : s.push.Declares t) (inner : t.Closes u) : s.Closes u.pop := by
  have opened := opened_of_open isOpen
  obtain ⟨outer, isChain, -⟩ := chain_cons isOpen
  have push := s.retains_push
  rw [opened] at push
  have first : Retains 0 s.scopes.length s.push t :=
    declared.retains (by rw [push_chain, opened, List.head?_cons]) (.inr (Nat.le_refl _))
  have second := inner.retains.within (Nat.le_refl 0) (Nat.le_trans push.grows first.grows)
  refine ⟨?_, (push.trans first).trans (second.trans (retains_pop _ _ u))⟩
  have chain : u.chain = s.scopes.length :: (outer ++ [0]) := by
    rw [inner.chain, declared.chain, push_chain, opened, isChain]
  rw [pop_chain, chain, isChain]
  cases outer <;> rfl

end ScopeStack

end Ctds.Scoping
