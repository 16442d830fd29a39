import Ctds.MemoryOptimization

/-! The books of `optimize_memory` stay exact, once they are opened: the entries have to start
with null lists, which nothing in the code sees to. In front of every visit the count of an entry
is the number of visits to come that find its name, so no name is looked up in vain; and a
string is written when it is visited first, with a name that has a smaller number than its
own and so is no longer. -/

namespace Ctds

open NameReuse

/-- The names that `optimize_memory` visits, in its order. -/
def visits (gen : GenState) : List NamePtr := gen.code.flatMap Instr.operands

/-- The state behind the first visits. -/
def stateAfter (gen : GenState) (i : Nat) : Option OptState :=
  gen.cantApH.bind fun tmpList => checkOperands ((visits gen).take i) ⟨tempText, tmpList⟩

/-- The copies that `swap_temps` makes on a visit: to which string, and what. -/
def strcpys (s : OptState) (ptr : NamePtr) : List (NamePtr × CString) :=
  let name := ptr.text s.heap
  if startsWith '$' name then
    match nodeAt s.tmpList (getFree s.tmpList name), nodeAt s.tmpList (getTemp s.tmpList name) with
    | some (_, freeTemp), some (_, actualTemp) =>
      if actualTemp.locked then []
      else actualTemp.list.map fun location => (location, freeTemp.temp)
    | _, _ => []
  else []

def RenamedBy (gen : GenState) (location : NamePtr) (i : Nat) : Prop :=
  ∃ s ptr, stateAfter gen i = some s ∧ (visits gen)[i]? = some ptr ∧
    location ∈ (strcpys s ptr).map Prod.fst

/-- In front of every visit the counts say how often each name will be found. What a visit writes
are the copies of `swap_temps`: a string is written on one visit only, at most once for each
occurrence, and with no longer name. -/
structure ExactBooks (gen : GenState) : Prop where
  total : ∀ i, ∃ s, stateAfter gen i = some s
  counts : ∀ i s, stateAfter gen i = some s → ∀ entry ∈ s.tmpList,
    entry.cantAp = (((visits gen).drop i).map (NamePtr.text s.heap)).count entry.temp
  nonneg : ∀ i s, stateAfter gen i = some s → ∀ entry ∈ s.tmpList, 0 ≤ entry.cantAp
  spent : ∀ s, optimizePass gen = some s → ∀ entry ∈ s.tmpList, entry.cantAp = 0
  found : ∀ i s ptr, stateAfter gen i = some s → (visits gen)[i]? = some ptr →
    startsWith '$' (ptr.text s.heap) = true → (getTemp s.tmpList (ptr.text s.heap)).isSome
  writes : ∀ i s s' ptr, stateAfter gen i = some s → stateAfter gen (i + 1) = some s' →
    (visits gen)[i]? = some ptr →
    s'.heap = (strcpys s ptr).foldl (fun heap copy => strcpy copy.1 copy.2 heap) s.heap
  only : ∀ i s s' n, stateAfter gen i = some s → stateAfter gen (i + 1) = some s' →
    s'.heap n ≠ s.heap n → RenamedBy gen (.temp n) i
  once : ∀ location i j, RenamedBy gen location i → RenamedBy gen location j → i = j
  each : ∀ i s ptr location, stateAfter gen i = some s → (visits gen)[i]? = some ptr →
    ((strcpys s ptr).map Prod.fst).count location ≤ (visits gen).count location
  fits : ∀ i s ptr copy, stateAfter gen i = some s → (visits gen)[i]? = some ptr →
    copy ∈ strcpys s ptr → ∃ n, copy.1 = .temp n ∧ copy.2.length ≤ (tempText n).length

theorem checkOptimize_heap {s s' : OptState} {ptr : NamePtr}
    (visited : checkOptimize s ptr = some s') :
    s'.heap = (strcpys s ptr).foldl (fun heap copy => strcpy copy.1 copy.2 heap) s.heap := by
  unfold checkOptimize at visited
  unfold strcpys
  dsimp only at visited ⊢
  split at visited
  · next dollar =>
    rw [if_pos dollar]
    split at visited
    · cases visited
    · next freeIdx freeTemp actualIdx actualTemp free actual =>
      rw [free, actual]
      dsimp only
      split at visited
      · next locked =>
        rw [if_pos locked, ← Option.some.inj visited]
        rfl
      · next fresh =>
        rw [if_neg fresh, ← Option.some.inj visited, List.foldl_map]
        rfl
    · next actualIdx actualTemp free actual =>
      rw [free, actual, ← Option.some.inj visited]
      rfl
  · next plain =>
    rw [if_neg plain, ← Option.some.inj visited]
    rfl

theorem copies_other {copies : List (NamePtr × CString)} {n : Nat}
    (apart : .temp n ∉ copies.map Prod.fst) (heap : Nat → CString) :
    copies.foldl (fun heap copy => strcpy copy.1 copy.2 heap) heap n = heap n := by
  induction copies generalizing heap with
  | nil => rfl
  | cons copy rest ih =>
    rw [List.map_cons, List.mem_cons, not_or] at apart
    rw [List.foldl_cons, ih apart.2]
    obtain ⟨location, text⟩ := copy
    cases location with
    | str _ => rfl
    | temp m => exact Function.update_of_ne (fun same => apart.1 (congrArg NamePtr.temp same)) _ _

section Visit

variable {s : OptState} {n m : Nat} {entry : CantApTemp} (numbered : Numbered s.tmpList)
  (name : s.heap n = tempText m) (here : s.tmpList[m]? = some entry)

include numbered name here

theorem strcpys_locked (locked : entry.locked = true) : strcpys s (.temp n) = [] := by
  have actual := nodeAt_some (numbered.getTemp here) here
  have dollar : startsWith '$' (tempText m) = true := rfl
  simp only [strcpys, NamePtr.text, name, dollar, if_true, actual]
  cases nodeAt s.tmpList (getFree s.tmpList (tempText m)) with
  | none => rfl
  | some free => exact if_pos locked

theorem strcpys_fresh (fresh : entry.locked = false) :
    strcpys s (.temp n) = [] ∨
      ∃ j < m, strcpys s (.temp n) = entry.list.map fun location => (location, tempText j) := by
  have actual := nodeAt_some (numbered.getTemp here) here
  have dollar : startsWith '$' (tempText m) = true := rfl
  simp only [strcpys, NamePtr.text, name, dollar, if_true, actual]
  cases found : getFree s.tmpList (tempText m) with
  | none => exact .inl rfl
  | some j =>
    obtain ⟨free, atFree, -, apart⟩ := getFree_some found
    refine .inr ⟨j, ?_, ?_⟩
    · by_contra behind
      exact apart m (Nat.le_of_not_lt behind) entry here (numbered m entry here)
    · rw [nodeAt_some rfl atFree, ← numbered j free atFree]
      simp [fresh]

end Visit

namespace Walk

variable {s : OptState} {ρ : Nat → Nat} {k u n : Nat} {rest : List Nat}

theorem entry (h : Walk s ρ k u (n :: rest)) (order : InOrder k (n :: rest) u) :
    ∃ entry, s.tmpList[ρ n]? = some entry := by
  rw [InOrder] at order
  split at order
  · next lt =>
    obtain ⟨entry, here, -⟩ := h.live n lt List.mem_cons_self
    exact ⟨entry, here⟩
  · obtain ⟨rfl, later⟩ := order
    obtain ⟨own, here⟩ := h.fresh n (Nat.le_refl n) later.le
    exact ⟨_, own.symm ▸ here⟩

theorem copied (h : Walk s ρ k u (n :: rest)) (order : InOrder k (n :: rest) u) :
    strcpys s (.temp n) = [] ∨ n = k ∧ ∃ j < n,
      strcpys s (.temp n) = List.replicate ((n :: rest).count n) (.temp n, tempText j) := by
  have name : s.heap n = tempText (ρ n) := by rw [h.heap, tempHeap]
  rw [InOrder] at order
  split at order
  · next lt =>
    obtain ⟨entry, here, -, locked⟩ := h.live n lt List.mem_cons_self
    exact .inl (strcpys_locked h.numbered name here locked)
  · obtain ⟨rfl, later⟩ := order
    obtain ⟨own, here⟩ := h.fresh n (Nat.le_refl n) later.le
    rw [own] at name
    rcases strcpys_fresh h.numbered name here rfl with none | ⟨j, lt, copies⟩
    · exact .inl none
    · refine .inr ⟨rfl, j, lt, ?_⟩
      rw [copies, countEntry, List.map_replicate]

theorem count (h : Walk s ρ k u rest) (owned : Owned s ρ k rest) (order : InOrder k rest u)
    {i : Nat} {entry : CantApTemp} (here : s.tmpList[i]? = some entry) :
    entry.cantAp = (rest.map ρ).count i := by
  have inside : i < u := by
    rw [← h.length]
    exact (List.getElem?_eq_some_iff.mp here).1
  have late : ∀ b ∈ rest, k ≤ b → ρ b = b := fun b mem ge => (h.fresh b ge (order.lt mem)).1
  have only : ∀ a, (∀ b ∈ rest, ρ b = i ↔ b = a) → (rest.map ρ).count i = rest.count a := by
    intro a same
    rw [List.count, List.countP_map, List.count]
    exact List.countP_congr fun b mem => by simpa using same b mem
  rcases Nat.lt_or_ge i k with lt | ge
  · by_cases used : entry.cantAp = 0
    · have none : i ∉ rest.map ρ := by
        intro mem
        obtain ⟨b, inRest, rfl⟩ := List.mem_map.mp mem
        rcases Nat.lt_or_ge b k with old | new
        · obtain ⟨entry', at', uses, -⟩ := h.live b old inRest
          obtain rfl := Option.some.inj (here.symm.trans at')
          have pos := List.count_pos_iff.mpr inRest
          omega
        · rw [late b inRest new] at lt
          omega
      rw [used, List.count_eq_zero_of_not_mem none]
      rfl
    · obtain ⟨a, old, inRest, rfl⟩ := owned i lt entry here used
      obtain ⟨entry', at', uses, -⟩ := h.live a old inRest
      obtain rfl := Option.some.inj (here.symm.trans at')
      rw [uses, only a]
      intro b mem
      refine ⟨fun same => ?_, fun same => same ▸ rfl⟩
      rcases Nat.lt_or_ge b k with old' | new
      · exact h.apart b a old' old mem inRest same
      · rw [late b mem new] at same
        omega
  · obtain ⟨-, at'⟩ := h.fresh i ge inside
    obtain rfl := Option.some.inj (at'.symm.trans here)
    rw [only i]
    · rfl
    · intro b mem
      rcases Nat.lt_or_ge b k with old | new
      · have := h.low b old mem
        omega
      · rw [late b mem new]

end Walk

/-- In front of the i-th visit, with `k` temporaries seen. -/
structure Visiting (operands : List NamePtr) (u i : Nat) (s : OptState) (ρ : Nat → Nat) (k : Nat) :
    Prop where
  walk : Walk s ρ k u ((operands.drop i).filterMap NamePtr.temp?)
  owned : Owned s ρ k ((operands.drop i).filterMap NamePtr.temp?)
  order : InOrder k ((operands.drop i).filterMap NamePtr.temp?) u
  seen : ∀ n, .temp n ∈ operands.take i → n < k

section Pass

variable {operands : List NamePtr} {u : Nat}

theorem temps_drop {i n : Nat} (here : operands[i]? = some (.temp n)) :
    (operands.drop i).filterMap NamePtr.temp? =
      n :: (operands.drop (i + 1)).filterMap NamePtr.temp? := by
  obtain ⟨inside, eq⟩ := List.getElem?_eq_some_iff.mp here
  rw [List.drop_eq_getElem_cons inside, eq]
  rfl

theorem Visiting.next {i : Nat} {s : OptState} {ρ : Nat → Nat} {k : Nat} {ptr : NamePtr}
    (h : Visiting operands u i s ρ k) (here : operands[i]? = some ptr)
    (plain : ∀ text, .str text ∈ operands → ¬ startsWith '$' text = true) :
    ∃ s' ρ' k', checkOptimize s ptr = some s' ∧ Visiting operands u (i + 1) s' ρ' k' := by
  obtain ⟨inside, eq⟩ := List.getElem?_eq_some_iff.mp here
  have taken : operands.take (i + 1) = operands.take i ++ [ptr] := by
    rw [List.take_succ_eq_append_getElem inside, eq]
  cases ptr with
  | temp n =>
    obtain ⟨walk, owned, order, seen⟩ := h
    rw [temps_drop here] at walk owned order
    obtain ⟨s', ρ', k', visited, walk', owned', order', le, lt, -⟩ := walk.step owned order
    refine ⟨s', ρ', k', visited, walk', owned', order', fun m mem => ?_⟩
    rw [taken, List.mem_append, List.mem_singleton] at mem
    rcases mem with mem | same
    · exact Nat.lt_of_lt_of_le (seen m mem) le
    · rw [NamePtr.temp.inj same]
      exact lt
  | str text =>
    have skipped : checkOptimize s (.str text) = some s :=
      if_neg (plain text (List.mem_of_getElem? here))
    have temps : (operands.drop i).filterMap NamePtr.temp? =
        (operands.drop (i + 1)).filterMap NamePtr.temp? := by
      rw [List.drop_eq_getElem_cons inside, eq]
      rfl
    obtain ⟨walk, owned, order, seen⟩ := h
    rw [temps] at walk owned order
    refine ⟨s, ρ, k, skipped, walk, owned, order, fun m mem => ?_⟩
    rw [taken, List.mem_append, List.mem_singleton] at mem
    rcases mem with mem | same
    · exact seen m mem
    · cases same

theorem checkOperands_snoc (ptr : NamePtr) (s : OptState) :
    checkOperands (operands ++ [ptr]) s =
      (checkOperands operands s).bind fun s' => checkOptimize s' ptr := by
  induction operands generalizing s with
  | nil => exact Option.bind_fun_some _
  | cons op rest ih =>
    rw [List.cons_append, checkOperands, checkOperands, Option.bind_assoc]
    exact congrArg _ (funext ih)

theorem exists_visiting (order : InOrder 0 (operands.filterMap NamePtr.temp?) u)
    (plain : ∀ text, .str text ∈ operands → ¬ startsWith '$' text = true) (i : Nat) :
    ∃ s ρ k, checkOperands (operands.take i)
      ⟨tempText, countTable (operands.filterMap NamePtr.temp?) u⟩ = some s ∧
      Visiting operands u i s ρ k := by
  induction i with
  | zero => exact ⟨_, id, 0, rfl, Walk.start u, Walk.startOwned _ _ _, order,
      fun n mem => by cases mem⟩
  | succ i ih =>
    obtain ⟨s, ρ, k, ran, visiting⟩ := ih
    cases here : operands[i]? with
    | none =>
      have ends := List.getElem?_eq_none_iff.mp here
      have taken : operands.take (i + 1) = operands.take i := by
        rw [List.take_of_length_le ends, List.take_of_length_le (Nat.le_succ_of_le ends)]
      have dropped : operands.drop (i + 1) = operands.drop i := by
        rw [List.drop_eq_nil_of_le ends, List.drop_eq_nil_of_le (Nat.le_succ_of_le ends)]
      obtain ⟨walk, owned, order, seen⟩ := visiting
      rw [← taken] at ran seen
      rw [← dropped] at walk owned order
      exact ⟨s, ρ, k, ran, walk, owned, order, seen⟩
    | some ptr =>
      obtain ⟨inside, eq⟩ := List.getElem?_eq_some_iff.mp here
      obtain ⟨s', ρ', k', visited, next⟩ := visiting.next here plain
      refine ⟨s', ρ', k', ?_, next⟩
      rw [List.take_succ_eq_append_getElem inside, eq, checkOperands_snoc, ran]
      exact visited

end Pass

theorem tempText_length_mono {j n : Nat} (le : j ≤ n) :
    (tempText j).length ≤ (tempText n).length := by
  have digits := Decimal.natText_length_mono le
  simp only [tempText, List.length_cons]
  omega

theorem count_temps (operands : List NamePtr) (n : Nat) :
    (operands.filterMap NamePtr.temp?).count n = operands.count (.temp n) := by
  rw [List.count_filterMap, List.count]
  refine List.countP_congr fun ptr _ => ?_
  cases ptr <;> simp [NamePtr.temp?]

namespace Visiting

variable {operands : List NamePtr} {u i : Nat} {s : OptState} {ρ : Nat → Nat} {k : Nat}
  (h : Visiting operands u i s ρ k)
  (plain : ∀ text, .str text ∈ operands → ¬ startsWith '$' text = true)

include h plain

theorem counts {entry : CantApTemp} (mem : entry ∈ s.tmpList) :
    entry.cantAp = ((operands.drop i).map (NamePtr.text s.heap)).count entry.temp := by
  obtain ⟨j, here⟩ := List.getElem?_of_mem mem
  rw [h.walk.numbered j entry here, h.walk.heap,
    count_text fun text later => plain text (List.mem_of_mem_drop later)]
  exact h.walk.count h.owned h.order here

theorem found {ptr : NamePtr} (here : operands[i]? = some ptr)
    (dollar : startsWith '$' (ptr.text s.heap) = true) :
    (getTemp s.tmpList (ptr.text s.heap)).isSome := by
  cases ptr with
  | str text => exact absurd dollar (plain text (List.mem_of_getElem? here))
  | temp n =>
    obtain ⟨walk, -, order, -⟩ := h
    rw [temps_drop here] at walk order
    obtain ⟨entry, at'⟩ := walk.entry order
    rw [NamePtr.text, walk.heap, tempHeap, walk.numbered.getTemp at']
    rfl

theorem copied {ptr : NamePtr} (here : operands[i]? = some ptr) :
    strcpys s ptr = [] ∨ ∃ j < k, ptr = .temp k ∧
      strcpys s ptr = List.replicate ((operands.drop i).count (.temp k)) (.temp k, tempText j) := by
  cases ptr with
  | str text => exact .inl (if_neg (plain text (List.mem_of_getElem? here)))
  | temp n =>
    obtain ⟨walk, -, order, -⟩ := h
    have temps := temps_drop here
    rw [temps] at walk order
    rcases walk.copied order with none | ⟨rfl, j, lt, copies⟩
    · exact .inl none
    · rw [← temps, count_temps] at copies
      exact .inr ⟨j, lt, rfl, copies⟩

end Visiting

theorem stateAfter_succ {gen : GenState} {i : Nat} {ptr : NamePtr}
    (here : (visits gen)[i]? = some ptr) :
    stateAfter gen (i + 1) = (stateAfter gen i).bind fun s => checkOptimize s ptr := by
  obtain ⟨inside, eq⟩ := List.getElem?_eq_some_iff.mp here
  rw [stateAfter, stateAfter, Option.bind_assoc]
  refine congrArg _ (funext fun tmpList => ?_)
  rw [List.take_succ_eq_append_getElem inside, eq]
  exact checkOperands_snoc ptr _

theorem copied_of_visit {gen : GenState} {i : Nat} {s s' : OptState} {ptr : NamePtr}
    (ran : stateAfter gen i = some s) (ran' : stateAfter gen (i + 1) = some s')
    (here : (visits gen)[i]? = some ptr) :
    s'.heap = (strcpys s ptr).foldl (fun heap copy => strcpy copy.1 copy.2 heap) s.heap := by
  rw [stateAfter_succ here, ran, Option.bind_some] at ran'
  exact checkOptimize_heap ran'

theorem renamed_of_changed {gen : GenState} {i n : Nat} {s s' : OptState}
    (ran : stateAfter gen i = some s) (ran' : stateAfter gen (i + 1) = some s')
    (changed : s'.heap n ≠ s.heap n) : RenamedBy gen (.temp n) i := by
  cases here : (visits gen)[i]? with
  | none =>
    have ends := List.getElem?_eq_none_iff.mp here
    rw [stateAfter, List.take_of_length_le (Nat.le_succ_of_le ends)] at ran'
    rw [stateAfter, List.take_of_length_le ends] at ran
    rw [Option.some.inj (ran'.symm.trans ran)] at changed
    exact absurd rfl changed
  | some ptr =>
    refine ⟨s, ptr, ran, here, ?_⟩
    by_contra apart
    rw [copied_of_visit ran ran' here, copies_other apart] at changed
    exact changed rfl

section Books

variable {gen : GenState} {u : Nat}
  (plain : ∀ text, .str text ∈ visits gen → ¬ startsWith '$' text = true)
  (runs : ∀ i, ∃ s ρ k, stateAfter gen i = some s ∧ Visiting (visits gen) u i s ρ k)

include runs

theorem visiting_of {i : Nat} {s : OptState} (ran : stateAfter gen i = some s) :
    ∃ ρ k, Visiting (visits gen) u i s ρ k := by
  obtain ⟨s', ρ, k, ran', visiting⟩ := runs i
  obtain rfl := Option.some.inj (ran.symm.trans ran')
  exact ⟨ρ, k, visiting⟩

include plain

theorem renamed_first {location : NamePtr} {i : Nat} (renamed : RenamedBy gen location i) :
    (visits gen)[i]? = some location ∧ location ∉ (visits gen).take i := by
  obtain ⟨s, ptr, ran, here, written⟩ := renamed
  obtain ⟨ρ, k, visiting⟩ := visiting_of runs ran
  rcases visiting.copied plain here with none | ⟨j, -, rfl, copies⟩
  · rw [none] at written
    cases written
  · rw [copies, List.map_replicate] at written
    obtain rfl := List.eq_of_mem_replicate written
    exact ⟨here, fun earlier => Nat.lt_irrefl k (visiting.seen k earlier)⟩

theorem renamed_once {location : NamePtr} {i j : Nat} (first : RenamedBy gen location i)
    (second : RenamedBy gen location j) : i = j := by
  by_contra differ
  wlog lt : i < j generalizing i j
  · exact this second first (Ne.symm differ) (by omega)
  obtain ⟨here, -⟩ := renamed_first plain runs first
  obtain ⟨-, new⟩ := renamed_first plain runs second
  refine new (List.mem_of_getElem? (i := i) ?_)
  rw [List.getElem?_take_of_lt lt, here]

theorem exactBooks : ExactBooks gen where
  total i := by
    obtain ⟨s, -, -, ran, -⟩ := runs i
    exact ⟨s, ran⟩
  counts i s ran entry mem := by
    obtain ⟨ρ, k, visiting⟩ := visiting_of runs ran
    exact visiting.counts plain mem
  nonneg i s ran entry mem := by
    obtain ⟨ρ, k, visiting⟩ := visiting_of runs ran
    rw [visiting.counts plain mem]
    exact Int.natCast_nonneg _
  spent s ran entry mem := by
    have last : stateAfter gen (visits gen).length = some s := by
      rw [stateAfter, List.take_length]
      exact ran
    obtain ⟨ρ, k, visiting⟩ := visiting_of runs last
    rw [visiting.counts plain mem, List.drop_length]
    rfl
  found i s ptr ran here dollar := by
    obtain ⟨ρ, k, visiting⟩ := visiting_of runs ran
    exact visiting.found plain here dollar
  writes i s s' ptr ran ran' here := copied_of_visit ran ran' here
  only i s s' n ran ran' changed := renamed_of_changed ran ran' changed
  once location i j first second := renamed_once plain runs first second
  each i s ptr location ran here := by
    obtain ⟨ρ, k, visiting⟩ := visiting_of runs ran
    rcases visiting.copied plain here with none | ⟨j, -, -, copies⟩
    · rw [none]
      exact Nat.zero_le _
    · rw [copies, List.map_replicate, List.count_replicate]
      split
      · next same =>
        rw [← beq_iff_eq.mp same]
        exact (List.drop_sublist i (visits gen)).count_le _
      · exact Nat.zero_le _
  fits i s ptr copy ran here mem := by
    obtain ⟨ρ, k, visiting⟩ := visiting_of runs ran
    rcases visiting.copied plain here with none | ⟨j, lt, -, copies⟩
    · rw [none] at mem
      cases mem
    · rw [copies] at mem
      obtain rfl := List.eq_of_mem_replicate mem
      exact ⟨k, rfl, tempText_length_mono (Nat.le_of_lt lt)⟩

end Books

theorem exactBooks_program {env : Env} {tab : SymbolTable} {sentences : List AstNode}
    (shape : ∀ node ∈ sentences, isSentence tab node = true)
    (null : NullLists env (genSentences env tab sentences resetCode)) :
    ExactBooks (genSentences env tab sentences resetCode) := by
  obtain ⟨code, c, low, -, -, -, emitted, ranges, -⟩ := optimizePass_program shape null
  rw [emitted] at null ⊢
  have visited : visits (resetCode.append env code c) = code.flatMap fun i => i.instr.operands :=
    append_operands env code c
  have temps : (visits (resetCode.append env code c)).filterMap NamePtr.temp? =
      occurrences code := by
    rw [visited, operands_occurrences]
  refine exactBooks (u := c.temp) ?_ fun i => ?_
  · rw [visited]
    exact operands_plain code
  · rw [stateAfter, append_countTable ranges null, Option.bind_some, ← temps]
    refine exists_visiting ?_ ?_ i
    · rw [temps]
      exact ranges.inOrder
    · rw [visited]
      exact operands_plain code

/-- The counts and the occurrence lists of `optimize_memory` are exact on every visit to what
`gen_code` emits for a program, exactly if `malloc` left null words in the lists. -/
theorem optimize_memory_exact_iff (env : Env) {tab : SymbolTable} {sentences : List AstNode}
    (shape : ∀ node ∈ sentences, isSentence tab node = true) :
    let gen := genSentences env tab sentences resetCode
    ExactBooks gen ↔ NullLists env gen := by
  intro gen
  refine ⟨fun books => ?_, exactBooks_program shape⟩
  obtain ⟨s, ran⟩ := books.total (visits gen).length
  rw [stateAfter, List.take_length] at ran
  exact nullLists_of_pass shape ran

/-- In `(x + 1) * (x + 2)` the string of the second temporary is written on the visit at
position 7 and on no other. -/
theorem optimize_memory_exact_product :
    ∃ checked, frontEnd (.sample true) productOfSums = .ok checked ∧
      let gen := intermediateCode (.sample true) checked
      ExactBooks gen ∧ RenamedBy gen (.temp 1) 7 ∧ ∀ i, RenamedBy gen (.temp 1) i → i = 7 := by
  obtain ⟨checked, accepted⟩ := Fallible.isOk_iff.mp (by decide +kernel :
    (frontEnd (.sample true) productOfSums).isOk = true)
  have facts : (frontEnd (.sample true) productOfSums).toOption.bind (fun c =>
      let gen := intermediateCode (.sample true) c
      (stateAfter gen 7).bind fun s => (visits gen)[7]?.map fun ptr =>
        decide (.temp 1 ∈ (strcpys s ptr).map Prod.fst)) = some true := by decide +kernel
  simp only [accepted, Except.toOption, Option.bind_some] at facts
  obtain ⟨s, ran, visit⟩ := Option.bind_eq_some_iff.mp facts
  obtain ⟨ptr, here, written⟩ := Option.map_eq_some_iff.mp visit
  have renamed : RenamedBy (intermediateCode (.sample true) checked) (.temp 1) 7 :=
    ⟨s, ptr, ran, here, of_decide_eq_true written⟩
  have books := (optimize_memory_exact_iff (.sample true)
    (frontEnd_compilable accepted).shape).mpr fun _ _ => rfl
  exact ⟨checked, accepted, books, renamed, fun i again => books.once _ i 7 again renamed⟩

/-- No step of the pass has a count in front of it where the entries were taken as found. -/
theorem books_lost :
    ∃ checked, frontEnd .recycled deepParentheses = .ok checked ∧
      ¬ ExactBooks (intermediateCode .recycled checked) := by
  obtain ⟨checked, accepted, lost⟩ := optimizePass_recycled
  refine ⟨checked, accepted, fun books => ?_⟩
  obtain ⟨s, ran⟩ := books.total (visits (intermediateCode .recycled checked)).length
  rw [stateAfter, List.take_length] at ran
  cases ran.symm.trans lost

end Ctds
