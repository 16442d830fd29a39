import Ctds.Lib.NameReuse
import Ctds.ProgramCode

/-! The occurrence list and the walk over it. `emit` makes one entry for each temporary, in
the order of their numbers; `optimize_memory` gives the names of the entries again, each
when it has no uses left. -/

namespace Ctds

open NameReuse

/-- Every entry is named after its place in the list. -/
def Numbered (list : List CantApTemp) : Prop :=
  ∀ i entry, list[i]? = some entry → entry.temp = tempText i

theorem getTemp_some {list : List CantApTemp} {name : CString} {i : Nat} {entry : CantApTemp}
    (here : list[i]? = some entry) (named : entry.temp = name)
    (first : ∀ j < i, ∀ other, list[j]? = some other → other.temp ≠ name) :
    getTemp list name = some i := by
  induction list generalizing i with
  | nil => cases here
  | cons aux next ih =>
    rw [getTemp]
    cases i with
    | zero =>
      obtain rfl : aux = entry := Option.some.inj here
      rw [if_pos named]
    | succ i =>
      rw [if_neg (first 0 (Nat.succ_pos i) aux rfl),
        ih here fun j lt other at' => first (j + 1) (Nat.succ_lt_succ lt) other at']
      rfl

theorem getFree_some {list : List CantApTemp} {name : CString} {j : Nat}
    (found : getFree list name = some j) :
    ∃ entry, list[j]? = some entry ∧ entry.cantAp = 0 ∧
      ∀ i ≤ j, ∀ other, list[i]? = some other → other.temp ≠ name := by
  induction list generalizing j with
  | nil => cases found
  | cons aux next ih =>
    rw [getFree] at found
    split at found
    · cases found
    · next differs =>
      split at found
      · next unused =>
        obtain rfl := Option.some.inj found
        refine ⟨aux, rfl, unused, fun i le other at' => ?_⟩
        obtain rfl := Nat.le_zero.mp le
        exact Option.some.inj at' ▸ differs
      · obtain ⟨j, later, rfl⟩ := Option.map_eq_some_iff.mp found
        obtain ⟨entry, here, unused, apart⟩ := ih later
        refine ⟨entry, here, unused, fun i le other at' => ?_⟩
        cases i with
        | zero => exact Option.some.inj at' ▸ differs
        | succ i => exact apart i (Nat.le_of_succ_le_succ le) other at'

theorem getFree_least {list : List CantApTemp} {name : CString} {j : Nat}
    (found : getFree list name = some j) :
    ∀ i < j, ∀ other, list[i]? = some other → other.cantAp ≠ 0 := by
  induction list generalizing j with
  | nil => cases found
  | cons aux next ih =>
    rw [getFree] at found
    split at found
    · cases found
    · split at found
      · obtain rfl := Option.some.inj found
        exact fun i lt => absurd lt (Nat.not_lt_zero i)
      · next used =>
        obtain ⟨j, later, rfl⟩ := Option.map_eq_some_iff.mp found
        intro i lt other at'
        cases i with
        | zero => exact Option.some.inj at' ▸ used
        | succ i => exact ih later i (Nat.lt_of_succ_lt_succ lt) other at'

theorem getFree_none {list : List CantApTemp} {name : CString} {m : Nat}
    (full : getFree list name = none)
    (apart : ∀ i < m, ∀ other, list[i]? = some other → other.temp ≠ name) :
    ∀ i < m, ∀ other, list[i]? = some other → other.cantAp ≠ 0 := by
  induction list generalizing m with
  | nil => exact fun i _ other at' => absurd at' (by simp)
  | cons aux next ih =>
    intro i lt other at'
    rw [getFree, if_neg (apart 0 (Nat.zero_lt_of_lt lt) aux rfl)] at full
    split at full
    · cases full
    · next used =>
      have later := Option.map_eq_none_iff.mp full
      cases i with
      | zero => exact Option.some.inj at' ▸ used
      | succ i =>
        exact ih later (fun i lt' => apart (i + 1) (Nat.succ_lt_of_lt_pred (by omega)))
          i (Nat.lt_pred_of_succ_lt lt) other at'

namespace Numbered

variable {list : List CantApTemp}

theorem getTemp (h : Numbered list) {i : Nat} {entry : CantApTemp}
    (here : list[i]? = some entry) : getTemp list (tempText i) = some i := by
  refine getTemp_some here (h i entry here) fun j lt other at' same => ?_
  have := tempText_inj ((h j other at').symm.trans same)
  omega

theorem set (h : Numbered list) (i : Nat) {entry : CantApTemp} (named : entry.temp = tempText i) :
    Numbered (list.set i entry) := by
  intro j other here
  rw [List.getElem?_set] at here
  split at here
  · next same =>
    split at here
    · rw [← Option.some.inj here, named, same]
    · cases here
  · exact h j other here

end Numbered

/-- The entry of a temporary, after these occurrences. -/
def countEntry (occ : List Nat) (n : Nat) : CantApTemp :=
  ⟨occ.count n, tempText n, false, List.replicate (occ.count n) (.temp n)⟩

def countTable (occ : List Nat) (k : Nat) : List CantApTemp := (List.range k).map (countEntry occ)

theorem countTable_getElem? (occ : List Nat) {k i : Nat} (lt : i < k) :
    (countTable occ k)[i]? = some (countEntry occ i) := by
  rw [countTable, List.getElem?_map, List.getElem?_range lt]
  rfl

theorem numbered_countTable (occ : List Nat) (k : Nat) : Numbered (countTable occ k) := by
  intro i entry here
  have lt : i < k := by
    have inside := (List.getElem?_eq_some_iff.mp here).1
    simpa [countTable] using inside
  rw [countTable_getElem? occ lt] at here
  exact Option.some.inj here ▸ rfl

theorem increaseTempAp_known (fresh : BitVec 64) {list : List CantApTemp} {name : NamePtr}
    {i : Nat} {entry : CantApTemp} (found : getTemp list (name.text tempText) = some i)
    (here : list[i]? = some entry) :
    increaseTempAp fresh name list =
      some (list.set i { appendNewInstance entry name with cantAp := entry.cantAp + 1 }) := by
  induction list generalizing i with
  | nil => cases here
  | cons current next ih =>
    rw [getTemp] at found
    rw [increaseTempAp]
    split at found
    · next same =>
      obtain rfl := Option.some.inj found
      obtain rfl : current = entry := Option.some.inj here
      rw [if_pos same]
      rfl
    · next differs =>
      obtain ⟨j, later, rfl⟩ := Option.map_eq_some_iff.mp found
      rw [if_neg differs, ih later here]
      rfl

theorem increaseTempAp_new (fresh : BitVec 64) {list : List CantApTemp} {name : NamePtr}
    (absent : ∀ entry ∈ list, entry.temp ≠ name.text tempText) :
    increaseTempAp fresh name list =
      if fresh = 0 then some (list ++ [⟨1, name.text tempText, false, [name]⟩]) else none := by
  induction list with
  | nil =>
    rw [increaseTempAp, freshInstances]
    split <;> rfl
  | cons current next ih =>
    rw [increaseTempAp, if_neg (absent current List.mem_cons_self),
      ih fun entry mem => absent entry (List.mem_cons_of_mem current mem)]
    split <;> rfl

theorem countEntry_other (done : List Nat) {n i : Nat} (differ : i ≠ n) :
    countEntry (done ++ [n]) i = countEntry done i := by
  have absent : [n].count i = 0 := List.count_eq_zero_of_not_mem (by simpa using differ)
  simp [countEntry, List.count_append, absent]

theorem countEntry_same (done : List Nat) (n : Nat) :
    countEntry (done ++ [n]) n =
      { appendNewInstance (countEntry done n) (.temp n) with cantAp := done.count n + 1 } := by
  simp [countEntry, appendNewInstance, List.count_append, List.replicate_succ']

section Counting

variable {env : Env}

theorem countOperand_temp (list : List CantApTemp) (n : Nat) :
    countOperand env list (.temp n) = increaseTempAp (env.freshList list.length) (.temp n) list :=
  rfl

theorem countTable_length (occ : List Nat) (k : Nat) : (countTable occ k).length = k := by
  simp [countTable]

theorem countOperand_again (done : List Nat) {k n : Nat} (lt : n < k) :
    countOperand env (countTable done k) (.temp n) = some (countTable (done ++ [n]) k) := by
  have here := countTable_getElem? done lt
  have found := (numbered_countTable done k).getTemp here
  rw [countOperand_temp, increaseTempAp_known _ found here, Option.some.injEq]
  apply List.ext_getElem?
  intro i
  rw [List.getElem?_set]
  by_cases inside : i < k
  · rw [countTable_getElem? _ inside, countTable_getElem? _ inside]
    by_cases same : n = i
    · subst same
      rw [if_pos rfl, if_pos (by simpa [countTable] using lt), countEntry_same]
      rfl
    · rw [if_neg same, countEntry_other done (Ne.symm same)]
  · have out : ∀ occ, (countTable occ k)[i]? = none := fun occ =>
      List.getElem?_eq_none (by simpa [countTable] using Nat.le_of_not_lt inside)
    rw [out, out, if_neg (by omega)]

theorem countOperand_first {done : List Nat} {k : Nat} (old : ∀ n ∈ done, n < k) :
    countOperand env (countTable done k) (.temp k) =
      if env.freshList k = 0 then some (countTable (done ++ [k]) (k + 1)) else none := by
  have absent : ∀ entry ∈ countTable done k, entry.temp ≠ tempText k := by
    intro entry mem same
    obtain ⟨i, here⟩ := List.mem_iff_getElem?.mp mem
    have lt := (List.getElem?_eq_some_iff.mp here).1
    rw [numbered_countTable done k i entry here] at same
    have := tempText_inj same
    simp only [countTable, List.length_map, List.length_range] at lt
    omega
  have none : done.count k = 0 :=
    List.count_eq_zero_of_not_mem fun mem => Nat.lt_irrefl k (old k mem)
  have table : countTable done k ++ [⟨1, tempText k, false, [.temp k]⟩] =
      countTable (done ++ [k]) (k + 1) := by
    rw [countTable, countTable, List.range_succ, List.map_append, List.map_singleton,
      countEntry_same]
    congr 1
    · refine List.map_congr_left fun i mem => (countEntry_other done ?_).symm
      have := List.mem_range.mp mem
      omega
    · simp [countEntry, appendNewInstance, none]
  rw [countOperand_temp, increaseTempAp_new _ absent, countTable_length, NamePtr.text, table]

variable {k u : Nat} {occ done : List Nat}

theorem forall_mem_snoc {n : Nat} (old : ∀ m ∈ done, m < k) (lt : n < k) :
    ∀ m ∈ done ++ [n], m < k := by
  intro m mem
  rcases List.mem_append.mp mem with mem | mem
  · exact old m mem
  · exact List.mem_singleton.mp mem ▸ lt

theorem countOperands_eq (order : InOrder k occ u) (old : ∀ n ∈ done, n < k)
    (null : ∀ n < u, env.freshList n = 0) :
    (occ.map NamePtr.temp).foldlM (countOperand env) (countTable done k) =
      some (countTable (done ++ occ) u) := by
  induction occ generalizing k done with
  | nil =>
    obtain rfl : k = u := order
    rw [List.append_nil]
    rfl
  | cons n rest ih =>
    rw [List.map_cons, List.foldlM_cons, ← List.singleton_append, ← List.append_assoc]
    rw [InOrder] at order
    split at order
    · next lt =>
      rw [countOperand_again done lt]
      exact ih order (forall_mem_snoc old lt)
    · obtain ⟨rfl, later⟩ := order
      rw [countOperand_first old, if_pos (null n later.le)]
      exact ih later (forall_mem_snoc (fun m mem => Nat.lt_succ_of_lt (old m mem))
        (Nat.lt_succ_self n))

/-- The count does not survive an entry whose word is not null. -/
theorem countOperands_none (order : InOrder k occ u) (old : ∀ n ∈ done, n < k) {n : Nat}
    (new : k ≤ n) (lt : n < u) (stale : env.freshList n ≠ 0) :
    (occ.map NamePtr.temp).foldlM (countOperand env) (countTable done k) = none := by
  induction occ generalizing k done with
  | nil =>
    obtain rfl : k = u := order
    omega
  | cons m rest ih =>
    rw [List.map_cons, List.foldlM_cons]
    rw [InOrder] at order
    split at order
    · next known =>
      rw [countOperand_again done known]
      exact ih order (forall_mem_snoc old known) new
    · obtain ⟨rfl, later⟩ := order
      rw [countOperand_first old]
      split
      · next null =>
        refine ih later (forall_mem_snoc (fun m mem => Nat.lt_succ_of_lt (old m mem))
          (Nat.lt_succ_self m)) ?_
        refine Nat.lt_of_le_of_ne new ?_
        rintro rfl
        exact stale null
      · rfl

end Counting

theorem nodeAt_some {list : List CantApTemp} {idx : Option Nat} {i : Nat} {entry : CantApTemp}
    (found : idx = some i) (here : list[i]? = some entry) : nodeAt list idx = some (i, entry) := by
  rw [found, nodeAt, Option.bind_some, here]
  rfl

theorem nodeAt_none {list : List CantApTemp} : nodeAt list none = none := rfl

section Step

variable {s : OptState} {n m : Nat} {entry : CantApTemp}

theorem checkOptimize_locked (numbered : Numbered s.tmpList) (name : s.heap n = tempText m)
    (here : s.tmpList[m]? = some entry) (locked : entry.locked = true) :
    checkOptimize s (.temp n) = some (useTemp m entry s) := by
  have actual := nodeAt_some (numbered.getTemp here) here
  have dollar : startsWith '$' (tempText m) = true := rfl
  simp only [checkOptimize, NamePtr.text, name, dollar, if_true]
  cases found : getFree s.tmpList (tempText m) with
  | none =>
    rw [nodeAt_none, actual]
  | some j =>
    obtain ⟨free, atFree, -⟩ := getFree_some found
    rw [nodeAt_some rfl atFree, actual]
    exact if_pos locked

theorem checkOptimize_fresh (numbered : Numbered s.tmpList) (name : s.heap n = tempText m)
    (here : s.tmpList[m]? = some entry) (fresh : entry.locked = false) :
    ∃ j, (∀ i < j, ∀ other, s.tmpList[i]? = some other → other.cantAp ≠ 0) ∧
      ((j = m ∧ checkOptimize s (.temp n) = some (useTemp m entry s)) ∨
        ∃ free, j < m ∧ s.tmpList[j]? = some free ∧ free.cantAp = 0 ∧
          checkOptimize s (.temp n) = some (swapTemps j m free entry s)) := by
  have actual := nodeAt_some (numbered.getTemp here) here
  have dollar : startsWith '$' (tempText m) = true := rfl
  simp only [checkOptimize, NamePtr.text, name, dollar, if_true]
  cases found : getFree s.tmpList (tempText m) with
  | none =>
    refine ⟨m, getFree_none found fun i lt other at' same => ?_, .inl ⟨rfl, ?_⟩⟩
    · have := tempText_inj ((numbered i other at').symm.trans same)
      omega
    · rw [nodeAt_none, actual]
  | some j =>
    obtain ⟨free, atFree, unused, apart⟩ := getFree_some found
    refine ⟨j, getFree_least found, .inr ⟨free, ?_, atFree, unused, ?_⟩⟩
    · by_contra behind
      exact apart m (Nat.le_of_not_lt behind) entry here (numbered m entry here)
    · rw [nodeAt_some rfl atFree, actual]
      simp [fresh]

theorem useTemp_getElem? (here : s.tmpList[m]? = some entry) :
    (useTemp m entry s).tmpList[m]? =
      some { entry with cantAp := entry.cantAp - 1, locked := true } := by
  rw [useTemp, List.getElem?_set_self (List.getElem?_eq_some_iff.mp here).1]

theorem useTemp_other {i : Nat} (differ : i ≠ m) :
    (useTemp m entry s).tmpList[i]? = s.tmpList[i]? := List.getElem?_set_ne (Ne.symm differ)

theorem copyAll_temps (name : CString) (c n : Nat) (heap : Nat → CString) :
    (List.replicate (c + 1) (NamePtr.temp n)).foldl (fun heap location => strcpy location name heap)
      heap = Function.update heap n name := by
  induction c generalizing heap with
  | zero => rfl
  | succ c ih =>
    rw [List.replicate_succ, List.foldl_cons, ih]
    exact Function.update_idem _ _ _

theorem update_tempHeap (ρ : Nat → Nat) (k j : Nat) :
    Function.update (tempHeap ρ) k (tempText j) = tempHeap (Function.update ρ k j) := by
  funext i
  by_cases same : i = k
  · rw [same, Function.update_self, tempHeap, Function.update_self]
  · rw [Function.update_of_ne same, tempHeap, tempHeap, Function.update_of_ne same]

variable {j : Nat} {free : CantApTemp}

theorem swapTemps_free (here : s.tmpList[j]? = some free) (differ : j ≠ m) :
    (swapTemps j m free entry s).tmpList[j]? =
      some { free with cantAp := entry.cantAp - 1, locked := true, list := entry.list } := by
  rw [swapTemps, List.getElem?_set_ne (Ne.symm differ),
    List.getElem?_set_self (List.getElem?_eq_some_iff.mp here).1]

theorem swapTemps_actual (here : s.tmpList[m]? = some entry) :
    (swapTemps j m free entry s).tmpList[m]? =
      some { entry with locked := false, cantAp := 0, list := [] } := by
  have inside := (List.getElem?_eq_some_iff.mp here).1
  rw [swapTemps, List.getElem?_set_self (by rwa [List.length_set])]

theorem swapTemps_other {i : Nat} (differ : i ≠ j) (differ' : i ≠ m) :
    (swapTemps j m free entry s).tmpList[i]? = s.tmpList[i]? := by
  rw [swapTemps, List.getElem?_set_ne (Ne.symm differ'), List.getElem?_set_ne (Ne.symm differ)]

theorem swapTemps_numbered (h : Numbered s.tmpList) (atFree : s.tmpList[j]? = some free)
    (here : s.tmpList[m]? = some entry) : Numbered (swapTemps j m free entry s).tmpList := by
  rw [swapTemps]
  refine Numbered.set (Numbered.set h j ?_) m ?_
  · exact h j free atFree
  · exact h m entry here

end Step

/-- In front of these occurrences, when the temporaries below `k` have their names: the
entry of a name that is in use counts the uses of its owner. -/
structure Walk (s : OptState) (ρ : Nat → Nat) (k u : Nat) (rest : List Nat) : Prop where
  heap : s.heap = tempHeap ρ
  length : s.tmpList.length = u
  numbered : Numbered s.tmpList
  fresh : ∀ i, k ≤ i → i < u → ρ i = i ∧ s.tmpList[i]? = some (countEntry rest i)
  low : ∀ a < k, a ∈ rest → ρ a < k
  live : ∀ a < k, a ∈ rest → ∃ entry, s.tmpList[ρ a]? = some entry ∧
    entry.cantAp = rest.count a ∧ entry.locked = true
  apart : ∀ a b, a < k → b < k → a ∈ rest → b ∈ rest → ρ a = ρ b → a = b

/-- Every name in use has an owner that occurs again. -/
def Owned (s : OptState) (ρ : Nat → Nat) (k : Nat) (rest : List Nat) : Prop :=
  ∀ i < k, ∀ entry, s.tmpList[i]? = some entry → entry.cantAp ≠ 0 → ∃ a < k, a ∈ rest ∧ ρ a = i

namespace Walk

variable {s : OptState} {ρ : Nat → Nat} {k u n : Nat} {rest : List Nat}

theorem startOwned (s : OptState) (ρ : Nat → Nat) (occ : List Nat) : Owned s ρ 0 occ :=
  fun _ lt => absurd lt (Nat.not_lt_zero _)

theorem start {occ : List Nat} (u : Nat) : Walk ⟨tempText, countTable occ u⟩ id 0 u occ where
  heap := rfl
  length := by simp [countTable]
  numbered := numbered_countTable occ u
  fresh _ _ lt := ⟨rfl, countTable_getElem? occ lt⟩
  low _ lt := absurd lt (Nat.not_lt_zero _)
  live _ lt := absurd lt (Nat.not_lt_zero _)
  apart _ _ lt := absurd lt (Nat.not_lt_zero _)

theorem countEntry_cons (rest : List Nat) {n i : Nat} (differ : i ≠ n) :
    countEntry (n :: rest) i = countEntry rest i := by
  rw [countEntry, countEntry, List.count_cons_of_ne (Ne.symm differ)]

theorem again (h : Walk s ρ k u (n :: rest)) (owned : Owned s ρ k (n :: rest)) (lt : n < k) :
    ∃ s', checkOptimize s (.temp n) = some s' ∧ Walk s' ρ k u rest ∧ Owned s' ρ k rest := by
  obtain ⟨entry, here, uses, locked⟩ := h.live n lt List.mem_cons_self
  have name : s.heap n = tempText (ρ n) := by rw [h.heap, tempHeap]
  have low := h.low n lt List.mem_cons_self
  have used := checkOptimize_locked h.numbered name here locked
  refine ⟨_, used, ⟨h.heap, ?_, ?_, ?_, ?_, ?_, ?_⟩, ?_⟩
  · rw [useTemp, List.length_set, h.length]
  · exact h.numbered.set _ (h.numbered _ entry here)
  · intro i ge lt'
    obtain ⟨own, at'⟩ := h.fresh i ge lt'
    rw [useTemp_other (by omega), at', countEntry_cons rest (by omega)]
    exact ⟨own, rfl⟩
  · exact fun a lt' mem => h.low a lt' (List.mem_cons_of_mem n mem)
  · intro a lt' mem
    by_cases same : a = n
    · subst same
      refine ⟨_, useTemp_getElem? here, ?_, rfl⟩
      dsimp only
      rw [uses, List.count_cons_self]
      omega
    · obtain ⟨other, at', uses', locked'⟩ := h.live a lt' (List.mem_cons_of_mem n mem)
      have differ : ρ a ≠ ρ n := fun eq =>
        same (h.apart a n lt' lt (List.mem_cons_of_mem n mem) List.mem_cons_self eq)
      rw [List.count_cons_of_ne (Ne.symm same)] at uses'
      exact ⟨other, (useTemp_other differ).trans at', uses', locked'⟩
  · exact fun a b lt1 lt2 mem1 mem2 =>
      h.apart a b lt1 lt2 (List.mem_cons_of_mem n mem1) (List.mem_cons_of_mem n mem2)
  · intro i lt' other at' inUse
    by_cases same : i = ρ n
    · subst same
      rw [useTemp_getElem? here, Option.some.injEq] at at'
      have again : n ∈ rest := by
        by_contra last
        rw [← at'] at inUse
        refine inUse ?_
        dsimp only
        rw [uses, List.count_cons_self, List.count_eq_zero_of_not_mem last]
        rfl
      exact ⟨n, lt, again, rfl⟩
    · rw [useTemp_other same] at at'
      obtain ⟨a, lt1, mem, rfl⟩ := owned i lt' other at' inUse
      refine ⟨a, lt1, (List.mem_cons.mp mem).resolve_left ?_, rfl⟩
      rintro rfl
      exact same rfl

theorem give (h : Walk s ρ k u (k :: rest)) {s' : OptState} {j : Nat} {used : CantApTemp}
    (le : j ≤ k) (free : ∀ a < k, a ∈ rest → ρ a ≠ j)
    (heap : s'.heap = tempHeap (Function.update ρ k j)) (length : s'.tmpList.length = u)
    (numbered : Numbered s'.tmpList) (here : s'.tmpList[j]? = some used)
    (uses : used.cantAp = rest.count k) (locked : used.locked = true)
    (others : ∀ i, i ≠ j → i ≠ k → s'.tmpList[i]? = s.tmpList[i]?) :
    Walk s' (Function.update ρ k j) (k + 1) u rest := by
  have old : ∀ {a}, a ≠ k → Function.update ρ k j a = ρ a := fun differ =>
    Function.update_of_ne differ _ _
  have inRest : ∀ {a}, a ∈ rest → a ∈ k :: rest := List.mem_cons_of_mem k
  refine ⟨heap, length, numbered, ?_, ?_, ?_, ?_⟩
  · intro i ge lt
    obtain ⟨own, at'⟩ := h.fresh i (by omega) lt
    rw [old (by omega), others i (by omega) (by omega), at', countEntry_cons rest (by omega)]
    exact ⟨own, rfl⟩
  · intro a lt mem
    by_cases same : a = k
    · rw [same, Function.update_self]
      omega
    · have := h.low a (by omega) (inRest mem)
      rw [old same]
      omega
  · intro a lt mem
    by_cases same : a = k
    · subst same
      rw [Function.update_self]
      exact ⟨used, here, uses, locked⟩
    · have low := h.low a (by omega) (inRest mem)
      obtain ⟨other, at', uses', locked'⟩ := h.live a (by omega) (inRest mem)
      rw [List.count_cons_of_ne (Ne.symm same)] at uses'
      rw [old same, others _ (free a (by omega) mem) (by omega)]
      exact ⟨other, at', uses', locked'⟩
  · intro a b lt1 lt2 mem1 mem2 eq
    by_cases same1 : a = k
    · by_cases same2 : b = k
      · rw [same1, same2]
      · rw [same1, Function.update_self, old same2] at eq
        exact absurd eq.symm (free b (by omega) mem2)
    · by_cases same2 : b = k
      · rw [same2, Function.update_self, old same1] at eq
        exact absurd eq (free a (by omega) mem1)
      · rw [old same1, old same2] at eq
        exact h.apart a b (by omega) (by omega) (inRest mem1) (inRest mem2) eq

theorem giveOwned (owned : Owned s ρ k (k :: rest)) {s' : OptState} {j : Nat} {used : CantApTemp}
    (here : s'.tmpList[j]? = some used) (uses : used.cantAp = rest.count k)
    (others : ∀ i, i ≠ j → i ≠ k → s'.tmpList[i]? = s.tmpList[i]?)
    (vacated : k ≠ j → ∀ entry, s'.tmpList[k]? = some entry → entry.cantAp = 0) :
    Owned s' (Function.update ρ k j) (k + 1) rest := by
  intro i lt entry at' inUse
  by_cases same : i = j
  · subst same
    obtain rfl := Option.some.inj (here.symm.trans at')
    refine ⟨k, Nat.lt_succ_self k, ?_, Function.update_self _ _ _⟩
    by_contra last
    rw [uses, List.count_eq_zero_of_not_mem last] at inUse
    exact inUse rfl
  · have differ : i ≠ k := by
      rintro rfl
      exact inUse (vacated same entry at')
    rw [others i same differ] at at'
    obtain ⟨a, lt', mem, rfl⟩ := owned i (by omega) entry at' inUse
    have notK : a ≠ k := Nat.ne_of_lt lt'
    exact ⟨a, Nat.lt_succ_of_lt lt', (List.mem_cons.mp mem).resolve_left notK,
      Function.update_of_ne notK _ _⟩

theorem first (h : Walk s ρ k u (k :: rest)) (owned : Owned s ρ k (k :: rest)) (inside : k < u) :
    ∃ s' j, checkOptimize s (.temp k) = some s' ∧ (∀ a < k, a ∈ rest → ρ a ≠ j) ∧
      (∀ i < j, ∃ a < k, a ∈ rest ∧ ρ a = i) ∧ Walk s' (Function.update ρ k j) (k + 1) u rest ∧
      Owned s' (Function.update ρ k j) (k + 1) rest := by
  obtain ⟨own, here⟩ := h.fresh k (Nat.le_refl k) inside
  have name : s.heap k = tempText k := by rw [h.heap, tempHeap, own]
  have below : ∀ a < k, a ∈ rest → ρ a < k := fun a lt mem =>
    h.low a lt (List.mem_cons_of_mem k mem)
  obtain ⟨j, taken, step⟩ := checkOptimize_fresh h.numbered name here rfl
  have le : j ≤ k := by
    rcases step with ⟨rfl, -⟩ | ⟨free, lt, -⟩
    · exact Nat.le_refl j
    · exact Nat.le_of_lt lt
  have least : ∀ i < j, ∃ a < k, a ∈ rest ∧ ρ a = i := by
    intro i lt
    have at' := List.getElem?_eq_getElem (l := s.tmpList) (i := i) (by rw [h.length]; omega)
    obtain ⟨a, lt', mem, eq⟩ := owned i (by omega) _ at' (taken i lt _ at')
    exact ⟨a, lt', (List.mem_cons.mp mem).resolve_left (Nat.ne_of_lt lt'), eq⟩
  rcases step with ⟨rfl, used⟩ | ⟨free, lt, atFree, unused, swapped⟩
  · have same : Function.update ρ j j = ρ := by
      rw [Function.update_eq_self_iff]
      exact own.symm
    have apart : ∀ a < j, a ∈ rest → ρ a ≠ j := fun a lt mem => Nat.ne_of_lt (below a lt mem)
    have uses : ({ countEntry (j :: rest) j with
        cantAp := (countEntry (j :: rest) j).cantAp - 1, locked := true } : CantApTemp).cantAp =
        rest.count j := by simp [countEntry]
    refine ⟨_, j, used, apart, least, ?_, ?_⟩
    · refine h.give le apart ?_ ?_ ?_ (useTemp_getElem? here) uses rfl
        fun i differ _ => useTemp_other differ
      · rw [same]
        exact h.heap
      · rw [useTemp, List.length_set, h.length]
      · exact h.numbered.set _ rfl
    · exact giveOwned owned (useTemp_getElem? here) uses (fun i differ _ => useTemp_other differ)
        fun differ => absurd rfl differ
  · have apart : ∀ a < k, a ∈ rest → ρ a ≠ j := by
      rintro a lt' mem rfl
      obtain ⟨entry, at', uses, -⟩ := h.live a lt' (List.mem_cons_of_mem k mem)
      rw [atFree, Option.some.injEq] at at'
      have pos : 0 < (k :: rest).count a := List.count_pos_iff.mpr (List.mem_cons_of_mem k mem)
      rw [← at', unused] at uses
      omega
    have count : (k :: rest).count k = rest.count k + 1 := List.count_cons_self
    have uses : (countEntry (k :: rest) k).cantAp - 1 = rest.count k := by simp [countEntry]
    refine ⟨_, j, swapped, apart, least, ?_, ?_⟩
    · refine h.give le apart ?_ ?_ ?_ (swapTemps_free atFree (Nat.ne_of_lt lt)) uses rfl
        fun i differ differ' => swapTemps_other differ differ'
      · simp only [swapTemps, countEntry, count, copyAll_temps, h.numbered j free atFree, h.heap]
        exact update_tempHeap ρ k j
      · simp only [swapTemps, List.length_set, h.length]
      · exact swapTemps_numbered h.numbered atFree here
    · refine giveOwned owned (swapTemps_free atFree (Nat.ne_of_lt lt)) uses
        (fun i differ differ' => swapTemps_other differ differ') fun _ entry at' => ?_
      rw [swapTemps_actual here, Option.some.injEq] at at'
      rw [← at']

theorem step (h : Walk s ρ k u (n :: rest)) (owned : Owned s ρ k (n :: rest))
    (order : InOrder k (n :: rest) u) :
    ∃ s' ρ' k', checkOptimize s (.temp n) = some s' ∧ Walk s' ρ' k' u rest ∧
      Owned s' ρ' k' rest ∧ InOrder k' rest u ∧ k ≤ k' ∧ n < k' ∧
      ∀ ρ'', FirstFit k' ρ' rest ρ'' → FirstFit k ρ (n :: rest) ρ'' := by
  rw [InOrder] at order
  split at order
  · next lt =>
    obtain ⟨s', visited, walk, owned'⟩ := h.again owned lt
    exact ⟨s', ρ, k, visited, walk, owned', order, Nat.le_refl k, lt, fun _ fits => .again lt fits⟩
  · obtain ⟨rfl, later⟩ := order
    obtain ⟨s', j, visited, free, least, walk, owned'⟩ := h.first owned later.le
    exact ⟨s', _, n + 1, visited, walk, owned', later, Nat.le_succ n, Nat.lt_succ_self n,
      fun _ fits => .give free least fits⟩

/-- The walk ends, and it gives each temporary the least name that is not in use. -/
theorem run {occ : List Nat} (h : Walk s ρ k u occ) (owned : Owned s ρ k occ)
    (order : InOrder k occ u) :
    ∃ s' ρ', checkOperands (occ.map .temp) s = some s' ∧ s'.heap = tempHeap ρ' ∧
      FirstFit k ρ occ ρ' := by
  induction occ generalizing k ρ s with
  | nil => exact ⟨s, ρ, rfl, h.heap, .nil k ρ⟩
  | cons n rest ih =>
    obtain ⟨mid, _, _, one, walk, owned', order', -, -, fit⟩ := h.step owned order
    obtain ⟨s', ρ', others, heap, fits⟩ := ih walk owned' order'
    refine ⟨s', ρ', ?_, heap, fit ρ' fits⟩
    rw [List.map_cons, checkOperands, one, Option.bind_some, others]

end Walk

end Ctds
