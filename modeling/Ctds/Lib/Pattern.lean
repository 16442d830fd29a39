import Mathlib.Computability.Language

/-! Patterns over any alphabet, in the forms a scanner generator offers, and the languages they
denote. A pattern is matched letter by letter through its derivatives; keeping the last position
where the rest could be empty gives the longest match. Last, texts that stop at the first
occurrence of a terminator. -/

namespace Ctds

universe u

inductive Pattern (α : Type u) where
  | eps
  | cls (p : α → Bool)
  | cat (r s : Pattern α)
  | alt (r s : Pattern α)
  | star (r : Pattern α)

namespace Pattern

variable {α : Type u}

def plus (r : Pattern α) : Pattern α := .cat r (.star r)

def letter [BEq α] (a : α) : Pattern α := .cls (· == a)

/-- A literal text. -/
def text [BEq α] (w : List α) : Pattern α := w.foldr (fun a r => .cat (letter a) r) .eps

def language : Pattern α → Language α
  | eps => 1
  | cls p => {w | ∃ a, p a = true ∧ w = [a]}
  | cat r s => r.language * s.language
  | alt r s => r.language + s.language
  | star r => KStar.kstar r.language

def nullable : Pattern α → Bool
  | eps | star _ => true
  | cls _ => false
  | cat r s => r.nullable && s.nullable
  | alt r s => r.nullable || s.nullable

/-- What may follow the letter `a`. -/
def deriv (a : α) : Pattern α → Pattern α
  | eps => .cls fun _ => false
  | cls p => if p a then .eps else .cls fun _ => false
  | cat r s => if r.nullable then .alt (.cat (r.deriv a) s) (s.deriv a) else .cat (r.deriv a) s
  | alt r s => .alt (r.deriv a) (s.deriv a)
  | star r => .cat (r.deriv a) (.star r)

def accepts (r : Pattern α) : List α → Bool
  | [] => r.nullable
  | a :: w => (r.deriv a).accepts w

/-- The length of the longest match at the start of the input. -/
def longest (r : Pattern α) : List α → Option Nat
  | [] => if r.nullable then some 0 else none
  | a :: w => (((r.deriv a).longest w).map (· + 1)).or (if r.nullable then some 0 else none)

theorem language_cat (r s : Pattern α) : (cat r s).language = r.language * s.language := rfl

theorem language_alt (r s : Pattern α) : (alt r s).language = r.language + s.language := rfl

theorem language_star (r : Pattern α) : (star r).language = KStar.kstar r.language := rfl

theorem cons_mem_mul {l m : Language α} {a : α} {w : List α} :
    a :: w ∈ l * m ↔ ([] ∈ l ∧ a :: w ∈ m) ∨ ∃ u v, u ++ v = w ∧ a :: u ∈ l ∧ v ∈ m := by
  rw [Language.mem_mul]
  constructor
  · rintro ⟨u, left, v, right, eq⟩
    cases u with
    | nil => exact .inl ⟨left, eq ▸ right⟩
    | cons b u =>
      obtain ⟨rfl, rfl⟩ := List.cons.inj eq
      exact .inr ⟨u, v, rfl, left, right⟩
  · rintro (⟨left, right⟩ | ⟨u, v, rfl, left, right⟩)
    · exact ⟨[], left, a :: w, right, rfl⟩
    · exact ⟨a :: u, left, v, right, rfl⟩

theorem cons_mem_kstar {l : Language α} {a : α} {w : List α} :
    a :: w ∈ KStar.kstar l ↔ ∃ u v, u ++ v = w ∧ a :: u ∈ l ∧ v ∈ KStar.kstar l := by
  constructor
  · rw [Language.mem_kstar_iff_exists_nonempty]
    rintro ⟨parts, eq, all⟩
    cases parts with
    | nil => cases eq
    | cons first rest =>
      obtain ⟨mem, nonempty⟩ := all first List.mem_cons_self
      cases first with
      | nil => exact absurd rfl nonempty
      | cons b u =>
        obtain ⟨rfl, rfl⟩ := List.cons.inj eq
        exact ⟨u, rest.flatten, rfl, mem,
          Language.join_mem_kstar fun y inRest => (all y (List.mem_cons_of_mem _ inRest)).1⟩
  · rintro ⟨u, v, rfl, first, more⟩
    rw [← Language.one_add_self_mul_kstar_eq_kstar]
    exact .inr (Language.append_mem_mul first more)

theorem nullable_iff (r : Pattern α) : r.nullable = true ↔ [] ∈ r.language := by
  induction r with
  | eps => exact iff_of_true rfl rfl
  | cls p => exact iff_of_false Bool.false_ne_true fun ⟨_, _, eq⟩ => List.cons_ne_nil _ _ eq.symm
  | cat r s ihr ihs =>
    rw [nullable, Bool.and_eq_true, ihr, ihs, language_cat, Language.mem_mul]
    constructor
    · rintro ⟨left, right⟩
      exact ⟨[], left, [], right, rfl⟩
    · rintro ⟨u, left, v, right, eq⟩
      obtain ⟨rfl, rfl⟩ := List.append_eq_nil_iff.mp eq
      exact ⟨left, right⟩
  | alt r s ihr ihs =>
    rw [nullable, Bool.or_eq_true, ihr, ihs]
    rfl
  | star r => exact iff_of_true rfl (Language.nil_mem_kstar _)

/-- The words of the derivative are the words that continue the letter. -/
theorem mem_deriv (r : Pattern α) (a : α) (w : List α) :
    w ∈ (r.deriv a).language ↔ a :: w ∈ r.language := by
  induction r generalizing w with
  | eps =>
    exact iff_of_false (fun ⟨_, absurd, _⟩ => Bool.false_ne_true absurd) (List.cons_ne_nil a w)
  | cls p =>
    rw [deriv]
    split
    · next mem =>
      refine ⟨fun eq => ⟨a, mem, congrArg (a :: ·) eq⟩, ?_⟩
      rintro ⟨b, -, eq⟩
      exact (List.cons.inj eq).2
    · next out =>
      refine iff_of_false (fun ⟨_, absurd, _⟩ => Bool.false_ne_true absurd) ?_
      rintro ⟨b, mem, eq⟩
      exact out ((List.cons.inj eq).1 ▸ mem)
  | cat r s ihr ihs =>
    have first : w ∈ ((r.deriv a).cat s).language ↔
        ∃ u v, u ++ v = w ∧ a :: u ∈ r.language ∧ v ∈ s.language := by
      rw [language_cat, Language.mem_mul]
      constructor
      · rintro ⟨u, left, v, right, eq⟩
        exact ⟨u, v, eq, (ihr u).mp left, right⟩
      · rintro ⟨u, v, eq, left, right⟩
        exact ⟨u, (ihr u).mpr left, v, right, eq⟩
    rw [language_cat, cons_mem_mul, ← nullable_iff, ← first, deriv]
    split
    · next null =>
      rw [language_alt, Language.mem_add, ihs, or_comm]
      simp only [null, true_and]
    · next null => simp only [null, false_and, false_or, Bool.false_eq_true]
  | alt r s ihr ihs =>
    rw [deriv, language_alt, language_alt, Language.mem_add, Language.mem_add, ihr, ihs]
  | star r ih =>
    rw [language_star, cons_mem_kstar, deriv, language_cat, Language.mem_mul]
    constructor
    · rintro ⟨u, left, v, right, eq⟩
      exact ⟨u, v, eq, (ih u).mp left, right⟩
    · rintro ⟨u, v, eq, left, right⟩
      exact ⟨u, (ih u).mpr left, v, right, eq⟩

theorem accepts_iff (r : Pattern α) (w : List α) : r.accepts w = true ↔ w ∈ r.language := by
  induction w generalizing r with
  | nil => exact nullable_iff r
  | cons a w ih => rw [accepts, ih, mem_deriv]

instance (r : Pattern α) (w : List α) : Decidable (w ∈ r.language) :=
  decidable_of_iff _ (accepts_iff r w)

/-- The first `n` letters of the input are a word, and no more letters are. -/
def IsLongest (l : Language α) (w : List α) (n : Nat) : Prop :=
  n ≤ w.length ∧ w.take n ∈ l ∧ ∀ m, n < m → m ≤ w.length → w.take m ∉ l

theorem nullable_take_zero (r : Pattern α) (w : List α) :
    r.nullable = true ↔ w.take 0 ∈ r.language := by
  rw [nullable_iff, List.take_zero]

theorem longest_eq_none_iff (r : Pattern α) (w : List α) :
    r.longest w = none ↔ ∀ n, n ≤ w.length → w.take n ∉ r.language := by
  induction w generalizing r with
  | nil =>
    rw [longest]
    constructor
    · intro no n le mem
      rw [if_pos ((nullable_iff r).mpr (by simpa using mem))] at no
      cases no
    · intro all
      rw [if_neg fun null => all 0 (Nat.le_refl 0) ((nullable_take_zero r []).mp null)]
  | cons a w ih =>
    rw [longest, Option.or_eq_none_iff, Option.map_eq_none_iff, ih]
    constructor
    · rintro ⟨later, now⟩ n le mem
      cases n with
      | zero =>
        rw [if_pos ((nullable_take_zero r (a :: w)).mpr mem)] at now
        cases now
      | succ n => exact later n (Nat.le_of_succ_le_succ le) ((mem_deriv r a _).mpr mem)
    · intro all
      refine ⟨fun n le mem => all (n + 1) (Nat.succ_le_succ le) ((mem_deriv r a _).mp mem), ?_⟩
      rw [if_neg fun null => all 0 (Nat.zero_le _) ((nullable_take_zero r (a :: w)).mp null)]

theorem isLongest_of_longest {r : Pattern α} {w : List α} {n : Nat} (h : r.longest w = some n) :
    IsLongest r.language w n := by
  induction w generalizing r n with
  | nil =>
    rw [longest, Option.ite_none_right_eq_some, Option.some.injEq] at h
    obtain ⟨null, rfl⟩ := h
    refine ⟨Nat.le_refl 0, (nullable_take_zero r []).mp null, fun m gt le => ?_⟩
    exact absurd (Nat.lt_of_lt_of_le gt le) (Nat.lt_irrefl 0)
  | cons a w ih =>
    rw [longest, Option.or_eq_some_iff, Option.map_eq_some_iff, Option.map_eq_none_iff,
      Option.ite_none_right_eq_some, Option.some.injEq] at h
    rcases h with ⟨n, later, rfl⟩ | ⟨no, null, rfl⟩
    · obtain ⟨le, mem, last⟩ := ih later
      refine ⟨Nat.succ_le_succ le, (mem_deriv r a _).mp mem, fun m gt inside more => ?_⟩
      cases m with
      | zero => exact absurd gt (Nat.not_lt_zero _)
      | succ m =>
        exact last m (Nat.lt_of_succ_lt_succ gt) (Nat.le_of_succ_le_succ inside)
          ((mem_deriv r a _).mpr more)
    · refine ⟨Nat.zero_le _, (nullable_take_zero r (a :: w)).mp null, fun m gt inside more => ?_⟩
      cases m with
      | zero => exact absurd gt (Nat.lt_irrefl 0)
      | succ m =>
        exact (longest_eq_none_iff (r.deriv a) w).mp no m (Nat.le_of_succ_le_succ inside)
          ((mem_deriv r a _).mpr more)

theorem IsLongest.unique {l : Language α} {w : List α} {n m : Nat} (h : IsLongest l w n)
    (h' : IsLongest l w m) : n = m := by
  rcases Nat.lt_trichotomy n m with lt | same | gt
  · exact absurd h'.2.1 (h.2.2 m lt h'.1)
  · exact same
  · exact absurd h.2.1 (h'.2.2 n gt h.1)

theorem longest_eq_some_iff (r : Pattern α) (w : List α) (n : Nat) :
    r.longest w = some n ↔ IsLongest r.language w n := by
  refine ⟨isLongest_of_longest, fun longest => ?_⟩
  cases found : r.longest w with
  | none => exact absurd longest.2.1 ((longest_eq_none_iff r w).mp found n longest.1)
  | some m => exact congrArg some ((isLongest_of_longest found).unique longest)

theorem mem_text [BEq α] [LawfulBEq α] {w u : List α} : u ∈ (text w).language ↔ u = w := by
  induction w generalizing u with
  | nil => rfl
  | cons a w ih =>
    rw [text, List.foldr_cons, language_cat, Language.mem_mul]
    constructor
    · rintro ⟨_, ⟨b, same, rfl⟩, v, mem, rfl⟩
      rw [eq_of_beq same, ih.mp mem]
      rfl
    · rintro rfl
      exact ⟨[a], ⟨a, beq_self_eq_true a, rfl⟩, w, ih.mpr rfl, rfl⟩

theorem mem_cls_mul {p : α → Bool} {l : Language α} {w : List α} :
    w ∈ (cls p).language * l ↔ ∃ a v, w = a :: v ∧ p a = true ∧ v ∈ l := by
  rw [Language.mem_mul]
  constructor
  · rintro ⟨_, ⟨a, mem, rfl⟩, v, rest, rfl⟩
    exact ⟨a, v, rfl, mem, rest⟩
  · rintro ⟨a, v, rfl, mem, rest⟩
    exact ⟨[a], ⟨a, mem, rfl⟩, v, rest, rfl⟩

theorem nil_notMem_cls_mul {p : α → Bool} {l : Language α} : [] ∉ (cls p).language * l := by
  rw [mem_cls_mul]
  rintro ⟨a, v, eq, -⟩
  cases eq

theorem cons_mem_cls_mul {p : α → Bool} {l : Language α} {a : α} {w : List α} :
    a :: w ∈ (cls p).language * l ↔ p a = true ∧ w ∈ l := by
  rw [mem_cls_mul]
  constructor
  · rintro ⟨b, v, eq, mem, rest⟩
    obtain ⟨rfl, rfl⟩ := List.cons.inj eq
    exact ⟨mem, rest⟩
  · rintro ⟨mem, rest⟩
    exact ⟨a, w, rfl, mem, rest⟩

theorem mem_plus_cls {p : α → Bool} {w : List α} :
    w ∈ (plus (cls p)).language ↔ w ≠ [] ∧ ∀ a ∈ w, p a = true := by
  rw [plus, language_cat, mem_cls_mul]
  have rest : ∀ v : List α, v ∈ (star (cls p)).language ↔ ∀ a ∈ v, p a = true := by
    intro v
    induction v with
    | nil => exact iff_of_true (Language.nil_mem_kstar _) (by simp)
    | cons a v ih =>
      rw [language_star, cons_mem_kstar, List.forall_mem_cons, ← ih]
      constructor
      · rintro ⟨u, v, rfl, ⟨b, mem, eq⟩, more⟩
        obtain ⟨rfl, rfl⟩ := List.cons.inj eq
        exact ⟨mem, more⟩
      · rintro ⟨mem, more⟩
        exact ⟨[], v, rfl, ⟨a, mem, rfl⟩, more⟩
  constructor
  · rintro ⟨a, v, rfl, mem, more⟩
    exact ⟨List.cons_ne_nil a v, List.forall_mem_cons.mpr ⟨mem, (rest v).mp more⟩⟩
  · rintro ⟨nonempty, all⟩
    cases w with
    | nil => exact absurd rfl nonempty
    | cons a v =>
      rw [List.forall_mem_cons] at all
      exact ⟨a, v, rfl, all.1, (rest v).mpr all.2⟩

theorem star_mul (r : Pattern α) (l : Language α) :
    (star r).language * l = l + r.language * ((star r).language * l) := by
  rw [language_star, ← mul_assoc]
  nth_rewrite 1 [← Language.one_add_self_mul_kstar_eq_kstar]
  rw [add_mul, one_mul]

theorem plus_mul (r : Pattern α) (l : Language α) :
    (plus r).language * l = r.language * ((star r).language * l) := by
  rw [plus, language_cat, mul_assoc]

end Pattern

end Ctds
