import Ctds.Lib.Pattern

/-! Scanners over any alphabet: a list of rules, each a pattern and what it stands for. At each
place the rule with the longest match acts, and among several the first. -/

namespace Ctds

namespace Pattern

universe u v

variable {α : Type u} {κ : Type v}

theorem longest_congr {r s : Pattern α} (same : r.language = s.language) (w : List α) :
    r.longest w = s.longest w := by
  ext n
  rw [longest_eq_some_iff, longest_eq_some_iff, same]

@[simp] theorem longest_nil (r : Pattern α) :
    r.longest [] = if r.nullable then some 0 else none := rfl

@[simp] theorem longest_eps (w : List α) : (eps : Pattern α).longest w = some 0 := by
  rw [longest_eq_some_iff]
  refine ⟨Nat.zero_le _, rfl, fun m pos le mem => ?_⟩
  have empty : w.take m = [] := mem
  have := congrArg List.length empty
  rw [List.length_take_of_le le, List.length_nil] at this
  omega

theorem longest_cat_cls (p : α → Bool) (s : Pattern α) (a : α) (w : List α) :
    (cat (cls p) s).longest (a :: w) = if p a then (s.longest w).map (· + 1) else none := by
  have step : (cat (cls p) s).longest (a :: w) =
      ((cat (if p a then eps else cls fun _ => false) s).longest w).map (· + 1) := by
    simp [longest, deriv, nullable]
  rw [step]
  split
  · rw [longest_congr (s := s) (by rw [language_cat]; exact one_mul _)]
  · rw [(longest_eq_none_iff _ w).mpr, Option.map_none]
    rintro n - ⟨u, ⟨b, holds, -⟩, -⟩
    cases holds

theorem longest_star_cls (p : α → Bool) (w : List α) :
    (star (cls p)).longest w = some (w.takeWhile p).length := by
  induction w with
  | nil => rfl
  | cons a w ih =>
    rw [longest, deriv, nullable, if_pos rfl, deriv]
    split
    · next holds =>
      rw [longest_congr (s := star (cls p)) (by rw [language_cat]; exact one_mul _), ih,
        List.takeWhile_cons_of_pos holds]
      rfl
    · next out =>
      rw [(longest_eq_none_iff _ w).mpr, List.takeWhile_cons_of_neg out]
      · rfl
      · rintro n - ⟨u, ⟨b, holds, -⟩, -⟩
        cases holds

theorem longest_cls (p : α → Bool) (a : α) (w : List α) :
    (cls p).longest (a :: w) = if p a then some 1 else none := by
  have behind : (cls p).language = (cat (cls p) eps).language := (mul_one _).symm
  rw [longest_congr behind, longest_cat_cls, longest_eps]
  rfl

theorem longest_word (p q : α → Bool) (a : α) (w : List α) :
    (cat (cls p) (star (cls q))).longest (a :: w) =
      if p a then some ((w.takeWhile q).length + 1) else none := by
  rw [longest_cat_cls, longest_star_cls]
  rfl

/-- What stands behind a text does not continue it. -/
def Ends (p : α → Bool) (rest : List α) : Prop := ∀ a ∈ rest.head?, p a = false

theorem takeWhile_ends {p : α → Bool} {w rest : List α} (all : ∀ a ∈ w, p a = true)
    (ends : Ends p rest) : (w ++ rest).takeWhile p = w := by
  rw [List.takeWhile_append_of_pos all]
  cases rest with
  | nil => rw [List.takeWhile_nil, List.append_nil]
  | cons a rest =>
    have out := ends a rfl
    rw [List.takeWhile_cons_of_neg (by rw [out]; exact Bool.false_ne_true), List.append_nil]

theorem prefix_of_ends {p : α → Bool} {u w rest : List α} (inside : ∀ a ∈ u, p a = true)
    (all : ∀ a ∈ w, p a = true) (ends : Ends p rest) (starts : u <+: w ++ rest) : u <+: w := by
  obtain ⟨v, eq⟩ := starts
  rw [← takeWhile_ends all ends, ← eq, List.takeWhile_append_of_pos inside]
  exact List.prefix_append _ _

theorem ends_dropWhile (p : α → Bool) (w : List α) : Ends p (w.dropWhile p) := by
  intro a first
  cases found : w.dropWhile p with
  | nil => simp [found] at first
  | cons b rest =>
    have stops := List.head?_dropWhile_not p w
    rw [found] at first stops
    obtain rfl : b = a := by simpa using first
    simpa using stops

theorem longest_word_append {p q : α → Bool} {a : α} {w rest : List α} (first : p a = true)
    (all : ∀ b ∈ w, q b = true) (ends : Ends q rest) :
    (cat (cls p) (star (cls q))).longest (a :: w ++ rest) = some (a :: w).length := by
  rw [List.cons_append, longest_word, if_pos first, takeWhile_ends all ends]
  rfl

theorem longest_text_cat [BEq α] [LawfulBEq α] (t : List α) (s : Pattern α) (w : List α) :
    (cat (text t) s).longest (t ++ w) = (s.longest w).map (· + t.length) := by
  induction t with
  | nil =>
    rw [longest_congr (s := s) (by rw [language_cat]; exact one_mul _)]
    simp
  | cons a t ih =>
    have assoc : (cat (text (a :: t)) s).language = (cat (letter a) (cat (text t) s)).language :=
      mul_assoc _ _ _
    rw [longest_congr assoc, letter, List.cons_append, longest_cat_cls, if_pos (beq_self_eq_true a),
      ih, Option.map_map]
    rfl

theorem longest_eq_none_of_prefix {r : Pattern α} {p w : List α}
    (starts : ∀ u ∈ r.language, p <+: u) (other : ¬ p <+: w) : r.longest w = none :=
  (longest_eq_none_iff r w).mpr fun n _ mem => other ((starts _ mem).trans (List.take_prefix n w))

theorem longest_text_cat_none [BEq α] [LawfulBEq α] {t : List α} {s : Pattern α} {w : List α}
    (other : ¬ t <+: w) : (cat (text t) s).longest w = none := by
  refine longest_eq_none_of_prefix (fun u mem => ?_) other
  obtain ⟨t', first, v, -, rfl⟩ := mem
  rw [mem_text.mp first]
  exact List.prefix_append t v

theorem longest_text [BEq α] [LawfulBEq α] {t w : List α} {n : Nat} :
    (text t).longest w = some n ↔ t <+: w ∧ n = t.length := by
  have behind : (text t).language = (cat (text t) eps).language := (mul_one _).symm
  rw [longest_congr behind]
  constructor
  · intro found
    have starts : t <+: w := by
      by_contra other
      rw [longest_text_cat_none other] at found
      cases found
    obtain ⟨rest, rfl⟩ := starts
    rw [longest_text_cat, longest_eps, Option.map_some, Nat.zero_add, Option.some.injEq] at found
    exact ⟨List.prefix_append t rest, found.symm⟩
  · rintro ⟨⟨rest, rfl⟩, rfl⟩
    rw [longest_text_cat, longest_eps, Option.map_some, Nat.zero_add]

/-- Of two matches the longer, and of two as long the first. -/
def better : Option (κ × Nat) → Option (κ × Nat) → Option (κ × Nat)
  | none, later => later
  | first, none => first
  | some first, some later => if first.2 < later.2 then some later else some first

@[simp] theorem better_none_left (b : Option (κ × Nat)) : better none b = b := rfl

@[simp] theorem better_none_right (b : Option (κ × Nat)) : better b none = b := by
  cases b <;> rfl

theorem better_eq_left {k : κ} {n : Nat} {b : Option (κ × Nat)}
    (most : ∀ later ∈ b, later.2 ≤ n) : better (some (k, n)) b = some (k, n) := by
  cases b with
  | none => rfl
  | some later => exact if_neg (Nat.not_lt.mpr (most later rfl))

theorem better_eq_right {k : κ} {n : Nat} {a : Option (κ × Nat)}
    (less : ∀ first ∈ a, first.2 < n) : better a (some (k, n)) = some (k, n) := by
  cases a with
  | none => rfl
  | some first => exact if_pos (less first rfl)

theorem eq_some_of_better {a b : Option (κ × Nat)} {x : κ × Nat} (h : better a b = some x) :
    a = some x ∨ b = some x := by
  cases a with
  | none => exact .inr h
  | some first =>
    cases b with
    | none => exact .inl h
    | some later =>
      rw [better] at h
      split at h
      · exact .inr h
      · exact .inl h

theorem le_better_left {a : Option (κ × Nat)} {x : κ × Nat} (mem : x ∈ a) (b : Option (κ × Nat)) :
    ∃ y ∈ better a b, x.2 ≤ y.2 := by
  obtain rfl : a = some x := mem
  cases b with
  | none => exact ⟨x, rfl, Nat.le_refl _⟩
  | some later =>
    rw [better]
    split
    · next lt => exact ⟨later, rfl, lt.le⟩
    · exact ⟨x, rfl, Nat.le_refl _⟩

theorem le_better_right {b : Option (κ × Nat)} {x : κ × Nat} (mem : x ∈ b) (a : Option (κ × Nat)) :
    ∃ y ∈ better a b, x.2 ≤ y.2 := by
  obtain rfl : b = some x := mem
  cases a with
  | none => exact ⟨x, rfl, Nat.le_refl _⟩
  | some first =>
    rw [better]
    split
    · exact ⟨x, rfl, Nat.le_refl _⟩
    · next ge => exact ⟨first, rfl, Nat.not_lt.mp ge⟩

theorem better_assoc (a b c : Option (κ × Nat)) :
    better (better a b) c = better a (better b c) := by
  cases a with
  | none => rfl
  | some a =>
    cases b with
    | none => rfl
    | some b =>
      cases c with
      | none => simp
      | some c =>
        by_cases ab : a.2 < b.2 <;> by_cases bc : b.2 < c.2 <;> by_cases ac : a.2 < c.2 <;>
          simp only [better, ab, bc, ac, if_true, if_false] <;> omega

/-- The rule that acts on the input, and how many letters it takes. -/
def best (rules : List (Pattern α × κ)) (w : List α) : Option (κ × Nat) :=
  rules.foldr (fun rule later => better ((rule.1.longest w).map (rule.2, ·)) later) none

theorem best_cons (r : Pattern α) (k : κ) (rules : List (Pattern α × κ)) (w : List α) :
    best ((r, k) :: rules) w = better ((r.longest w).map (k, ·)) (best rules w) := rfl

theorem best_append (before after : List (Pattern α × κ)) (w : List α) :
    best (before ++ after) w = better (best before w) (best after w) := by
  induction before with
  | nil => rfl
  | cons rule before ih =>
    obtain ⟨r, k⟩ := rule
    rw [List.cons_append, best_cons, best_cons, ih, better_assoc]

theorem mem_of_best {rules : List (Pattern α × κ)} {w : List α} {k : κ} {n : Nat}
    (h : best rules w = some (k, n)) : ∃ r, (r, k) ∈ rules ∧ r.longest w = some n := by
  induction rules with
  | nil => cases h
  | cons rule rules ih =>
    obtain ⟨r, k'⟩ := rule
    rw [best_cons] at h
    rcases eq_some_of_better h with first | later
    · obtain ⟨m, found, eq⟩ := Option.map_eq_some_iff.mp first
      obtain ⟨rfl, rfl⟩ := Prod.mk.inj eq
      exact ⟨r, List.mem_cons_self, found⟩
    · obtain ⟨r', mem, found⟩ := ih later
      exact ⟨r', List.mem_cons_of_mem _ mem, found⟩

theorem le_best {rules : List (Pattern α × κ)} {w : List α} {r : Pattern α} {k : κ} {n : Nat}
    (mem : (r, k) ∈ rules) (found : r.longest w = some n) : ∃ y ∈ best rules w, n ≤ y.2 := by
  induction rules with
  | nil => cases mem
  | cons rule rules ih =>
    obtain ⟨r', k'⟩ := rule
    rw [best_cons]
    rcases List.mem_cons.mp mem with same | later
    · obtain ⟨rfl, rfl⟩ := Prod.mk.inj same
      exact le_better_left (show (k, n) ∈ _ by rw [found, Option.map_some]; rfl) _
    · obtain ⟨y, here, le⟩ := ih later
      obtain ⟨z, there, le'⟩ := le_better_right here _
      exact ⟨z, there, le.trans le'⟩

def textRules [BEq α] (table : List (List α × κ)) : List (Pattern α × κ) :=
  table.map fun entry => (text entry.1, entry.2)

variable [BEq α] [LawfulBEq α] {table : List (List α × κ)} {t w : List α} {k : κ} {n : Nat}

theorem mem_of_best_textRules (h : best (textRules table) w = some (k, n)) :
    ∃ t, (t, k) ∈ table ∧ t <+: w ∧ n = t.length := by
  obtain ⟨r, mem, found⟩ := mem_of_best h
  obtain ⟨⟨t, k'⟩, inTable, eq⟩ := List.mem_map.mp mem
  obtain ⟨rfl, rfl⟩ := Prod.mk.inj eq
  exact ⟨t, inTable, longest_text.mp found⟩

theorem best_textRules_none (other : ∀ entry ∈ table, ¬ entry.1 <+: w) :
    best (textRules table) w = none := by
  by_contra some
  obtain ⟨⟨k, n⟩, found⟩ := Option.ne_none_iff_exists'.mp some
  obtain ⟨t, mem, starts, -⟩ := mem_of_best_textRules found
  exact other _ mem starts

theorem best_textRules (once : (table.map Prod.fst).Nodup) (mem : (t, k) ∈ table) (here : t <+: w)
    (longest : ∀ entry ∈ table, entry.1 <+: w → entry.1.length ≤ t.length) :
    best (textRules table) w = some (k, t.length) := by
  have rule : (text t, k) ∈ textRules table := List.mem_map.mpr ⟨(t, k), mem, rfl⟩
  obtain ⟨⟨k', n'⟩, found, le⟩ := le_best rule (longest_text.mpr ⟨here, rfl⟩)
  obtain ⟨t', mem', starts, rfl⟩ := mem_of_best_textRules found
  have same : t' = t :=
    (List.prefix_of_prefix_length_le starts here (longest _ mem' starts)).eq_of_length_le le
  subst same
  obtain rfl : k' = k := congrArg Prod.snd (List.inj_on_of_nodup_map once mem' mem rfl)
  exact found

end Pattern

end Ctds
