import Mathlib.Data.List.Basic

/-! Decimal texts of integers as lists of characters, in the form `%d` prints them.
The value function reads a text back; reading a printed integer returns it, so
printing is injective. Nothing here knows what the texts are used for. -/

namespace Ctds.Decimal

def natText (n : Nat) : List Char := Nat.toDigits 10 n

def intText : Int → List Char
  | .ofNat n => natText n
  | .negSucc n => '-' :: natText (n + 1)

/-- A digit, or a minus sign followed by a digit, opens a number. -/
def startsNumber : List Char → Bool
  | [] => false
  | ['-'] => false
  | '-' :: d :: _ => d.isDigit
  | c :: _ => c.isDigit

def intValue : List Char → Int
  | '-' :: ds => -(Nat.ofDigitChars 10 ds 0 : Int)
  | ds => (Nat.ofDigitChars 10 ds 0 : Int)

theorem isDigit_of_mem_natText {n : Nat} {c : Char} (h : c ∈ natText n) : c.isDigit = true :=
  Nat.isDigit_of_mem_toDigits (by decide) (by decide) h

theorem natText_cons (n : Nat) : ∃ d ds, natText n = d :: ds ∧ d.isDigit = true := by
  cases h : natText n with
  | nil => exact absurd h Nat.toDigits_ne_nil
  | cons d ds => exact ⟨d, ds, rfl, isDigit_of_mem_natText (n := n) (by rw [h]; simp)⟩

theorem natText_injective {m n : Nat} (h : natText m = natText n) : m = n := by
  have value := congrArg (fun ds => Nat.ofDigitChars 10 ds 0) h
  simpa [natText] using value

@[simp] theorem natText_inj {m n : Nat} : natText m = natText n ↔ m = n :=
  ⟨natText_injective, fun h => h ▸ rfl⟩

theorem natText_length_mono {m n : Nat} (h : m ≤ n) :
    (natText m).length ≤ (natText n).length := by
  have pos : 0 < (natText n).length := Nat.length_toDigits_pos
  have bound := (Nat.length_toDigits_le_iff (b := 10) (by decide) pos).mp
    (Nat.le_refl (natText n).length)
  exact (Nat.length_toDigits_le_iff (by decide) pos).mpr (by omega)

theorem intValue_natText (n : Nat) : intValue (natText n) = n := by
  obtain ⟨d, ds, hd, digit⟩ := natText_cons n
  have value : Nat.ofDigitChars 10 (natText n) 0 = n := Nat.ofDigitChars_ten_toDigits
  have notMinus : d ≠ '-' := by
    rintro rfl
    simp at digit
  rw [hd] at value ⊢
  unfold intValue
  split
  · next h => exact absurd (List.cons.inj h).1 notMinus
  · rw [value]

@[simp] theorem intValue_intText (v : Int) : intValue (intText v) = v := by
  cases v with
  | ofNat n => exact intValue_natText n
  | negSucc n =>
    have value : Nat.ofDigitChars 10 (natText (n + 1)) 0 = n + 1 := Nat.ofDigitChars_ten_toDigits
    simp only [intText, intValue, value]
    rfl

@[simp] theorem startsNumber_natText (n : Nat) : startsNumber (natText n) = true := by
  obtain ⟨d, ds, hd, digit⟩ := natText_cons n
  have notMinus : d ≠ '-' := by
    rintro rfl
    simp at digit
  rw [hd]
  unfold startsNumber
  split <;> simp_all

@[simp] theorem startsNumber_intText (v : Int) : startsNumber (intText v) = true := by
  cases v with
  | ofNat n => exact startsNumber_natText n
  | negSucc n =>
    obtain ⟨d, ds, hd, digit⟩ := natText_cons (n + 1)
    rw [intText, hd]
    simpa [startsNumber] using digit

theorem startsNumber_eq_false {c : Char} {cs : List Char}
    (notDigit : c.isDigit = false) (notMinus : c ≠ '-') : startsNumber (c :: cs) = false := by
  unfold startsNumber
  split <;> simp_all

end Ctds.Decimal
