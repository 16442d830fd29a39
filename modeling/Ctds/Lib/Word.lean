import Mathlib.Data.BitVec

/-! 64-bit words in two's complement: truth values as words, and the division that
truncates towards zero and is undefined for a zero divisor and on overflow. -/

namespace Ctds

abbrev Word := BitVec 64

namespace Word

def ofBool (b : Bool) : Word := if b then 1 else 0

/-- The words that stand for a truth value. -/
def IsBit (v : Word) : Prop := v = 0 ∨ v = 1

instance (v : Word) : Decidable (IsBit v) := inferInstanceAs (Decidable (_ ∨ _))

def quotient (l r : Word) : Option Word :=
  if r = 0 ∨ (l = BitVec.intMin 64 ∧ r = -1) then none else some (l.sdiv r)

def remainder (l r : Word) : Option Word :=
  if r = 0 ∨ (l = BitVec.intMin 64 ∧ r = -1) then none else some (l.srem r)

@[simp] theorem ofBool_true : ofBool true = 1 := rfl

@[simp] theorem ofBool_false : ofBool false = 0 := rfl

theorem isBit_ofBool (b : Bool) : IsBit (ofBool b) := by
  cases b
  · exact .inl rfl
  · exact .inr rfl

theorem and_of_isBit {l r : Word} (hl : IsBit l) (hr : IsBit r) :
    l &&& r = ofBool (l != 0 && r != 0) := by
  rcases hl with rfl | rfl <;> rcases hr with rfl | rfl <;> decide

theorem or_of_isBit {l r : Word} (hl : IsBit l) (hr : IsBit r) :
    l ||| r = ofBool (l != 0 || r != 0) := by
  rcases hl with rfl | rfl <;> rcases hr with rfl | rfl <;> decide

theorem toInt_range (l : Word) : -2 ^ 63 ≤ l.toInt ∧ l.toInt < 2 ^ 63 :=
  ⟨BitVec.le_toInt l, BitVec.toInt_lt⟩

theorem ofInt_range {v : Int} (low : -2 ^ 63 ≤ v) (high : v < 2 ^ 63) :
    (BitVec.ofInt 64 v).toInt = v := by
  rw [BitVec.toInt_ofInt]
  exact Int.bmod_eq_of_le (by simpa using low) (by simpa using high)

/-- After a subtraction the sign and overflow flags differ exactly if the first is less. -/
theorem sub_sign_ne_overflow (l r : Word) : ((l - r).msb != l.ssubOverflow r) = l.slt r := by
  obtain ⟨l1, l2⟩ := toInt_range l
  obtain ⟨r1, r2⟩ := toInt_range r
  have range := toInt_range (l - r)
  have value := BitVec.toInt_sub (x := l) (y := r)
  rw [Int.bmod_def] at value
  rw [BitVec.msb_eq_toInt, BitVec.ssubOverflow, BitVec.slt, ← Bool.decide_or, Bool.eq_iff_iff,
    bne_iff_ne, decide_eq_true_eq, ne_eq, decide_eq_decide]
  simp only [Nat.reduceSub, Nat.reducePow, Int.reduceDiv, Nat.cast_ofNat, Int.reduceAdd] at value ⊢
  split at value <;> omega

theorem sub_eq_zero (l r : Word) : (l - r == 0) = (l == r) := by
  rw [Bool.eq_iff_iff, beq_iff_eq, beq_iff_eq, BitVec.sub_eq_iff_eq_add]
  simp

theorem sle_eq (l r : Word) : l.sle r = (l == r || l.slt r) := by
  rw [Bool.eq_iff_iff]
  simp only [BitVec.sle, BitVec.slt, Bool.or_eq_true, beq_iff_eq, decide_eq_true_eq,
    ← BitVec.toInt_inj]
  omega

theorem lowByte (x : Word) (b : Bool) :
    (((x &&& ~~~255#64) ||| ofBool b).setWidth 8).setWidth 64 = ofBool b := by
  ext i hi
  cases b <;> simp [ofBool]

theorem sign_fill (l : Word) : l.sshiftRight 63 = if l.toInt < 0 then -1 else 0 := by
  apply BitVec.eq_of_toInt_eq
  obtain ⟨l1, l2⟩ := toInt_range l
  rw [BitVec.toInt_sshiftRight, Int.shiftRight_eq_div_pow]
  split
  · have fill : l.toInt / 2 ^ 63 = -1 := by omega
    simpa using fill
  · have fill : l.toInt / 2 ^ 63 = 0 := by omega
    simpa using fill

theorem doubleWord (l : Word) : (l.sshiftRight 63 ++ l).toInt = l.toInt := by
  have value := BitVec.toInt_eq_toNat_cond l
  have lt := l.isLt
  rw [BitVec.toInt_append, sign_fill]
  by_cases neg : l.toInt < 0
  · rw [if_pos neg]
    simp at *
    omega
  · rw [if_neg neg]
    simp at *
    omega

theorem tdiv_of_neg {l c : Int} (pos : 0 < c) (neg : l < 0) : (l + (c - 1)) / c = l.tdiv c := by
  obtain ⟨n, rfl⟩ : ∃ n, l = -n := ⟨-l, by omega⟩
  rw [Int.neg_tdiv, Int.tdiv_eq_ediv_of_nonneg (by omega)]
  have split := Int.mul_ediv_add_emod n c
  have low := Int.emod_nonneg n (Int.ne_of_gt pos)
  have high := Int.emod_lt_of_pos n pos
  refine ((Int.ediv_emod_unique (r := c - 1 - n % c) pos).mpr ⟨?_, by omega, by omega⟩).1
  rw [Int.mul_neg]
  omega

theorem tdiv_range (l : Word) {c : Int} (pos : 0 < c) :
    -2 ^ 63 ≤ l.toInt.tdiv c ∧ l.toInt.tdiv c < 2 ^ 63 := by
  have range := toInt_range l
  have size := Int.natAbs_tdiv_le_natAbs l.toInt c
  rcases Int.le_total 0 l.toInt with nonneg | neg
  · omega
  · have sign := Int.tdiv_nonneg (a := -l.toInt) (by omega) (Int.le_of_lt pos)
    rw [Int.neg_tdiv] at sign
    omega

/-- An arithmetic shift of a negative word rounds down; the bias makes it round to zero. -/
theorem biased_shift (l : Word) {k : Nat} (small : k < 33) :
    (l + (l.sshiftRight 63 &&& BitVec.ofInt 64 (2 ^ k - 1))).sshiftRight k =
      BitVec.ofInt 64 (l.toInt.tdiv (2 ^ k)) := by
  obtain ⟨l1, l2⟩ := toInt_range l
  have pos : (0 : Int) < 2 ^ k := Int.pow_pos (by decide)
  have le : (2 : Int) ^ k ≤ 2 ^ 32 := by
    exact_mod_cast Nat.pow_le_pow_right (by decide) (by omega : k ≤ 32)
  obtain ⟨q1, q2⟩ := tdiv_range l pos
  apply BitVec.eq_of_toInt_eq
  rw [BitVec.toInt_sshiftRight, Int.shiftRight_eq_div_pow, sign_fill, ofInt_range q1 q2]
  split
  · next neg =>
    have ones : (-1 : Word) &&& BitVec.ofInt 64 (2 ^ k - 1) = BitVec.ofInt 64 (2 ^ k - 1) := by
      have minusOne : (-1 : Word) = BitVec.allOnes 64 := by decide
      rw [minusOne, BitVec.allOnes_and]
    rw [ones, BitVec.toInt_add, ofInt_range (by omega) (by omega),
      Int.bmod_eq_of_le (by simp; omega) (by simp; omega)]
    exact_mod_cast tdiv_of_neg pos neg
  · next nonneg =>
    simp only [BitVec.ofNat_eq_ofNat, BitVec.zero_and, BitVec.add_zero]
    rw [Int.tdiv_eq_ediv_of_nonneg (by omega)]
    norm_cast

end Word

end Ctds
