import Mathlib.Data.BitVec

/-! Integers in registers of a fixed width, in two's complement. An operation on registers
is the operation on the integers they hold, followed by a wrap. -/

namespace Ctds.Signed

variable {n m : Nat}

/-- The integers that a register of width `n` holds. -/
def Fits (n : Nat) (v : Int) : Prop := -2 ^ (n - 1) ≤ v ∧ v < 2 ^ (n - 1)

instance (n : Nat) (v : Int) : Decidable (Fits n v) := inferInstanceAs (Decidable (_ ∧ _))

def wrap (n : Nat) (v : Int) : Int := v.bmod (2 ^ n)

theorem fits_toInt (x : BitVec n) : Fits n x.toInt := ⟨BitVec.le_toInt x, BitVec.toInt_lt⟩

theorem Fits.mono {v : Int} (le : n ≤ m) (h : Fits n v) : Fits m v := by
  have power : (2 : Int) ^ (n - 1) ≤ 2 ^ (m - 1) := by
    exact_mod_cast Nat.pow_le_pow_right (by decide) (Nat.sub_le_sub_right le 1)
  exact ⟨by have := h.1; omega, by have := h.2; omega⟩

theorem toInt_ofInt (v : Int) : (BitVec.ofInt n v).toInt = wrap n v := by
  rw [BitVec.toInt_ofInt, wrap]

theorem toInt_of_fits (pos : 0 < n) {v : Int} (h : Fits n v) : (BitVec.ofInt n v).toInt = v :=
  BitVec.toInt_ofInt_eq_self pos h.1 h.2

theorem wrap_of_fits (pos : 0 < n) {v : Int} (h : Fits n v) : wrap n v = v := by
  rw [← toInt_ofInt, toInt_of_fits pos h]

theorem fits_wrap (v : Int) : Fits n (wrap n v) := by
  rw [← toInt_ofInt]
  exact fits_toInt _

theorem eq_of_ofInt_eq (pos : 0 < n) {v v' : Int} (h : Fits n v) (h' : Fits n v')
    (same : BitVec.ofInt n v = BitVec.ofInt n v') : v = v' := by
  rw [← toInt_of_fits pos h, ← toInt_of_fits pos h', same]

variable (x y : BitVec n)

theorem add_eq : x + y = BitVec.ofInt n (x.toInt + y.toInt) := by
  rw [BitVec.ofInt_add, BitVec.ofInt_toInt, BitVec.ofInt_toInt]

theorem sub_eq : x - y = BitVec.ofInt n (x.toInt - y.toInt) := by
  rw [Int.sub_eq_add_neg, BitVec.ofInt_add, BitVec.ofInt_neg, BitVec.ofInt_toInt,
    BitVec.ofInt_toInt, BitVec.sub_eq_add_neg]

theorem mul_eq : x * y = BitVec.ofInt n (x.toInt * y.toInt) := by
  rw [BitVec.ofInt_mul, BitVec.ofInt_toInt, BitVec.ofInt_toInt]

theorem sdiv_eq : x.sdiv y = BitVec.ofInt n (x.toInt.tdiv y.toInt) := by
  apply BitVec.eq_of_toInt_eq
  rw [BitVec.toInt_sdiv, BitVec.toInt_ofInt]

theorem srem_eq : x.srem y = BitVec.ofInt n (x.toInt.tmod y.toInt) := by
  rw [← BitVec.toInt_srem, BitVec.ofInt_toInt]

theorem slt_eq : x.slt y = decide (x.toInt < y.toInt) := rfl

theorem sle_eq : x.sle y = decide (x.toInt ≤ y.toInt) := rfl

theorem beq_eq : (x == y) = decide (x.toInt = y.toInt) := by
  rw [Bool.eq_iff_iff, beq_iff_eq, decide_eq_true_eq, BitVec.toInt_inj]

theorem eq_zero_iff : x = 0 ↔ x.toInt = 0 := by
  rw [← BitVec.toInt_inj]
  simp

theorem bne_zero_eq : (x != 0) = !decide (x.toInt = 0) := by
  rw [bne, beq_eq]
  simp

theorem eq_intMin_iff (pos : 0 < n) : x = BitVec.intMin n ↔ x.toInt = -2 ^ (n - 1) := by
  rw [← BitVec.toInt_inj, BitVec.toInt_intMin_of_pos pos]

theorem eq_neg_one_iff (pos : 0 < n) : x = -1 ↔ x.toInt = -1 := by
  rw [← BitVec.toInt_inj]
  have one : (-1 : BitVec n).toInt = -1 := by
    have all := BitVec.toInt_allOnes (w := n)
    rw [if_pos pos] at all
    rw [← all]
    congr 1
    exact BitVec.neg_one_eq_allOnes
  rw [one]

theorem and_pred_eq_zero_iff (pos : 0 < x.toInt) :
    x &&& (x - 1) = 0 ↔ ∃ k, x.toInt = 2 ^ k := by
  have value : x.toInt = x.toNat := by
    have cond := BitVec.toInt_eq_toNat_cond x
    have lt := x.isLt
    split at cond <;> omega
  have lt := x.isLt
  have pred : (x - 1).toNat = x.toNat - 1 := by
    have one : (1 : BitVec n).toNat = 1 := by
      have small : 1 < 2 ^ n := by omega
      exact (BitVec.toNat_ofNat 1 n).trans (Nat.mod_eq_of_lt small)
    rw [BitVec.toNat_sub_of_le (by rw [BitVec.le_def, one]; omega), one]
  rw [← BitVec.toNat_inj, BitVec.toNat_and, pred, BitVec.ofNat_eq_ofNat, BitVec.toNat_ofNat,
    Nat.zero_mod, Nat.and_sub_one_eq_zero_iff_isPowerOfTwo (by omega), value]
  exact exists_congr fun k => by norm_cast

end Ctds.Signed
