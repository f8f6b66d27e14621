import Mathlib.Algebra.Order.Ring.Int
import Mathlib.Data.Nat.Log

/-! Integers converted to `double`: the nearest number with a significand of 53 bits, and of
two that are equally near the one with the even significand. The conversion is exact below
`2 ^ 53` and does not come below that bound from above. -/

namespace Csci402.Lib.Double

/-- `a / b` to the nearest integer, ties to even. -/
def roundDiv (a b : ℕ) : ℕ :=
  if 2*(a % b) < b ∨ 2*(a % b) = b ∧ a / b % 2 = 0 then a / b else a / b+1

/-- What a larger number is a multiple of when it has 53 bits left. -/
def unit (n : ℕ) : ℕ := 2 ^ (Nat.log 2 n - 52)

def ofNat (n : ℕ) : ℕ := if n < 2 ^ 53 then n else roundDiv n (unit n)*unit n

def ofInt (z : ℤ) : ℤ := if z < 0 then -(ofNat z.natAbs : ℤ) else ofNat z.natAbs

theorem div_le_roundDiv (a b : ℕ) : a / b ≤ roundDiv a b := by
  unfold roundDiv
  split
  · exact le_rfl
  · exact Nat.le_succ _

theorem le_ofNat {n : ℕ} (h : 2 ^ 53 ≤ n) : 2 ^ 53 ≤ ofNat n := by
  have hlog : 53 ≤ Nat.log 2 n := Nat.le_log_of_pow_le (by omega) h
  have hn : 2 ^ 52*unit n ≤ n := by
    rw [unit,← Nat.pow_add,Nat.add_sub_cancel' (by omega)]
    exact Nat.pow_log_le_self 2 (by omega)
  have hunit : 2 ≤ unit n := by
    calc 2 = 2 ^ 1 := rfl
      _ ≤ unit n := Nat.pow_le_pow_right (by omega) (by omega)
  have hdiv : 2 ^ 52 ≤ n / unit n := (Nat.le_div_iff_mul_le (by omega)).mpr hn
  rw [ofNat,if_neg (by omega)]
  calc 2 ^ 53 = 2 ^ 52*2 := rfl
    _ ≤ roundDiv n (unit n)*unit n := Nat.mul_le_mul (hdiv.trans (div_le_roundDiv _ _)) hunit

/-- A comparison with a number that `double` represents is not changed by the conversion. -/
theorem le_ofNat_iff {n k : ℕ} (hk : k ≤ 2 ^ 53) : k ≤ ofNat n ↔ k ≤ n := by
  by_cases h : n < 2 ^ 53
  · rw [ofNat,if_pos h]
  · have := le_ofNat (not_lt.mp h)
    omega

theorem le_ofInt_iff {z : ℤ} {k : ℕ} (hk : k ≤ 2 ^ 53) (h0 : 0 < k) : (k : ℤ) ≤ ofInt z ↔ (k : ℤ) ≤ z := by
  have := le_ofNat_iff (n := z.natAbs) hk
  unfold ofInt
  split
  · omega
  · omega

theorem ofInt_le_neg_iff {z : ℤ} {k : ℕ} (hk : k ≤ 2 ^ 53) (h0 : 0 < k) : ofInt z ≤ -k ↔ z ≤ -k := by
  have := le_ofNat_iff (n := z.natAbs) hk
  unfold ofInt
  split
  · omega
  · omega

end Csci402.Lib.Double
