import Mathlib.Algebra.Order.Ring.Int

/-! Numbers in bytes, least significant byte first. What is written at a place is read back
there, and reads beside it see nothing of it. -/

namespace Csci402.Lib

variable {b c : ℕ → UInt8} {i j n w : ℕ}

/-- The number in the `n` bytes from `i` on. -/
def decode (b : ℕ → UInt8) (i : ℕ) : ℕ → ℕ
  | 0 => 0
  | n+1 => (b i).toNat+256*decode b (i+1) n

/-- `w` is written to the `n` bytes from `i` on. -/
def encode (b : ℕ → UInt8) (i w n : ℕ) : ℕ → UInt8 := fun x =>
  if i ≤ x ∧ x < i+n then UInt8.ofNat (w / 256 ^ (x - i)) else b x

theorem decode_lt (b : ℕ → UInt8) (i n : ℕ) : decode b i n < 256 ^ n := by
  induction n generalizing i with
  | zero => exact Nat.one_pos
  | succ n ih =>
    have hlt := (b i).toNat_lt
    have hrest := ih (i+1)
    rw [decode,Nat.pow_succ]
    omega

theorem decode_congr (h : ∀ k, k < n → b (i+k) = c (j+k)) : decode b i n = decode c j n := by
  induction n generalizing i j with
  | zero => rfl
  | succ n ih =>
    have hrest : decode b (i+1) n = decode c (j+1) n := by
      refine ih fun k hk => ?_
      rw [Nat.add_right_comm i,Nat.add_right_comm j]
      exact h (k+1) (Nat.succ_lt_succ hk)
    have hhead : b i = c j := h 0 (Nat.succ_pos n)
    rw [decode,decode,hrest,hhead]

/-- The bytes of a number give the number. -/
theorem decode_digits (h : ∀ k, k < n → b (i+k) = UInt8.ofNat (w / 256 ^ k)) : decode b i n = w % 256 ^ n := by
  induction n generalizing i w with
  | zero => rw [Nat.pow_zero,Nat.mod_one]; rfl
  | succ n ih =>
    have hrest : decode b (i+1) n = w / 256 % 256 ^ n := by
      refine ih fun k hk => ?_
      rw [Nat.div_div_eq_div_mul,← Nat.pow_succ',Nat.add_right_comm]
      exact h (k+1) (Nat.succ_lt_succ hk)
    have hhead : (b i).toNat = w % 256 := by
      have h0 := h 0 (Nat.succ_pos n)
      rw [Nat.add_zero,Nat.pow_zero,Nat.div_one] at h0
      rw [h0]
      rfl
    rw [decode,hrest,hhead,Nat.pow_succ',Nat.mod_mul]

theorem decode_encode (hw : w < 256 ^ n) : decode (encode b i w n) i n = w := by
  rw [decode_digits,Nat.mod_eq_of_lt hw]
  intro k hk
  rw [encode,if_pos ⟨Nat.le_add_right i k,Nat.add_lt_add_left hk i⟩,Nat.add_sub_cancel_left]

theorem decode_encode_beside (h : j+n ≤ i ∨ i+n ≤ j) : decode (encode b i w n) j n = decode b j n := by
  refine decode_congr fun k hk => ?_
  rw [encode,if_neg (by omega)]

end Csci402.Lib
