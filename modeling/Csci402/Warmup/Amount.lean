import Mathlib.Data.List.Basic
import Csci402.Warmup.Transaction

/-! What `checkAmount` accepts. The check looks for the dot, tests the characters on both
sides of it and computes the cents; around the one dot of an amount it comes down to a
condition on the two parts. -/

namespace Csci402.Warmup

open Lib Lib.CString Outcome List

variable {s whole frac : List Char} {lineNum : ℕ} {cents : ℤ}

/-- A canonical amount, with its value in cents: an integer part of one to seven digits that is `0`
or does not begin with `0`, a dot and two digits, and not zero. -/
def Canonical (s : List Char) (cents : ℤ) : Prop :=
  ∃ whole frac, s = whole ++ '.' :: frac ∧ (∀ c ∈ whole, isdigit c = true) ∧ (∀ c ∈ frac, isdigit c = true) ∧
    1 ≤ whole.length ∧ whole.length ≤ 7 ∧ (whole = ['0'] ∨ whole.head? ≠ some '0') ∧ frac.length = 2 ∧
    cents = number whole*100+number frac ∧ cents ≠ 0

theorem Canonical.range (h : Canonical s cents) : 1 ≤ cents ∧ cents ≤ 999999999 := by
  obtain ⟨whole,frac,-,hw,hf,-,hlen,-,hlenf,rfl,hne⟩ := h
  have h₁ : number whole < 10 ^ 7 := (number_lt hw).trans_le (Nat.pow_le_pow_right (by omega) hlen)
  have h₂ : number frac < 10 ^ 2 := hlenf ▸ number_lt hf
  omega

/-! ### The dot -/

theorem dotScan_of_notMem (hs : '.' ∉ s) (a : ℕ) (r : ℕ × ℕ) : dotScan s a r = r := by
  induction s generalizing a with
  | nil => rfl
  | cons c s ih =>
    rw [mem_cons,not_or] at hs
    rw [dotScan,if_neg (Ne.symm hs.1),ih hs.2]

theorem dotScan_append (s t : List Char) (a : ℕ) (r : ℕ × ℕ) :
    dotScan (s ++ t) a r = dotScan t (a+s.length) (dotScan s a r) := by
  induction s generalizing a r with
  | nil => rfl
  | cons c s ih => rw [cons_append,dotScan,ih,dotScan,length_cons,Nat.add_right_comm,Nat.add_assoc]

theorem dotScan_count (s : List Char) (a : ℕ) (r : ℕ × ℕ) : (dotScan s a r).2 = r.2+s.count '.' := by
  induction s generalizing a r with
  | nil => rfl
  | cons c s ih =>
    rw [dotScan,ih,count_cons]
    by_cases hc : c = '.'
    · simp only [hc,if_true,beq_self_eq_true]
      omega
    · simp [hc]

theorem dotScan_split (hw : '.' ∉ whole) (hf : '.' ∉ frac) :
    dotScan (whole ++ '.' :: frac) 0 (0, 0) = (whole.length, 1) := by
  rw [dotScan_append,dotScan_of_notMem hw,dotScan,dotScan_of_notMem hf]
  simp

/-- A string with one dot is cut by it. -/
theorem exists_split_of_count (h : s.count '.' = 1) :
    ∃ whole frac, s = whole ++ '.' :: frac ∧ '.' ∉ whole ∧ '.' ∉ frac := by
  obtain ⟨whole,frac,rfl⟩ := append_of_mem (count_pos_iff.mp (by omega : 0 < s.count '.'))
  rw [count_append,count_cons_self] at h
  exact ⟨whole,frac,rfl,count_eq_zero.mp (by omega),count_eq_zero.mp (by omega)⟩

theorem dot_notMem_of_digits (h : ∀ c ∈ s, isdigit c = true) : '.' ∉ s := fun hm => absurd (h '.' hm) (by decide)

/-! ### The check -/

theorem any_not_isdigit : (s.any fun c => !isdigit c) = true ↔ ¬∀ c ∈ s, isdigit c = true := by
  simp

/-- The check of a string that is cut by its one dot. -/
theorem checkAmount_split (hw : '.' ∉ whole) (hf : '.' ∉ frac) :
    checkAmount (whole ++ '.' :: frac) lineNum = value cents ↔
      (∀ c ∈ whole, isdigit c = true) ∧ (∀ c ∈ frac, isdigit c = true) ∧ whole.length ≤ 7 ∧ frac.length = 2 ∧
      ¬(whole.length ≠ 1 ∧ (whole ++ '.' :: frac).head? = some '0') ∧
      cents = number whole*100+number frac ∧ cents ≠ 0 := by
  have htake : (whole ++ '.' :: frac).take whole.length = whole := by simp
  have hdrop : (whole ++ '.' :: frac).drop (whole.length+1) = frac := by simp
  have hlen : ((whole ++ '.' :: frac).length : ℤ) - 1 - whole.length = 2 ↔ frac.length = 2 := by
    rw [length_append,length_cons]
    omega
  have hone : (whole.length : ℤ) - 1 ≠ 0 ↔ whole.length ≠ 1 := by omega
  unfold checkAmount
  simp only [dotScan_split hw hf,htake,hdrop,bind_eq_value,refuse_eq_value,any_not_isdigit,not_not,hlen,
    hone]
  constructor
  · rintro ⟨-,-,-,-,-,hdw,-,hdf,-,h7,-,h2,htail⟩
    rw [take_of_length_le (by omega : frac.length ≤ 16),atoll_digits hdw,atoll_digits hdf] at htail
    split at htail
    · simp only [bind_eq_value,refuse_eq_value,pure_eq,value.injEq] at htail
      obtain ⟨-,hzero,rfl⟩ := htail
      exact ⟨hdw,hdf,by omega,h2,hzero,rfl,by omega⟩
    · cases htail
  · rintro ⟨hdw,hdf,h7,h2,hzero,rfl,hne⟩
    refine ⟨(),by simp,(),trivial,(),hdw,(),hdf,(),by omega,(),h2,?_⟩
    rw [take_of_length_le (by omega : frac.length ≤ 16),atoll_digits hdw,atoll_digits hdf,
      if_pos (by omega)]
    exact bind_eq_value.mpr ⟨(),refuse_eq_value.mpr hzero,rfl⟩

theorem checkAmount_count (h : checkAmount s lineNum = value cents) : s.count '.' = 1 := by
  unfold checkAmount at h
  simp only [bind_eq_value,refuse_eq_value,not_not] at h
  obtain ⟨-,-,-,hc,-⟩ := h
  rw [← hc,dotScan_count,Nat.zero_add]

/-- The test for a leading zero, where there is an integer part. -/
theorem leadingZero_iff (h : whole ≠ []) :
    ¬(whole.length ≠ 1 ∧ (whole ++ '.' :: frac).head? = some '0') ↔ whole = ['0'] ∨ whole.head? ≠ some '0' := by
  obtain ⟨c,cs,rfl⟩ := exists_cons_of_ne_nil h
  cases cs with
  | nil => simp [em]
  | cons d cs => simp

/-- An accepted string with something before its dot is canonical. -/
theorem canonical_of_checkAmount (h : s.head? ≠ some '.') (hc : checkAmount s lineNum = value cents) : Canonical s cents := by
  obtain ⟨whole,frac,rfl,hw,hf⟩ := exists_split_of_count (checkAmount_count hc)
  obtain ⟨hdw,hdf,h7,h2,hzero,hv,hne⟩ := (checkAmount_split hw hf).mp hc
  have hwhole : whole ≠ [] := by
    rintro rfl
    exact h rfl
  exact ⟨whole,frac,rfl,hdw,hdf,length_pos_iff.mpr hwhole,h7,(leadingZero_iff hwhole).mp hzero,h2,hv,hne⟩

theorem Canonical.checkAmount (h : Canonical s cents) : checkAmount s lineNum = value cents := by
  obtain ⟨whole,frac,rfl,hdw,hdf,h1,h7,hzero,h2,hv,hne⟩ := h
  refine (checkAmount_split (dot_notMem_of_digits hdw) (dot_notMem_of_digits hdf)).mpr ?_
  exact ⟨hdw,hdf,h7,h2,(leadingZero_iff (length_pos_iff.mp h1)).mpr hzero,hv,hne⟩

theorem Canonical.head_ne (h : Canonical s cents) : s.head? ≠ some '.' := by
  obtain ⟨whole,frac,rfl,hdw,-,h1,-⟩ := h
  obtain ⟨c,cs,rfl⟩ := exists_cons_of_length_pos h1
  rintro hc
  cases hc
  exact absurd (hdw '.' (by simp)) (by decide)

/-- A dot and two digits, not both `0`: an amount without its integer part. -/
def Fraction (s : List Char) : Prop :=
  ∃ d e, s = ['.',d,e] ∧ isdigit d = true ∧ isdigit e = true ∧ ¬(d = '0' ∧ e = '0')

theorem digit_eq_zero {d : Char} (h : isdigit d = true) : digit d = 0 ↔ d = '0' := by
  rw [isdigit,Bool.and_eq_true,decide_eq_true_eq] at h
  have hle : '0'.toNat ≤ d.toNat := h.1
  refine ⟨fun hd => Char.toNat_inj.mp ?_,fun hd => by rw [hd]; rfl⟩
  unfold digit at hd
  omega

theorem checkAmount_fraction {d e : Char} (hd : isdigit d = true) (he : isdigit e = true) (hne : ¬(d = '0' ∧ e = '0')) :
    checkAmount ['.',d,e] lineNum = value (number [d,e]) := by
  have hdig : ∀ c ∈ [d,e], isdigit c = true := by simp [hd,he]
  refine (checkAmount_split (show '.' ∉ [] by simp) (dot_notMem_of_digits hdig)).mpr ?_
  refine ⟨by simp,hdig,by simp,rfl,by simp,by simp,?_⟩
  rw [← digit_eq_zero hd,← digit_eq_zero he] at hne
  simp only [number_cons,number_nil,length_cons,length_nil]
  omega

/-- What else begins with the dot is refused. -/
theorem checkAmount_dot (h : s.head? = some '.') (hc : checkAmount s lineNum = value cents) : Fraction s := by
  obtain ⟨whole,frac,rfl,hw,hf⟩ := exists_split_of_count (checkAmount_count hc)
  obtain rfl : whole = [] := by
    cases whole with
    | nil => rfl
    | cons c cs =>
      cases h
      exact absurd (mem_cons_self ..) hw
  obtain ⟨-,hdf,-,h2,-,hv,hne⟩ := (checkAmount_split hw hf).mp hc
  obtain ⟨d,e,rfl⟩ := length_eq_two.mp h2
  refine ⟨d,e,rfl,hdf d (by simp),hdf e (by simp),?_⟩
  rintro ⟨rfl,rfl⟩
  exact hne hv

/-- `checkAmount` accepts exactly the canonical amounts and returns their value, which is in the
range of the table; but an amount without its integer part it accepts as well. -/
theorem checkAmount_canonical (s : List Char) (lineNum : ℕ) :
    (∀ cents, (checkAmount s lineNum = value cents ↔ Canonical s cents) ∧
      (checkAmount s lineNum = value cents → 1 ≤ cents ∧ cents ≤ 999999999)) ↔ ¬Fraction s := by
  constructor
  · rintro h ⟨d,e,rfl,hd,he,hne⟩
    exact ((h _).1.mp (checkAmount_fraction hd he hne)).head_ne rfl
  · intro h cents
    have hiff : checkAmount s lineNum = value cents ↔ Canonical s cents := by
      refine ⟨fun hc => ?_,Canonical.checkAmount⟩
      by_cases hdot : s.head? = some '.'
      · exact absurd (checkAmount_dot hdot hc) h
      · exact canonical_of_checkAmount hdot hc
    exact ⟨hiff,fun hc => (hiff.mp hc).range⟩

theorem checkAmount_accepts_dot :
    checkAmount ['.', '5', '0'] 1 = value 50 ∧ ∀ cents, ¬Canonical ['.', '5', '0'] cents :=
  ⟨by decide,fun _ h => h.head_ne rfl⟩

end Csci402.Warmup
