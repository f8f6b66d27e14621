import Mathlib.Data.Nat.Digits.Lemmas
import Mathlib.Tactic.IntervalCases
import Csci402.Lib.CString
import Csci402.Lib.Double

/-! `transferFormat` of `Warmup1/warmup1.c`: an amount in cents as the fourteen characters of a
column. The digits are written from the right, with a separator only where more digits follow;
what is missing is filled with zeros up to the first digit before the dot, and with spaces. -/

namespace Csci402.Warmup

open Lib Lib.CString List

/-- The character `'0' + d`. -/
def digitChar (d : ℕ) : Char := Char.ofNat (48+d)

@[simp] theorem digitChar_zero : digitChar 0 = '0' := rfl

/-- A `long long` passed as an `int`. -/
def toInt32 (z : ℤ) : ℤ := z.bmod (2 ^ 32)

/-- The loop that writes the digits, for at most `k` rounds: the last index and the array. -/
def digitLoop : ℕ → ℕ → ℕ → List Char → ℕ × List Char
  | 0, _, index, temp => (index, temp)
  | k+1, money, index, temp =>
    if money > 0 ∧ index ≥ 1 then
      let temp := temp.set index (digitChar (money % 10))
      if index = 11 ∧ money / 10 > 0 then digitLoop k (money / 10) (index - 2) (temp.set (index - 1) '.')
      else if index = 7 ∧ money / 10 > 0 then digitLoop k (money / 10) (index - 2) (temp.set (index - 1) ',')
      else if index = 3 ∧ money / 10 > 0 then digitLoop k (money / 10) (index - 2) (temp.set (index - 1) ',')
      else digitLoop k (money / 10) (index - 1) temp
    else (index, temp)

/-- `while(index >= 9) temp[index--] = '0'`. -/
def zeroLoop : ℕ → List Char → ℕ × List Char
  | 0, temp => (0, temp)
  | index+1, temp => if index+1 ≥ 9 then zeroLoop index (temp.set (index+1) '0') else (index+1, temp)

/-- Spaces from `index` down to 1. -/
def blankLoop : ℕ → List Char → List Char
  | 0, temp => temp
  | index+1, temp => blankLoop index (temp.set (index+1) ' ')

/-- `?` from 1 to 12, then the separators over it. -/
def questionMarks (temp : List Char) : List Char :=
  let temp := (List.range' 1 12).foldl (fun temp a => temp.set a '?') temp
  ((temp.set 10 '.').set 2 ',').set 6 ','

/-- The array `temp` after the call. The comparisons with `moneyLimit` are made in `double`; every
round of the digit loop lowers its index, which starts at 12. -/
def transferFormat (money : ℤ) : List Char :=
  let temp := ((List.replicate 16 nul).set 0 ' ').set 13 ' '
  let temp := if money < 0 then (temp.set 0 '(').set 13 ')' else temp
  let moneyLimit : ℤ := 10 ^ 9
  if Double.ofInt money ≤ -moneyLimit ∨ Double.ofInt money ≥ moneyLimit then questionMarks temp
  else
    let r := digitLoop 12 (toInt32 money).natAbs 12 temp
    let r := zeroLoop r.1 r.2
    blankLoop r.1 (r.2.set 10 '.')

/-! ### The column -/

/-- The digit of `10 ^ i`, where the number has one or it is one of the last three. -/
def digitCell (m i : ℕ) : Char := if i ≤ 2 ∨ 10 ^ i ≤ m then digitChar (m / 10 ^ i % 10) else ' '

/-- A comma where the digit of `10 ^ i`, which is to its left, is there. -/
def commaCell (m i : ℕ) : Char := if 10 ^ i ≤ m then ',' else ' '

/-- The number of cents `m`, right-aligned in twelve characters. -/
def column (m : ℕ) : List Char :=
  [digitCell m 8,commaCell m 8,digitCell m 7,digitCell m 6,digitCell m 5,commaCell m 5,digitCell m 4,
    digitCell m 3,digitCell m 2, '.',digitCell m 1,digitCell m 0]

/-- What stands for an amount that has too many digits: `?,???,???.??`. -/
def unknown : List Char := ['?', ',', '?', '?', '?', ',', '?', '?', '?', '.', '?', '?']

/-- What the column of `m` should be. -/
def formatted (m : ℤ) : List Char :=
  (if m < 0 then '(' else ' ') ::
    (if 10 ^ 9 ≤ m.natAbs then unknown else column m.natAbs) ++ [if m < 0 then ')' else ' ']

/-- The characters that are not deleted when a column is read. -/
def kept (c : Char) : Bool := c ∉ [' ', ',', '(', ')', '.']

/-- The number that a column denotes: its digits, negative in parentheses. -/
def readBack (s : List Char) : ℤ :=
  if '(' ∈ s then -(number (s.filter kept) : ℤ) else number (s.filter kept)

/-! ### The loops -/

/-- How many digits a number has, in terms of the powers of ten that it reaches. -/
theorem exists_digits {m : ℕ} (h : m < 10 ^ 9) :
    ∃ k ≤ 9, m < 10 ^ k ∧ (0 < m ↔ 0 < k) ∧ (10 ≤ m ↔ 1 < k) ∧ (100 ≤ m ↔ 2 < k) ∧ (1000 ≤ m ↔ 3 < k) ∧
      (10000 ≤ m ↔ 4 < k) ∧ (100000 ≤ m ↔ 5 < k) ∧ (1000000 ≤ m ↔ 6 < k) ∧ (10000000 ≤ m ↔ 7 < k) ∧
      (100000000 ≤ m ↔ 8 < k) := by
  have hk : ∀ i, 10 ^ i ≤ m ↔ i < (Nat.digits 10 m).length := fun i => (Nat.lt_digits_length_iff (by omega) m).symm
  refine ⟨(Nat.digits 10 m).length,?_,Nat.lt_base_pow_length_digits (by omega),hk 0,hk 1,hk 2,hk 3,hk 4,
    hk 5,hk 6,hk 7,hk 8⟩
  have := (hk 9).not.mp (by omega)
  omega

/-- The array of `transferFormat` when the sign has been written, after the loops. -/
theorem loops_eq (l r : Char) {m : ℕ} (h : m < 10 ^ 9) :
    (let q := digitLoop 12 m 12 (l :: List.replicate 12 nul ++ [r,nul,nul])
     let q := zeroLoop q.1 q.2
     blankLoop q.1 (q.2.set 10 '.')) = l :: column m ++ [r,nul,nul] := by
  obtain ⟨k,hk9,hlt,p0,p1,p2,p3,p4,p5,p6,p7,p8⟩ := exists_digits h
  -- the digits that are filled in with zeros
  have z0 : k ≤ 0 → m % 10 = 0 := by omega
  have z1 : k ≤ 1 → m / 10 % 10 = 0 := by omega
  have z2 : k ≤ 2 → m / 100 % 10 = 0 := by omega
  -- one case for each number of digits
  interval_cases k
  all_goals
    simp [digitLoop,zeroLoop,blankLoop,column,digitCell,commaCell,Nat.div_div_eq_div_mul,Nat.div_pos_iff,
      List.replicate,p0,p1,p2,p3,p4,p5,p6,p7,p8,z0,z1,z2]

/-! ### Reading a column -/

theorem digitChar_mod (n : ℕ) :
    kept (digitChar (n % 10)) = true ∧ digit (digitChar (n % 10)) = n % 10 ∧ digitChar (n % 10) ≠ nul := by
  have hn := Nat.mod_lt n (by omega : 10 > 0)
  generalize n % 10 = d at hn
  interval_cases d
  all_goals decide

theorem number_column {m : ℕ} (h : m < 10 ^ 9) : number ((column m).filter kept) = m := by
  obtain ⟨k,hk9,hlt,-,-,-,p3,p4,p5,p6,p7,p8⟩ := exists_digits h
  have hspace : kept ' ' = false := rfl
  have hcomma : kept ',' = false := rfl
  have hdot : kept '.' = false := rfl
  -- one digit more, from the left
  have hnext : ∀ a, 10*(m / (a*10))+m / a % 10 = m / a := by
    intro a
    rw [← Nat.div_div_eq_div_mul]
    exact Nat.div_add_mod _ _
  have n0 : 10*(m / 10)+m % 10 = m := Nat.div_add_mod m 10
  have n1 : 10*(m / 100)+m / 10 % 10 = m / 10 := hnext 10
  have n2 : 10*(m / 1000)+m / 100 % 10 = m / 100 := hnext 100
  have n3 : 10*(m / 10000)+m / 1000 % 10 = m / 1000 := hnext 1000
  have n4 : 10*(m / 100000)+m / 10000 % 10 = m / 10000 := hnext 10000
  have n5 : 10*(m / 1000000)+m / 100000 % 10 = m / 100000 := hnext 100000
  have n6 : 10*(m / 10000000)+m / 1000000 % 10 = m / 1000000 := hnext 1000000
  have n7 : 10*(m / 100000000)+m / 10000000 % 10 = m / 10000000 := hnext 10000000
  -- the first digit is what it is a digit of
  have hfirst : ∀ a, m < a*10 → m / a % 10 = m / a := fun a ha =>
    Nat.mod_eq_of_lt (Nat.div_lt_of_lt_mul ha)
  interval_cases k
  all_goals
    simp [column,digitCell,commaCell,number,(digitChar_mod _).1,(digitChar_mod _).2.1,hspace,hcomma,hdot,
      p3,p4,p5,p6,p7,p8]
  · rw [hfirst 100 (by omega),n1,n0]
  · rw [hfirst 100 (by omega),n1,n0]
  · rw [hfirst 100 (by omega),n1,n0]
  · rw [hfirst 100 (by omega),n1,n0]
  · rw [hfirst 1000 hlt,n2,n1,n0]
  · rw [hfirst 10000 hlt,n3,n2,n1,n0]
  · rw [hfirst 100000 hlt,n4,n3,n2,n1,n0]
  · rw [hfirst 1000000 hlt,n5,n4,n3,n2,n1,n0]
  · rw [hfirst 10000000 hlt,n6,n5,n4,n3,n2,n1,n0]
  · rw [hfirst 100000000 hlt,n7,n6,n5,n4,n3,n2,n1,n0]

/-! ### The function -/

theorem toInt32_eq {m : ℤ} (h : m.natAbs < 10 ^ 9) : toInt32 m = m :=
  Int.bmod_eq_of_le (by omega) (by omega)

theorem questionMarks_eq (l r : Char) :
    questionMarks (l :: List.replicate 12 nul ++ [r,nul,nul]) = l :: unknown ++ [r,nul,nul] := by
  simp [questionMarks,unknown,List.range',List.replicate]

theorem transferFormat_eq (m : ℤ) : transferFormat m = formatted m ++ [nul,nul] := by
  have hlow : Double.ofInt m ≤ -10 ^ 9 ↔ m ≤ -10 ^ 9 :=
    Double.ofInt_le_neg_iff (k := 10 ^ 9) (by omega) (by omega)
  have hhigh : Double.ofInt m ≥ 10 ^ 9 ↔ m ≥ 10 ^ 9 := Double.le_ofInt_iff (k := 10 ^ 9) (by omega) (by omega)
  -- the array with the sign in it
  have hsign : (if m < 0 then ((((List.replicate 16 nul).set 0 ' ').set 13 ' ').set 0 '(').set 13 ')'
      else ((List.replicate 16 nul).set 0 ' ').set 13 ' ') =
      (if m < 0 then '(' else ' ') :: List.replicate 12 nul ++ [if m < 0 then ')' else ' ',nul,nul] := by
    split
    all_goals rfl
  unfold transferFormat formatted
  simp only [hlow,hhigh,hsign]
  by_cases hbig : 10 ^ 9 ≤ m.natAbs
  · rw [if_pos (by omega),if_pos hbig,questionMarks_eq]
    simp
  · rw [if_neg (by omega),if_neg hbig,toInt32_eq (by omega)]
    exact (loops_eq _ _ (by omega)).trans (by simp)

theorem length_formatted (m : ℤ) : (formatted m).length = 14 := by
  unfold formatted
  by_cases h : 10 ^ 9 ≤ m.natAbs
  · rw [if_pos h]
    rfl
  · rw [if_neg h]
    rfl

/-- No character of a column is the NUL or a parenthesis. -/
theorem column_plain (m : ℕ) : ∀ c ∈ column m, c ≠ nul ∧ c ≠ '(' := by
  have hd : ∀ i, digitCell m i ≠ nul ∧ digitCell m i ≠ '(' := by
    intro i
    unfold digitCell
    split
    · obtain ⟨hk,-,hn⟩ := digitChar_mod (m / 10 ^ i)
      refine ⟨hn,fun he => ?_⟩
      rw [he] at hk
      cases hk
    · decide
  have hc : ∀ i, commaCell m i ≠ nul ∧ commaCell m i ≠ '(' := by
    intro i
    unfold commaCell
    split
    all_goals decide
  simp only [column,forall_mem_cons]
  exact ⟨hd 8,hc 8,hd 7,hd 6,hd 5,hc 5,hd 4,hd 3,hd 2,by decide,hd 1,hd 0,by simp⟩

theorem nul_notMem_formatted (m : ℤ) : nul ∉ formatted m := by
  have hmid : nul ∉ if 10 ^ 9 ≤ m.natAbs then unknown else column m.natAbs := by
    split
    · decide
    · exact fun h => (column_plain _ _ h).1 rfl
  have hends : nul ≠ (if m < 0 then '(' else ' ') ∧ nul ≠ (if m < 0 then ')' else ' ') := by
    split
    all_goals decide
  simp only [formatted,cons_append,mem_cons,mem_append,not_mem_nil,or_false]
  rintro (h | h | h)
  · exact hends.1 h
  · exact hmid h
  · exact hends.2 h

theorem readBack_formatted {m : ℤ} (h : m.natAbs < 10 ^ 9) : readBack (formatted m) = m := by
  have hnum := number_column h
  have hplain : '(' ∉ column m.natAbs := fun hc => (column_plain _ _ hc).2 rfl
  unfold readBack formatted
  rw [if_neg (by omega : ¬10 ^ 9 ≤ m.natAbs)]
  by_cases hm : m < 0
  · have hfilter : ('(' :: column m.natAbs ++ [')']).filter kept = (column m.natAbs).filter kept := by
      simp [show kept '(' = false from rfl,show kept ')' = false from rfl]
    simp only [hm,if_true,hfilter,hnum]
    rw [if_pos (by simp)]
    omega
  · have hfilter : (' ' :: column m.natAbs ++ [' ']).filter kept = (column m.natAbs).filter kept := by
      simp [show kept ' ' = false from rfl]
    simp only [hm,if_false,hfilter,hnum]
    rw [if_neg (by simp [hplain])]
    omega

/-- Every amount is rendered in fourteen characters, with the NUL behind them, and read back as what
it was, so that no two amounts that have a column look the same. -/
theorem transferFormat_faithful (m : ℤ) :
    ofArray (transferFormat m) = some (formatted m) ∧ (formatted m).length = 14 ∧
    (m.natAbs < 10 ^ 9 → readBack (formatted m) = m ∧
      ∀ m' : ℤ, m'.natAbs < 10 ^ 9 → transferFormat m' = transferFormat m → m' = m) := by
  refine ⟨?_,length_formatted m,fun hm => ⟨readBack_formatted hm,fun m' hm' he => ?_⟩⟩
  · have hfill : formatted m ++ [nul,nul] = fill 16 (formatted m) := by
      rw [fill,length_formatted,take_of_length_le (by rw [length_formatted]; omega)]
      rfl
    rw [transferFormat_eq,hfill,ofArray_fill (nul_notMem_formatted m) (by rw [length_formatted]; omega)]
  · rw [transferFormat_eq,transferFormat_eq,append_left_inj] at he
    rw [← readBack_formatted hm',he,readBack_formatted hm]

theorem transferFormat_faithful_cents :
    readBack (formatted (-5)) = -5 ∧ formatted (-5) = "(        0.05)".toList := by
  refine ⟨((transferFormat_faithful (-5)).2.2 (by decide)).1,by decide⟩

example : transferFormat (-12345678) = '(' :: "  123,456.78".toList ++ [')',nul,nul] := by decide +kernel

end Csci402.Warmup
