import Mathlib.Algebra.Order.Ring.Int
import Mathlib.Data.List.TakeWhile

/-! Strings of C and what its library does with them. A string is the list of its
characters without the NUL at its end; an array is the list of all its characters, and
holds a string if a NUL is among them. The conversions of `scanf` are those of the
standard in the C locale. -/

namespace Csci402.Lib.CString

open List

variable {c : Char} {s w : List Char}

def nul : Char := Char.ofNat 0

def isspace (c : Char) : Bool :=
  c = ' ' || c = '\t' || c = '\n' || c = Char.ofNat 11 || c = Char.ofNat 12 || c = '\r'

def isdigit (c : Char) : Bool := '0' ≤ c && c ≤ '9'

def digit (c : Char) : ℕ := c.toNat - '0'.toNat

/-- The number that digits denote. -/
def number (ds : List Char) : ℕ := ds.foldl (fun v c => 10*v+digit c) 0

/-- `atoll` and `atol`, for numbers that they can represent. -/
def atoll (s : List Char) : ℤ :=
  match s.dropWhile isspace with
  | '-' :: ds => -(number (ds.takeWhile isdigit) : ℤ)
  | '+' :: ds => number (ds.takeWhile isdigit)
  | ds => number (ds.takeWhile isdigit)

/-- The string in an array; `none` if it has no NUL. -/
def ofArray (a : List Char) : Option (List Char) :=
  if nul ∈ a then some (a.takeWhile (· ≠ nul)) else none

/-- `s[i]`: a character of the string or the NUL behind it. -/
def charAt (s : List Char) (i : ℤ) : Option Char :=
  if 0 ≤ i ∧ i ≤ s.length then some (s.getD i.toNat nul) else none

/-- An array of `n` characters that held only NULs, after the first characters of `s` have been
stored into it, as many as it has room for. -/
def fill (n : ℕ) (s : List Char) : List Char := s.take n ++ List.replicate (n - s.length) nul

/-! ### Conversions -/

/-- White space in a format. -/
def skipSpace (s : List Char) : List Char := s.dropWhile isspace

/-- `%s`: what it converts and what it leaves. -/
def scanWord (s : List Char) : Option (List Char × List Char) :=
  let s := skipSpace s
  if s = [] then none else some (s.takeWhile (!isspace ·), s.dropWhile (!isspace ·))

/-- `%[^\n]`. -/
def scanToNewline (s : List Char) : Option (List Char × List Char) :=
  let w := s.takeWhile (· ≠ '\n')
  if w = [] then none else some (w, s.dropWhile (· ≠ '\n'))

/-! ### Digits -/

theorem isdigit_iff : isdigit c = true ↔ 48 ≤ c.toNat ∧ c.toNat ≤ 57 := by
  simp only [isdigit,Bool.and_eq_true,decide_eq_true_eq]
  exact Iff.rfl

theorem digit_le (h : isdigit c = true) : digit c ≤ 9 := by
  have := isdigit_iff.mp h
  have h0 : '0'.toNat = 48 := rfl
  rw [digit,h0]
  omega

theorem isspace_eq_false_of_isdigit (h : isdigit c = true) : isspace c = false := by
  by_contra hs
  rw [Bool.not_eq_false] at hs
  simp only [isspace,Bool.or_eq_true,decide_eq_true_eq] at hs
  rcases hs with ((((rfl | rfl) | rfl) | rfl) | rfl) | rfl
  all_goals exact absurd h (by decide)

theorem foldl_number (ds : List Char) (v : ℕ) :
    ds.foldl (fun v c => 10*v+digit c) v = v*10 ^ ds.length+number ds := by
  induction ds generalizing v with
  | nil => simp [number]
  | cons d ds ih =>
    have h := ih (10*0+digit d)
    rw [number,foldl_cons,foldl_cons,ih,h,length_cons,Nat.pow_succ]
    simp only [Nat.mul_zero,Nat.zero_add,Nat.add_mul,Nat.add_assoc]
    congr 1
    rw [Nat.mul_comm 10 v,Nat.mul_assoc,Nat.mul_comm 10]

@[simp] theorem number_nil : number [] = 0 := rfl

theorem number_cons (d : Char) (ds : List Char) : number (d :: ds) = digit d*10 ^ ds.length+number ds := by
  rw [number,foldl_cons,foldl_number]
  simp

theorem number_lt {ds : List Char} (h : ∀ d ∈ ds, isdigit d = true) : number ds < 10 ^ ds.length := by
  induction ds with
  | nil => simp
  | cons d ds ih =>
    have hd := digit_le (h d (by simp))
    have := ih fun e he => h e (by simp [he])
    rw [number_cons,length_cons,Nat.pow_succ]
    calc digit d*10 ^ ds.length+number ds
        < digit d*10 ^ ds.length+10 ^ ds.length := by omega
      _ = (digit d+1)*10 ^ ds.length := by rw [Nat.add_mul,Nat.one_mul]
      _ ≤ 10*10 ^ ds.length := Nat.mul_le_mul_right _ (by omega)
      _ = 10 ^ ds.length*10 := Nat.mul_comm _ _

/-- Of digits alone all of them are read. -/
theorem atoll_digits {ds : List Char} (h : ∀ d ∈ ds, isdigit d = true) : atoll ds = number ds := by
  have hdrop : ds.dropWhile isspace = ds := by
    cases ds with
    | nil => rfl
    | cons d ds => simp [isspace_eq_false_of_isdigit (h d (by simp))]
  have htake : ds.takeWhile isdigit = ds := takeWhile_eq_self_iff.mpr h
  unfold atoll
  rw [hdrop]
  split
  · exact absurd (h '-' (by simp)) (by decide)
  · exact absurd (h '+' (by simp)) (by decide)
  · rw [htake]

/-! ### Arrays -/

theorem charAt_mid {t : List Char} {i : ℤ} (hi : i = s.length) : charAt (s ++ c :: t) i = some c := by
  rw [charAt,if_pos (by rw [length_append]; omega),hi,Int.toNat_natCast]
  simp

theorem ofArray_fill {n : ℕ} (hs : nul ∉ s) (hn : s.length < n) : ofArray (fill n s) = some s := by
  have hmem : nul ∈ fill n s := by
    refine mem_append_right _ (mem_replicate.mpr ⟨?_,rfl⟩)
    omega
  have htake : (s ++ List.replicate (n - s.length) nul).takeWhile (· ≠ nul) = s := by
    rw [takeWhile_append_of_pos fun c hc => by simpa using fun he : c = nul => hs (he ▸ hc)]
    cases n - s.length with
    | zero => simp
    | succ k => simp [replicate_succ]
  rw [ofArray,if_pos hmem,fill,take_of_length_le hn.le,htake]

/-- An array that is full has no room for the NUL. -/
theorem ofArray_fill_full {n : ℕ} (hs : nul ∉ s) (hn : n ≤ s.length) : ofArray (fill n s) = none := by
  have hmem : nul ∉ fill n s := by
    rw [fill,Nat.sub_eq_zero_of_le hn,replicate_zero,append_nil]
    exact fun hm => hs (mem_of_mem_take hm)
  rw [ofArray,if_neg hmem]

/-! ### Fields -/

theorem scanWord_sublist {rest : List Char} (h : scanWord s = some (w, rest)) : w.Sublist s ∧ rest.Sublist s := by
  simp only [scanWord] at h
  split at h
  · cases h
  · cases h
    have hs : (skipSpace s).Sublist s := dropWhile_sublist _
    exact ⟨(takeWhile_sublist _).trans hs,(dropWhile_sublist _).trans hs⟩

theorem head_skipSpace (s : List Char) : ∀ c ∈ (skipSpace s).head?, isspace c = false := by
  intro c hc
  rw [skipSpace,Option.mem_def] at hc
  have := head?_dropWhile_not isspace s
  rw [hc] at this
  simpa using this

theorem scanToNewline_some {rest : List Char} (h : scanToNewline s = some (w, rest)) :
    w.Sublist s ∧ ∀ c ∈ w.head?, c ∈ s.head? := by
  simp only [scanToNewline] at h
  split at h
  · cases h
  · cases h
    refine ⟨takeWhile_sublist _,fun c hc => ?_⟩
    cases s with
    | nil => simp at hc
    | cons d s =>
      rw [takeWhile_cons] at hc
      split at hc
      · exact hc
      · simp at hc

end Csci402.Lib.CString
