import Csci402.Lib.Segments

/-! Path names as `dir_namev` of `fs/namev.c` scans them: backwards from the end for the last
component, and forwards for the ones before it. The scans find the components of the path,
however many slashes stand before, between and after them. -/

namespace Csci402.Fs

open Lib List

/-- A character of a C string, which ends with a null character. -/
def charAt (p : List Char) (i : ℕ) : Char := p.getD i (Char.ofNat 0)

/-- The first loop of `dir_namev`, over the slashes at the end. The index is held one up, so
that it is a natural number; the second result is `last_slash_len`. -/
def trailing (p : List Char) : ℕ → ℕ × ℕ
  | 0 => (0, 0)
  | n+1 => if charAt p n = '/' then ((trailing p n).1, (trailing p n).2+1) else (n+1, 0)

/-- The second loop, over the last component, with the index one up. -/
def lastSlash (p : List Char) : ℕ → ℕ
  | 0 => 0
  | n+1 => if charAt p n = '/' then n+1 else lastSlash p n

/-- A loop forwards that stops at a character, after `n` rounds at most. -/
def scanTo (p : List Char) (stop : Char → Bool) : (n fast : ℕ) → ℕ
  | 0, fast => fast
  | n+1, fast => if stop (charAt p fast) then fast else scanTo p stop n (fast+1)

def skipSlashes (p : List Char) (limit fast : ℕ) : ℕ := scanTo p (· ≠ '/') (limit - fast) fast

def scanName (p : List Char) (limit fast : ℕ) : ℕ := scanTo p (· = '/') (limit - fast) fast

/-- The components of a path. -/
def components (p : List Char) : List (List Char) := segments '/' p

/-- The part of the path between two indices. -/
def slice (p : List Char) (i j : ℕ) : List Char := (p.take j).drop i

variable {p : List Char} {stop : Char → Bool} {n i j k limit fast : ℕ}

/-! ### Slices -/

theorem charAt_eq (h : i < p.length) : charAt p i = p[i] := by simp [charAt,h]

theorem slice_self : slice p i i = [] := by simp [slice]

theorem slice_append (hij : i ≤ j) (hjk : j ≤ k) : slice p i k = slice p i j ++ slice p j k := by
  unfold slice
  have h : p.take k = p.take j ++ (p.take k).drop j := by
    have := take_append_drop j (p.take k)
    rwa [take_take,Nat.min_eq_left hjk,eq_comm] at this
  by_cases hj : j ≤ p.length
  · nth_rewrite 1 [h]
    rw [drop_append_of_le_length]
    rw [length_take]
    omega
  · have ht : p.take k = p := take_of_length_le (by omega)
    have ht' : p.take j = p := take_of_length_le (by omega)
    rw [ht,ht',drop_eq_nil_of_le (show p.length ≤ j by omega),append_nil]

theorem mem_slice {c : Char} (h : c ∈ slice p i j) : ∃ k, i ≤ k ∧ k < j ∧ k < p.length ∧ charAt p k = c := by
  obtain ⟨k,hk,rfl⟩ := mem_iff_getElem.mp h
  simp only [slice,length_drop,length_take] at hk
  refine ⟨i+k,by omega,by omega,by omega,?_⟩
  rw [charAt_eq (by omega)]
  simp [slice]

theorem slice_ne_nil (hij : i < j) (hj : j ≤ p.length) : slice p i j ≠ [] := by
  intro h
  have := congrArg List.length h
  simp only [slice,length_drop,length_take,length_nil] at this
  omega

theorem slice_head (hij : i < j) (hj : j ≤ p.length) : (slice p i j).head? = some (charAt p i) := by
  rw [slice,head?_drop,getElem?_take,if_pos hij,charAt_eq (by omega)]
  exact getElem?_eq_getElem (by omega)

theorem length_slice (hij : i ≤ j) (hj : j ≤ p.length) : (slice p i j).length = j - i := by
  simp only [slice,length_drop,length_take]
  omega

/-! ### The scans -/

theorem trailing_sum (p : List Char) (n : ℕ) : (trailing p n).1+(trailing p n).2 = n := by
  induction n with
  | zero => rfl
  | succ n ih =>
    unfold trailing
    split
    · change (trailing p n).1+((trailing p n).2+1) = n+1
      omega
    · rfl

theorem trailing_spec (p : List Char) (n : ℕ) : (∀ i, (trailing p n).1 ≤ i → i < n → charAt p i = '/') ∧
    (0 < (trailing p n).1 → charAt p ((trailing p n).1 - 1) ≠ '/') := by
  induction n with
  | zero => exact ⟨fun i _ hi => absurd hi (Nat.not_lt_zero i),fun h => absurd h (Nat.lt_irrefl 0)⟩
  | succ n ih =>
    unfold trailing
    split
    next hc =>
      refine ⟨fun i h1 h2 => ?_,ih.2⟩
      by_cases hi : i = n
      · rw [hi,hc]
      · exact ih.1 i h1 (by omega)
    next hc =>
      exact ⟨fun i h1 h2 => absurd h1 (by change ¬ n+1 ≤ i; omega),fun _ => hc⟩

theorem lastSlash_le (p : List Char) (n : ℕ) : lastSlash p n ≤ n := by
  induction n with
  | zero => exact Nat.le_refl 0
  | succ n ih =>
    unfold lastSlash
    split
    · exact Nat.le_refl _
    · omega

theorem lastSlash_spec (p : List Char) (n : ℕ) : (∀ i, lastSlash p n ≤ i → i < n → charAt p i ≠ '/') ∧
    (0 < lastSlash p n → charAt p (lastSlash p n - 1) = '/') := by
  induction n with
  | zero => exact ⟨fun i _ hi => absurd hi (Nat.not_lt_zero i),fun h => absurd h (Nat.lt_irrefl 0)⟩
  | succ n ih =>
    unfold lastSlash
    split
    next hc =>
      exact ⟨fun i h1 h2 => by omega,fun _ => hc⟩
    next hc =>
      refine ⟨fun i h1 h2 => ?_,ih.2⟩
      by_cases hi : i = n
      · rw [hi]
        exact hc
      · exact ih.1 i h1 (by omega)

theorem scanTo_spec (p : List Char) (stop : Char → Bool) (n fast : ℕ) :
    fast ≤ scanTo p stop n fast ∧ scanTo p stop n fast ≤ fast+n ∧
      (∀ i, fast ≤ i → i < scanTo p stop n fast → stop (charAt p i) = false) ∧
      (scanTo p stop n fast < fast+n → stop (charAt p (scanTo p stop n fast)) = true) := by
  induction n generalizing fast with
  | zero =>
    simp only [scanTo]
    exact ⟨Nat.le_refl _,Nat.le_refl _,fun i h1 h2 => absurd h2 (by omega),fun h => absurd h (Nat.lt_irrefl _)⟩
  | succ n ih =>
    unfold scanTo
    split
    next hc =>
      exact ⟨Nat.le_refl _,Nat.le_add_right _ _,fun i h1 h2 => absurd h2 (by omega),fun _ => hc⟩
    next hc =>
      obtain ⟨h1,h2,h3,h4⟩ := ih (fast+1)
      refine ⟨by omega,by omega,fun i hi hi' => ?_,fun h => h4 (by omega)⟩
      by_cases hif : i = fast
      · rw [hif]
        simpa using hc
      · exact h3 i (by omega) hi'

/-! ### The components of the part before the last one -/

theorem skipSlashes_spec (p : List Char) (hf : fast ≤ limit) :
    fast ≤ skipSlashes p limit fast ∧ skipSlashes p limit fast ≤ limit ∧
      (∀ i, fast ≤ i → i < skipSlashes p limit fast → charAt p i = '/') ∧
      (skipSlashes p limit fast < limit → charAt p (skipSlashes p limit fast) ≠ '/') := by
  obtain ⟨h1,h2,h3,h4⟩ := scanTo_spec p (· ≠ '/') (limit - fast) fast
  rw [Nat.add_sub_cancel' hf] at h2 h4
  exact ⟨h1,h2,fun i hi hi' => by simpa using h3 i hi hi',fun h => of_decide_eq_true (h4 h)⟩

theorem scanName_spec (p : List Char) (hf : fast ≤ limit) :
    fast ≤ scanName p limit fast ∧ scanName p limit fast ≤ limit ∧
      (∀ i, fast ≤ i → i < scanName p limit fast → charAt p i ≠ '/') ∧
      (scanName p limit fast < limit → charAt p (scanName p limit fast) = '/') := by
  obtain ⟨h1,h2,h3,h4⟩ := scanTo_spec p (· = '/') (limit - fast) fast
  rw [Nat.add_sub_cancel' hf] at h2 h4
  exact ⟨h1,h2,fun i hi hi' => by simpa using h3 i hi hi',fun h => of_decide_eq_true (h4 h)⟩

theorem components_skip (hf : fast ≤ limit) :
    components (slice p (skipSlashes p limit fast) limit) = components (slice p fast limit) := by
  obtain ⟨h1,h2,h3,-⟩ := skipSlashes_spec p hf
  rw [slice_append h1 h2]
  refine (segments_append_left fun c hc => ?_).symm
  obtain ⟨k,hk1,hk2,-,rfl⟩ := mem_slice hc
  exact h3 k hk1 hk2

/-- The inner loop finds the next component. -/
theorem components_name (hf : fast < limit) (hl : limit ≤ p.length) (hc : charAt p fast ≠ '/') :
    fast < scanName p limit fast ∧ scanName p limit fast ≤ limit ∧
      components (slice p fast limit) =
        slice p fast (scanName p limit fast) :: components (slice p (scanName p limit fast) limit) := by
  obtain ⟨h1,h2,h3,h4⟩ := scanName_spec p (Nat.le_of_lt hf)
  have hlt : fast < scanName p limit fast := by
    rcases Nat.lt_or_eq_of_le h1 with h | h
    · exact h
    · rw [← h] at h4
      exact absurd (h4 hf) hc
  refine ⟨hlt,h2,?_⟩
  rw [slice_append h1 h2]
  refine segments_append_notMem (fun hm => ?_) (slice_ne_nil hlt (Nat.le_trans h2 hl)) ?_
  · obtain ⟨k,hk1,hk2,-,he⟩ := mem_slice hm
    exact h3 k hk1 hk2 he
  · by_cases he : scanName p limit fast = limit
    · left
      rw [he,slice_self]
    · right
      have hlt' : scanName p limit fast < limit := Nat.lt_of_le_of_ne h2 he
      rw [slice_head hlt' hl,h4 hlt']

/-! ### The last component -/

/-- The two backward loops: where the last component starts and where it ends. -/
def baseEnd (p : List Char) : ℕ := (trailing p p.length).1

def baseStart (p : List Char) : ℕ := lastSlash p (baseEnd p)

theorem baseEnd_spec (p : List Char) : baseEnd p ≤ p.length ∧
    (∀ i, baseEnd p ≤ i → i < p.length → charAt p i = '/') ∧ (0 < baseEnd p → charAt p (baseEnd p - 1) ≠ '/') := by
  have hsum := trailing_sum p p.length
  exact ⟨by unfold baseEnd; omega,trailing_spec p p.length⟩

theorem baseStart_spec (p : List Char) : baseStart p ≤ baseEnd p ∧
    (∀ i, baseStart p ≤ i → i < baseEnd p → charAt p i ≠ '/') ∧ (0 < baseStart p → charAt p (baseStart p - 1) = '/') :=
  ⟨lastSlash_le p _,lastSlash_spec p _⟩

theorem slice_all (p : List Char) : slice p 0 p.length = p := by simp [slice]

/-- A path is its directory part, its last component and slashes. -/
theorem path_split (p : List Char) :
    p = slice p 0 (baseStart p) ++ slice p (baseStart p) (baseEnd p) ++ slice p (baseEnd p) p.length := by
  rw [← slice_append (Nat.zero_le _) (baseStart_spec p).1,← slice_append (Nat.zero_le _) (baseEnd_spec p).1,slice_all]

/-- The directory part ends with a slash, if there is one. -/
theorem slice_slash (h : 0 < baseStart p) : slice p (baseStart p - 1) (baseStart p) = ['/'] := by
  have hle := (baseStart_spec p).1
  have hend := (baseEnd_spec p).1
  have hlen := length_slice (p := p) (show baseStart p - 1 ≤ baseStart p by omega) (by omega)
  obtain ⟨c,hc⟩ := length_eq_one_iff.mp (hlen.trans (by omega))
  have hmem : c ∈ slice p (baseStart p - 1) (baseStart p) := by simp [hc]
  obtain ⟨k,h1,h2,-,rfl⟩ := mem_slice hmem
  obtain rfl : k = baseStart p - 1 := by omega
  rw [hc,(baseStart_spec p).2.2 h]

theorem components_base (h : baseStart p < baseEnd p) :
    components p = components (slice p 0 (baseStart p - 1)) ++ [slice p (baseStart p) (baseEnd p)] := by
  have hbase : '/' ∉ slice p (baseStart p) (baseEnd p) := by
    intro hm
    obtain ⟨k,h1,h2,-,he⟩ := mem_slice hm
    exact (baseStart_spec p).2.1 k h1 h2 he
  have htail : ∀ c ∈ slice p (baseEnd p) p.length, c = '/' := by
    intro c hc
    obtain ⟨k,h1,h2,-,rfl⟩ := mem_slice hc
    exact (baseEnd_spec p).2.1 k h1 h2
  have hseg := segments_of_notMem hbase (slice_ne_nil h (baseEnd_spec p).1)
  unfold components
  nth_rewrite 1 [path_split p]
  rw [segments_append_right htail]
  by_cases h0 : baseStart p = 0
  · rw [h0] at hseg ⊢
    rw [slice_self,nil_append,hseg]
    exact (congrArg (· ++ _) (segments_nil (a := '/'))).symm
  · have hpos : 0 < baseStart p := Nat.pos_of_ne_zero h0
    rw [slice_append (Nat.zero_le _) (show baseStart p - 1 ≤ baseStart p by omega),slice_slash hpos,append_assoc,
      singleton_append,segments_append_sep,hseg]

/-- A path without a last component is slashes only. -/
theorem components_of_not_base (h : baseEnd p ≤ baseStart p) : components p = [] ∧ baseStart p = 0 := by
  obtain ⟨hle,-,hslash⟩ := baseStart_spec p
  obtain ⟨-,hall,hne⟩ := baseEnd_spec p
  have he : baseStart p = baseEnd p := Nat.le_antisymm hle h
  have h0 : baseEnd p = 0 := by
    by_contra hpos
    refine hne (Nat.pos_of_ne_zero hpos) ?_
    rw [← he]
    exact hslash (by omega)
  refine ⟨segments_eq_nil fun c hc => ?_,he.trans h0⟩
  rw [← slice_all p] at hc
  obtain ⟨k,-,h2,-,rfl⟩ := mem_slice hc
  exact hall k (by omega) h2

end Csci402.Fs
