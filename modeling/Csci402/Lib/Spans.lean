import Mathlib.Data.List.Basic
import Mathlib.Data.List.Pairwise

/-! Lists of half-open ranges of numbers that are non-empty, sorted and disjoint, read
as a finite map from numbers to the element whose range covers them. -/

namespace Csci402.Lib

open List

variable {α : Type*} (lo hi : α → ℕ)

/-- Every range is non-empty and ends before the next one starts. -/
structure Spaced (l : List α) : Prop where
  nonempty : ∀ a ∈ l, lo a < hi a
  sorted : l.Pairwise fun a b => hi a ≤ lo b

/-- The first range that covers `v`. -/
def spanAt (l : List α) (v : ℕ) : Option α := l.find? fun a => hi a > v ∧ lo a ≤ v

/-- Every range of the list lies before `x` or after `y`. -/
def Free (x y : ℕ) (l : List α) : Prop := ∀ a ∈ l, hi a ≤ x ∨ y ≤ lo a

variable {lo hi} {l l1 l2 m : List α} {a b : α} {v x y : ℕ}

theorem spanAt_append : spanAt lo hi (l1 ++ l2) v = (spanAt lo hi l1 v).or (spanAt lo hi l2 v) :=
  find?_append

theorem spanAt_mem (h : spanAt lo hi l v = some a) : a ∈ l ∧ lo a ≤ v ∧ v < hi a := by
  have hp := find?_some h
  simp only [decide_eq_true_eq] at hp
  exact ⟨mem_of_find?_eq_some h,hp.2,hp.1⟩

theorem spanAt_eq_none : spanAt lo hi l v = none ↔ ∀ a ∈ l, ¬ (lo a ≤ v ∧ v < hi a) := by
  simp only [spanAt,find?_eq_none,decide_eq_true_eq,gt_iff_lt]
  exact forall₂_congr fun a _ => by rw [and_comm]

theorem Spaced.tail (h : Spaced lo hi (a :: l)) : Spaced lo hi l :=
  ⟨fun b hb => h.nonempty b (mem_cons_of_mem a hb),(pairwise_cons.mp h.sorted).2⟩

/-- Two ranges of the list that cover one number are the same. -/
theorem Spaced.cover_unique (h : Spaced lo hi l) (ha : a ∈ l) (hb : b ∈ l) (hav : lo a ≤ v ∧ v < hi a)
    (hbv : lo b ≤ v ∧ v < hi b) : a = b := by
  obtain ⟨hn,hs⟩ := h
  induction hs with
  | nil => cases ha
  | cons hc _ ih =>
    rcases mem_cons.mp ha with rfl | ha' <;> rcases mem_cons.mp hb with rfl | hb'
    · rfl
    · have := hc b hb'
      omega
    · have := hc a ha'
      omega
    · exact ih ha' hb' fun d hd => hn d (by simp [hd])

/-- Two ranges of the list lie one before the other. -/
theorem Spaced.apart (h : Spaced lo hi l) (ha : a ∈ l) (hb : b ∈ l) (hab : a ≠ b) : hi a ≤ lo b ∨ hi b ≤ lo a := by
  have hna := h.nonempty a ha
  have hnb := h.nonempty b hb
  by_contra hc
  -- the first page of both
  exact hab (h.cover_unique ha hb (v := max (lo a) (lo b)) (by omega) (by omega))

theorem Spaced.spanAt_eq_some (h : Spaced lo hi l) : spanAt lo hi l v = some a ↔ a ∈ l ∧ lo a ≤ v ∧ v < hi a := by
  refine ⟨spanAt_mem,fun ⟨ha,hv⟩ => ?_⟩
  cases hb : spanAt lo hi l v with
  | none => exact absurd hv (spanAt_eq_none.mp hb a ha)
  | some b =>
    obtain ⟨hbm,hbv⟩ := spanAt_mem hb
    rw [h.cover_unique hbm ha hbv hv]

/-- A range is replaced by ranges inside it. -/
theorem Spaced.replace (h : Spaced lo hi (l1 ++ a :: l2)) (hm : Spaced lo hi m)
    (hin : ∀ b ∈ m, lo a ≤ lo b ∧ hi b ≤ hi a) : Spaced lo hi (l1 ++ (m ++ l2)) := by
  obtain ⟨h1,h2,h12⟩ := pairwise_append.mp h.sorted
  rw [pairwise_cons] at h2
  refine ⟨?_,pairwise_append.mpr ⟨h1,pairwise_append.mpr ⟨hm.sorted,h2.2,?_⟩,?_⟩⟩
  · intro b hb
    rw [mem_append,mem_append] at hb
    rcases hb with hb | hb | hb
    · exact h.nonempty b (by simp [hb])
    · exact hm.nonempty b hb
    · exact h.nonempty b (by simp [hb])
  · intro b hb c hc
    exact Nat.le_trans (hin b hb).2 (h2.1 c hc)
  · intro b hb c hc
    rcases mem_append.mp hc with hc | hc
    · exact Nat.le_trans (h12 b hb a (by simp)) (hin c hc).1
    · exact h12 b hb c (by simp [hc])

/-- A list with a range put between two parts of it. -/
theorem Spaced.insert (h : Spaced lo hi (l1 ++ l2)) (ha : lo a < hi a)
    (h1 : ∀ b ∈ l1, hi b ≤ lo a) (h2 : ∀ b ∈ l2, hi a ≤ lo b) : Spaced lo hi (l1 ++ a :: l2) := by
  obtain ⟨hl1,hl2,h12⟩ := pairwise_append.mp h.sorted
  refine ⟨?_,pairwise_append.mpr ⟨hl1,pairwise_cons.mpr ⟨h2,hl2⟩,?_⟩⟩
  · intro b hb
    rw [mem_append,mem_cons] at hb
    rcases hb with hb | rfl | hb
    · exact h.nonempty b (by simp [hb])
    · exact ha
    · exact h.nonempty b (by simp [hb])
  · intro b hb c hc
    rcases mem_cons.mp hc with rfl | hc
    · exact h1 b hb
    · exact h12 b hb c hc

/-- In a sorted list with a free gap the ranges before the gap come first. -/
theorem Spaced.split (h : Spaced lo hi l) (hf : Free lo hi x y l) :
    ∃ l1 l2, l = l1 ++ l2 ∧ (∀ a ∈ l1, hi a ≤ x) ∧ ∀ a ∈ l2, y ≤ lo a := by
  induction l with
  | nil => exact ⟨[],[],rfl,by simp,by simp⟩
  | cons a l ih =>
    rcases hf a (by simp) with ha | ha
    · obtain ⟨l1,l2,rfl,h1,h2⟩ := ih h.tail fun b hb => hf b (by simp [hb])
      exact ⟨a :: l1,l2,rfl,by simpa [ha] using h1,h2⟩
    · refine ⟨[],a :: l,rfl,by simp,?_⟩
      have hs := (pairwise_cons.mp h.sorted).1
      have hn := h.nonempty a (by simp)
      intro b hb
      rcases mem_cons.mp hb with rfl | hb
      · exact ha
      · have := hs b hb
        omega

end Csci402.Lib
