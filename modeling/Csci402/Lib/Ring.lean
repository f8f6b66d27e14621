import Mathlib.Data.List.Nodup
import Mathlib.Logic.Function.Basic

/-! Circular doubly linked lists. The links of all cells are two partial functions;
a ring is a head cell with the cells that follow it, each linked to the next one and
the last to the head again. A cell is inserted between two neighbours, or unlinked, by
overwriting four links. The neighbours are named by position: what stands before a
place is the last cell of the part in front of it, or the head. -/

namespace Csci402.Lib

open Function List

variable {P : Type*}

structure Links (P : Type*) where
  next : P → Option P
  prev : P → Option P

namespace Links

/-- `a` and `b` are linked to each other. -/
def Adj (k : Links P) (a b : P) : Prop := k.next a = some b ∧ k.prev b = some a

/-- The cells `l` lead from `a` to `b`. -/
def Seg (k : Links P) : P → List P → P → Prop
  | a, [], b => k.Adj a b
  | a, x :: l, b => k.Adj a x ∧ Seg k x l b

variable {k k' : Links P} {a b c x : P} {l l1 l2 : List P}

theorem seg_append : k.Seg a (l1 ++ x :: l2) b ↔ k.Seg a l1 x ∧ k.Seg x l2 b := by
  induction l1 generalizing a with
  | nil => rfl
  | cons y l1 ih => simp only [cons_append,Seg,ih,and_assoc]

/-- A segment at any place: up to what follows the place, and on from what precedes it. -/
theorem seg_split : k.Seg a (l1 ++ l2) b ↔ k.Seg a l1 (l2.headD b) ∧ k.Seg (l1.getLastD a) l2 b := by
  induction l1 generalizing a with
  | nil =>
    cases l2 with
    | nil => exact (and_self_iff).symm
    | cons y l2 => exact ⟨fun h => ⟨h.1,h⟩,And.right⟩
  | cons y l1 ih =>
    rw [getLastD_cons]
    simp only [cons_append,Seg,ih,and_assoc]

/-- A segment reads the forward links of its cells but the last, and the backward links
of its cells but the first. -/
theorem Seg.congr (h : k.Seg a l b) (hn : ∀ x ∈ a :: l, k'.next x = k.next x)
    (hp : ∀ x ∈ l ++ [b], k'.prev x = k.prev x) : k'.Seg a l b := by
  induction l generalizing a with
  | nil => exact ⟨(hn a (by simp)).trans h.1,(hp b (by simp)).trans h.2⟩
  | cons y l ih =>
    refine ⟨⟨(hn a (by simp)).trans h.1.1,(hp y (by simp)).trans h.1.2⟩,?_⟩
    exact ih h.2 (fun x hx => hn x (mem_cons_of_mem a hx))
      fun x hx => hp x (mem_cons_of_mem y hx)

/-- The last cell of a segment gets another successor. -/
theorem Seg.retarget (h : k.Seg a l c) (hnd : (a :: l).Nodup)
    (hn : ∀ x ∈ a :: l, x ≠ l.getLastD a → k'.next x = k.next x)
    (hp : ∀ x ∈ l, k'.prev x = k.prev x) (hb : k'.Adj (l.getLastD a) b) : k'.Seg a l b := by
  induction l generalizing a with
  | nil => exact hb
  | cons y l ih =>
    rw [getLastD_cons] at hn hb
    have ha : a ≠ l.getLastD y := by
      rintro rfl
      exact (nodup_cons.mp hnd).1 getLastD_mem_cons
    refine ⟨⟨(hn a (by simp) ha).trans h.1.1,(hp y (by simp)).trans h.1.2⟩,?_⟩
    exact ih h.2 (nodup_cons.mp hnd).2 (fun x hx => hn x (mem_cons_of_mem a hx))
      (fun x hx => hp x (mem_cons_of_mem y hx)) hb

/-- The first cell of a segment gets another predecessor. -/
theorem Seg.resource (h : k.Seg c l b) (hn : ∀ x ∈ l, k'.next x = k.next x)
    (hp : ∀ x ∈ (l ++ [b]).tail, k'.prev x = k.prev x) (ha : k'.Adj a (l.headD b)) : k'.Seg a l b := by
  cases l with
  | nil => exact ha
  | cons y l => exact ⟨ha,h.2.congr hn hp⟩

theorem Seg.next (h : k.Seg a l b) : k.next a = some (l.headD b) := by
  cases l with
  | nil => exact h.1
  | cons y l => exact h.1.1

theorem Seg.prev (h : k.Seg a l b) : k.prev b = some (l.getLastD a) := by
  induction l generalizing a with
  | nil => exact h.2
  | cons y l ih =>
    rw [getLastD_cons]
    exact ih h.2

variable [DecidableEq P]

/-- Put `n` between `a` and `b`. -/
def insert (a n b : P) (k : Links P) : Links P where
  next := update (update k.next n (some b)) a (some n)
  prev := update (update k.prev n (some a)) b (some n)

/-- Take `n` out from between `a` and `b`. -/
def remove (a n b : P) (k : Links P) : Links P where
  next := update (update k.next a (some b)) n none
  prev := update (update k.prev b (some a)) n none

theorem insert_next_of_ne {n y : P} (hn : y ≠ n) (ha : y ≠ a) : (k.insert a n b).next y = k.next y := by
  simp [insert,hn,ha]

theorem insert_prev_of_ne {n y : P} (hn : y ≠ n) (hb : y ≠ b) : (k.insert a n b).prev y = k.prev y := by
  simp [insert,hn,hb]

theorem insert_adj_left {n : P} (hb : n ≠ b) : (k.insert a n b).Adj a n := by
  simp [Adj,insert,hb]

theorem insert_adj_right {n : P} (ha : n ≠ a) : (k.insert a n b).Adj n b := by
  simp [Adj,insert,ha]

theorem remove_next_of_ne {n y : P} (hn : y ≠ n) (ha : y ≠ a) : (k.remove a n b).next y = k.next y := by
  simp [remove,hn,ha]

theorem remove_prev_of_ne {n y : P} (hn : y ≠ n) (hb : y ≠ b) : (k.remove a n b).prev y = k.prev y := by
  simp [remove,hn,hb]

theorem remove_adj {n : P} (ha : a ≠ n) (hb : b ≠ n) : (k.remove a n b).Adj a b := by
  simp [Adj,remove,ha,hb]

end Links

/-- The cells `xs` lie in a ring with the head `hd`. -/
structure Ring (k : Links P) (hd : P) (xs : List P) : Prop where
  nodup : (hd :: xs).Nodup
  seg : k.Seg hd xs hd

namespace Ring

variable {k k' : Links P} {hd n : P} {xs l1 l2 : List P}

theorem congr (h : Ring k hd xs) (hk : ∀ x ∈ hd :: xs, k'.next x = k.next x ∧ k'.prev x = k.prev x) :
    Ring k' hd xs := by
  refine ⟨h.nodup,h.seg.congr (fun x hx => (hk x hx).1) fun x hx => (hk x ?_).2⟩
  rcases mem_append.mp hx with hx | hx
  · exact mem_cons_of_mem hd hx
  · rw [mem_singleton.mp hx]
    exact mem_cons_self

theorem next_head (h : Ring k hd xs) : k.next hd = some (xs.headD hd) := h.seg.next

theorem prev_head (h : Ring k hd xs) : k.prev hd = some (xs.getLastD hd) := h.seg.prev

theorem next (h : Ring k hd (l1 ++ n :: l2)) : k.next n = some (l2.headD hd) :=
  (Links.seg_append.mp h.seg).2.next

theorem prev (h : Ring k hd (l1 ++ n :: l2)) : k.prev n = some (l1.getLastD hd) :=
  (Links.seg_append.mp h.seg).1.prev

/-- The cells in front of a place and those behind it come apart. -/
theorem split (hnd : (hd :: (l1 ++ l2)).Nodup) :
    (hd :: l1).Nodup ∧ (l2 ++ [hd]).Nodup ∧ (∀ x ∈ l2, x ∉ hd :: l1) ∧ ∀ x ∈ l1, x ∉ l2 ++ [hd] := by
  rw [nodup_cons,nodup_append,mem_append,not_or] at hnd
  obtain ⟨⟨h1,h2⟩,hn1,hn2,hd'⟩ := hnd
  refine ⟨nodup_cons.mpr ⟨h1,hn1⟩,?_,fun x hx hm => ?_,fun x hx hm => ?_⟩
  · exact nodup_append.mpr ⟨hn2,nodup_singleton hd,by
      rintro x hx y hy rfl
      exact h2 (mem_singleton.mp hy ▸ hx)⟩
  · rcases mem_cons.mp hm with rfl | hm
    · exact h2 hx
    · exact hd' x hm x hx rfl
  · rcases mem_append.mp hm with hm | hm
    · exact hd' x hx x hm rfl
    · exact h1 (mem_singleton.mp hm ▸ hx)

theorem ne_of_notMem (hn : n ∉ hd :: (l1 ++ l2)) : (∀ x ∈ hd :: l1, x ≠ n) ∧ ∀ x ∈ l2 ++ [hd], x ≠ n := by
  constructor
  · rintro x hx rfl
    rw [← cons_append] at hn
    exact hn (mem_append_left l2 hx)
  · rintro x hx rfl
    rcases mem_append.mp hx with hx | hx
    · exact hn (mem_cons_of_mem hd (mem_append_right l1 hx))
    · exact hn (mem_singleton.mp hx ▸ mem_cons_self)

theorem headD_mem (l : List P) (a : P) : l.headD a ∈ l ++ [a] := by
  cases l with
  | nil => simp
  | cons y l => simp

theorem headD_notMem_tail {l : List P} {a : P} (h : (l ++ [a]).Nodup) : l.headD a ∉ (l ++ [a]).tail := by
  cases l with
  | nil => simp
  | cons y l => exact (nodup_cons.mp h).1

variable [DecidableEq P]

theorem singleton (k : Links P) (hn : hd ≠ n) : Ring (k.insert hd n hd) hd [n] :=
  ⟨by simpa using hn,Links.insert_adj_left hn.symm,Links.insert_adj_right hn.symm⟩

theorem insert (h : Ring k hd (l1 ++ l2)) (hn : n ∉ hd :: (l1 ++ l2)) :
    Ring (k.insert (l1.getLastD hd) n (l2.headD hd)) hd (l1 ++ n :: l2) := by
  have hnd : (hd :: (l1 ++ n :: l2)).Nodup := by
    rw [← cons_append,nodup_middle,cons_append,nodup_cons]
    exact ⟨hn,h.nodup⟩
  obtain ⟨hd1,hd2,h21,h12⟩ := split h.nodup
  obtain ⟨hs1,hs2⟩ := Links.seg_split.mp h.seg
  have hb := headD_mem l2 hd
  obtain ⟨hn1,hn2⟩ := ne_of_notMem hn
  refine ⟨hnd,Links.seg_append.mpr ⟨hs1.retarget hd1 ?_ ?_ ?_,hs2.resource ?_ ?_ ?_⟩⟩
  · exact fun x hx hne => Links.insert_next_of_ne (hn1 x hx) hne
  · intro x hx
    refine Links.insert_prev_of_ne (hn1 x (mem_cons_of_mem hd hx)) ?_
    rintro rfl
    exact h12 _ hx hb
  · exact Links.insert_adj_left (hn2 _ hb).symm
  · intro x hx
    refine Links.insert_next_of_ne (hn2 x (mem_append_left [hd] hx)) ?_
    rintro rfl
    exact h21 _ hx getLastD_mem_cons
  · intro x hx
    refine Links.insert_prev_of_ne (hn2 x (mem_of_mem_tail hx)) ?_
    rintro rfl
    exact headD_notMem_tail hd2 hx
  · exact Links.insert_adj_right (hn1 _ getLastD_mem_cons).symm

theorem remove (h : Ring k hd (l1 ++ n :: l2)) : Ring (k.remove (l1.getLastD hd) n (l2.headD hd)) hd (l1 ++ l2) := by
  have hnd := h.nodup
  rw [← cons_append,nodup_middle,cons_append,nodup_cons] at hnd
  obtain ⟨hn,hnd⟩ := hnd
  obtain ⟨hd1,hd2,h21,h12⟩ := split hnd
  obtain ⟨hs1,hs2⟩ := Links.seg_append.mp h.seg
  have hb := headD_mem l2 hd
  obtain ⟨hn1,hn2⟩ := ne_of_notMem hn
  have hadj : (k.remove (l1.getLastD hd) n (l2.headD hd)).Adj (l1.getLastD hd) (l2.headD hd) :=
    Links.remove_adj (hn1 _ getLastD_mem_cons) (hn2 _ hb)
  refine ⟨hnd,Links.seg_split.mpr ⟨hs1.retarget hd1 ?_ ?_ hadj,hs2.resource ?_ ?_ hadj⟩⟩
  · exact fun x hx hne => Links.remove_next_of_ne (hn1 x hx) hne
  · intro x hx
    refine Links.remove_prev_of_ne (hn1 x (mem_cons_of_mem hd hx)) ?_
    rintro rfl
    exact h12 _ hx hb
  · intro x hx
    refine Links.remove_next_of_ne (hn2 x (mem_append_left [hd] hx)) ?_
    rintro rfl
    exact h21 _ hx getLastD_mem_cons
  · intro x hx
    refine Links.remove_prev_of_ne (hn2 x (mem_of_mem_tail hx)) ?_
    rintro rfl
    exact headD_notMem_tail hd2 hx

end Ring

end Csci402.Lib
