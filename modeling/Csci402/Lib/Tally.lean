import Mathlib.Algebra.BigOperators.Intervals
import Mathlib.Algebra.BigOperators.Pi
import Mathlib.Algebra.Order.BigOperators.Group.Finset
import Mathlib.Algebra.Order.Group.Int
import Mathlib.Tactic.Abel

/-! Counting references. What refers to objects is a family of optional targets; its
tally is the function that says how often each object is the target. Tallies are
added and subtracted as functions, so a change of a few references is a change of
the tally by a few unit functions. -/

namespace Csci402.Lib

open Function List

variable {κ α : Type*}

section Range

variable {f g : ℕ → κ → ℤ} {n k : ℕ}

/-- One member of the family changes. -/
theorem sum_range_of_eq (hk : k < n) (h : ∀ i, i ≠ k → g i = f i) :
    ∑ i ∈ Finset.range n, g i = ∑ i ∈ Finset.range n, f i+(g k - f k) := by
  have hmem : k ∈ Finset.range n := Finset.mem_range.mpr hk
  rw [← Finset.add_sum_erase _ _ hmem,← Finset.add_sum_erase _ f hmem,
    Finset.sum_congr rfl fun i hi => h i (Finset.ne_of_mem_erase hi)]
  abel

theorem sum_range_update {β : Type*} (c : β → κ → ℤ) {h : ℕ → β} (x : β) (hk : k < n) :
    ∑ i ∈ Finset.range n, c (update h k x i) = ∑ i ∈ Finset.range n, c (h i)+(c x - c (h k)) := by
  have := sum_range_of_eq (f := fun i => c (h i)) (g := fun i => c (update h k x i)) hk fun i hi => by
    rw [update_of_ne hi]
  rwa [update_self] at this

theorem sum_range_nonneg (h : ∀ i, 0 ≤ f i) : 0 ≤ ∑ i ∈ Finset.range n, f i := fun x => by
  rw [Finset.sum_apply]
  exact Finset.sum_nonneg fun i _ => h i x

/-- A member of a family of non-negative functions is at most the sum. -/
theorem le_sum_range (h : ∀ i, 0 ≤ f i) (hk : k < n) (x : κ) : f k x ≤ (∑ i ∈ Finset.range n, f i) x := by
  rw [Finset.sum_apply]
  exact Finset.single_le_sum (f := fun i => f i x) (fun i _ => h i x) (Finset.mem_range.mpr hk)

end Range

variable [DecidableEq κ]

/-- One reference, if there is one. -/
def tally (target : Option κ) : κ → ℤ := target.elim 0 fun x => Pi.single x 1

@[simp] theorem tally_none : tally (none : Option κ) = 0 := rfl

@[simp] theorem tally_some (x : κ) : tally (some x) = Pi.single x 1 := rfl

theorem tally_apply (target : Option κ) (x : κ) : tally target x = if target = some x then 1 else 0 := by
  cases target with
  | none => simp
  | some y => simp [Pi.single_apply,eq_comm]

theorem tally_nonneg (target : Option κ) : 0 ≤ tally target := fun x => by
  rw [tally_apply]
  split <;> simp

/-- The references of a list of elements. -/
def tallyList (target : α → Option κ) (l : List α) : κ → ℤ := (l.map fun a => tally (target a)).sum

section List

variable {target : α → Option κ} {l l' : List α} {a : α} {x : κ}

@[simp] theorem tallyList_nil : tallyList target [] = 0 := rfl

@[simp] theorem tallyList_cons : tallyList target (a :: l) = tally (target a)+tallyList target l := by
  simp [tallyList]

@[simp] theorem tallyList_append : tallyList target (l ++ l') = tallyList target l+tallyList target l' := by
  simp [tallyList]

theorem tallyList_apply (target : α → Option κ) (l : List α) (x : κ) :
    tallyList target l x = (l.countP fun a => target a = some x : ℕ) := by
  induction l with
  | nil => rfl
  | cons a l ih =>
    rw [tallyList_cons,Pi.add_apply,ih,tally_apply,countP_cons]
    split <;> simp_all [add_comm]

theorem tallyList_nonneg (target : α → Option κ) (l : List α) : 0 ≤ tallyList target l := fun x => by
  rw [tallyList_apply]
  exact Int.natCast_nonneg _

theorem tallyList_erase [DecidableEq α] (ha : a ∈ l) :
    tallyList target (l.erase a) = tallyList target l - tally (target a) := by
  induction l with
  | nil => cases ha
  | cons b l ih =>
    by_cases hb : b = a
    · subst hb
      rw [erase_cons_head,tallyList_cons,add_sub_cancel_left]
    · have hmem : a ∈ l := (mem_cons.mp ha).resolve_left fun h => hb h.symm
      rw [erase_cons_tail (by simpa using hb),tallyList_cons,tallyList_cons,ih hmem]
      abel

theorem tallyList_pos (ha : a ∈ l) (hx : target a = some x) : 1 ≤ tallyList target l x := by
  rw [tallyList_apply]
  have : 0 < l.countP fun a => decide (target a = some x) :=
    countP_pos_iff.mpr ⟨a,ha,by simp [hx]⟩
  omega

end List

end Csci402.Lib
