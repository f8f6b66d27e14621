import Mathlib.Data.List.Sort
import Mathlib.Order.Basic

/-! Bubble sort by a key, seen from inside a pass. A list is cut into what has been
passed, the element that is carried, what is still to be met, and the part that
earlier passes have settled. A comparison of equal keys ends the sort, so the carried
element is strictly above all that it has passed, and the settled part is strictly
increasing and strictly above the rest. -/

namespace Csci402.Lib.Bubble

open List

variable {α κ : Type*} [LinearOrder κ] {key : α → κ} {swapped : Bool} {pre pre' post : List α} {x y : α}

/-- The part `post` has its final place behind `pre`. -/
structure Settled (key : α → κ) (pre post : List α) : Prop where
  sorted : post.Pairwise (key · < key ·)
  below : ∀ p ∈ pre, ∀ q ∈ post, key p < key q

/-- The element `x` is carried behind `pre` in a pass that has or has not swapped. -/
structure Carried (key : α → κ) (swapped : Bool) (pre : List α) (x : α) : Prop where
  below : ∀ p ∈ pre, key p < key x
  sorted : swapped = false → pre.Pairwise (key · < key ·)

theorem Settled.nil (pre : List α) : Settled key pre [] := ⟨.nil,by simp⟩

theorem Settled.perm (h : Settled key pre post) (hp : (pre'.map key).Perm (pre.map key)) : Settled key pre' post := by
  refine ⟨h.sorted,fun p hm q hq => ?_⟩
  obtain ⟨p',hm',he⟩ := List.mem_map.mp (hp.mem_iff.mp (List.mem_map_of_mem hm))
  rw [← he]
  exact h.below p' hm' q hq

theorem Carried.start (x : α) : Carried key false [] x := ⟨by simp,fun _ => .nil⟩

theorem pairwise_concat (h : pre.Pairwise (key · < key ·)) (hx : ∀ p ∈ pre, key p < key x) :
    (pre ++ [x]).Pairwise (key · < key ·) := by
  rw [pairwise_append]
  refine ⟨h,pairwise_singleton _ x,fun p hp q hq => ?_⟩
  rw [mem_singleton.mp hq]
  exact hx p hp

/-- The element in front is larger: it is carried from here on. -/
theorem Carried.pass (h : Carried key swapped pre x) (hlt : key x < key y) : Carried key swapped (pre ++ [x]) y := by
  refine ⟨fun p hp => ?_,fun hs => pairwise_concat (h.sorted hs) h.below⟩
  rcases mem_append.mp hp with hp | hp
  · exact (h.below p hp).trans hlt
  · rw [mem_singleton.mp hp]
    exact hlt

/-- The element in front is smaller: it changes places with the one that is carried. Both may be
new elements with the old keys. -/
theorem Carried.swap {x' y' : α} (h : Carried key swapped pre x) (hlt : key y < key x) (hx : key x' = key x)
    (hy : key y' = key y) : Carried key true (pre ++ [y']) x' := by
  refine ⟨fun p hp => ?_,nofun⟩
  rw [hx]
  rcases mem_append.mp hp with hp | hp
  · exact h.below p hp
  · rw [mem_singleton.mp hp,hy]
    exact hlt

/-- At the end of a pass the carried element is settled too. -/
theorem Settled.extend (h : Settled key (pre ++ [x]) post) (hc : Carried key swapped pre x) :
    Settled key pre (x :: post) := by
  refine ⟨pairwise_cons.mpr ⟨h.below x (by simp),h.sorted⟩,fun p hp q hq => ?_⟩
  rcases mem_cons.mp hq with rfl | hq
  · exact hc.below p hp
  · exact h.below p (mem_append_left _ hp) q hq

/-- After a pass without a swap the whole list is in order. -/
theorem Settled.sorted_of_pass (h : Settled key (pre ++ [x]) post) (hc : Carried key false pre x) :
    (pre ++ [x] ++ post).Pairwise (key · < key ·) :=
  pairwise_append.mpr ⟨pairwise_concat (hc.sorted rfl) hc.below,h.sorted,h.below⟩

end Csci402.Lib.Bubble
