import Mathlib.Data.List.Nodup
import Mathlib.Logic.Function.Basic

/-! A list in the order of last use. An element that is used goes to the back, and its time is
noted; one that is taken off loses its place. The elements are then in the order of their
times, and the one in front has not been used for longest. -/

namespace Csci402.Lib

open Function List

variable {E : Type*} {l : List E} {stamp : E → ℕ} {now : ℕ} {e : E}

structure Recency (l : List E) (stamp : E → ℕ) (now : ℕ) : Prop where
  sorted : l.Pairwise fun a b => stamp a < stamp b
  past : ∀ a ∈ l, stamp a < now

namespace Recency

theorem later (h : Recency l stamp now) : Recency l stamp (now+1) :=
  ⟨h.sorted,fun a ha => Nat.lt_succ_of_lt (h.past a ha)⟩

theorem head (h : Recency (e :: l) stamp now) : ∀ a ∈ l, stamp e < stamp a := (pairwise_cons.mp h.sorted).1

variable [DecidableEq E]

theorem erase (h : Recency l stamp now) (e : E) : Recency (l.erase e) stamp now :=
  ⟨h.sorted.sublist erase_sublist,fun a ha => h.past a (mem_of_mem_erase ha)⟩

/-- An element is used. -/
theorem touch (h : Recency l stamp now) (e : E) : Recency (l.erase e ++ [e]) (update stamp e now) (now+1) := by
  have hnodup : l.Nodup := h.sorted.imp fun hab he => Nat.ne_of_lt hab (congrArg stamp he)
  have hne : ∀ a ∈ l.erase e, a ≠ e := fun a ha he => by
    rw [he] at ha
    exact hnodup.not_mem_erase ha
  have hold := h.erase e
  refine ⟨?_,fun a ha => ?_⟩
  · refine pairwise_append.mpr ⟨?_,pairwise_singleton _ e,fun a ha b hb => ?_⟩
    · refine hold.sorted.imp_of_mem fun {a b} ha hb hab => ?_
      rwa [update_of_ne (hne a ha),update_of_ne (hne b hb)]
    · rw [mem_singleton.mp hb,update_self,update_of_ne (hne a ha)]
      exact hold.past a ha
  · rcases mem_append.mp ha with ha | ha
    · rw [update_of_ne (hne a ha)]
      exact Nat.lt_succ_of_lt (hold.past a ha)
    · rw [mem_singleton.mp ha,update_self]
      exact Nat.lt_succ_self now

end Recency

end Csci402.Lib
