import Mathlib.Data.Int.Notation
import Mathlib.Data.List.Nodup
import Mathlib.Logic.Function.Basic

/-! A family of lists in which every element has at most one place, given by its key:
the shape of intrusive lists, where an element is on the list that its fields say,
or on none. Taking an element off whatever list holds it and putting an element
without a key onto one list keep the shape. -/

namespace Csci402.Lib

open Function List

variable {K E : Type*}

/-- The element `e` is on the list `k` exactly if its key is `k`, and there once. -/
def Indexed (lists : K → List E) (key : E → Option K) : Prop :=
  ∀ k, (lists k).Nodup ∧ ∀ e, e ∈ lists k ↔ key e = some k

namespace Indexed

variable {lists : K → List E} {key : E → Option K}

theorem nodup (h : Indexed lists key) (k : K) : (lists k).Nodup := (h k).1

theorem mem (h : Indexed lists key) {k : K} {e : E} : e ∈ lists k ↔ key e = some k := (h k).2 e

theorem notMem (h : Indexed lists key) {e : E} (he : key e = none) (k : K) : e ∉ lists k := by
  simp [h.mem,he]

/-- One list has been emptied. -/
theorem clear [DecidableEq K] [DecidableEq E] (h : Indexed lists key) (k : K) :
    Indexed (update lists k []) fun e => if e ∈ lists k then none else key e := by
  refine fun k' => ⟨?_,fun e => ?_⟩ <;> by_cases hk : k' = k
  · subst hk; simp
  · simpa [hk] using h.nodup k'
  · subst hk; simp [h.mem]
  · by_cases he : key e = some k
    · simp [hk,h.mem,he,Ne.symm hk]
    · simp [hk,h.mem,he]

variable [DecidableEq E]

theorem erase (h : Indexed lists key) (e : E) : Indexed (fun k => (lists k).erase e) (update key e none) := by
  refine fun k => ⟨(h.nodup k).erase e,fun x => ?_⟩
  by_cases hx : x = e
  · subst hx
    simpa using (h.nodup k).not_mem_erase
  · simp [hx,h.mem]

/-- The same, for a removal that looks through every list. -/
theorem filter_ne (h : Indexed lists key) (e : E) :
    Indexed (fun k => (lists k).filter (· ≠ e)) (update key e none) := by
  refine fun k => ⟨(h.nodup k).filter _,fun x => ?_⟩
  by_cases hx : x = e
  · subst hx
    simp
  · simp [hx,h.mem]

theorem insert [DecidableEq K] (h : Indexed lists key) {e : E} (he : key e = none) (k : K)
    {l : List E} (hl : l.Perm (e :: lists k)) : Indexed (update lists k l) (update key e (some k)) := by
  intro k'
  by_cases hk : k' = k
  · subst hk
    refine ⟨by simpa using hl.nodup_iff.mpr ((h.nodup k').cons (h.notMem he k')),fun x => ?_⟩
    by_cases hx : x = e
    · subst hx
      simp [hl.mem_iff]
    · simp [hl.mem_iff,hx,h.mem]
  · refine ⟨by simpa [hk] using h.nodup k',fun x => ?_⟩
    by_cases hx : x = e
    · subst hx
      simp [hk,h.mem,he,Ne.symm hk]
    · simp [hk,hx,h.mem]

theorem count [DecidableEq K] (h : Indexed lists key) (k : K) (e : E) :
    (lists k).count e = if key e = some k then 1 else 0 := by
  rw [(h.nodup k).count]
  simp only [h.mem]

/-- How long the lists are after an element has been taken off. -/
theorem length_erase (h : Indexed lists key) {e : E} {k : K} (he : key e = some k) :
    (((lists k).erase e).length : ℤ) = (lists k).length - 1 := by
  have hm : e ∈ lists k := h.mem.mpr he
  have := length_pos_of_mem hm
  rw [length_erase_of_mem hm]
  omega

theorem erase_of_ne (h : Indexed lists key) {e : E} {k : K} (he : key e ≠ some k) : (lists k).erase e = lists k :=
  erase_of_not_mem fun hm => he (h.mem.mp hm)

end Indexed

end Csci402.Lib
