import Mathlib.Data.List.Nodup

/-! First-in first-out service of a queue, read off the lists before and after each
step. An entry that joins goes to the back, one that is served comes from the front,
and one may be withdrawn from anywhere. What has been served, followed by what still
waits, is then all that joined, in order, without the withdrawn entries. -/

namespace Csci402.Lib

variable {E : Type*} [DecidableEq E]

/-- The entries that a step has added to the queue. -/
def joined (q q' : List E) : List E := q'.filter (· ∉ q)

/-- The entries that a step has taken off the queue. -/
def parted (q q' : List E) : List E := q.filter (· ∉ q')

@[simp] theorem joined_self (q : List E) : joined q q = [] := by
  simp [joined]

@[simp] theorem parted_self (q : List E) : parted q q = [] := by
  simp [parted]

theorem joined_concat {q : List E} {e : E} (h : e ∉ q) : joined q (q ++ [e]) = [e] := by
  simp [joined,List.filter_append,h]

theorem parted_concat (q : List E) (e : E) : parted q (q ++ [e]) = [] := by
  simp +contextual [parted]

theorem joined_filter (q : List E) (p : E → Bool) : joined q (q.filter p) = [] := by
  simp +contextual [joined]

theorem parted_filter {q : List E} (hq : q.Nodup) {e : E} (h : e ∈ q) : parted q (q.filter (· ≠ e)) = [e] := by
  have hf : q.filter (· ∉ q.filter (· ≠ e)) = q.filter (· == e) :=
    List.filter_congr fun x hx => by simp [hx,beq_eq_decide]
  rw [parted,hf,List.filter_beq,List.count_eq_one_of_mem hq h,List.replicate_one]

theorem filter_ne_of_notMem {q : List E} {e : E} (h : e ∉ q) : q.filter (· ≠ e) = q :=
  List.filter_eq_self.mpr fun _ hx => decide_eq_true fun hxe => h (hxe ▸ hx)

/-- The logs of a queue: who joined, who was served and who was withdrawn, in order. -/
structure Fifo (arrived served withdrawn q : List E) : Prop where
  order : served ++ q = arrived.filter (· ∉ withdrawn)
  nodup : arrived.Nodup
  known : withdrawn ⊆ arrived

namespace Fifo

variable {arrived served withdrawn q : List E} {e : E}

theorem nil : Fifo ([] : List E) [] [] [] :=
  ⟨rfl,List.nodup_nil,List.Subset.refl _⟩

theorem nodup_waiting (h : Fifo arrived served withdrawn q) : (served ++ q).Nodup :=
  h.order ▸ h.nodup.filter _

theorem join (h : Fifo arrived served withdrawn q) (he : e ∉ arrived) :
    Fifo (arrived ++ [e]) served withdrawn (q ++ [e]) where
  order := by
    have hw : e ∉ withdrawn := fun hw => he (h.known hw)
    rw [← List.append_assoc,h.order,List.filter_append,List.filter_singleton]
    simp [hw]
  nodup := List.nodup_append.mpr ⟨h.nodup,List.nodup_singleton e,by
    rintro a ha b hb rfl
    exact he (List.mem_singleton.mp hb ▸ ha)⟩
  known := fun _ hx => List.mem_append_left _ (h.known hx)

theorem serve (h : Fifo arrived served withdrawn (e :: q)) : Fifo arrived (served ++ [e]) withdrawn q :=
  ⟨by simpa using h.order,h.nodup,h.known⟩

theorem withdraw (h : Fifo arrived served withdrawn q) (he : e ∈ q) :
    Fifo arrived served (withdrawn ++ [e]) (q.filter (· ≠ e)) where
  order := by
    have hd := List.disjoint_of_nodup_append h.nodup_waiting
    calc served ++ q.filter (· ≠ e) = (served ++ q).filter (· ≠ e) := by
          rw [List.filter_append,filter_ne_of_notMem fun hes => hd hes he]
      _ = arrived.filter (· ∉ withdrawn ++ [e]) := by
        rw [h.order,List.filter_filter]
        refine List.filter_congr fun x _ => ?_
        by_cases hx : x = e <;> simp [hx]
  nodup := h.nodup
  known := List.append_subset.mpr ⟨h.known,fun x hx => by
    have : e ∈ served ++ q := List.mem_append_right _ he
    rw [h.order] at this
    exact List.mem_singleton.mp hx ▸ List.mem_of_mem_filter this⟩

end Fifo

end Csci402.Lib
