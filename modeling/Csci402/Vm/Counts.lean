import Mathlib.Algebra.BigOperators.Ring.Finset
import Csci402.Vm.FirstFit
import Csci402.Vm.System

/-! The counts of memory objects over whole runs: an object counts its pages, the areas
that have it, and the shadow objects that shadow it or have it at the end of their chain,
and it is there exactly as long as one of the latter is. -/

namespace Csci402.Vm

namespace Memory

open Lib Option

variable {D : Type} {U : UserMem} {s s0 t : Memory D} {ext : ℕ → ℤ} {o : ℕ} {ob : Mmobj}

/-- The number of areas that have the object. -/
def areaCount (s : Memory D) (o : ℕ) : ℕ :=
  ∑ pid ∈ Finset.range s.nextPid, (s.vmmList pid).countP fun a => a.vmaObj = some o

/-- The number of objects that shadow the object. -/
def shadowCount (s : Memory D) (o : ℕ) : ℕ :=
  ((Finset.range s.nextObj).filter fun x => (s.objs x).bind Mmobj.mmoShadowed = some o).card

/-- The number of objects that have the object at the end of their chain. -/
def bottomCount (s : Memory D) (o : ℕ) : ℕ :=
  ((Finset.range s.nextObj).filter fun x => (s.objs x).bind Mmobj.mmoBottomObj = some o).card

/-! ### Counts and tallies -/

theorem areaRefs_apply (s : Memory D) (o : ℕ) : s.areaRefs o = s.areaCount o := by
  rw [areaRefs,areaCount,Finset.sum_apply,Nat.cast_sum]
  exact Finset.sum_congr rfl fun pid _ => tallyList_apply _ _ _

theorem objRefs_apply (s : Memory D) (o : ℕ) : s.objRefs ∅ o = s.shadowCount o+s.bottomCount o := by
  have hlinks : ∀ x, links (s.objs x) o = (if (s.objs x).bind Mmobj.mmoShadowed = some o then 1 else 0) +
      if (s.objs x).bind Mmobj.mmoBottomObj = some o then 1 else 0 := by
    intro x
    cases hx : s.objs x with
    | none => simp [links]
    | some xob => simp [links,tally_apply]
  simp only [objRefs,Finset.sum_apply,Finset.notMem_empty,if_false,hlinks,Finset.sum_add_distrib]
  rw [shadowCount,bottomCount,Finset.card_filter,Finset.card_filter]
  push_cast
  rfl

/-- An object at the end of a chain is shadowed, by the last shadow object of the chain. -/
theorem Heap.shadowCount_pos (h : Heap s ∅ ext) (hb : 0 < s.bottomCount o) : 0 < s.shadowCount o := by
  obtain ⟨x,hx⟩ := Finset.card_pos.mp hb
  obtain ⟨hxn,hxb⟩ := Finset.mem_filter.mp hx
  obtain ⟨xob,hxo,hbot⟩ := bind_eq_some_iff.mp hxb
  have hbottom : s.mmobjBottomObj x = some o := by
    have hk : xob.mmoOps = .shadow := by
      by_contra hc
      rw [(h.shape.base x xob hxo hc).2] at hbot
      cases hbot
    obtain ⟨sh,b,hl⟩ := h.shape.link x xob hxo (Finset.notMem_empty x) hk
    cases hbot.symm.trans hl.bottom
    simp [mmobjBottomObj,hxo,hl.shadowed,hl.bottom]
  have hne : x ≠ o := by
    rintro rfl
    have := (h.shape.under_bottom hbottom).2
    obtain ⟨sh,b,hl⟩ := h.shape.link x xob hxo (Finset.notMem_empty x) (by
      by_contra hc
      rw [(h.shape.base x xob hxo hc).2] at hbot
      cases hbot)
    simp [under,hxo,hl.shadowed] at this
  obtain ⟨y,hy⟩ : ∃ y, s.under y = some o := by
    have hu := (h.shape.under_bottom hbottom).1
    clear hxb hbot hbottom hxn hxo hx
    induction hu with
    | refl => exact absurd rfl hne
    | @step x y z hxy hyz ih =>
      by_cases hyz' : y = z
      · exact ⟨x,hyz' ▸ hxy⟩
      · exact ih hb hyz'
  obtain ⟨yob,hyo,-⟩ := bind_eq_some_iff.mp hy
  exact Finset.card_pos.mpr ⟨y,Finset.mem_filter.mpr
    ⟨Finset.mem_range.mpr (h.shape.obj_lt y yob hyo),hy⟩⟩

/-! ### Reachable states -/

theorem Sys.count (h : Sys U s) (ho : s.objs o = some ob) (hk : ob.mmoOps ≠ .vnode) :
    ob.mmoRefcount = ob.mmoNrespages+s.areaCount o+s.shadowCount o+s.bottomCount o := by
  have hheld : s.held o = 0 := by
    by_contra hc
    obtain ⟨ob',ho',hv⟩ := h.held o (Nat.pos_of_ne_zero hc)
    cases ho.symm.trans ho'
    exact hk hv
  have := h.heap.count o ob ho (Finset.notMem_empty o)
  simp only [Pi.add_apply,areaRefs_apply,objRefs_apply,hheld] at this
  omega

/-- An object that nothing refers to is not there. -/
theorem Sys.refs_pos (h : Sys U s) (ho : s.objs o = some ob) (hk : ob.mmoOps ≠ .vnode) :
    0 < s.areaCount o+s.shadowCount o := by
  have hu := (h.heap.used o ob ho (Finset.notMem_empty o)).2 hk
  have hc := h.count ho hk
  have hb := h.heap.shadowCount_pos (o := o)
  by_contra hzero
  have : s.bottomCount o ≠ 0 := by omega
  exact absurd (hb (Nat.pos_of_ne_zero this)) (by omega)

/-- What an area or a shadow object refers to is there. -/
theorem Sys.refs_isSome (h : Sys U s) (hpos : 0 < s.areaCount o+s.shadowCount o) : (s.objs o).isSome := by
  rcases Nat.eq_zero_or_pos (s.areaCount o) with hz | ha
  · obtain ⟨x,hx⟩ := Finset.card_pos.mp (show 0 < s.shadowCount o by omega)
    obtain ⟨-,hx⟩ := Finset.mem_filter.mp hx
    obtain ⟨xob,hxo,-⟩ := bind_eq_some_iff.mp hx
    exact h.heap.shape.under_isSome (.step hx (.refl o)) (by simp [hxo])
  · obtain ⟨pid,-,hp⟩ := Finset.exists_ne_zero_of_sum_ne_zero (Nat.ne_of_gt ha)
    obtain ⟨a,ham,hao⟩ := List.countP_pos_iff.mp (Nat.pos_of_ne_zero hp)
    exact (h.heap.holders.area pid a ham o (by simpa using hao)).2

/-- In every state of a run the count of an anonymous or shadow object is the number of its
pages and of the references to it; the chain of a shadow object ends in its bottom object; and
no area, shadow object or page is left of an object that has been freed. An object is freed
by the call that takes the last area and the last shadow object away from it, and never
comes back. -/
theorem refcount_exact [Zero D] (U : UserMem) {cs : List (Env D × Call D)} (h0 : Initial s0)
    (h : Exec (step U) Allowed s0 cs s) : (∀ o ob, s.objs o = some ob → ob.mmoOps ≠ .vnode →
      ob.mmoRefcount = ob.mmoNrespages+s.areaCount o+s.shadowCount o+s.bottomCount o) ∧
    (∀ o ob, s.objs o = some ob → ob.mmoOps = .shadow → ∃ b bob, ob.mmoBottomObj = some b ∧
      Under s.under o b ∧ s.objs b = some bob ∧ bob.mmoOps ≠ .shadow ∧ bob.mmoShadowed = none) ∧
    (∀ pid, ∀ a ∈ s.vmmList pid, ∃ o, a.vmaObj = some o ∧ (s.objs o).isSome) ∧
    (∀ o ob x, s.objs o = some ob → (ob.mmoShadowed = some x ∨ ob.mmoBottomObj = some x) → (s.objs x).isSome) ∧
    (∀ f pf, s.frames f = some pf → (s.objs pf.pfObj).isSome) ∧
    ∀ c t, Allowed s c → step U s c = some t →
      (∀ o, o < s.nextObj → s.objs o = none → t.objs o = none) ∧
      ∀ o ob, s.objs o = some ob → ob.mmoOps ≠ .vnode →
        (t.objs o = none ↔ t.areaCount o+t.shadowCount o = 0) := by
  have hsys : Sys U s := sys_of_exec h0.sys h
  have hshape := hsys.heap.shape
  have hbot : ∀ o ob, s.objs o = some ob → ob.mmoOps = .shadow → ∃ b bob, ob.mmoBottomObj = some b ∧
      Under s.under o b ∧ s.objs b = some bob ∧ bob.mmoOps ≠ .shadow ∧ bob.mmoShadowed = none := by
    intro o ob ho hk
    obtain ⟨sh,b,hl⟩ := hshape.link o ob ho (Finset.notMem_empty o) hk
    obtain ⟨bob,hb,hbk⟩ := hl.base
    exact ⟨b,bob,hl.bottom,(hshape.under_bottom (by simp [mmobjBottomObj,ho,hl.shadowed,hl.bottom])).1,hb,hbk,
      (hshape.base b bob hb hbk).1⟩
  refine ⟨fun o ob ho hk => hsys.count ho hk,hbot,fun pid a ha => ?_,fun o ob x ho hx => ?_,
    fun f pf hf => ?_,fun c t hc hst => ⟨fun o hlt ho => ?_,fun o ob ho hk => ⟨fun hnone => ?_,fun hzero => ?_⟩⟩⟩
  · obtain ⟨o,ob,ho,hob⟩ := hsys.area_obj ha
    exact ⟨o,ho,by simp [hob]⟩
  · rcases hx with hx | hx
    · exact hshape.under_isSome (.step (show s.under o = some x by simp [under,ho,hx]) (.refl x)) (by simp [ho])
    · have hk : ob.mmoOps = .shadow := by
        by_contra hc
        rw [(hshape.base o ob ho hc).2] at hx
        cases hx
      obtain ⟨b,bob,hb,-,hbo,-⟩ := hbot o ob ho hk
      cases hx.symm.trans hb
      simp [hbo]
  · obtain ⟨ob,hob,-⟩ := hsys.heap.pages.owner hf
    simp [hob]
  · cases hto : t.objs o with
    | none => rfl
    | some tob =>
      obtain ⟨ob0,h0,-⟩ := (hsys.step hc hst).ages.obj o tob hlt hto
      cases ho.symm.trans h0
  · by_contra hne
    have := (hsys.step hc hst).sys.refs_isSome (Nat.pos_of_ne_zero hne)
    rw [hnone] at this
    cases this
  · cases hto : t.objs o with
    | none => rfl
    | some tob =>
      obtain ⟨ob0,h0,he⟩ := (hsys.step hc hst).ages.obj o tob (hshape.obj_lt o ob ho) hto
      cases ho.symm.trans h0
      have hpos := (hsys.step hc hst).sys.refs_pos hto (by rwa [show tob.mmoOps = ob.mmoOps from congrArg Prod.fst he])
      omega

end Memory

open Memory in
/-- A process maps four private pages, writes one of them and forks. -/
def forkingCalls : List (Env ℕ × Call ℕ) :=
  [.procCreate,.map 0 none 0x500 4 readWrite privateAnon 0 .hilo,.write 0 0x501 fun _ => 7,.fork 0].map
    fun c => (calmEnv, c)

open Memory Lib in
theorem refcount_exact_forkingCalls : ∃ s, Exec (step sampleUser) Allowed emptyMemory forkingCalls s ∧
    (∃ ob, s.objs 1 = some ob ∧ ob.mmoRefcount = 3 ∧ ob.mmoNrespages = 1) ∧ s.areaCount 1 = 0 ∧ s.shadowCount 1 = 2 ∧
    ∀ o ob, s.objs o = some ob → ob.mmoOps ≠ .vnode →
      ob.mmoRefcount = ob.mmoNrespages+s.areaCount o+s.shadowCount o+s.bottomCount o := by
  have h : Exec (step sampleUser) Allowed emptyMemory forkingCalls _ := Exec.ofRun rfl
  exact ⟨_,h,⟨_,rfl,rfl,rfl⟩,by decide,by decide,(refcount_exact sampleUser emptyMemory_initial h).1⟩

end Csci402.Vm
