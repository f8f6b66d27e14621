import Csci402.Lib.Overlay
import Csci402.Vm.HeapAreas

/-! Chains of shadow objects as stores in layers: each object holds some pages, and a page
that an object does not hold is looked for in the object it shadows. What a page
contains, seen from an object, is what the nearest frame holds, or what the object at
the end of the chain would fill a new frame with. -/

namespace Csci402.Vm

namespace Memory

open Lib Option List

variable {D : Type} {s t : Memory D} {ext : ℕ → ℤ} {o b n x y f : ℕ} {ob : Mmobj} {pf : Pframe D}

/-- What an object shadows. -/
def under (s : Memory D) (x : ℕ) : Option ℕ := (s.objs x).bind Mmobj.mmoShadowed

/-- The nearest frame for a page, from an object down its chain. -/
def nearest (s : Memory D) (o n : ℕ) : Option ℕ := resolve s.under s.pframeGetResident o n

/-- What an object itself has for a page. -/
def held? (s : Memory D) (x n : ℕ) : Option D :=
  (s.pframeGetResident x n).bind fun f => (s.frames f).map Pframe.pfData

section Content

variable [Zero D]

/-- What a new frame for a page is filled with, at the end of the chain of `o`. -/
def blank (s : Memory D) (o n : ℕ) : D :=
  (s.mmobjBottomObj o).elim 0 fun b =>
    if (s.objs b).any fun ob => ob.mmoOps = .vnode then s.disk b n else 0

/-- What a page contains, seen from an object. -/
def content (s : Memory D) (o n : ℕ) : D := (resolve s.under s.held? o n).getD (s.blank o n)

end Content

/-! ### Frames of an object -/

/-- The loop of `pframe_get_resident` finds the frame with the page. -/
theorem Pages.resident_iff (h : Pages s) : s.pframeGetResident o n = some f ↔
    ∃ pf, s.frames f = some pf ∧ pf.pfObj = o ∧ pf.pfPagenum = n := by
  constructor
  · intro hr
    obtain ⟨ob,ho,hf⟩ := bind_eq_some_iff.mp hr
    obtain ⟨pf,hpf,he⟩ := h.resident_frame ho (mem_of_find?_eq_some hf)
    have hn := find?_some hf
    simp only [hpf,Option.any_some,decide_eq_true_eq] at hn
    exact ⟨pf,hpf,he,hn⟩
  · rintro ⟨pf,hpf,rfl,rfl⟩
    obtain ⟨ob,ho,hm⟩ := h.owner hpf
    cases hr : s.pframeGetResident pf.pfObj pf.pfPagenum with
    | none =>
      simp only [pframeGetResident,ho,bind_some,find?_eq_none] at hr
      exact absurd (by simp [hpf]) (hr f hm)
    | some g =>
      simp only [pframeGetResident,ho,bind_some] at hr
      obtain ⟨pg,hpg,he⟩ := h.resident_frame ho (mem_of_find?_eq_some hr)
      have hn := find?_some hr
      simp only [hpg,Option.any_some,decide_eq_true_eq] at hn
      rw [h.inj f g pf pg hpf hpg he.symm hn.symm]

theorem Pages.held?_eq_some (h : Pages s) (hpf : s.frames f = some pf) :
    s.held? pf.pfObj pf.pfPagenum = some pf.pfData := by
  rw [held?,h.resident_iff.mpr ⟨pf,hpf,rfl,rfl⟩]
  simp [hpf]

theorem Pages.resident_isSome (h : Pages s) (hr : s.pframeGetResident o n = some f) :
    ((s.frames f).map Pframe.pfData).isSome := by
  obtain ⟨pf,hpf,-⟩ := h.resident_iff.mp hr
  simp [hpf]

/-! ### Chains -/

theorem Shape.descends (h : Shape s ∅) : Descends s.under := by
  intro x y hy
  obtain ⟨ob,ho,hsh⟩ := bind_eq_some_iff.mp hy
  by_cases hk : ob.mmoOps = .shadow
  · obtain ⟨sh,b,hl⟩ := h.link x ob ho (Finset.notMem_empty x) hk
    rw [hl.shadowed] at hsh
    cases hsh
    exact hl.shadowed_lt
  · rw [(h.base x ob ho hk).1] at hsh
    cases hsh

theorem Shape.under_isSome (h : Shape s ∅) (hu : Under s.under x y) (hx : (s.objs x).isSome) : (s.objs y).isSome := by
  induction hu with
  | refl x => exact hx
  | @step x y z hy _ ih =>
    refine ih ?_
    obtain ⟨ob,ho,hsh⟩ := bind_eq_some_iff.mp hy
    by_cases hk : ob.mmoOps = .shadow
    · obtain ⟨sh,b,hl⟩ := h.link x ob ho (Finset.notMem_empty x) hk
      rw [hl.shadowed] at hsh
      cases hsh
      obtain ⟨shob,hsh,-⟩ := bind_eq_some_iff.mp hl.chain
      simp [hsh]
    · rw [(h.base x ob ho hk).1] at hsh
      cases hsh

/-- All objects of a chain have the same bottom object. -/
theorem Shape.bottom_under (h : Shape s ∅) (hu : Under s.under x y)
    (hb : s.mmobjBottomObj x = some b) : s.mmobjBottomObj y = some b := by
  induction hu with
  | refl x => exact hb
  | @step x y z hy _ ih =>
    refine ih ?_
    obtain ⟨ob,ho,hsh⟩ := bind_eq_some_iff.mp hy
    by_cases hk : ob.mmoOps = .shadow
    · obtain ⟨sh,b',hl⟩ := h.link x ob ho (Finset.notMem_empty x) hk
      rw [hl.shadowed] at hsh
      cases hsh
      have hb' : s.mmobjBottomObj x = some b' := by
        simp [mmobjBottomObj,ho,hl.shadowed,hl.bottom]
      rw [hb] at hb'
      cases hb'
      exact hl.chain
    · rw [(h.base x ob ho hk).1] at hsh
      cases hsh

/-- The chain of an object ends in its bottom object. -/
theorem Shape.under_bottom (h : Shape s ∅) (hb : s.mmobjBottomObj x = some b) :
    Under s.under x b ∧ s.under b = none := by
  induction x using Nat.strongRecOn with
  | ind x ih =>
    cases hy : s.under x with
    | none =>
      obtain ⟨ob,ho,hm⟩ := bind_eq_some_iff.mp hb
      have hsh : ob.mmoShadowed = none := by simpa [under,ho] using hy
      rw [hsh] at hm
      cases hm
      exact ⟨.refl _,hy⟩
    | some y =>
      have hu : Under s.under x y := .step hy (.refl y)
      obtain ⟨hyb,hb'⟩ := ih y (h.descends x y hy) (h.bottom_under hu hb)
      exact ⟨.step hy hyb,hb'⟩

/-! ### The loops down a chain -/

/-- The loop of `shadow_lookuppage` looks in the shadow objects of the chain only. -/
theorem Heap.findShadow (h : Heap s ∅ ext) {fuel : ℕ} (hb : s.mmobjBottomObj x = some b)
    (hf : x < fuel) : ∃ r, findShadow s n fuel x = some r ∧
      s.nearest x n = r.or (s.pframeGetResident b n) := by
  have hd := h.shape.descends
  induction fuel generalizing x with
  | zero => exact absurd hf (Nat.not_lt_zero x)
  | succ fuel ih =>
    obtain ⟨ob,ho,hm⟩ := bind_eq_some_iff.mp hb
    simp only [Memory.findShadow,ho,bind_some]
    cases hsh : ob.mmoShadowed with
    | none =>
      rw [hsh] at hm
      cases hm
      have hu : s.under b = none := by simp [under,ho,hsh]
      have hnear : s.nearest b n = s.pframeGetResident b n := by
        rw [nearest,resolve_eq hd,hu]
        simp
      exact ⟨none,rfl,by simpa using hnear⟩
    | some y =>
      have hu : s.under x = some y := by simp [under,ho,hsh]
      have hnear : s.nearest x n = (s.pframeGetResident x n).or (s.nearest y n) := by
        rw [nearest,resolve_eq hd,hu]
        rfl
      cases hr : s.pframeGetResident x n with
      | some f =>
        rw [hr] at hnear
        exact ⟨some f,rfl,hnear⟩
      | none =>
        have hlt := hd x y hu
        obtain ⟨r,hfs,h1⟩ := ih (h.shape.bottom_under (.step hu (.refl y)) hb) (by omega)
        rw [hr,none_or] at hnear
        exact ⟨r,hfs,hnear.trans h1⟩

/-- The loop of `shadow_fillpage` looks in the objects below `x`, the bottom included. -/
theorem Heap.findBelow (h : Heap s ∅ ext) {fuel : ℕ} (hx : (s.objs x).isSome) (hf : x < fuel) :
    findBelow s n fuel x = some ((s.under x).bind fun y => s.nearest y n) := by
  have hd := h.shape.descends
  induction fuel generalizing x with
  | zero => exact absurd hf (Nat.not_lt_zero x)
  | succ fuel ih =>
    obtain ⟨ob,ho⟩ := isSome_iff_exists.mp hx
    simp only [Memory.findBelow,ho,bind_some]
    cases hsh : ob.mmoShadowed with
    | none => simp [under,ho,hsh]
    | some y =>
      have hu : s.under x = some y := by simp [under,ho,hsh]
      have hnear : s.nearest y n = (s.pframeGetResident y n).or
          ((s.under y).bind fun z => s.nearest z n) := resolve_eq hd
      rw [hu,bind_some,hnear]
      dsimp only
      cases hr : s.pframeGetResident y n with
      | some f => rfl
      | none =>
        have hlt := hd x y hu
        simp only [none_or]
        exact ih (h.shape.under_isSome (.step hu (.refl y)) hx) (by omega)

/-! ### Contents -/

section Content

variable [Zero D]

/-- The contents of a page are those of the nearest frame. -/
theorem Heap.content_eq (h : Heap s ∅ ext) : s.content o n =
    ((s.nearest o n).bind fun f => (s.frames f).map Pframe.pfData).getD (s.blank o n) := by
  have hres : resolve s.under s.held? o n =
      (s.nearest o n).bind fun f => (s.frames f).map Pframe.pfData :=
    resolve_bind h.shape.descends fun _ _ _ hr => h.pages.resident_isSome hr
  rw [content,hres]

theorem Heap.content_of_nearest (h : Heap s ∅ ext) (hn : s.nearest o n = some f)
    (hf : s.frames f = some pf) : s.content o n = pf.pfData := by
  simp [h.content_eq,hn,hf]

end Content

/-- The nearest frame has the page, and is in an object of the chain. -/
theorem Heap.nearest_frame (h : Heap s ∅ ext) (hn : s.nearest o n = some f) :
    ∃ pf, s.frames f = some pf ∧ Under s.under o pf.pfObj ∧ pf.pfPagenum = n := by
  obtain ⟨y,hy,hr⟩ := resolve_eq_some h.shape.descends hn
  obtain ⟨pf,hf,rfl,hp⟩ := h.pages.resident_iff.mp hr
  exact ⟨pf,hf,hy,hp⟩

theorem Heap.nearest_base (h : Heap s ∅ ext) (hb : s.under b = none) : s.nearest b n = s.pframeGetResident b n := by
  rw [nearest,resolve_eq h.shape.descends,hb]
  simp

/-! ### Objects that stay -/

section Keeps

variable {ext' : ℕ → ℤ} (h : Heap s ∅ ext) (h' : Heap t ∅ ext') (hk : Keeps s t)

include h h' hk

theorem Keeps.resident (hx : x < s.nextObj) (ht : (t.objs x).isSome) :
    s.pframeGetResident x n = t.pframeGetResident x n := by
  refine Option.ext fun f => ?_
  rw [h.pages.resident_iff,h'.pages.resident_iff]
  constructor
  · rintro ⟨pf,hf,rfl,hp⟩
    exact ⟨pf,hk.frame_kept f pf hf hx ht,rfl,hp⟩
  · rintro ⟨pf,hf,he⟩
    exact ⟨pf,hk.frame_of f pf hf,he⟩

omit h h' in
theorem Keeps.under (hx : x < s.nextObj) (ht : (t.objs x).isSome) : s.under x = t.under x := by
  obtain ⟨tob,ht⟩ := isSome_iff_exists.mp ht
  obtain ⟨ob,ho,he⟩ := hk.obj x tob hx ht
  simp only [shape,Prod.mk.injEq] at he
  simp [Memory.under,ho,ht,he]

/-- The chain of an object that stays. -/
theorem Keeps.chain (ho : o < s.nextObj) (ht : (t.objs o).isSome) (hu : Under t.under o y) :
    s.under y = t.under y ∧ s.pframeGetResident y n = t.pframeGetResident y n := by
  have hy : y < s.nextObj := Nat.lt_of_le_of_lt (hu.le h'.shape.descends) ho
  have hty := h'.shape.under_isSome hu ht
  exact ⟨hk.under hy hty,hk.resident h h' hy hty⟩

theorem Keeps.nearest (ho : o < s.nextObj) (ht : (t.objs o).isSome) : t.nearest o n = s.nearest o n :=
  (resolve_congr h'.shape.descends h.shape.descends fun _ hu => hk.chain h h' ho ht hu).symm

omit h h' in
theorem Keeps.bottom (ho : o < s.nextObj) (ht : (t.objs o).isSome) : t.mmobjBottomObj o = s.mmobjBottomObj o := by
  obtain ⟨tob,ht⟩ := isSome_iff_exists.mp ht
  obtain ⟨ob,hob,he⟩ := hk.obj o tob ho ht
  simp only [shape,Prod.mk.injEq] at he
  simp [mmobjBottomObj,hob,ht,he]

theorem Keeps.content [Zero D] (ho : o < s.nextObj) (ht : (t.objs o).isSome) : t.content o n = s.content o n := by
  have hblank : t.blank o n = s.blank o n := by
    unfold blank
    rw [hk.bottom ho ht]
    obtain ⟨tob,htob⟩ := isSome_iff_exists.mp ht
    obtain ⟨b,bob,hb,hbob,-⟩ := h'.shape.bottom htob (Finset.notMem_empty o)
    have hbs : b < s.nextObj :=
      Nat.lt_of_le_of_lt ((h'.shape.under_bottom hb).1.le h'.shape.descends) ho
    obtain ⟨sob,hsob,he⟩ := hk.obj b bob hbs hbob
    rw [hk.bottom ho ht] at hb
    simp only [shape,Prod.mk.injEq] at he
    simp [hb,hbob,hsob,he.1,hk.disk]
  rw [h.content_eq,h'.content_eq,hk.nearest h h' ho ht,hblank]
  congr 1
  cases hn : s.nearest o n with
  | none => rfl
  | some f =>
    rw [← hk.nearest h h' ho ht] at hn
    obtain ⟨pf,hf,-⟩ := h'.nearest_frame hn
    simp [hf,hk.frame_of f pf hf]

end Keeps

end Memory

end Csci402.Vm
