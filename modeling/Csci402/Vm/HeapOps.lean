import Csci402.Vm.Heap

/-! How the single updates of objects and frames change the invariant of the heap:
references are taken and dropped, pages come and go, and an object that nothing
refers to any more is torn down and freed. -/

namespace Csci402.Vm

namespace Memory

open Lib Function Option List

variable {D : Type} {s t u : Memory D} {dying : Finset ℕ} {ext : ℕ → ℤ} {o : ℕ} {ob : Mmobj}

/-! ### Changing an object -/

theorem objs_modObj (s : Memory D) (o x : ℕ) (f : Mmobj → Mmobj) :
    (s.modObj o f).objs x = if x = o then (s.objs o).map f else s.objs x := by
  unfold modObj
  by_cases h : x = o
  · subst h
    simp
  · simp [h]

theorem shape_modObj {f : Mmobj → Mmobj} (hf : ∀ ob, shape (f ob) = shape ob) (x : ℕ) :
    ((s.modObj o f).objs x).map shape = (s.objs x).map shape := by
  rw [objs_modObj]
  split
  next h =>
    subst h
    cases s.objs x <;> simp [hf]
  · rfl

/-- A change of the count of an object, and of the areas on its list. -/
theorem Heap.modObj (h : Heap s dying ext) {f : Mmobj → Mmobj} {δ : ℤ}
    (hf : ∀ ob, Memory.shape (f ob) = Memory.shape ob ∧ (f ob).mmoNrespages = ob.mmoNrespages ∧
      (f ob).mmoRespages = ob.mmoRespages ∧ (f ob).mmoRefcount = ob.mmoRefcount+δ)
    (hu : ∀ ob, s.objs o = some ob → o ∉ dying → InUse (f ob))
    (hv : ∀ ob, s.objs o = some ob → ∀ link ∈ (f ob).mmoVmas,
      ∃ a ∈ s.vmmList link.1, a.vmaId = link.2) :
    Heap (s.modObj o f) dying (ext+Pi.single o δ) := by
  have hsh := shape_modObj (s := s) (o := o) fun ob => (hf ob).1
  have hobj : ∀ x ob, (s.modObj o f).objs x = some ob →
      ∃ ob0, s.objs x = some ob0 ∧ ob = if x = o then f ob0 else ob0 := by
    intro x ob hx
    rw [objs_modObj] at hx
    split at hx
    next he =>
      subst he
      obtain ⟨ob0,h0,rfl⟩ := map_eq_some_iff.mp hx
      exact ⟨ob0,h0,(if_pos rfl).symm⟩
    next he =>
      exact ⟨ob,hx,(if_neg he).symm⟩
  have hops : ∀ ob, (f ob).mmoOps = ob.mmoOps := fun ob => congrArg Prod.fst (hf ob).1
  refine ⟨h.shape.congr hsh rfl,⟨?_,?_,h.pages.inj,h.pages.frame_lt,?_⟩,
    h.holders.congr (clears_modObj s o f) hsh ?_,?_,fun x ob hx hxd => ?_⟩
  · have hr : ∀ x, (s.modObj o f).respages x = s.respages x := by
      intro x
      unfold respages
      rw [objs_modObj]
      split
      next he =>
        subst he
        cases s.objs x <;> simp [hf]
      · rfl
    simp only [hr]
    exact h.pages.resident
  · intro x ob hx
    obtain ⟨ob0,h0,rfl⟩ := hobj x ob hx
    have := h.pages.nres x ob0 h0
    split
    · rw [(hf ob0).2.1,(hf ob0).2.2.1,this]
    · exact this
  · intro g pf ob hg hx
    obtain ⟨ob0,h0,rfl⟩ := hobj _ ob hx
    have := h.pages.pin g pf ob0 hg h0
    split
    · rwa [hops]
    · exact this
  · intro x ob hx link hl
    obtain ⟨ob0,h0,rfl⟩ := hobj x ob hx
    split at hl
    next he =>
      subst he
      exact hv ob0 h0 link hl
    · exact h.holders.vmas x ob0 h0 link hl
  · refine h.count.congr (clears_modObj s o f) hsh rfl fun x ob hx _ => ?_
    obtain ⟨ob0,h0,rfl⟩ := hobj x ob hx
    refine ⟨ob0,h0,?_⟩
    rw [Pi.add_apply,Pi.single_apply]
    split
    · rw [(hf ob0).2.1,(hf ob0).2.2.2]
      omega
    · omega
  · obtain ⟨ob0,h0,rfl⟩ := hobj x ob hx
    split
    next he =>
      subst he
      exact hu ob0 h0 hxd
    · exact h.used x ob0 h0 hxd

theorem Heap.decRef (h : Heap s dying ext) (ho : s.objs o = some ob)
    (hu : InUse { ob with mmoRefcount := ob.mmoRefcount - 1 }) :
    Heap (s.decRef o) dying (ext - Pi.single o 1) := by
  have := h.modObj (o := o) (f := fun ob => { ob with mmoRefcount := ob.mmoRefcount - 1 }) (δ := -1)
    (fun _ => ⟨rfl,rfl,rfl,rfl⟩) (fun ob' ho' _ => by rw [ho] at ho'; cases ho'; exact hu)
    (h.holders.vmas o)
  rwa [Pi.single_neg,← sub_eq_add_neg] at this

/-- One more reference, which nobody holds yet. -/
theorem Heap.ref (h : Heap s dying ext) (ho : (s.objs o).isSome) (hd : o ∉ dying) :
    ∃ t, ref o s = some t ∧ Heap t dying (ext+Pi.single o 1) ∧
      t = s.modObj o fun ob => { ob with mmoRefcount := ob.mmoRefcount+1 } := by
  obtain ⟨ob,ho⟩ := isSome_iff_exists.mp ho
  have hm := h.modObj (o := o) (f := fun ob => { ob with mmoRefcount := ob.mmoRefcount+1 })
    (fun _ => ⟨rfl,rfl,rfl,rfl⟩) (fun ob ho hd => (h.used o ob ho hd).imp
      (fun h => by simp only; omega) fun h hk => by have := h hk; simp only; omega)
    (h.holders.vmas o)
  exact ⟨_,by simp [Memory.ref,ho,(h.used o ob ho hd).1],hm,rfl⟩

/-! ### Changing a frame -/

theorem frames_modFrame (s : Memory D) (f x : ℕ) (g : Pframe D → Pframe D) :
    (s.modFrame f g).frames x = if x = f then (s.frames f).map g else s.frames x := by
  unfold modFrame
  by_cases h : x = f
  · subst h
    simp
  · simp [h]

variable {f : ℕ}

/-- The contents or the pin count of a frame change. -/
theorem Heap.modFrame (h : Heap s dying ext) {g : Pframe D → Pframe D}
    (hg : ∀ pf, (g pf).pfObj = pf.pfObj ∧ (g pf).pfPagenum = pf.pfPagenum)
    (hp : ∀ pf ob, s.frames f = some pf → s.objs pf.pfObj = some ob →
      (g pf).pfPincount ≤ if ob.mmoOps = .vnode then 0 else 1) :
    Heap (s.modFrame f g) dying ext := by
  have hfr : ∀ x pf, (s.modFrame f g).frames x = some pf →
      ∃ pf0, s.frames x = some pf0 ∧ pf = if x = f then g pf0 else pf0 := by
    intro x pf hx
    rw [frames_modFrame] at hx
    split at hx
    next he =>
      subst he
      obtain ⟨pf0,h0,rfl⟩ := map_eq_some_iff.mp hx
      exact ⟨pf0,h0,(if_pos rfl).symm⟩
    next he =>
      exact ⟨pf,hx,(if_neg he).symm⟩
  have hobj : ∀ x pf pf0, pf = (if x = f then g pf0 else pf0) →
      pf.pfObj = pf0.pfObj ∧ pf.pfPagenum = pf0.pfPagenum := by
    rintro x _ pf0 rfl
    split
    · exact hg pf0
    · exact ⟨rfl,rfl⟩
  have hcl : Clears s (s.modFrame f g) := Clears.of_procs rfl rfl rfl
  refine ⟨h.shape.congr (fun _ => rfl) rfl,⟨?_,h.pages.nres,?_,?_,?_⟩,
    h.holders.congr hcl (fun _ => rfl) h.holders.vmas,h.count.congr hcl (fun _ => rfl) rfl
      fun x ob hx _ => ⟨ob,hx,by omega⟩,h.used⟩
  · have hk : (fun x => ((s.modFrame f g).frames x).map Pframe.pfObj) =
        fun x => (s.frames x).map Pframe.pfObj := by
      funext x
      rw [frames_modFrame]
      split
      next he =>
        subst he
        cases s.frames x <;> simp [hg]
      · rfl
    rw [hk]
    exact h.pages.resident
  · intro x y px py hx hy hxy hn
    obtain ⟨px0,hx0,hpx⟩ := hfr x px hx
    obtain ⟨py0,hy0,hpy⟩ := hfr y py hy
    obtain ⟨h1,h2⟩ := hobj x px px0 hpx
    obtain ⟨h3,h4⟩ := hobj y py py0 hpy
    exact h.pages.inj x y px0 py0 hx0 hy0 (by rw [← h1,← h3,hxy]) (by rw [← h2,← h4,hn])
  · intro x pf hx
    obtain ⟨pf0,hx0,-⟩ := hfr x pf hx
    exact h.pages.frame_lt x pf0 hx0
  · intro x pf ob hx hob
    obtain ⟨pf0,hx0,rfl⟩ := hfr x pf hx
    split at hob
    next he =>
      subst he
      rw [if_pos rfl]
      rw [(hg pf0).1] at hob
      exact hp pf0 ob hx0 hob
    next he =>
      rw [if_neg he]
      exact h.pages.pin x pf0 ob hx0 hob

variable {pf : Pframe D}

/-- The object of a frame exists. -/
theorem Pages.owner (h : Pages s) (hf : s.frames f = some pf) :
    ∃ ob, s.objs pf.pfObj = some ob ∧ f ∈ ob.mmoRespages := by
  have hm : f ∈ s.respages pf.pfObj := h.resident.mem.mpr (by simp [hf])
  unfold respages at hm
  cases ho : s.objs pf.pfObj with
  | none => simp [ho] at hm
  | some ob => exact ⟨ob,rfl,by simpa [ho] using hm⟩

theorem Pages.resident_frame (h : Pages s) (ho : s.objs o = some ob)
    (hf : f ∈ ob.mmoRespages) : ∃ pf, s.frames f = some pf ∧ pf.pfObj = o := by
  have hm : f ∈ s.respages o := by simpa [respages,ho] using hf
  exact map_eq_some_iff.mp (h.resident.mem.mp hm)

/-! ### Taking a page out of the cache -/

/-- The loop of `pframe_remove_from_pts` finds every area it looks for. -/
theorem foldlM_removeFromPt {n : ℕ} {l : List (ℕ × ℕ)} (h : ∀ link ∈ l, ∃ a ∈ s.vmmList link.1, a.vmaId = link.2) :
    ∃ t, l.foldlM (removeFromPt n) s = some t ∧ SameHeap s t := by
  induction l generalizing s with
  | nil => exact ⟨s,rfl,SameHeap.refl s⟩
  | cons link l ih =>
    obtain ⟨a,ha,hid⟩ := h link (by simp)
    obtain ⟨b,hb⟩ : ∃ b, s.findArea link.1 link.2 = some b := by
      refine isSome_iff_exists.mp ?_
      rw [findArea,find?_isSome]
      exact ⟨a,ha,by simpa using hid⟩
    obtain ⟨s1,h1,hs⟩ : ∃ s1, removeFromPt n s link = some s1 ∧ SameHeap s s1 := by
      simp only [removeFromPt,hb,bind_eq_bind,bind_some]
      split
      · exact ⟨_,rfl,rfl,rfl,rfl,rfl,rfl,rfl⟩
      · exact ⟨s,rfl,SameHeap.refl s⟩
    have hcl := removeFromPt_clears h1
    obtain ⟨t,ht,hst⟩ := ih (s := s1) fun link' hl => by
      rw [hcl.vmmList]
      exact h link' (by simp [hl])
    exact ⟨t,by rw [foldlM_cons,h1]; exact ht,hs.trans hst⟩

/-- Every object has a bottom object. -/
theorem Shape.bottom (h : Shape s dying) (ho : s.objs o = some ob) (hd : o ∉ dying) :
    ∃ b bob, s.mmobjBottomObj o = some b ∧ s.objs b = some bob ∧ bob.mmoOps ≠ .shadow := by
  by_cases hk : ob.mmoOps = .shadow
  · obtain ⟨sh,b,hl⟩ := h.link o ob ho hd hk
    obtain ⟨bob,hb,hbk⟩ := hl.base
    exact ⟨b,bob,by simp [mmobjBottomObj,ho,hl.shadowed,hl.bottom],hb,hbk⟩
  · exact ⟨o,ob,by simp [mmobjBottomObj,ho,(h.base o ob ho hk).1],ho,hk⟩

/-- What `pframe_free` does before its `put`. -/
structure Uncached (s t : Memory D) (f o : ℕ) : Prop where
  clears : Clears s t
  frames : t.frames = update s.frames f none
  objs : t.objs = update s.objs o ((s.objs o).map fun ob =>
    { ob with mmoNrespages := ob.mmoNrespages - 1, mmoRespages := ob.mmoRespages.erase f })
  nextObj : t.nextObj = s.nextObj
  nextFrame : t.nextFrame = s.nextFrame
  disk : t.disk = s.disk
  held : t.held = s.held

theorem Heap.pframeUncache (h : Heap s dying ext)
    (hf : s.frames f = some pf) (hp : pf.pfPincount = 0) (hd : pf.pfObj ∉ dying) :
    ∃ t, pframeUncache f pf s = some t ∧ Uncached s t f pf.pfObj := by
  obtain ⟨ob,ho,-⟩ := h.pages.owner hf
  obtain ⟨b,bob,hb,hbob,-⟩ := h.shape.bottom ho hd
  obtain ⟨s1,h1,hs⟩ := foldlM_removeFromPt (n := pf.pfPagenum) (h.holders.vmas b bob hbob)
  have hrem : pframeRemoveFromPts pf s = some s1 := by
    simp only [pframeRemoveFromPts,hb,hbob,bind_eq_bind,bind_some,h1]
  have hcl := pframeRemoveFromPts_clears hrem
  refine ⟨_,by rw [Memory.pframeUncache,if_pos hp,hrem]; rfl,?_⟩
  exact ⟨hcl.trans (Clears.of_procs rfl rfl rfl),by rw [← hs.frames],by rw [← hs.objs],hs.nextObj,
    hs.nextFrame,hs.disk,hs.held⟩

theorem Uncached.shape (hu : Uncached s t f o) (x : ℕ) :
    (t.objs x).map Memory.shape = (s.objs x).map Memory.shape := by
  rw [hu.objs]
  by_cases hx : x = o
  · subst hx
    cases s.objs x <;> simp [Memory.shape]
  · simp [hx]

theorem Uncached.obj {x : ℕ} (hu : Uncached s t f o) (hx : t.objs x = some ob) :
    ∃ ob0, s.objs x = some ob0 ∧ ob = if x = o then { ob0 with
      mmoNrespages := ob0.mmoNrespages - 1, mmoRespages := ob0.mmoRespages.erase f } else ob0 := by
  rw [hu.objs] at hx
  by_cases he : x = o
  · subst he
    rw [update_self] at hx
    obtain ⟨ob0,h0,rfl⟩ := map_eq_some_iff.mp hx
    exact ⟨ob0,h0,by simp⟩
  · rw [update_of_ne he] at hx
    exact ⟨ob,hx,by simp [he]⟩

/-- The reference of the page is now held by nobody. -/
theorem Heap.uncached (h : Heap s dying ext) (hf : s.frames f = some pf)
    (hu : Uncached s t f pf.pfObj) : Heap t dying (ext+Pi.single pf.pfObj 1) := by
  have hfr : ∀ x px, t.frames x = some px → x ≠ f ∧ s.frames x = some px := by
    intro x px hx
    rw [hu.frames] at hx
    by_cases he : x = f
    · subst he
      simp at hx
    · exact ⟨he,by simpa [he] using hx⟩
  refine ⟨h.shape.congr hu.shape hu.nextObj,⟨?_,?_,?_,?_,?_⟩,
    h.holders.congr hu.clears hu.shape ?_,?_,fun x ob hx hxd => ?_⟩
  · have hkey : (fun x => (t.frames x).map Pframe.pfObj) =
        update (fun x => (s.frames x).map Pframe.pfObj) f none := by
      funext x
      rw [hu.frames]
      by_cases he : x = f
      · subst he
        simp
      · simp [he]
    have hlists : (fun x => t.respages x) = fun x => (s.respages x).erase f := by
      funext x
      simp only [respages,hu.objs]
      by_cases he : x = pf.pfObj
      · subst he
        cases s.objs pf.pfObj <;> simp
      · rw [update_of_ne he]
        refine (h.pages.resident.erase_of_ne (k := x) ?_).symm
        simpa [hf] using Ne.symm he
    rw [hkey,hlists]
    exact h.pages.resident.erase f
  · intro x ob hx
    obtain ⟨ob0,h0,rfl⟩ := hu.obj hx
    have hn := h.pages.nres x ob0 h0
    split
    next he =>
      subst he
      have hm : f ∈ ob0.mmoRespages := by
        obtain ⟨ob1,h1,hm⟩ := h.pages.owner hf
        rw [h1] at h0
        cases h0
        exact hm
      have := length_pos_of_mem hm
      change ob0.mmoNrespages - 1 = ((ob0.mmoRespages.erase f).length : ℤ)
      rw [length_erase_of_mem hm]
      omega
    · exact hn
  · intro x y px py hx hy
    exact h.pages.inj x y px py (hfr x px hx).2 (hfr y py hy).2
  · intro x px hx
    rw [hu.nextFrame]
    exact h.pages.frame_lt x px (hfr x px hx).2
  · intro x px ob hx hob
    obtain ⟨ob0,h0,rfl⟩ := hu.obj hob
    have := h.pages.pin x px ob0 (hfr x px hx).2 h0
    split <;> exact this
  · intro x ob hx link hl
    obtain ⟨ob0,h0,rfl⟩ := hu.obj hx
    refine h.holders.vmas x ob0 h0 link ?_
    split at hl <;> exact hl
  · refine h.count.congr hu.clears hu.shape hu.nextObj fun x ob hx _ => ?_
    obtain ⟨ob0,h0,rfl⟩ := hu.obj hx
    refine ⟨ob0,h0,?_⟩
    rw [Pi.add_apply,Pi.single_apply]
    split
    · change ob0.mmoRefcount - (ob0.mmoNrespages - 1) = _
      omega
    · omega
  · obtain ⟨ob0,h0,rfl⟩ := hu.obj hx
    have hold := h.used x ob0 h0 hxd
    split
    · exact hold.imp_right fun h hk => Int.lt_trans (Int.sub_one_lt_of_le (Int.le_refl _)) (h hk)
    · exact hold

/-! ### Tearing an object down -/

/-- An object without references becomes one that is torn down; what it refers to is
now held by nobody. -/
theorem Heap.markDying (h : Heap s dying ext) (ho : s.objs o = some ob) (hd : o ∉ dying)
    (ha : s.areaRefs o = 0) (hr : s.objRefs dying o = 0) : Heap s (insert o dying) (ext+links (some ob)) := by
  refine ⟨⟨h.shape.obj_lt,h.shape.base,fun x xob hx hxd hk => ?_⟩,h.pages,
    ⟨h.holders.vmas,fun pid a hm x hx => ?_,h.holders.pid_lt⟩,fun x xob hx hxd => ?_,
    fun x xob hx hxd => h.used x xob hx fun hm => hxd (Finset.mem_insert_of_mem hm)⟩
  · rw [Finset.mem_insert,not_or] at hxd
    obtain ⟨sh,b,hl⟩ := h.shape.link x xob hx hxd.2 hk
    obtain ⟨h1,h2⟩ := h.shape.link_ne hr hx hxd.2
    refine ⟨sh,b,{ hl with shadowed_alive := ?_, bottom_alive := ?_ }⟩
    · rw [Finset.mem_insert,not_or]
      exact ⟨fun he => h1 (he ▸ hl.shadowed),hl.shadowed_alive⟩
    · rw [Finset.mem_insert,not_or]
      exact ⟨fun he => h2 (he ▸ hl.bottom),hl.bottom_alive⟩
  · obtain ⟨hxd,hxs⟩ := h.holders.area pid a hm x hx
    rw [Finset.mem_insert,not_or]
    exact ⟨⟨fun he => h.holders.area_ne ha hm (he ▸ hx),hxd⟩,hxs⟩
  · rw [Finset.mem_insert,not_or] at hxd
    have hc := h.count x xob hx hxd.2
    rw [objRefs_insert (h.shape.obj_lt o ob ho) hd,ho]
    simp only [Pi.add_apply,Pi.sub_apply] at hc ⊢
    omega

theorem objs_freeObj (s : Memory D) (o x : ℕ) : (s.freeObj o).objs x = if x = o then none else s.objs x := by
  unfold freeObj
  by_cases h : x = o
  · subst h
    simp
  · simp [h]

/-- An object that has been torn down and has no pages left is freed. -/
theorem Heap.freeObj (h : Heap s (insert o dying) ext) (hp : s.respages o = []) : Heap (s.freeObj o) dying ext := by
  have hobj : ∀ x ob, (s.freeObj o).objs x = some ob → x ≠ o ∧ s.objs x = some ob := by
    intro x ob hx
    rw [objs_freeObj] at hx
    split at hx
    · cases hx
    next he =>
      exact ⟨he,hx⟩
  have hne : ∀ {x}, x ∉ dying → x ≠ o → x ∉ insert o dying := by
    intro x hx he
    rw [Finset.mem_insert,not_or]
    exact ⟨he,hx⟩
  refine ⟨⟨fun x ob hx => h.shape.obj_lt x ob (hobj x ob hx).2,fun x ob hx => ?_,
    fun x ob hx hxd hk => ?_⟩,⟨?_,?_,h.pages.inj,h.pages.frame_lt,?_⟩,
    ⟨?_,fun pid a ha x hax => ?_,h.holders.pid_lt⟩,fun x ob hx hxd => ?_,
    fun x ob hx hxd => h.used x ob (hobj x ob hx).2 (hne hxd (hobj x ob hx).1)⟩
  · exact h.shape.base x ob (hobj x ob hx).2
  · obtain ⟨he,hx⟩ := hobj x ob hx
    obtain ⟨sh,b,hl⟩ := h.shape.link x ob hx (hne hxd he) hk
    have h1 := hl.shadowed_alive
    have h2 := hl.bottom_alive
    rw [Finset.mem_insert,not_or] at h1 h2
    refine ⟨sh,b,{ hl with chain := ?_, base := ?_, shadowed_alive := h1.2, bottom_alive := h2.2 }⟩
    · rw [mmobjBottomObj,objs_freeObj,if_neg h1.1]
      exact hl.chain
    · rw [objs_freeObj,if_neg h2.1]
      exact hl.base
  · have hr : (fun x => (s.freeObj o).respages x) = fun x => s.respages x := by
      funext x
      by_cases he : x = o
      · subst he
        rw [hp,respages,objs_freeObj,if_pos rfl]
        rfl
      · rw [respages,objs_freeObj,if_neg he,respages]
    rw [hr]
    exact h.pages.resident
  · exact fun x ob hx => h.pages.nres x ob (hobj x ob hx).2
  · exact fun f pf ob hf hx => h.pages.pin f pf ob hf (hobj _ ob hx).2
  · exact fun x ob hx => h.holders.vmas x ob (hobj x ob hx).2
  · obtain ⟨hxd,hxs⟩ := h.holders.area pid a ha x hax
    rw [Finset.mem_insert,not_or] at hxd
    rw [objs_freeObj,if_neg hxd.1]
    exact ⟨hxd.2,hxs⟩
  · obtain ⟨he,hx⟩ := hobj x ob hx
    rw [objRefs_freeObj]
    exact h.count x ob hx (hne hxd he)

end Memory

end Csci402.Vm
