import Csci402.Vm.Chain

/-! Looking a page up: `lookuppage` returns whenever the heap is consistent. It allocates
a frame in the bottom object for a page that no object of the chain has, and for a
write one in the object itself, filled with what the page contains. -/

namespace Csci402.Vm

namespace Memory

open Lib Function Option

variable {D : Type} {s t : Memory D} {ext : ℕ → ℤ} {o b n f x : ℕ} {ob : Mmobj} {pf : Pframe D}

/-! ### New frames -/

/-- The frame `nextFrame` is added to the pages of its object. -/
def addFrame (pf : Pframe D) (s : Memory D) : Memory D :=
  { s with
    frames := update s.frames s.nextFrame (some pf)
    objs := update s.objs pf.pfObj ((s.objs pf.pfObj).map fun ob => { ob with
      mmoRefcount := ob.mmoRefcount+1
      mmoNrespages := ob.mmoNrespages+1
      mmoRespages := s.nextFrame :: ob.mmoRespages })
    nextFrame := s.nextFrame+1 }

theorem pframeAlloc_eq (junk : D) (n : ℕ) (ho : s.objs o = some ob) (hr : 0 < ob.mmoRefcount) :
    pframeAlloc junk o n s = some (s.addFrame ⟨o,n,0,junk⟩) := by
  simp [pframeAlloc,ref,ho,hr,modObj,addFrame]

theorem modFrame_addFrame {g : Pframe D → Pframe D} (hg : (g pf).pfObj = pf.pfObj) :
    (s.addFrame pf).modFrame s.nextFrame g = s.addFrame (g pf) := by
  simp [addFrame,modFrame,hg]

theorem modFrame_addFrame_of_ne {g : Pframe D → Pframe D} (hf : f ≠ s.nextFrame) :
    (s.addFrame pf).modFrame f g = (s.modFrame f g).addFrame pf := by
  simp only [addFrame,modFrame,update_of_ne hf]
  rw [update_comm hf.symm]

theorem frames_addFrame (s : Memory D) (pf : Pframe D) (x : ℕ) :
    (s.addFrame pf).frames x = if x = s.nextFrame then some pf else s.frames x := by
  unfold addFrame
  by_cases h : x = s.nextFrame
  · subst h
    simp
  · simp [h]

/-- The only new frame is the one that is added. -/
theorem eq_of_frames_addFrame {g : ℕ} {pg : Pframe D} (hg : (s.addFrame pf).frames g = some pg)
    (hs : s.frames g = none) : g = s.nextFrame ∧ pg = pf := by
  rw [frames_addFrame] at hg
  split at hg
  · exact ⟨by assumption,(some.inj hg).symm⟩
  · cases hs.symm.trans hg

/-- The parts of an object that a new page does not change. -/
theorem obj_addFrame (h : (s.addFrame pf).objs x = some ob) : ∃ ob0, s.objs x = some ob0 ∧
    shape ob = shape ob0 ∧ ob.mmoVmas = ob0.mmoVmas ∧
    ob.mmoRefcount = ob0.mmoRefcount+(if x = pf.pfObj then 1 else 0) ∧
    ob.mmoNrespages = ob0.mmoNrespages+(if x = pf.pfObj then 1 else 0) ∧
    ob.mmoRespages = if x = pf.pfObj then s.nextFrame :: ob0.mmoRespages else ob0.mmoRespages := by
  unfold addFrame at h
  by_cases hx : x = pf.pfObj
  · subst hx
    simp only [update_self] at h
    obtain ⟨ob0,h0,rfl⟩ := map_eq_some_iff.mp h
    exact ⟨ob0,h0,rfl,rfl,by simp,by simp,by simp⟩
  · simp only [update_of_ne hx] at h
    exact ⟨ob,h,rfl,rfl,by simp [hx],by simp [hx],by simp [hx]⟩

theorem shape_addFrame (s : Memory D) (pf : Pframe D) (x : ℕ) :
    ((s.addFrame pf).objs x).map shape = (s.objs x).map shape := by
  unfold addFrame
  by_cases hx : x = pf.pfObj
  · subst hx
    cases s.objs pf.pfObj <;> simp [shape]
  · simp [hx]

theorem Heap.addFrame (h : Heap s ∅ ext) (ho : (s.objs pf.pfObj).isSome)
    (hr : s.pframeGetResident pf.pfObj pf.pfPagenum = none)
    (hp : ∀ ob, s.objs pf.pfObj = some ob → pf.pfPincount ≤ if ob.mmoOps = .vnode then 0 else 1) :
    Heap (s.addFrame pf) ∅ ext := by
  have hnone : s.frames s.nextFrame = none := by
    cases hf : s.frames s.nextFrame with
    | none => rfl
    | some pg => exact absurd (h.pages.frame_lt _ pg hf) (Nat.lt_irrefl _)
  have hfr : ∀ g pg, (s.addFrame pf).frames g = some pg →
      g = s.nextFrame ∧ pg = pf ∨ s.frames g = some pg := by
    intro g pg hg
    rw [frames_addFrame] at hg
    split at hg
    next he =>
      cases hg
      exact .inl ⟨he,rfl⟩
    · exact .inr hg
  have habs : ∀ g pg, s.frames g = some pg → ¬ (pg.pfObj = pf.pfObj ∧ pg.pfPagenum = pf.pfPagenum) := by
    intro g pg hg he
    rw [h.pages.resident_iff.mpr ⟨pg,hg,he⟩] at hr
    cases hr
  have hcl : Clears s (s.addFrame pf) := Clears.of_procs rfl rfl rfl
  refine ⟨h.shape.congr (shape_addFrame s pf) rfl,⟨?_,fun x ob hx => ?_,fun g g' pg pg' hg hg' he hn => ?_,
    fun g pg hg => ?_,fun g pg ob hg hx => ?_⟩,h.holders.congr hcl (shape_addFrame s pf) ?_,?_,
    fun x ob hx _ => ?_⟩
  · have hkey : (fun g => ((s.addFrame pf).frames g).map Pframe.pfObj) =
        update (fun g => (s.frames g).map Pframe.pfObj) s.nextFrame (some pf.pfObj) := by
      funext g
      rw [frames_addFrame]
      by_cases hg : g = s.nextFrame
      · subst hg
        simp
      · simp [hg]
    have hlists : (fun x => (s.addFrame pf).respages x) =
        update (fun x => s.respages x) pf.pfObj (s.nextFrame :: s.respages pf.pfObj) := by
      funext x
      unfold Memory.addFrame respages
      by_cases hx : x = pf.pfObj
      · subst hx
        obtain ⟨ob,ho⟩ := isSome_iff_exists.mp ho
        simp [ho]
      · simp [hx]
    rw [hkey,hlists]
    exact h.pages.resident.insert (by simp [hnone]) pf.pfObj (List.Perm.refl _)
  · obtain ⟨ob0,h0,-,-,-,he1,he2⟩ := obj_addFrame hx
    have := h.pages.nres x ob0 h0
    rw [he1,he2,this]
    split <;> simp
  · rcases hfr g pg hg with ⟨h1,h2⟩ | h1 <;> rcases hfr g' pg' hg' with ⟨h3,h4⟩ | h3
    · rw [h1,h3]
    · rw [h2] at he hn
      exact absurd ⟨he.symm,hn.symm⟩ (habs g' pg' h3)
    · rw [h4] at he hn
      exact absurd ⟨he,hn⟩ (habs g pg h1)
    · exact h.pages.inj g g' pg pg' h1 h3 he hn
  · change g < s.nextFrame+1
    rcases hfr g pg hg with ⟨rfl,-⟩ | hg
    · exact Nat.lt_succ_self _
    · exact Nat.lt_succ_of_lt (h.pages.frame_lt g pg hg)
  · obtain ⟨ob0,h0,he,-⟩ := obj_addFrame hx
    rw [show ob.mmoOps = ob0.mmoOps from congrArg Prod.fst he]
    rcases hfr g pg hg with ⟨-,rfl⟩ | hg
    · exact hp ob0 h0
    · exact h.pages.pin g pg ob0 hg h0
  · intro x ob hx link hl
    obtain ⟨ob0,h0,-,hv,-⟩ := obj_addFrame hx
    rw [hv] at hl
    exact h.holders.vmas x ob0 h0 link hl
  · refine h.count.congr hcl (shape_addFrame s pf) rfl fun x ob hx _ => ?_
    obtain ⟨ob0,h0,-,-,he1,he2,-⟩ := obj_addFrame hx
    exact ⟨ob0,h0,by omega⟩
  · obtain ⟨ob0,h0,he,-,he1,he2,-⟩ := obj_addFrame hx
    have hu := h.used x ob0 h0 (Finset.notMem_empty x)
    unfold InUse at hu ⊢
    rw [show ob.mmoOps = ob0.mmoOps from congrArg Prod.fst he,he1,he2]
    exact ⟨by split <;> omega,fun hk => by have := hu.2 hk; omega⟩

/-- From `s` to `t` frames are added, and nothing else happens. -/
structure Adds (s t : Memory D) : Prop where
  frame : ∀ f pf, s.frames f = some pf → t.frames f = some pf
  shape : ∀ x, (t.objs x).map shape = (s.objs x).map shape
  vmas : ∀ x, (t.objs x).map Mmobj.mmoVmas = (s.objs x).map Mmobj.mmoVmas
  procs : t.procs = s.procs
  next : t.nextObj = s.nextObj ∧ t.nextArea = s.nextArea ∧ t.nextPid = s.nextPid
  disk : t.disk = s.disk
  held : t.held = s.held

theorem Adds.refl (s : Memory D) : Adds s s :=
  ⟨fun _ _ h => h,fun _ => rfl,fun _ => rfl,rfl,⟨rfl,rfl,rfl⟩,rfl,rfl⟩

theorem Adds.trans {u : Memory D} (h : Adds s t) (h' : Adds t u) : Adds s u where
  frame f pf hf := h'.frame f pf (h.frame f pf hf)
  shape x := (h'.shape x).trans (h.shape x)
  vmas x := (h'.vmas x).trans (h.vmas x)
  procs := h'.procs.trans h.procs
  next := ⟨h'.next.1.trans h.next.1,h'.next.2.1.trans h.next.2.1,h'.next.2.2.trans h.next.2.2⟩
  disk := h'.disk.trans h.disk
  held := h'.held.trans h.held

theorem Pages.adds_addFrame (h : Pages s) (pf : Pframe D) : Adds s (s.addFrame pf) where
  frame f pg hf := by
    rw [frames_addFrame,if_neg (Nat.ne_of_lt (h.frame_lt f pg hf)),hf]
  shape := shape_addFrame s pf
  vmas x := by
    unfold addFrame
    by_cases hx : x = pf.pfObj
    · subst hx
      cases s.objs pf.pfObj <;> simp
    · simp [hx]
  procs := rfl
  next := ⟨rfl,rfl,rfl⟩
  disk := rfl
  held := rfl

theorem Adds.under (h : Adds s t) : t.under = s.under := by
  funext x
  have hx := h.shape x
  unfold Memory.under
  cases hs : s.objs x <;> cases ht : t.objs x <;> simp_all [Memory.shape]

theorem Adds.resident (h : Adds s t) (hs : Pages s) (ht : Pages t)
    (hr : s.pframeGetResident x n = some f) : t.pframeGetResident x n = some f := by
  obtain ⟨pf,hf,he⟩ := hs.resident_iff.mp hr
  exact ht.resident_iff.mpr ⟨pf,h.frame f pf hf,he⟩

/-- A page that is resident after but not before has a new frame. -/
theorem Adds.resident_new (h : Adds s t) (hs : Pages s) (ht : Pages t)
    (hr : s.pframeGetResident x n = none) (hr' : t.pframeGetResident x n = some f) :
    ∃ pf, t.frames f = some pf ∧ s.frames f = none ∧ pf.pfObj = x ∧ pf.pfPagenum = n := by
  obtain ⟨pf,hf,he⟩ := ht.resident_iff.mp hr'
  refine ⟨pf,hf,?_,he⟩
  cases hsf : s.frames f with
  | none => rfl
  | some pg =>
    have := h.frame f pg hsf
    rw [hf] at this
    cases this
    rw [hs.resident_iff.mpr ⟨pf,hsf,he⟩] at hr
    cases hr

/-! ### Filling a page -/

section Fill

variable [Zero D]

theorem Adds.blank (h : Adds s t) (o n : ℕ) : t.blank o n = s.blank o n := by
  unfold Memory.blank
  rw [mmobjBottomObj_of_shape h.shape o,h.disk]
  have hops : ∀ b, ((t.objs b).any fun ob => ob.mmoOps = .vnode) =
      (s.objs b).any fun ob => ob.mmoOps = .vnode := by
    intro b
    have hb := h.shape b
    cases hs : s.objs b <;> cases ht : t.objs b <;> simp_all [Memory.shape]
  simp only [hops]

/-- The new frames hold what the pages contain. -/
structure Fills (s t : Memory D) : Prop where
  adds : Adds s t
  data : ∀ f pf, t.frames f = some pf → s.frames f = none →
    pf.pfData = s.content pf.pfObj pf.pfPagenum

theorem Fills.refl (s : Memory D) : Fills s s :=
  ⟨Adds.refl s,fun f pf hf hn => by rw [hf] at hn; cases hn⟩

theorem Heap.blank_under (h : Heap s ∅ ext) {y : ℕ} (hu : s.under x = some y) (n : ℕ) :
    s.blank y n = s.blank x n := by
  have hx : ∃ b, s.mmobjBottomObj x = some b := by
    obtain ⟨ob,ho,-⟩ := bind_eq_some_iff.mp hu
    obtain ⟨b,-,hb,-⟩ := h.shape.bottom ho (Finset.notMem_empty x)
    exact ⟨b,hb⟩
  obtain ⟨b,hb⟩ := hx
  unfold blank
  rw [hb,h.shape.bottom_under (.step hu (.refl y)) hb]

/-- Nothing that can be read changes. -/
theorem Fills.content {ext' : ℕ → ℤ} (hf : Fills s t) (h : Heap s ∅ ext) (h' : Heap t ∅ ext') :
    t.content o n = s.content o n := by
  have hd := h.shape.descends
  unfold Memory.content
  rw [hf.adds.under,hf.adds.blank]
  refine resolve_fill hd (d := fun x => s.blank x n) (fun x y hy => h.blank_under hy n) fun x => ?_
  cases hr : s.pframeGetResident x n with
  | some f =>
    obtain ⟨pf,hpf,rfl,rfl⟩ := h.pages.resident_iff.mp hr
    rw [h.pages.held?_eq_some hpf,h'.pages.held?_eq_some (hf.adds.frame f pf hpf)]
    exact .inl rfl
  | none =>
    have hnone : s.held? x n = none := by simp [held?,hr]
    cases hr' : t.pframeGetResident x n with
    | none =>
      left
      simp [held?,hr,hr']
    | some f =>
      obtain ⟨pf,hpf,hold,rfl,rfl⟩ := hf.adds.resident_new h.pages h'.pages hr hr'
      rw [hnone,h'.pages.held?_eq_some hpf,hf.data f pf hpf hold]
      exact .inr ⟨rfl,rfl⟩

/-! ### Objects that are not shadow objects -/

/-- What looking a page up in `o` does; `r` is the frame found, if the lookup succeeds. -/
structure Looked (s t : Memory D) (o n : ℕ) (forwrite : Bool) (r : Option ℕ) : Prop where
  adds : Adds s t
  new : ∀ f pf, t.frames f = some pf → s.frames f = none → pf.pfPagenum = n ∧
    (pf.pfObj = o ∧ forwrite = true ∨ s.mmobjBottomObj o = some pf.pfObj)
  fills : r.isSome → Fills s t
  nearest : ∀ f, r = some f → t.nearest o n = some f
  write : ∀ f, r = some f → forwrite = true → t.pframeGetResident o n = some f
  pinned : r.isSome → ∀ g pg ob, t.frames g = some pg → s.frames g = none →
    t.objs pg.pfObj = some ob → ob.mmoOps ≠ .vnode → pg.pfPincount = 1

variable {forwrite : Bool}

/-- The page is there. -/
theorem Looked.of_nearest (hn : s.nearest o n = some f)
    (hw : forwrite = true → s.pframeGetResident o n = some f) : Looked s s o n forwrite (some f) where
  adds := Adds.refl s
  new g pg hg hs := by rw [hg] at hs; cases hs
  fills _ := Fills.refl s
  nearest _ h := by cases h; exact hn
  write _ h := by cases h; exact hw
  pinned _ g pg ob hg hs := by rw [hg] at hs; cases hs

/-- No frame can be had. -/
theorem Looked.failed : Looked s s o n forwrite none where
  adds := Adds.refl s
  new g pg hg hs := by rw [hg] at hs; cases hs
  fills := nofun
  nearest := nofun
  write := nofun
  pinned := nofun

/-- What `pframe_get` does with a page of an object that is not a shadow object. -/
inductive BaseFrame (s : Memory D) (b n : ℕ) : Memory D → Option ℕ → Prop
  | noFrame : BaseFrame s b n s none
  | notFilled (pf : Pframe D) (ho : pf.pfObj = b ∧ pf.pfPagenum = n) (hp : pf.pfPincount = 0) :
      BaseFrame s b n (s.addFrame pf) none
  | filled (pf : Pframe D) (ho : pf.pfObj = b ∧ pf.pfPagenum = n) (hd : pf.pfData = s.blank b n)
      (hp : ∀ ob, s.objs b = some ob → pf.pfPincount = if ob.mmoOps = .vnode then 0 else 1) :
      BaseFrame s b n (s.addFrame pf) (some s.nextFrame)

theorem lookupBase_cases (env : Env D) (h : Heap s ∅ ext) (hb : s.objs b = some ob)
    (hk : ob.mmoOps ≠ .shadow) (hr : s.pframeGetResident b n = none) :
    ∃ t r, lookupBase env b n s = some (t, r) ∧ BaseFrame s b n t r := by
  have hrc := (h.used b ob hb (Finset.notMem_empty b)).1
  have hbot : s.mmobjBottomObj b = some b := by
    simp [mmobjBottomObj,hb,(h.shape.base b ob hb hk).1]
  simp only [lookupBase,hb,bind_eq_bind,bind_some]
  cases hops : ob.mmoOps with
  | shadow => exact absurd hops hk
  | anon =>
    simp only [pframeGet,hr]
    by_cases hal : env.allocOk b = true
    · refine ⟨_,_,?_,.filled ⟨b,n,1,0⟩ ⟨rfl,rfl⟩ ?_ ?_⟩
      · simp only [if_pos hal,pframeAlloc_eq env.junk n hb hrc,bind_eq_bind,bind_some,
          anonFillpage,fillPinned]
        rw [modFrame_addFrame rfl]
        rfl
      · simp [blank,hbot,hb,hops]
      · intro ob' hb'
        rw [hb] at hb'
        cases hb'
        simp [hops]
    · exact ⟨s,none,by rw [if_neg hal],.noFrame⟩
  | vnode =>
    simp only [pframeGet,hr]
    by_cases hal : env.allocOk b = true
    · by_cases hfl : env.fillOk b = true
      · refine ⟨_,_,?_,.filled ⟨b,n,0,s.disk b n⟩ ⟨rfl,rfl⟩ ?_ ?_⟩
        · simp only [if_pos hal,pframeAlloc_eq env.junk n hb hrc,bind_eq_bind,bind_some,
            vnodeFillpage,if_pos hfl]
          rw [modFrame_addFrame rfl]
          rfl
        · simp [blank,hbot,hb,hops]
        · intro ob' hb'
          rw [hb] at hb'
          cases hb'
          simp [hops]
      · refine ⟨_,_,?_,.notFilled ⟨b,n,0,env.junk⟩ ⟨rfl,rfl⟩ rfl⟩
        simp only [if_pos hal,pframeAlloc_eq env.junk n hb hrc,bind_eq_bind,bind_some,
          vnodeFillpage,if_neg hfl]
        rfl
    · exact ⟨s,none,by rw [if_neg hal],.noFrame⟩

variable {r : Option ℕ}

theorem Heap.baseFrame (h : Heap s ∅ ext) (hb : s.objs b = some ob)
    (hr : s.pframeGetResident b n = none) (hf : BaseFrame s b n t r) : Heap t ∅ ext := by
  cases hf with
  | noFrame => exact h
  | notFilled pf ho hp =>
    obtain ⟨rfl,rfl⟩ := ho
    exact h.addFrame (by simp [hb]) hr fun _ _ => by simp [hp]
  | filled pf ho hd hp =>
    obtain ⟨rfl,rfl⟩ := ho
    exact h.addFrame (by simp [hb]) hr fun ob' hb' => by rw [hp ob' hb']

theorem BaseFrame.adds (hf : BaseFrame s b n t r) (h : Pages s) : Adds s t := by
  cases hf with
  | noFrame => exact Adds.refl s
  | notFilled pf ho hp => exact h.adds_addFrame pf
  | filled pf ho hd hp => exact h.adds_addFrame pf

/-- The new frame is the frame that is returned. -/
theorem BaseFrame.new (hf : BaseFrame s b n t r) {g : ℕ} {pg : Pframe D}
    (hg : t.frames g = some pg) (hs : s.frames g = none) :
    pg.pfObj = b ∧ pg.pfPagenum = n ∧ (r.isSome → pg.pfData = s.blank b n ∧ r = some g ∧
      ∀ ob, s.objs b = some ob → ob.mmoOps ≠ .vnode → pg.pfPincount = 1) := by
  cases hf with
  | noFrame =>
    rw [hg] at hs
    cases hs
  | notFilled pf ho hp =>
    obtain ⟨-,rfl⟩ := eq_of_frames_addFrame hg hs
    exact ⟨ho.1,ho.2,nofun⟩
  | filled pf ho hd hp =>
    obtain ⟨rfl,rfl⟩ := eq_of_frames_addFrame hg hs
    exact ⟨ho.1,ho.2,fun _ => ⟨hd,rfl,fun ob hob hk => by rw [hp ob hob,if_neg hk]⟩⟩

/-- The frame that is returned has the page. -/
theorem BaseFrame.resident (hf : BaseFrame s b n t (some f)) (h : Pages t) : t.pframeGetResident b n = some f := by
  cases hf with
  | filled pf ho hd hp => exact h.resident_iff.mpr ⟨pf,by rw [frames_addFrame,if_pos rfl],ho⟩

theorem Heap.content_blank (h : Heap s ∅ ext) (hn : s.nearest o n = none) : s.content o n = s.blank o n := by
  simp [h.content_eq,hn]

/-- Looking a page up that only the bottom object of `o` may have. -/
theorem lookupBase_heap (env : Env D) (h : Heap s ∅ ext) (hb : s.mmobjBottomObj o = some b)
    (hn : s.nearest o n = s.pframeGetResident b n) (hw : forwrite = true → o = b) :
    ∃ t r, lookupBase env b n s = some (t, r) ∧ Heap t ∅ ext ∧ Looked s t o n forwrite r := by
  obtain ⟨bob,hbob,hk⟩ := h.bottom_base hb
  obtain ⟨hob,hbu⟩ := h.shape.under_bottom hb
  cases hr : s.pframeGetResident b n with
  | some f =>
    rw [hr] at hn
    refine ⟨s,some f,?_,h,Looked.of_nearest hn fun hf => by rw [hw hf,hr]⟩
    simp only [lookupBase,hbob,bind_eq_bind,bind_some]
    cases hops : bob.mmoOps with
    | shadow => exact absurd hops hk
    | anon => simp [pframeGet,hr]
    | vnode => simp [pframeGet,hr]
  | none =>
    rw [hr] at hn
    obtain ⟨t,r,ht,hf⟩ := lookupBase_cases env h hbob hk hr
    have h' := h.baseFrame hbob hr hf
    have hadds := hf.adds h.pages
    refine ⟨t,r,ht,h',hadds,fun g pg hg hs => ?_,fun hsome => ⟨hadds,fun g pg hg hs => ?_⟩,
      fun g hg => ?_,fun g hg hfw => ?_,fun hsome g pg ob' hg hs ho' hk' => ?_⟩
    · obtain ⟨h1,h2,-⟩ := hf.new hg hs
      exact ⟨h2,.inr (by rw [h1]; exact hb)⟩
    · obtain ⟨h1,h2,h3⟩ := hf.new hg hs
      rw [(h3 hsome).1,h1,h2,h.content_blank ((h.nearest_base hbu).trans hr)]
    · subst hg
      have hres := hf.resident h'.pages
      unfold nearest
      rw [hadds.under]
      refine resolve_single h.shape.descends hn hob (fun y hy => ?_) hres
      cases hy' : s.pframeGetResident y n with
      | some g' => exact hadds.resident h.pages h'.pages hy'
      | none =>
        cases ht' : t.pframeGetResident y n with
        | none => rfl
        | some g' =>
          obtain ⟨pg,hg,hs,he,-⟩ := hadds.resident_new h.pages h'.pages hy' ht'
          exact absurd (he.symm.trans (hf.new hg hs).1) hy
    · subst hg
      rw [hw hfw]
      exact hf.resident h'.pages
    · obtain ⟨h1,-,h3⟩ := hf.new hg hs
      obtain ⟨ob0,h0,he,-⟩ := exists_of_shape hadds.shape ho'
      rw [h1] at h0
      exact (h3 hsome).2.2 ob0 h0 (by rw [← he]; exact hk')

/-! ### Shadow objects -/

omit [Zero D] in
/-- A frame in one object does not matter to another. -/
theorem Heap.resident_addFrame (h : Heap s ∅ ext) (h' : Heap (s.addFrame pf) ∅ ext) (hx : x ≠ pf.pfObj) :
    (s.addFrame pf).pframeGetResident x n = s.pframeGetResident x n := by
  have hadds := h.pages.adds_addFrame pf
  cases hr : s.pframeGetResident x n with
  | some f => exact hadds.resident h.pages h'.pages hr
  | none =>
    cases hr' : (s.addFrame pf).pframeGetResident x n with
    | none => rfl
    | some f =>
      obtain ⟨pg,hg,hs,he,-⟩ := hadds.resident_new h.pages h'.pages hr hr'
      rw [(eq_of_frames_addFrame hg hs).2] at he
      exact absurd he.symm hx

omit [Zero D] in
/-- A frame in `o` does not matter to the objects below. -/
theorem Heap.nearest_addFrame (h : Heap s ∅ ext) (h' : Heap (s.addFrame pf) ∅ ext) (hx : x < pf.pfObj) :
    (s.addFrame pf).nearest x n = s.nearest x n := by
  unfold nearest
  rw [(h.pages.adds_addFrame pf).under]
  refine resolve_congr h.shape.descends h.shape.descends fun y hy => ⟨rfl,h.resident_addFrame h' ?_⟩
  have := hy.le h.shape.descends
  omega

/-- A write lookup that has put a frame into `o`, and perhaps one into the bottom object. -/
theorem Looked.of_frames (pf : Pframe D) (h' : Heap t ∅ ext) (hadds : Adds s t)
    (hb : s.mmobjBottomObj o = some b) (hf : t.frames f = some pf)
    (hpf : pf.pfObj = o ∧ pf.pfPagenum = n) (hd : pf.pfData = s.content o n) (hp : pf.pfPincount = 1)
    (hnew : ∀ g pg, t.frames g = some pg → s.frames g = none → pg = pf ∨
      pg.pfObj = b ∧ pg.pfPagenum = n ∧ pg.pfData = s.content b n ∧
        ∀ ob, s.objs b = some ob → ob.mmoOps ≠ .vnode → pg.pfPincount = 1) :
    Looked s t o n true (some f) := by
  have hres : t.pframeGetResident o n = some f := h'.pages.resident_iff.mpr ⟨pf,hf,hpf⟩
  refine ⟨hadds,fun g pg hg hs => ?_,fun _ => ⟨hadds,fun g pg hg hs => ?_⟩,fun g hg => ?_,
    fun g hg _ => ?_,fun _ g pg ob hg hs ho hk => ?_⟩
  · rcases hnew g pg hg hs with rfl | ⟨h1,h2,-⟩
    · exact ⟨hpf.2,.inl ⟨hpf.1,rfl⟩⟩
    · exact ⟨h2,.inr (by rw [h1]; exact hb)⟩
  · rcases hnew g pg hg hs with rfl | ⟨h1,h2,h3,-⟩
    · rw [hpf.1,hpf.2,hd]
    · rw [h1,h2,h3]
  · cases hg
    rw [Memory.nearest,resolve_eq h'.shape.descends,hres]
    rfl
  · cases hg
    exact hres
  · rcases hnew g pg hg hs with rfl | ⟨h1,-,-,h4⟩
    · exact hp
    · obtain ⟨ob0,h0,he,-⟩ := exists_of_shape hadds.shape ho
      rw [h1] at h0
      exact h4 ob0 h0 (by rw [← he]; exact hk)

/-- A write lookup that fails has put a frame into `o`, and perhaps one into the bottom object. -/
theorem Looked.of_failed (hadds : Adds s t) (hnew : ∀ g pg, t.frames g = some pg → s.frames g = none →
    pg.pfPagenum = n ∧ (pg.pfObj = o ∨ s.mmobjBottomObj o = some pg.pfObj)) : Looked s t o n true none where
  adds := hadds
  new g pg hg hs := ⟨(hnew g pg hg hs).1,(hnew g pg hg hs).2.imp_left fun he => ⟨he,rfl⟩⟩
  fills := nofun
  nearest := nofun
  write := nofun
  pinned := nofun

section Copy

variable {sh : ℕ}

omit [Zero D] in
/-- The frame of the copy, before and after it is filled. -/
theorem Heap.addFrame_shadow (h : Heap s ∅ ext) (ho : s.objs o = some ob) (hk : ob.mmoOps = .shadow)
    (hr : s.pframeGetResident o n = none) {c : ℕ} (hc : c ≤ 1) (d : D) : Heap (s.addFrame ⟨o,n,c,d⟩) ∅ ext := by
  refine h.addFrame (isSome_of_eq_some ho) hr fun ob' ho' => ?_
  cases ho.symm.trans ho'
  simpa [hk] using hc

omit [Zero D] in
/-- The search below `o` finds the page that `o` shows. -/
theorem Heap.findBelow_addFrame (h : Heap s ∅ ext) (ho : s.objs o = some ob) (hk : ob.mmoOps = .shadow)
    (hr : s.pframeGetResident o n = none) (d : D) :
    Memory.findBelow (s.addFrame ⟨o,n,0,d⟩) n (o+1) o = some (s.nearest o n) := by
  obtain ⟨sh,b,hl⟩ := h.shape.link o ob ho (Finset.notMem_empty o) hk
  have h1 := h.addFrame_shadow ho hk hr (Nat.zero_le 1) d
  have ha := h.pages.adds_addFrame ⟨o,n,0,d⟩
  have hu : s.under o = some sh := by simp [under,ho,hl.shadowed]
  have hnear : s.nearest o n = s.nearest sh n := by
    rw [nearest,resolve_eq h.shape.descends,hr,hu]
    rfl
  rw [h1.findBelow (by rw [isSome_of_shape ha.shape,ho]; rfl) (Nat.lt_succ_self o),ha.under,hu,
    bind_some,hnear,h.nearest_addFrame h1 hl.shadowed_lt]

/-- No object of the chain has the page, and the bottom object is asked for it. -/
theorem lookupBase_copy (env : Env D) (h : Heap s ∅ ext) (ho : s.objs o = some ob) (hk : ob.mmoOps = .shadow)
    (hr : s.pframeGetResident o n = none) (hl : Linked s ∅ o ob sh b) (hn : s.nearest o n = none) :
    ∃ t r, lookupBase env b n (s.addFrame ⟨o,n,0,env.junk⟩) = some (t, r) ∧
      (r = none ∧ Heap t ∅ ext ∧ Looked s t o n true none ∨
        ∃ g pg, r = some g ∧ t.frames g = some pg ∧ Heap (fillPinned s.nextFrame pg.pfData t) ∅ ext ∧
          Looked s (fillPinned s.nextFrame pg.pfData t) o n true (some s.nextFrame)) := by
  obtain ⟨bob,hbob,hbk⟩ := hl.base
  have hb : s.mmobjBottomObj o = some b := by simp [mmobjBottomObj,ho,hl.shadowed,hl.bottom]
  have hne : b ≠ o := Nat.ne_of_lt hl.bottom_lt
  obtain ⟨hub,hbu⟩ := h.shape.under_bottom hb
  have hres : s.pframeGetResident b n = none := resolve_eq_none h.shape.descends hn hub
  have hblank : s.content b n = s.blank b n := h.content_blank ((h.nearest_base hbu).trans hres)
  have hsame : s.content o n = s.content b n := by
    rw [h.content_blank hn,hblank,blank,blank,hb,h.shape.bottom_under hub hb]
  generalize hs1 : s.addFrame ⟨o,n,0,env.junk⟩ = s1
  have h1 : Heap s1 ∅ ext := hs1 ▸ h.addFrame_shadow ho hk hr (Nat.zero_le 1) env.junk
  have ha1 : Adds s s1 := hs1 ▸ h.pages.adds_addFrame _
  have hnew1 : ∀ g pg, s1.frames g = some pg → s.frames g = none → pg = ⟨o,n,0,env.junk⟩ := fun g pg hg hs =>
    (eq_of_frames_addFrame (hs1 ▸ hg) hs).2
  have hres1 : s1.pframeGetResident b n = none := by
    rw [← hs1,h.resident_addFrame (hs1 ▸ h1) hne,hres]
  obtain ⟨bob1,hbob1⟩ := isSome_iff_exists.mp (by
    rw [isSome_of_shape ha1.shape b,hbob]; rfl : (s1.objs b).isSome)
  obtain ⟨bob0,h0,heb1,-⟩ := exists_of_shape ha1.shape hbob1
  cases hbob.symm.trans h0
  obtain ⟨t,r,ht,hf⟩ := lookupBase_cases env h1 hbob1 (by rw [heb1]; exact hbk) hres1
  have h2 := h1.baseFrame hbob1 hres1 hf
  have ha2 := hf.adds h1.pages
  refine ⟨t,r,ht,?_⟩
  cases hf with
  | noFrame =>
    refine .inl ⟨rfl,h1,.of_failed ha1 fun g pg hg hs => ?_⟩
    rw [hnew1 g pg hg hs]
    exact ⟨rfl,.inl rfl⟩
  | notFilled pfb hob hp =>
    refine .inl ⟨rfl,h2,.of_failed (ha1.trans ha2) fun g pg hg hs => ?_⟩
    rw [frames_addFrame] at hg
    split at hg
    · cases hg
      exact ⟨hob.2,.inr (by rw [hob.1]; exact hb)⟩
    · rw [hnew1 g pg hg hs]
      exact ⟨rfl,.inl rfl⟩
  | filled pfb hob hd hp =>
    have hd' : pfb.pfData = s.content b n := by rw [hd,ha1.blank,hblank]
    have hn1 : s1.nextFrame = s.nextFrame+1 := by rw [← hs1]; rfl
    have hstate : fillPinned s.nextFrame pfb.pfData (s1.addFrame pfb) =
        (s.addFrame ⟨o,n,1,pfb.pfData⟩).addFrame pfb := by
      rw [fillPinned,modFrame_addFrame_of_ne (by omega),← hs1,modFrame_addFrame rfl]
    have hh := h.addFrame_shadow ho hk hr (Nat.le_refl 1) pfb.pfData
    have ha := h.pages.adds_addFrame ⟨o,n,1,pfb.pfData⟩
    have hh2 : Heap ((s.addFrame ⟨o,n,1,pfb.pfData⟩).addFrame pfb) ∅ ext := by
      refine hh.addFrame ?_ ?_ fun ob' hob' => ?_
      · rw [hob.1,isSome_of_shape ha.shape b,hbob]
        rfl
      · rw [hob.1,hob.2,h.resident_addFrame hh hne,hres]
      · obtain ⟨ob0,h0,he,-⟩ := exists_of_shape ha.shape hob'
        rw [hob.1,hbob] at h0
        cases h0
        rw [hp bob1 hbob1,heb1,he]
    refine .inr ⟨s1.nextFrame,pfb,rfl,by rw [frames_addFrame,if_pos rfl],hstate ▸ hh2,hstate ▸ ?_⟩
    refine Looked.of_frames ⟨o,n,1,pfb.pfData⟩ hh2 (ha.trans (hh.pages.adds_addFrame _)) hb ?_ ⟨rfl,rfl⟩
      (hd'.trans hsame.symm) rfl fun g pg hg hs => ?_
    · rw [frames_addFrame,if_neg (by change s.nextFrame ≠ s.nextFrame+1; omega),frames_addFrame,if_pos rfl]
    · rw [frames_addFrame] at hg
      split at hg
      · cases hg
        refine .inr ⟨hob.1,hob.2,hd',fun ob' hob' hk' => ?_⟩
        rw [hp bob1 hbob1,if_neg]
        cases hbob.symm.trans hob'
        rwa [heb1]
      · exact .inl (eq_of_frames_addFrame hg hs).2

/-- `shadow_fillpage` returns: it has filled the new frame of `o`, or there is an error. -/
theorem shadowFillpage_heap (env : Env D) (h : Heap s ∅ ext) (ho : s.objs o = some ob) (hk : ob.mmoOps = .shadow)
    (hr : s.pframeGetResident o n = none) :
    ∃ t ok, shadowFillpage env o n s.nextFrame (s.addFrame ⟨o,n,0,env.junk⟩) = some (t, ok) ∧ Heap t ∅ ext ∧
      Looked s t o n true (if ok then some s.nextFrame else none) := by
  obtain ⟨sh,b,hl⟩ := h.shape.link o ob ho (Finset.notMem_empty o) hk
  have ha := h.pages.adds_addFrame ⟨o,n,0,env.junk⟩
  simp only [shadowFillpage,h.findBelow_addFrame ho hk hr,bind_eq_bind,bind_some]
  cases hn : s.nearest o n with
  | some g =>
    obtain ⟨pg,hg,-⟩ := h.nearest_frame hn
    have hb : s.mmobjBottomObj o = some b := by simp [mmobjBottomObj,ho,hl.shadowed,hl.bottom]
    have hdata : pg.pfData = s.content o n := (h.content_of_nearest hn hg).symm
    have hstate : fillPinned s.nextFrame pg.pfData (s.addFrame ⟨o,n,0,env.junk⟩) =
        s.addFrame ⟨o,n,1,pg.pfData⟩ := by
      rw [fillPinned,modFrame_addFrame rfl]
    have h1 := h.addFrame_shadow ho hk hr (Nat.le_refl 1) pg.pfData
    refine ⟨s.addFrame ⟨o,n,1,pg.pfData⟩,true,?_,h1,?_⟩
    · simp only [ha.frame g pg hg,bind_some,hstate]
      rfl
    · exact Looked.of_frames ⟨o,n,1,pg.pfData⟩ h1 (h.pages.adds_addFrame _) hb
        (by rw [frames_addFrame,if_pos rfl]) ⟨rfl,rfl⟩ hdata rfl
        fun g' pg' hg' hs' => .inl (eq_of_frames_addFrame hg' hs').2
  | none =>
    obtain ⟨ob1,ho1⟩ := isSome_iff_exists.mp (by
      rw [isSome_of_shape ha.shape o,ho]; rfl : ((s.addFrame ⟨o,n,0,env.junk⟩).objs o).isSome)
    obtain ⟨ob0,h0,-,-,heb⟩ := exists_of_shape ha.shape ho1
    cases ho.symm.trans h0
    obtain ⟨t,r,ht,hcase⟩ := lookupBase_copy env h ho hk hr hl hn
    simp only [ho1,heb,hl.bottom,ht,bind_some]
    rcases hcase with ⟨rfl,hheap,hlook⟩ | ⟨g,pg,rfl,hg,hheap,hlook⟩
    · exact ⟨t,false,rfl,hheap,hlook⟩
    · exact ⟨_,true,by simp only [hg,bind_some]; rfl,hheap,hlook⟩

/-- The copy of a page for a write. -/
theorem shadowWrite_heap (env : Env D) (h : Heap s ∅ ext) (ho : s.objs o = some ob)
    (hk : ob.mmoOps = .shadow) (hr : s.pframeGetResident o n = none) :
    ∃ t r, pframeGet env o n (shadowFillpage env o n) s = some (t, r) ∧ Heap t ∅ ext ∧
      Looked s t o n true r := by
  have hrc := (h.used o ob ho (Finset.notMem_empty o)).1
  unfold pframeGet
  rw [hr]
  by_cases hal : env.allocOk o = true
  · obtain ⟨t,ok,ht,hheap,hlook⟩ := shadowFillpage_heap env h ho hk hr
    refine ⟨t,if ok then some s.nextFrame else none,?_,hheap,hlook⟩
    simp only [if_pos hal,pframeAlloc_eq env.junk n ho hrc,ht,bind_eq_bind,bind_some]
    rfl
  · exact ⟨s,none,by simp only [if_neg hal],h,Looked.failed⟩

end Copy

/-- `lookuppage` returns, with a frame or with an error. -/
theorem lookuppage_heap (env : Env D) (h : Heap s ∅ ext) (ho : s.objs o = some ob) (n : ℕ) (forwrite : Bool) :
    ∃ t r, lookuppage env o n forwrite s = some (t, r) ∧ Heap t ∅ ext ∧ Looked s t o n forwrite r := by
  simp only [lookuppage,ho,bind_eq_bind,bind_some]
  by_cases hk : ob.mmoOps = .shadow
  · simp only [hk,shadowLookuppage]
    obtain ⟨sh,b,hl⟩ := h.shape.link o ob ho (Finset.notMem_empty o) hk
    have hb : s.mmobjBottomObj o = some b := by simp [mmobjBottomObj,ho,hl.shadowed,hl.bottom]
    cases forwrite with
    | true =>
      simp only [if_true]
      cases hr : s.pframeGetResident o n with
      | some f =>
        refine ⟨s,some f,rfl,h,Looked.of_nearest ?_ fun _ => hr⟩
        rw [nearest,resolve_eq h.shape.descends,hr]
        rfl
      | none => exact shadowWrite_heap env h ho hk hr
    | false =>
      obtain ⟨r,hr,hnear⟩ := h.findShadow (n := n) hb (Nat.lt_succ_self o)
      simp only [hr,bind_eq_bind,bind_some,Bool.false_eq_true,if_false]
      cases r with
      | some f => exact ⟨s,some f,rfl,h,Looked.of_nearest hnear (by rintro ⟨⟩)⟩
      | none =>
        simp only [ho,bind_some,hl.bottom]
        rw [none_or] at hnear
        exact lookupBase_heap env h hb hnear (by rintro ⟨⟩)
  · have hb : s.mmobjBottomObj o = some o := by simp [mmobjBottomObj,ho,(h.shape.base o ob ho hk).1]
    have hu : s.under o = none := (h.shape.under_bottom hb).2
    have hbase : ∃ t r, lookupBase env o n s = some (t, r) ∧ Heap t ∅ ext ∧ Looked s t o n forwrite r :=
      lookupBase_heap env h hb (h.nearest_base hu) fun _ => rfl
    cases hops : ob.mmoOps with
    | shadow => exact absurd hops hk
    | anon => exact hbase
    | vnode => exact hbase

end Fill

end Memory

end Csci402.Vm
