import Csci402.Vm.System

/-! What a process sees. The view of a process at a page is what a read lookup of the page
returns. Looking pages up changes no view, a write changes the view of those whose page of
the object it is, a fork gives the child the view of its parent, and what one process takes
away another one keeps. -/

namespace Csci402.Vm

namespace Memory

open Lib Option

variable {D : Type} [Zero D] {U : UserMem} {s t u : Memory D} {env : Env D} {pid q v w o n x f : ℕ}
  {a : Vmarea} {ob : Mmobj}

/-- What the process sees at the page. -/
def view (s : Memory D) (pid v : ℕ) : Option D :=
  (trans (s.vmmList pid) v).bind fun target => target.1.map fun o => s.content o target.2.1

theorem view_of_lookup {d : D} (ha : vmmapLookup (s.vmmList pid) v = some a) (ho : a.vmaObj = some o)
    (hd : s.content o (a.page v) = d) : s.view pid v = some d := by
  simp [view,trans,ha,Vmarea.target,ho,hd]

theorem Sys.view_eq_none (h : Sys U s) : s.view pid v = none ↔ vmmapLookup (s.vmmList pid) v = none := by
  constructor
  · intro hv
    by_contra hc
    obtain ⟨a,ha⟩ := ne_none_iff_exists'.mp hc
    obtain ⟨o,ob,ho,-⟩ := h.area_obj (vmmapLookup_mem ha).1
    rw [view_of_lookup ha ho rfl] at hv
    cases hv
  · intro ha
    simp [view,trans,ha]

/-! ### Lookups -/

/-- The allocator has frames and files can be read. -/
def LookupsOk (env : Env D) : Prop := ∀ o, env.allocOk o = true ∧ env.fillOk o = true

variable {r : Option ℕ}

omit [Zero D] in
theorem pframeGet_ok {fill : ℕ → Memory D → Option (Memory D × Bool)} (henv : LookupsOk env)
    (hfill : ∀ g s' t b, fill g s' = some (t, b) → b = true)
    (h : pframeGet env o n fill s = some (t, r)) : r.isSome := by
  unfold pframeGet at h
  split at h
  · cases h
    rfl
  · rw [if_pos (henv o).1] at h
    obtain ⟨s1,-,h⟩ := bind_eq_some_iff.mp h
    obtain ⟨⟨s2,ok⟩,hs2,h⟩ := bind_eq_some_iff.mp h
    cases h
    rw [hfill _ _ _ _ hs2]
    rfl

theorem lookupBase_ok (henv : LookupsOk env) (h : lookupBase env o n s = some (t, r)) : r.isSome := by
  obtain ⟨ob,-,h⟩ := bind_eq_some_iff.mp h
  split at h
  · refine pframeGet_ok henv (fun g s' t b hf => ?_) h
    cases hf
    rfl
  · refine pframeGet_ok henv (fun g s' t b hf => ?_) h
    unfold vnodeFillpage at hf
    rw [if_pos (henv o).2] at hf
    cases hf
    rfl
  · cases h

theorem shadowFillpage_ok (henv : LookupsOk env) {b : Bool} (h : shadowFillpage env o n f s = some (t, b)) :
    b = true := by
  obtain ⟨g,-,h⟩ := bind_eq_some_iff.mp h
  cases g with
  | some g =>
    obtain ⟨pf,-,h⟩ := bind_eq_some_iff.mp h
    cases h
    rfl
  | none =>
    obtain ⟨ob,-,h⟩ := bind_eq_some_iff.mp h
    obtain ⟨bo,-,h⟩ := bind_eq_some_iff.mp h
    obtain ⟨⟨s1,r⟩,hs1,h⟩ := bind_eq_some_iff.mp h
    obtain ⟨g,rfl⟩ := isSome_iff_exists.mp (lookupBase_ok henv hs1)
    obtain ⟨pf,-,h⟩ := bind_eq_some_iff.mp h
    cases h
    rfl

theorem lookuppage_ok (henv : LookupsOk env) {forwrite : Bool}
    (h : lookuppage env o n forwrite s = some (t, r)) : r.isSome := by
  obtain ⟨ob,-,h⟩ := bind_eq_some_iff.mp h
  split at h
  · unfold shadowLookuppage at h
    split at h
    · split at h
      · cases h
        rfl
      · exact pframeGet_ok henv (fun g s' t b hf => shadowFillpage_ok henv hf) h
    · obtain ⟨g,-,h⟩ := bind_eq_some_iff.mp h
      cases g with
      | some g =>
        cases h
        rfl
      | none =>
        obtain ⟨ob',-,h⟩ := bind_eq_some_iff.mp h
        obtain ⟨bo,-,h⟩ := bind_eq_some_iff.mp h
        exact lookupBase_ok henv h
  · exact lookupBase_ok henv h

theorem Fills.view (hf : Fills s t) (h : Sys U s) (h' : Sys U t) (q v : ℕ) : t.view q v = s.view q v := by
  unfold Memory.view
  rw [hf.adds.vmmList]
  simp only [hf.content h.heap h'.heap]

/-- What a read returns is the view, and nothing that can be seen changes. -/
theorem Sys.readPage_view (h : Sys U s) {d : D} (ht : readPage env pid v s = some (t, some d)) :
    s.view pid v = some d ∧ ∀ q w, t.view q w = s.view q w := by
  obtain ⟨⟨⟩,-⟩ | ⟨a,o,f,pf,ha,ho,hsys,hl,hf,⟨⟩⟩ := h.readPage_looked ht
  have hfills := hl.fills rfl
  refine ⟨view_of_lookup ha ho ?_,hfills.view h hsys⟩
  rw [← hfills.content h.heap hsys.heap]
  exact hsys.heap.content_of_nearest (hl.nearest f rfl) hf

/-- The object of a page that is mapped returns no frame. -/
def LookupFails (env : Env D) (pid v : ℕ) (forwrite : Bool) (s : Memory D) : Prop :=
  ∃ t, lookupVfn env pid v forwrite s = some (t, none)

theorem LookupsOk.succeeds (henv : LookupsOk env) (pid v : ℕ) (forwrite : Bool) (s : Memory D) :
    ¬LookupFails env pid v forwrite s := by
  rintro ⟨t,ht⟩
  obtain ⟨a,-,ht⟩ := bind_eq_some_iff.mp ht
  obtain ⟨o,-,ht⟩ := bind_eq_some_iff.mp ht
  cases lookuppage_ok henv ht

/-- A page that is mapped is looked up. -/
theorem Sys.lookupVfn_cases (h : Sys U s) (env : Env D) {a : Vmarea} (ha : vmmapLookup (s.vmmList pid) v = some a) (forwrite : Bool) :
    ∃ o ob t r, a.vmaObj = some o ∧ s.objs o = some ob ∧ Memory.lookuppage env o (a.page v) forwrite s = some (t, r) ∧
      Sys U t ∧ Looked s t o (a.page v) forwrite r ∧ (r = none ↔ LookupFails env pid v forwrite s) := by
  obtain ⟨o,ob,ho,hob⟩ := h.area_obj (vmmapLookup_mem ha).1
  obtain ⟨t,r,ht,hsys,hl⟩ := h.lookuppage env hob (a.page v) forwrite
  refine ⟨o,ob,t,r,ho,hob,ht,hsys,hl,?_⟩
  have hv : Memory.lookupVfn env pid v forwrite s = some (t, r) := by
    simp only [Memory.lookupVfn,ha,ho,bind_eq_bind,bind_some,ht]
  constructor
  · rintro rfl
    exact ⟨t,hv⟩
  · rintro ⟨t',ht'⟩
    cases hv.symm.trans ht'
    rfl

/-- A read returns what is seen, and an error where nothing is. -/
theorem Sys.readPage_returns (h : Sys U s) (hok : ¬LookupFails env pid v false s) :
    ∃ t, readPage env pid v s = some (t, s.view pid v) ∧ Sys U t ∧ (∀ q, t.vmmList q = s.vmmList q) ∧
      ∀ q w, t.view q w = s.view q w := by
  cases ha : vmmapLookup (s.vmmList pid) v with
  | none =>
    refine ⟨s,?_,h,fun _ => rfl,fun _ _ => rfl⟩
    rw [h.view_eq_none.mpr ha]
    unfold readPage
    rw [ha]
    rfl
  | some a =>
    obtain ⟨o,ob,t,r,ho,-,ht,hsys,hl,hr⟩ := h.lookupVfn_cases env ha false
    obtain ⟨g,rfl⟩ := ne_none_iff_exists'.mp (mt hr.mp hok)
    obtain ⟨pf,hg,-⟩ := hsys.heap.nearest_frame (hl.nearest g rfl)
    have hread : readPage env pid v s = some (t, some pf.pfData) := by
      unfold readPage
      simp only [ha,ho,ht,hg,bind_eq_bind,bind_some]
      rfl
    obtain ⟨hv,hsame⟩ := h.readPage_view hread
    exact ⟨t,by rw [hread,hv],hsys,hl.adds.vmmList,hsame⟩

/-- The frame of a lookup that fails is used all the same. -/
theorem LookupFails.readPage (h : LookupFails env pid v false s) : Memory.readPage env pid v s = none := by
  obtain ⟨t,ht⟩ := h
  obtain ⟨a,ha,ht⟩ := bind_eq_some_iff.mp ht
  obtain ⟨o,ho,ht⟩ := bind_eq_some_iff.mp ht
  simp only [Memory.readPage,ha,ho,ht,bind_eq_bind,bind_some,bind_none]

theorem LookupFails.writePage (h : LookupFails env pid v true s) (store : D → D) : Memory.writePage env pid v store s = none := by
  obtain ⟨t,ht⟩ := h
  obtain ⟨a,ha,ht⟩ := bind_eq_some_iff.mp ht
  obtain ⟨o,ho,ht⟩ := bind_eq_some_iff.mp ht
  simp only [Memory.writePage,ha,ho,ht,bind_eq_bind,bind_some,bind_none]

/-! ### Writes -/

/-- A write to the page `n` of the object `o`. -/
structure Wrote (s t : Memory D) (o n : ℕ) (store : D → D) : Prop where
  lists : ∀ q, t.vmmList q = s.vmmList q
  self : t.content o n = store (s.content o n)
  other : ∀ x m, m ≠ n ∨ ¬ Under s.under x o → t.content x m = s.content x m
  near : ∀ x, x ≠ o → (s.pframeGetResident x n).isSome → t.content x n = s.content x n
  resident : (t.pframeGetResident o n).isSome
  kept : ∀ x m, (s.pframeGetResident x m).isSome → (t.pframeGetResident x m).isSome
  under : t.under = s.under
  nextPid : t.nextPid = s.nextPid

variable {store : D → D}

/-- Only what one frame holds changes. -/
theorem Heap.store_content {ext : ℕ → ℤ} (h : Heap s ∅ ext) {pf : Pframe D} (hf : s.frames f = some pf)
    (ht : Heap (s.modFrame f fun pf => { pf with pfData := store pf.pfData }) ∅ ext) :
    Wrote s (s.modFrame f fun pf => { pf with pfData := store pf.pfData }) pf.pfObj pf.pfPagenum store := by
  generalize hst : (s.modFrame f fun pf => { pf with pfData := store pf.pfData }) = t at ht
  have hframes : ∀ g, t.frames g = if g = f then some { pf with pfData := store pf.pfData } else s.frames g := by
    intro g
    rw [← hst,frames_modFrame,hf]
    rfl
  have hunder : t.under = s.under := by
    rw [← hst]
    rfl
  have hblank : ∀ x m, t.blank x m = s.blank x m := by
    intro x m
    rw [← hst]
    rfl
  have hres : ∀ x m, t.pframeGetResident x m = s.pframeGetResident x m := by
    intro x m
    refine Option.ext fun g => ?_
    rw [h.pages.resident_iff,ht.pages.resident_iff,hframes]
    by_cases hg : g = f
    · subst hg
      simp [hf]
    · simp [hg]
  have hheld : ∀ x m, x ≠ pf.pfObj ∨ m ≠ pf.pfPagenum → t.held? x m = s.held? x m := by
    intro x m hne
    rw [held?,held?,hres]
    cases hr : s.pframeGetResident x m with
    | none => rfl
    | some g =>
      obtain ⟨pg,hg,rfl,rfl⟩ := h.pages.resident_iff.mp hr
      have hgf : g ≠ f := by
        rintro rfl
        cases hf.symm.trans hg
        simp at hne
      simp [hframes,hgf]
  have hnear : s.pframeGetResident pf.pfObj pf.pfPagenum = some f := h.pages.resident_iff.mpr ⟨pf,hf,rfl,rfl⟩
  have hd := h.shape.descends
  have hres_self : ∀ {m : Memory D} {x k : ℕ} {d : D}, Descends m.under → m.held? x k = some d →
      m.content x k = d := by
    intro m x k d hdm hx
    rw [content,resolve_eq hdm,hx]
    rfl
  refine ⟨fun q => by rw [← hst]; rfl,?_,fun x m hne => ?_,fun x hx hr => ?_,?_,fun x m hr => ?_,hunder,
    by rw [← hst]; rfl⟩
  · have hs : s.held? pf.pfObj pf.pfPagenum = some pf.pfData := h.pages.held?_eq_some hf
    have hft : t.frames f = some { pf with pfData := store pf.pfData } := by rw [hframes,if_pos rfl]
    have ht' : t.held? pf.pfObj pf.pfPagenum = some (store pf.pfData) := ht.pages.held?_eq_some hft
    rw [hres_self hd hs,hres_self (hunder ▸ hd) ht']
  · rw [content,content,hblank]
    rw [resolve_congr hd (hunder ▸ hd) fun y hy => ⟨by rw [hunder],hheld y m ?_⟩]
    refine hne.symm.imp_left ?_
    rintro hno rfl
    exact hno hy
  · obtain ⟨g,hg⟩ := isSome_iff_exists.mp hr
    have hsome := h.pages.resident_isSome hg
    obtain ⟨d,hdat⟩ := isSome_iff_exists.mp hsome
    have hs : s.held? x pf.pfPagenum = some d := by simp only [held?,hg,bind_some,hdat]
    rw [hres_self hd hs,hres_self (hunder ▸ hd) ((hheld x _ (.inl hx)).trans hs)]
  · rw [hres,hnear]
    rfl
  · rw [hres]
    exact hr

theorem Fills.wrote (hf : Fills s t) (h : Sys U s) (h' : Sys U t) (hw : Wrote t u o n store) :
    Wrote s u o n store where
  lists q := (hw.lists q).trans (hf.adds.vmmList q)
  self := by rw [hw.self,hf.content h.heap h'.heap]
  other x m hne := by
    rw [← hf.adds.under] at hne
    rw [hw.other x m hne,hf.content h.heap h'.heap]
  near x hx hr := by
    obtain ⟨g,hg⟩ := isSome_iff_exists.mp hr
    have hr' := hf.adds.resident h.heap.pages h'.heap.pages hg
    rw [hw.near x hx (by rw [hr']; rfl),hf.content h.heap h'.heap]
  resident := hw.resident
  kept x m hr := by
    obtain ⟨g,hg⟩ := isSome_iff_exists.mp hr
    exact hw.kept x m (by rw [hf.adds.resident h.heap.pages h'.heap.pages hg]; rfl)
  under := hw.under.trans hf.adds.under
  nextPid := hw.nextPid.trans hf.adds.next.2.2

/-- A write writes to the page of the area's object, or there is no area. -/
theorem Sys.writePage_wrote (h : Sys U s) {r : Option Unit} (ht : Memory.writePage env pid v store s = some (t, r)) :
    Sys U t ∧ (r = none ∧ t = s ∧ vmmapLookup (s.vmmList pid) v = none ∨ r = some () ∧ ∃ a o,
      vmmapLookup (s.vmmList pid) v = some a ∧ a.vmaObj = some o ∧ Wrote s t o (a.page v) store) := by
  refine ⟨h.writePage ht,?_⟩
  obtain hnone | ⟨hr,a,o,s1,f,ha,ho,hsys,hl,rfl⟩ := h.writePage_looked ht
  · exact .inl hnone
  · obtain ⟨pf,hf,hpo,hpn⟩ := hsys.heap.pages.resident_iff.mp (hl.write f rfl rfl)
    have hw := hsys.heap.store_content hf (hsys.store f store).heap
    rw [hpo,hpn] at hw
    exact .inr ⟨hr,a,o,ha,ho,(hl.fills rfl).wrote h hsys hw⟩

theorem Sys.writePage_returns (h : Sys U s) (hok : ¬LookupFails env pid v true s) (store : D → D) :
    ∃ t, Memory.writePage env pid v store s = some (t, (vmmapLookup (s.vmmList pid) v).map fun _ => ()) := by
  unfold Memory.writePage
  cases ha : vmmapLookup (s.vmmList pid) v with
  | none => exact ⟨s,rfl⟩
  | some a =>
    obtain ⟨o,ob,s1,r,ho,-,hs1,-,-,hr⟩ := h.lookupVfn_cases env ha true
    obtain ⟨g,rfl⟩ := ne_none_iff_exists'.mp (mt hr.mp hok)
    exact ⟨_,by simp only [ho,hs1,bind_eq_bind,bind_some]; rfl⟩

/-! ### What stays -/

/-- A page that is mapped as it was is seen as it was. -/
theorem Keeps.view (hk : Keeps s t) (h : Sys U s) (h' : Sys U t)
    (htr : Vm.trans (t.vmmList q) v = Vm.trans (s.vmmList pid) v) : t.view q v = s.view pid v := by
  unfold Memory.view
  rw [htr]
  cases hx : Vm.trans (s.vmmList pid) v with
  | none => rfl
  | some x =>
    obtain ⟨a,ha,-,-,rfl⟩ := (trans_eq_some (h.list pid).ok).mp hx
    obtain ⟨b,hb,-,-,he⟩ := (trans_eq_some (h'.list q).ok).mp (htr.trans hx)
    obtain ⟨o,ob,ho,-⟩ := h.area_obj ha
    obtain ⟨o',ob',ho',hob'⟩ := h'.area_obj hb
    cases (ho'.symm.trans (obj_of_target he)).trans ho
    simp only [bind_some,Vmarea.target,ho,map_some]
    rw [hk.content h.heap h'.heap (h.heap.area_lt ha ho) (by simp [hob'])]

/-! ### Forks -/

theorem Heap.content_under {ext : ℕ → ℤ} (h : Heap s ∅ ext) (hu : s.under x = some o)
    (hr : s.pframeGetResident x n = none) : s.content x n = s.content o n := by
  have hx : s.held? x n = none := by simp [held?,hr]
  rw [content,content,resolve_eq h.shape.descends,hx,hu,h.blank_under hu]
  rfl

omit [Zero D] in
/-- A new object has no frames. -/
theorem Keeps.fresh (hk : Keeps s t) (h : Sys U s) (h' : Sys U t) (hx : s.nextObj ≤ x) (n : ℕ) :
    t.pframeGetResident x n = none := by
  refine eq_none_iff_forall_ne_some.mpr fun f hf => ?_
  obtain ⟨pf,hpf,rfl,-⟩ := h'.heap.pages.resident_iff.mp hf
  obtain ⟨ob,hob,-⟩ := h.heap.pages.owner (hk.frame_of f pf hpf)
  exact absurd (h.heap.shape.obj_lt _ ob hob) (Nat.not_lt.mpr hx)

omit [Zero D] in
/-- The areas of the two processes after a fork, and where they come from. -/
theorem Forked.lookup (hf : Forked U pid s t) {side : ℕ} (hs : side < 2)
    (hq : q = if side = 0 then pid else s.nextPid) :
    (∀ v, vmmapLookup (t.vmmList q) v = none → vmmapLookup (s.vmmList pid) v = none) ∧
      ∀ v a, vmmapLookup (t.vmmList q) v = some a → ∃ p ∈ forkedAreas side s.nextObj (s.vmmList pid),
        p.vmaStart ≤ v ∧ v < p.vmaEnd ∧ a.target v = p.target v := by
  have hlist : ∃ l, spans l = spans (s.vmmList pid) ∧ t.vmmList q = l ∧ ∀ a ∈ l,
      ∃ p ∈ forkedAreas side s.nextObj (s.vmmList pid), p.vmaStart = a.vmaStart ∧ p.vmaEnd = a.vmaEnd ∧
        ∀ v, a.target v = p.target v := by
    subst hq
    split
    next h0 =>
      subst h0
      exact ⟨_,spans_forkedAreas,hf.parent,fun a ha => ⟨a,ha,rfl,rfl,fun _ => rfl⟩⟩
    next h1 =>
      obtain rfl : side = 1 := by omega
      refine ⟨_,spans_renumber.trans spans_forkedAreas,hf.child,fun a ha => ?_⟩
      obtain ⟨p,hp,i,-,-,rfl⟩ := mem_renumber ha
      exact ⟨p,hp,rfl,rfl,fun _ => rfl⟩
  obtain ⟨l,hspans,hl,hfrom⟩ := hlist
  rw [hl]
  refine ⟨fun v hv => ?_,fun v a ha => ?_⟩
  · rw [vmmapLookup_eq_spanAt,spanAt_eq_none] at hv ⊢
    intro a ha
    have : (a.vmaStart, a.vmaEnd) ∈ spans l := hspans ▸ List.mem_map_of_mem ha
    obtain ⟨b,hb,he⟩ := List.mem_map.mp this
    have := hv b hb
    simp only [Prod.mk.injEq] at he
    rwa [he.1,he.2] at this
  · obtain ⟨ha,h1,h2⟩ := vmmapLookup_mem ha
    obtain ⟨p,hp,hps,hpe,he⟩ := hfrom a ha
    exact ⟨p,hp,by omega,by omega,he v⟩

/-- Parent and child see what the parent saw. -/
theorem Forked.view (hf : Forked U pid s t) (h : Sys U s) (h' : Sys U t) (side : ℕ) (hs : side < 2)
    (hq : q = if side = 0 then pid else s.nextPid) (v : ℕ) : t.view q v = s.view pid v := by
  have hk := hf.grows.keeps
  obtain ⟨hnone,hsome⟩ := hf.lookup hs hq
  cases ha : vmmapLookup (t.vmmList q) v with
  | none => rw [h'.view_eq_none.mpr ha,h.view_eq_none.mpr (hnone v ha)]
  | some a =>
    obtain ⟨p,hp,hps,hpe,he⟩ := hsome v a ha
    cases hsh : p.isShared with
    | true =>
      obtain ⟨b,hb,-,hfl,hsame,-⟩ := mem_forkedAreas hp
      obtain rfl : p = b := hsame (by rw [← hsh,Vmarea.isShared,Vmarea.isShared,hfl])
      refine hk.view h h' ?_
      rw [trans,ha,map_some,he]
      exact ((trans_eq_some (h.list pid).ok).mpr ⟨p,hb,hps,hpe,rfl⟩).symm
    | false =>
      obtain ⟨b,hb,hpb,y,bot,hy,hshape⟩ := hf.tops side hs p hp hsh
      obtain ⟨j,hj,-⟩ := forkedAreas_obj hp hsh
      obtain ⟨yob,hyo,hys⟩ := map_eq_some_iff.mp hshape
      obtain ⟨o,ob,ho,hob⟩ := h.area_obj hb
      simp only [shape,Prod.mk.injEq] at hys
      have hge : s.nextObj ≤ y := by
        cases hy.symm.trans hj
        omega
      have hunder : t.under y = some o := by simp [under,hyo,hys,ho]
      have hlook : vmmapLookup (s.vmmList pid) v = some b :=
        (vmmapLookup_eq_some (h.list pid).ok).mpr ⟨hb,by rw [hpb] at hps; exact hps,by rw [hpb] at hpe; exact hpe⟩
      have hpage : a.page v = b.page v := by rw [page_of_target he,hpb]; rfl
      refine (view_of_lookup ha ((obj_of_target he).trans hy) ?_).trans (view_of_lookup hlook ho rfl).symm
      rw [h'.heap.content_under hunder (hk.fresh h h' hge _),hpage]
      exact hk.content h.heap h'.heap (h.heap.area_lt hb ho) (hf.grows.isSome (by simp [hob]))

end Memory

end Csci402.Vm
