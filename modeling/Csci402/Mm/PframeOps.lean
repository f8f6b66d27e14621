import Csci402.Mm.PframeInv

/-! The steps that the functions of the page cache are made of: looking a page up,
entering and leaving an operation of an object, going to sleep and waking up. Each of
them keeps the invariants. -/

namespace Csci402.Mm.PageCache

open Lib Function Option List

variable {T O F : Type*} [DecidableEq F] {H : HashTable O} {s s' : PageCache T O F} {f : F}
  {pf pf' : Pframe O T} {r : Option (Pframe O T)}

theorem isBusy_update (h : s'.frame = update s.frame f r) : s'.isBusy = update s.isBusy f (r.any (·.busy)) := by
  funext g
  by_cases hg : g = f
  · subst hg; simp [isBusy,h]
  · simp [isBusy,h,hg]

theorem sleepers_update (h : s'.frame = update s.frame f r) :
    s'.sleepers = update s.sleepers f (r.elim [] (·.pfWaitq)) := by
  funext g
  by_cases hg : g = f
  · subst hg; simp [sleepers,h]
  · simp [sleepers,h,hg]

theorem identity_update (h : s'.frame = update s.frame f r) :
    s'.identity = update s.identity f (r.map fun pf => (pf.pfObj, pf.pfPagenum)) := by
  funext g
  by_cases hg : g = f
  · subst hg; simp [identity,h]
  · simp [identity,h,hg]

omit [DecidableEq F] in
theorem mem_held_of_filling {t : T} {o : O} {n : ℕ} (h : .filling o n f ∈ s.stack t) : f ∈ s.held t :=
  mem_filterMap.mpr ⟨_,h,rfl⟩

/-- The record has changed in its pin count or dirty bit only. -/
theorem Inv.withFrame (h : Inv H s) (hf : s.frame f = some pf) (pf' : Pframe O T)
    (ho : pf'.pfObj = pf.pfObj) (hn : pf'.pfPagenum = pf.pfPagenum) (hb : pf'.busy = pf.busy)
    (hw : pf'.pfWaitq = pf.pfWaitq) (hframe : s'.frame = update s.frame f (some pf')) (hp : PageInv s')
    (hhash : s'.pframeHash = s.pframeHash) (hresp : s'.mmoRespages = s.mmoRespages)
    (hnresp : s'.mmoNrespages = s.mmoNrespages) (hst : s'.stack = s.stack)
    (hwc : s'.ktWchan = s.ktWchan) : Inv H s' := by
  have hheld : s'.held = s.held := by funext t; rw [held,held,hst]
  have hbusy : s'.isBusy = s.isBusy := by
    rw [isBusy_update hframe,update_eq_self_iff]
    simp [isBusy,hf,hb]
  have hsl : s'.sleepers = s.sleepers := by
    rw [sleepers_update hframe,update_eq_self_iff]
    simp [sleepers,hf,hw]
  have hid : s'.identity = s.identity := by
    rw [identity_update hframe,update_eq_self_iff]
    simp [identity,hf,ho,hn]
  refine ⟨?_,hp,?_,?_⟩
  · rw [hframe,hhash,hresp,hnresp]
    exact h.ids.setFrame hf ho hn
  · rw [hheld,hbusy,hsl,hwc]
    exact h.threads
  · rw [hst,hid]
    exact h.filling

/-! ### Looking a page up -/

/-- The frame of the page, or there is none. Nothing changes but the place on
`alloc_list`. -/
theorem Inv.getResident [DecidableEq O] (h : Inv H s) (o : O) (n : ℕ) :
    ∃ r s', pframeGetResident H o n s = (r, s') ∧ Inv H s' ∧ s'.frame = s.frame ∧
      s'.stack = s.stack ∧ s'.ktWchan = s.ktWchan ∧
      (∀ f, r = some f → s.identity f = some (o, n)) ∧
      (r = none → ∀ f, s.identity f ≠ some (o, n)) := by
  have hiff : ∀ f, s.hasIdentity o n f = true ↔ s.identity f = some (o, n) := fun f => by
    cases hf : s.frame f <;> simp [hasIdentity,identity,hf]
  cases hfind : (s.pframeHash (H.hashPage o n)).find? (s.hasIdentity o n) with
  | none =>
    refine ⟨none,s,by simp [pframeGetResident,hfind],h,rfl,rfl,rfl,by simp,
      fun _ f hf => ?_⟩
    -- such a frame would be on the chain that was searched
    have hm : f ∈ s.pframeHash (H.hashPage o n) := by
      rw [h.ids.chain.mem]
      obtain ⟨pf,hpf,he⟩ := map_eq_some_iff.mp hf
      simp only [Prod.mk.injEq] at he
      simp [chainKey,hpf,he.1,he.2]
    exact find?_eq_none.mp hfind f hm ((hiff f).mpr hf)
  | some f =>
    have hid := (hiff f).mp (find?_some hfind)
    obtain ⟨pf,hf,-⟩ := map_eq_some_iff.mp hid
    by_cases hp : 0 < pf.pfPincount
    · exact ⟨some f,s,by simp [pframeGetResident,hfind,hf,hp],h,rfl,rfl,rfl,
        by simpa using hid,by simp⟩
    · have hframe : (linkAlloc f s).frame = update s.frame f (some pf) := by
        rw [← hf,update_eq_self]
        rfl
      obtain ⟨ha,hn⟩ := h.pages.length_unpinned hf hp
      refine ⟨some f,linkAlloc f s,by simp [pframeGetResident,hfind,hf,hp],
        h.withFrame hf pf rfl rfl rfl rfl hframe ?_ rfl rfl rfl rfl rfl,rfl,rfl,rfl,
        by simpa using hid,by simp⟩
      refine h.pages.relink hframe (h.pages.pincount f pf hf) (by simp [hp])
        (pages_linkAlloc s f) ?_ hn.symm
      simp [linkAlloc,removeLink,ha]

/-! ### Entering and leaving an operation of the object -/

section Threads

variable [DecidableEq T] {t : T} {p : Pending O F} {st : List (Pending O F)}

omit [DecidableEq F] in
theorem held_setStack (s : PageCache T O F) (t : T) (st : List (Pending O F)) :
    (setStack t st s).held = update s.held t (st.filterMap Pending.frame) := by
  funext u
  by_cases hu : u = t
  · subst hu; simp [held,setStack]
  · simp [held,setStack,hu]

/-- The frame is marked busy and the call is put on the stack. The record may differ
in its dirty bit. -/
theorem Inv.beginOp (h : Inv H s) (hf : s.frame f = some pf) (hb : pf.busy = false)
    (ho : pf'.pfObj = pf.pfObj) (hn : pf'.pfPagenum = pf.pfPagenum)
    (hc : pf'.pfPincount = pf.pfPincount) (hw : pf'.pfWaitq = pf.pfWaitq) (hp : p.frame = some f)
    (hfill : ∀ o n g, p = .filling o n g → (pf.pfObj, pf.pfPagenum) = (o, n)) : Inv H (beginOp t f pf' p s) := by
  have hframe : (PageCache.beginOp t f pf' p s).frame =
      update s.frame f (some { pf' with busy := true }) := rfl
  have hid : (PageCache.beginOp t f pf' p s).identity = s.identity := by
    rw [identity_update hframe,update_eq_self_iff]
    simp [identity,hf,ho,hn]
  refine ⟨h.ids.setFrame hf ho hn,?_,?_,fun u o n g hg => ?_⟩
  · have := h.pages.setFrame hf { pf' with busy := true } (by rw [hc])
      (by rw [hc]; exact h.pages.pincount f pf hf)
    exact ⟨this.page,this.nallocated,this.npinned,this.pincount⟩
  · have hsl : (PageCache.beginOp t f pf' p s).sleepers = s.sleepers := by
      rw [sleepers_update hframe,update_eq_self_iff]
      simp [sleepers,hf,hw]
    have hheld : (PageCache.beginOp t f pf' p s).held =
        update s.held t (f :: s.held t) := by
      rw [PageCache.beginOp,held_setStack,filterMap_cons_some hp]
      rfl
    rw [hheld,hsl,isBusy_update hframe]
    exact h.threads.beginOp (by simp [isBusy,hf,hb]) t
  · rw [hid]
    by_cases hu : u = t
    · subst hu
      have hg : .filling o n g = p ∨ .filling o n g ∈ s.stack u := by
        simpa [PageCache.beginOp,setStack] using hg
      rcases hg with rfl | hg
      · obtain rfl : g = f := by simpa [Pending.frame] using hp
        simp [identity,hf,hfill o n g rfl]
      · exact h.filling u o n g hg
    · exact h.filling u o n g (by simpa [PageCache.beginOp,setStack,setFrame,hu] using hg)

/-- The call on top of a thread's stack is done: its frame is not busy any more and
all its sleepers are woken. -/
theorem Inv.endOp (h : Inv H s) (hst : s.stack t = p :: st) (hp : p.frame = some f)
    (hf : s.frame f = some pf) (ho : pf'.pfObj = pf.pfObj) (hn : pf'.pfPagenum = pf.pfPagenum)
    (hc : pf'.pfPincount = pf.pfPincount) (hw : pf'.pfWaitq = pf.pfWaitq) :
    Inv H (setStack t st (clearBusy f pf' s)) := by
  have hframe : (setStack t st (clearBusy f pf' s)).frame =
      update s.frame f (some { pf' with busy := false, pfWaitq := [] }) := rfl
  have hid : (setStack t st (clearBusy f pf' s)).identity = s.identity := by
    rw [identity_update hframe,update_eq_self_iff]
    simp [identity,hf,ho,hn]
  have hheld : s.held t = f :: st.filterMap Pending.frame := by
    rw [held,hst,filterMap_cons_some hp]
  refine ⟨h.ids.setFrame hf ho hn,?_,?_,fun u o n g hg => ?_⟩
  · have := h.pages.setFrame hf { pf' with busy := false, pfWaitq := [] } (by rw [hc])
      (by rw [hc]; exact h.pages.pincount f pf hf)
    exact ⟨this.page,this.nallocated,this.npinned,this.pincount⟩
  · have hsl : s.sleepers f = pf'.pfWaitq := by simp [sleepers,hf,hw]
    have hwc : (setStack t st (clearBusy f pf' s)).ktWchan =
        fun u => if u ∈ s.sleepers f then none else s.ktWchan u := by
      rw [hsl]
      rfl
    rw [held_setStack,isBusy_update hframe,sleepers_update hframe,hwc]
    exact h.threads.endOp hheld
  · rw [hid]
    refine h.filling u o n g ?_
    by_cases hu : u = t
    · subst hu
      rw [hst]
      exact mem_cons_of_mem _ (by simpa [setStack] using hg)
    · simpa [setStack,clearBusy,setFrame,hu] using hg

/-- A thread goes to sleep on a busy frame, inside `pframe_get`. -/
theorem Inv.sleepOn (h : Inv H s) (hf : s.frame f = some pf) (hb : pf.busy = true)
    (ht : s.ktWchan t = none) (o : O) (n : ℕ) :
    Inv H (setStack t (.getting o n :: s.stack t) (sleepOn t f pf s)) := by
  have hframe : (setStack t (.getting o n :: s.stack t) (PageCache.sleepOn t f pf s)).frame =
      update s.frame f (some { pf with pfWaitq := t :: pf.pfWaitq }) := rfl
  have hid : (setStack t (.getting o n :: s.stack t) (PageCache.sleepOn t f pf s)).identity =
      s.identity := by
    rw [identity_update hframe,update_eq_self_iff]
    simp [identity,hf]
  refine ⟨h.ids.setFrame hf rfl rfl,?_,?_,fun u o' n' g hg => ?_⟩
  · have := h.pages.setFrame hf { pf with pfWaitq := t :: pf.pfWaitq } rfl
      (h.pages.pincount f pf hf)
    exact ⟨this.page,this.nallocated,this.npinned,this.pincount⟩
  · have hsl : s.sleepers f = pf.pfWaitq := by simp [sleepers,hf]
    have hbusy : (setStack t (.getting o n :: s.stack t) (PageCache.sleepOn t f pf s)).isBusy =
        s.isBusy := by
      rw [isBusy_update hframe,update_eq_self_iff]
      simp [isBusy,hf]
    have hheld : (setStack t (.getting o n :: s.stack t) (PageCache.sleepOn t f pf s)).held =
        s.held := by
      rw [held_setStack,filterMap_cons_none rfl]
      exact update_eq_self t s.held
    rw [hheld,hbusy,sleepers_update hframe,elim_some,← hsl]
    exact h.threads.sleep (by simp [isBusy,hf,hb]) ht
  · rw [hid]
    refine h.filling u o' n' g ?_
    by_cases hu : u = t
    · subst hu
      simpa [setStack] using hg
    · simpa [setStack,PageCache.sleepOn,setFrame,hu] using hg

omit [DecidableEq F] in
/-- A woken thread takes the loop of `pframe_get` up again. -/
theorem Inv.popGetting (h : Inv H s) {o : O} {n : ℕ} (hst : s.stack t = .getting o n :: st) :
    Inv H (setStack t st s) := by
  have hheld : (setStack t st s).held = s.held := by
    rw [held_setStack,update_eq_self_iff,held,hst,filterMap_cons_none rfl]
  refine ⟨h.ids,⟨h.pages.page,h.pages.nallocated,h.pages.npinned,h.pages.pincount⟩,?_,
    fun u o' n' g hg => h.filling u o' n' g ?_⟩
  · rw [hheld]
    exact h.threads
  · by_cases hu : u = t
    · subst hu
      rw [hst]
      exact mem_cons_of_mem _ (by simpa [setStack] using hg)
    · simpa [setStack,hu] using hg

end Threads

end Csci402.Mm.PageCache
