import Csci402.Mm.PframeRun

/-! What a step of the page cache can do: to the frames in use, their busy and dirty bits, the
calls that keep frames busy, and the order of `alloc_list`. The results about whole runs go by
these cases and do not look into the functions again. -/

namespace Csci402.Mm.PageCache

open Lib Function Option

variable {T O F : Type*}

/-- The calls of a thread that keep a frame busy. -/
def works (s : PageCache T O F) (t : T) : List (Pending O F) := (s.stack t).filter fun p => !p.isGetting

/-- The page that the step gets, for which thread. -/
def pageOf (s : PageCache T O F) : Op T O F → Option (T × O × ℕ)
  | .get t o n _ => some (t, o, n)
  | .woken t _ => match s.stack t with
    | .getting o n :: _ => some (t, o, n)
    | _ => none
  | _ => none

def isDirty (s : PageCache T O F) (f : F) : Bool := (s.frame f).any (·.dirty)

/-- What the results below need to know of a cache. -/
structure Looks (s : PageCache T O F) (identity : F → Option (O × ℕ)) (busy dirty : F → Bool)
    (works : T → List (Pending O F)) : Prop where
  identity : s.identity = identity
  busy : s.isBusy = busy
  dirty : s.isDirty = dirty
  works : s.works = works

/-- The calls that touch neither data nor flags of a page that is there. -/
def Op.plain : Op T O F → Bool
  | .getResident .. | .get .. | .woken .. | .pin .. | .unpin _ => true
  | _ => false

section

variable {H : HashTable O} {s s' : PageCache T O F} {f : F} {t : T} {pf : Pframe O T} {p : Pending O F}
  {st : List (Pending O F)}

theorem works_of_stack (h : s.stack t = p :: st) (hp : p.frame = some f) :
    s.works t = p :: st.filter fun p => !p.isGetting := by
  cases p with
  | getting => cases hp
  | _ => simp [works,h,Pending.isGetting]

theorem works_eq (h : s'.stack = s.stack) : s'.works = s.works := by
  funext u
  rw [works,works,h]

theorem isDirty_of_frame (hf : s.frame f = some pf) : s.isDirty f = pf.dirty := by simp [isDirty,hf]

theorem looks_of_frame (hfr : s'.frame = s.frame) (hst : s'.stack = s.stack) :
    Looks s' s.identity s.isBusy s.isDirty s.works := by
  refine ⟨?_,?_,?_,works_eq hst⟩
  · funext g
    rw [identity,identity,hfr]
  · funext g
    rw [isBusy,isBusy,hfr]
  · funext g
    rw [isDirty,isDirty,hfr]

theorem Inv.allocated (h : Inv H s) : f ∈ s.allocList ↔ ∃ pf, s.frame f = some pf ∧ pf.pfPincount = 0 := by
  rw [show f ∈ s.allocList ↔ _ from h.pages.page.mem (k := false),pinKey,map_eq_some_iff]
  refine exists_congr fun pf => and_congr_right fun hf => ?_
  have hpos := h.pages.pincount f pf hf
  rw [decide_eq_false_iff_not]
  omega

end

variable [DecidableEq F] {H : HashTable O} {s s' s1 : PageCache T O F} {f : F} {pf q : Pframe O T}

theorem isDirty_update {r : Option (Pframe O T)} (h : s'.frame = update s.frame f r) :
    s'.isDirty = update s.isDirty f (r.any (·.dirty)) := by
  funext g
  by_cases hg : g = f
  · subst hg
    simp [isDirty,h]
  · simp [isDirty,h,hg]

theorem update_isDirty (hf : s.frame f = some pf) : update s.isDirty f pf.dirty = s.isDirty := by
  rw [update_eq_self_iff]
  simp [isDirty,hf]

/-- The record of one frame has changed, but not its identity. -/
theorem identity_eq (hf : s.frame f = some pf) (h : s'.frame = update s.frame f (some q))
    (ho : q.pfObj = pf.pfObj) (hn : q.pfPagenum = pf.pfPagenum) : s'.identity = s.identity := by
  rw [identity_update h,update_eq_self_iff]
  simp [identity,hf,ho,hn]

/-- The record of a frame changes in its pin count or its wait queue. -/
theorem looks_same (hf : s.frame f = some pf) (h : s'.frame = update s.frame f (some q))
    (ho : q.pfObj = pf.pfObj) (hn : q.pfPagenum = pf.pfPagenum) (hb : q.busy = pf.busy)
    (hd : q.dirty = pf.dirty) (hw : s'.works = s.works) : Looks s' s.identity s.isBusy s.isDirty s.works := by
  refine ⟨identity_eq hf h ho hn,?_,?_,hw⟩
  · rw [isBusy_update h,update_eq_self_iff]
    simp [isBusy,hf,hb]
  · rw [isDirty_update h,update_eq_self_iff]
    simp [isDirty,hf,hd]

theorem looks_pincount (hf : s.frame f = some pf) (n : ℤ)
    (h : s'.frame = update s.frame f (some { pf with pfPincount := n })) (hst : s'.stack = s.stack) :
    Looks s' s.identity s.isBusy s.isDirty s.works := looks_same hf h rfl rfl rfl rfl (works_eq hst)

/-! ### The order of `alloc_list` -/

/-- What became of the list when `f`, if any, was put at its end. -/
def Relisted (f : Option F) (l l' : List F) : Prop :=
  match f with
  | some f => l' = l.erase f ++ [f]
  | none => l' = l ∨ ∃ f, l' = l.erase f

section

variable [DecidableEq O] {o : O} {n : ℕ}

/-- The frame that a round of `pframe_get` puts at the end of `alloc_list`. -/
def gotten (H : HashTable O) (s : PageCache T O F) (o : O) (n : ℕ) (mem : Option F) : Option F :=
  match (pframeGetResident H o n s).1 with
  | some f => if (s.frame f).any (·.pfPincount > 0) then none else some f
  | none => mem

/-- The frame that a step requests, or unpins for the last time. -/
def requested (H : HashTable O) (s : PageCache T O F) : Op T O F → Option F
  | .getResident o n => gotten H s o n none
  | .get _ o n mem => gotten H s o n mem
  | .woken t mem => match s.stack t with
    | .getting o n :: _ => gotten H s o n mem
    | _ => none
  | .unpin f => if (s.frame f).any (·.pfPincount = 1) then some f else none
  | _ => none

theorem pframeGetResident_fst (o : O) (n : ℕ) (s : PageCache T O F) : (pframeGetResident H o n s).1 =
    (s.pframeHash (H.hashPage o n)).find? (s.hasIdentity o n) := by
  unfold pframeGetResident
  split
  next hfind =>
    exact hfind.symm
  next f hfind =>
    rw [hfind]
    split <;> rfl

theorem relisted_getResident : Relisted (gotten H s o n none) s.allocList (pframeGetResident H o n s).2.allocList := by
  unfold gotten
  cases hfind : (s.pframeHash (H.hashPage o n)).find? (s.hasIdentity o n) with
  | none => simp [pframeGetResident,hfind,Relisted]
  | some f =>
    by_cases hp : (s.frame f).any (·.pfPincount > 0) = true
    · simp [pframeGetResident,hfind,hp,Relisted]
    · simp [pframeGetResident,hfind,hp,linkAlloc,Relisted]

end

/-! ### Steps -/

variable [DecidableEq T] {a : Op T O F} {t : T} {p : Pending O F} {st : List (Pending O F)}

omit [DecidableEq F] in
theorem works_setStack (s : PageCache T O F) (t : T) (st : List (Pending O F)) :
    (setStack t st s).works = update s.works t (st.filter fun p => !p.isGetting) := by
  funext u
  by_cases hu : u = t
  · subst hu
    simp [works,setStack]
  · simp [works,setStack,hu]

theorem looks_beginOp (hf : s.frame f = some pf) (ho : q.pfObj = pf.pfObj) (hn : q.pfPagenum = pf.pfPagenum)
    (hp : p.frame = some f) : Looks (beginOp t f q p s) s.identity (update s.isBusy f true)
      (update s.isDirty f q.dirty) (update s.works t (p :: s.works t)) := by
  have hframe : (beginOp t f q p s).frame = update s.frame f (some { q with busy := true }) := rfl
  have hfilter : (p :: s.stack t).filter (fun p => !p.isGetting) = p :: s.works t := by
    cases p with
    | getting => cases hp
    | _ => rfl
  refine ⟨identity_eq hf hframe ho hn,isBusy_update hframe,isDirty_update hframe,?_⟩
  rw [beginOp,works_setStack,hfilter]
  rfl

theorem looks_endOp {l : List (Pending O F)} (hf : s.frame f = some pf) (ho : q.pfObj = pf.pfObj)
    (hn : q.pfPagenum = pf.pfPagenum) : Looks (setStack t l (clearBusy f q s)) s.identity (update s.isBusy f false)
      (update s.isDirty f q.dirty) (update s.works t (l.filter fun p => !p.isGetting)) := by
  have hframe : (setStack t l (clearBusy f q s)).frame =
      update s.frame f (some { q with busy := false, pfWaitq := [] }) := rfl
  refine ⟨identity_eq hf hframe ho hn,isBusy_update hframe,isDirty_update hframe,?_⟩
  rw [works_setStack]
  rfl

/-- What a step that gets `page` can do. -/
inductive Move (s : PageCache T O F) (page : Option (T × O × ℕ)) : Op T O F → PageCache T O F → Prop
  | quiet {a : Op T O F} {s' : PageCache T O F} (ha : a.plain = true)
      (h : Looks s' s.identity s.isBusy s.isDirty s.works) : Move s page a s'
  | alloc {a : Op T O F} {s' : PageCache T O F} (ha : a.plain = true) (t : T) (o : O) (n : ℕ) (f : F)
      (hpage : page = some (t, o, n)) (hfree : s.identity f = none)
      (h : Looks s' (update s.identity f (some (o, n))) (update s.isBusy f true) s.isDirty
        (update s.works t (.filling o n f :: s.works t))) : Move s page a s'
  | filled {s' : PageCache T O F} (t : T) (ret : ℤ) (o : O) (n : ℕ) (f : F) (st : List (Pending O F))
      (hst : s.stack t = .filling o n f :: st) (h : Looks s' s.identity (update s.isBusy f false) s.isDirty
        (update s.works t (st.filter fun p => !p.isGetting))) : Move s page (.filled t ret) s'
  | dirty {s' : PageCache T O F} (t : T) (f : F) (hf : s.isBusy f = false) (hid : (s.identity f).isSome)
      (h : Looks s' s.identity (update s.isBusy f true) s.isDirty
        (update s.works t (.dirtying f :: s.works t))) : Move s page (.dirty t f) s'
  | dirtied {s' : PageCache T O F} (t : T) (ret : ℤ) (f : F) (st : List (Pending O F))
      (hst : s.stack t = .dirtying f :: st) (h : Looks s' s.identity (update s.isBusy f false)
        (update s.isDirty f (s.isDirty f || ret = 0))
        (update s.works t (st.filter fun p => !p.isGetting))) : Move s page (.dirtied t ret) s'
  | clean {s' : PageCache T O F} (t : T) (f : F) (hf : s.isBusy f = false)
      (h : Looks s' s.identity (update s.isBusy f true) (update s.isDirty f false)
        (update s.works t (.cleaning f :: s.works t))) : Move s page (.clean t f) s'
  | cleaned {s' : PageCache T O F} (t : T) (ret : ℤ) (f : F) (p : O × ℕ) (st : List (Pending O F))
      (hst : s.stack t = .cleaning f :: st) (hid : s.identity f = some p)
      (h : Looks s' s.identity (update s.isBusy f false)
        (update s.isDirty f (s.isDirty f || ret < 0))
        (update s.works t (st.filter fun p => !p.isGetting))) : Move s page (.cleaned t ret) s'
  | free {s' : PageCache T O F} (f : F) (hf : s.isBusy f = false)
      (h : Looks s' (update s.identity f none) s.isBusy (update s.isDirty f false) s.works) : Move s page (.free f) s'

/-- A state that looks the same can take the place of the first. -/
theorem Move.of_looks {page : Option (T × O × ℕ)} (h : Move s1 page a s') (ha : a.plain = true)
    (hs : Looks s1 s.identity s.isBusy s.isDirty s.works) : Move s page a s' := by
  obtain ⟨hid,hb,hd,hw⟩ := hs
  cases h with
  | quiet ha h => exact .quiet ha (by rwa [hid,hb,hd,hw] at h)
  | alloc ha t o n f hpage hfree h => exact .alloc ha t o n f hpage (hid ▸ hfree) (by rwa [hid,hb,hd,hw] at h)
  | _ => cases ha

variable [DecidableEq O]

/-- One round of `pframe_get`. -/
theorem Inv.move_get (h : Inv H s) {mem r : Option F} (hm : s.fresh mem = true) {o : O} {n : ℕ} (ha : a.plain = true)
    (hg : pframeGet H t o n mem s = some (s', r)) :
    Move s (some (t, o, n)) a s' ∧ Relisted (gotten H s o n mem) s.allocList s'.allocList := by
  obtain ⟨r1,s1,hr,-,hfr,hst,-⟩ := h.getResident o n
  have hlist := relisted_getResident (H := H) (s := s) (o := o) (n := n)
  suffices hs : Move s1 (some (t, o, n)) a s' ∧ Relisted (gotten H s o n mem) s.allocList s'.allocList from
    ⟨hs.1.of_looks ha (looks_of_frame hfr hst),hs.2⟩
  rw [gotten,hr] at hlist
  rw [pframeGet,hr] at hg
  rw [gotten,hr]
  cases r1 with
  | some f =>
    obtain ⟨pf,hf,hg⟩ := bind_eq_some_iff.mp hg
    split at hg
    · cases hg
      refine ⟨.quiet ha (looks_same hf (q := { pf with pfWaitq := t :: pf.pfWaitq }) rfl rfl rfl rfl rfl ?_),hlist⟩
      rw [works_setStack]
      exact update_eq_self t s1.works
    · cases hg
      exact ⟨.quiet ha ⟨rfl,rfl,rfl,rfl⟩,hlist⟩
  | none =>
    cases mem with
    | none =>
      cases hg
      exact ⟨.quiet ha ⟨rfl,rfl,rfl,rfl⟩,hlist⟩
    | some f =>
      have hf : s.frame f = none := by simpa [fresh] using hm
      have hpf : (pframeAlloc H o n f s1).frame f = some ⟨o,n,0,false,false,[]⟩ := by simp [pframeAlloc]
      simp only [hpf,map_some,some.injEq,Prod.mk.injEq] at hg
      obtain ⟨rfl,-⟩ := hg
      have hframe : (PageCache.beginOp t f ⟨o,n,0,false,false,[]⟩ (.filling o n f) (pframeAlloc H o n f s1)).frame =
          update s1.frame f (some ⟨o,n,0,true,false,[]⟩) := update_idem ..
      refine ⟨.alloc ha t o n f rfl (map_eq_none_iff.mpr (hfr ▸ hf))
        ⟨identity_update hframe,isBusy_update hframe,?_,?_⟩,?_⟩
      · rw [isDirty_update hframe,update_eq_self_iff]
        simp [isDirty,hfr,hf]
      · rw [PageCache.beginOp,works_setStack]
        rfl
      · -- the page was not found, so the list is the old one, and the new frame was not on it
        have hnot : f ∉ s.allocList := fun hmem => by
          obtain ⟨pf,hf',-⟩ := h.allocated.mp hmem
          cases hf.symm.trans hf'
        have hs1 : s1.allocList = s.allocList := by
          rw [pframeGetResident] at hr
          split at hr
          · cases hr
            rfl
          · split at hr <;> cases hr
        simp only [Relisted,List.erase_of_not_mem hnot]
        exact congrArg (· ++ [f]) hs1

theorem Inv.moves (h : Inv H s) (ha : Enabled s a) {r : Option (O × ℕ × F)}
    (hr : PageCache.stepResult H s a = some (s', r)) :
    Move s (s.pageOf a) a s' ∧ Relisted (s.requested H a) s.allocList s'.allocList := by
  have plain : ∀ {x : Option (PageCache T O F)}, x.map (·, (none : Option (O × ℕ × F))) = some (s', r) →
      x = some s' := by
    intro x hx
    obtain ⟨y,hy,he⟩ := map_eq_some_iff.mp hx
    cases he
    exact hy
  cases a with
  | getResident o n =>
    cases hr
    obtain ⟨_,_,hr,-,hfr,hst,-⟩ := h.getResident o n
    refine ⟨.quiet rfl ?_,relisted_getResident⟩
    rw [hr]
    exact looks_of_frame hfr hst
  | get t o n mem =>
    obtain ⟨⟨s2,r2⟩,hg,he⟩ := map_eq_some_iff.mp hr
    cases he
    exact h.move_get ha.2 rfl hg
  | woken t mem =>
    simp only [PageCache.stepResult] at hr
    split at hr
    next o n st hst =>
      obtain ⟨⟨s2,r2⟩,hg,he⟩ := map_eq_some_iff.mp hr
      cases he
      obtain ⟨hmove,hlist⟩ := (h.popGetting hst).move_get (a := .woken t mem) ha.2 rfl hg
      have hpage : s.pageOf (.woken t mem) = some (t, o, n) := by simp only [pageOf,hst]
      have hreq : s.requested H (.woken t mem) = gotten H (setStack t st s) o n mem := by
        simp only [requested,hst,gotten,pframeGetResident_fst]
        rfl
      rw [hpage,hreq]
      refine ⟨hmove.of_looks rfl ⟨rfl,rfl,rfl,?_⟩,hlist⟩
      rw [works_setStack,update_eq_self_iff,works,hst]
      rfl
    · cases hr
  | filled t ret =>
    simp only [PageCache.stepResult] at hr
    split at hr
    next o n g st hst =>
      obtain ⟨⟨s2,r2⟩,hg,he⟩ := map_eq_some_iff.mp hr
      cases he
      simp only [pframeFilled,hst,map_eq_some_iff,Prod.mk.injEq] at hg
      obtain ⟨pf,hf,rfl,-⟩ := hg
      refine ⟨.filled t ret o n g st hst ?_,.inl rfl⟩
      have hlooks := looks_endOp (t := t) (l := st) (q := pf) hf rfl rfl
      rwa [update_isDirty hf] at hlooks
    · cases hr
  | pin t f =>
    obtain ⟨pf,hf,hs2⟩ := bind_eq_some_iff.mp (plain hr)
    split at hs2
    · cases hs2
    · split at hs2
      · cases hs2
        exact ⟨.quiet rfl (looks_pincount hf _ rfl rfl),.inl rfl⟩
      · cases hs2
        exact ⟨.quiet rfl (looks_pincount hf _ rfl rfl),.inr ⟨f,rfl⟩⟩
  | unpin f =>
    obtain ⟨pf,hf,hs2⟩ := bind_eq_some_iff.mp (plain hr)
    have hreq : s.requested H (.unpin f) = if pf.pfPincount = 1 then some f else none := by simp [requested,hf]
    rw [hreq]
    split at hs2
    · cases hs2
    · split at hs2
      · cases hs2
        rw [if_pos (by omega)]
        exact ⟨.quiet rfl (looks_pincount hf _ rfl rfl),rfl⟩
      · cases hs2
        rw [if_neg (by omega)]
        exact ⟨.quiet rfl (looks_pincount hf _ rfl rfl),.inl rfl⟩
  | dirty t f =>
    obtain ⟨pf,hf,hs2⟩ := bind_eq_some_iff.mp (plain hr)
    split at hs2
    · cases hs2
    · cases hs2
      refine ⟨.dirty t f ha.2 (by simp [identity,hf]) ?_,.inl rfl⟩
      have hlooks := looks_beginOp (t := t) (p := .dirtying f) (q := pf) hf rfl rfl rfl
      rwa [update_isDirty hf] at hlooks
  | dirtied t ret =>
    have hs1 := plain hr
    simp only [pframeDirtied] at hs1
    split at hs1
    next f st hst =>
      obtain ⟨pf,hf,rfl⟩ := map_eq_some_iff.mp hs1
      refine ⟨.dirtied t ret f st hst ?_,.inl rfl⟩
      rw [isDirty_of_frame hf]
      exact looks_endOp (q := { pf with dirty := pf.dirty || ret = 0 }) hf rfl rfl
    · cases hs1
  | clean t f =>
    obtain ⟨pf,hf,hs2⟩ := bind_eq_some_iff.mp (plain hr)
    split at hs2
    · cases hs2
    · cases hs2
      exact ⟨.clean t f ha.2 (looks_beginOp (p := .cleaning f) (q := { pf with dirty := false }) hf rfl rfl rfl),
        .inl rfl⟩
  | cleaned t ret =>
    have hs1 := plain hr
    simp only [pframeCleaned] at hs1
    split at hs1
    next f st hst =>
      obtain ⟨pf,hf,rfl⟩ := map_eq_some_iff.mp hs1
      refine ⟨.cleaned t ret f (pf.pfObj, pf.pfPagenum) st hst (by simp [identity,hf]) ?_,.inl rfl⟩
      rw [isDirty_of_frame hf]
      exact looks_endOp (q := { pf with dirty := pf.dirty || ret < 0 }) hf rfl rfl
    · cases hs1
  | free f =>
    obtain ⟨pf,hf,hs2⟩ := bind_eq_some_iff.mp (plain hr)
    split at hs2
    · cases hs2
    · obtain ⟨hframe,hstack,hlist⟩ : s'.frame = update s.frame f none ∧ s'.stack = s.stack ∧
          s'.allocList = s.allocList.erase f := by
        cases hs2
        exact ⟨rfl,rfl,rfl⟩
      have hidle : s.isBusy f = false := ha
      refine ⟨.free f hidle ⟨identity_update hframe,?_,isDirty_update hframe,works_eq hstack⟩,.inr ⟨f,hlist⟩⟩
      rw [isBusy_update hframe,update_eq_self_iff]
      exact hidle.symm

end Csci402.Mm.PageCache
