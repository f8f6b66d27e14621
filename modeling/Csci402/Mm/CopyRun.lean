import Csci402.Mm.CopyOnWrite

/-! Runs of write faults. What a thread is in the middle of has one of a few shapes, and a
thread in the middle of `shadow_fillpage` waits for a page that no shadow object below has.
So a fault copies a page that has been filled, as long as it does not find one that another
thread is still filling. -/

namespace Csci402.Mm

open Lib Function Option

namespace Frames

open PageCache

variable {T F D : Type*} [DecidableEq T] [DecidableEq F]

/-! ### Copies -/

section Copies

variable {H : HashTable ℕ} {C : Chains} {s s' m : Frames T F D} {o n : ℕ} {f g : F} {t : T} {a : Op T ℕ F} {r : Option (ℕ × ℕ × F)}

/-- What holds of the cache between any two of its calls. -/
structure Good (H : HashTable ℕ) (s : Frames T F D) : Prop where
  inv : Inv H s.cache
  fill : FillInv s.cache s.filled
  attended : Attended s.cache

theorem act_eq (h : act H a s = some (s', r)) : PageCache.Enabled s.cache a ∧ stepResult H s.cache a = some (s'.cache, r) ∧
    s'.data = s.data ∧ s'.filled = s.cache.noteFill a s.filled := by
  unfold act at h
  split at h
  · obtain ⟨⟨c,r'⟩,hr,he⟩ := map_eq_some_iff.mp h
    cases he
    exact ⟨‹_›,hr,rfl,rfl⟩
  · cases h

theorem Good.act (h : Good H s) (hok : FillsOk a) (ha : act H a s = some (s', r)) : Good H s' := by
  obtain ⟨hen,hr,-,hf⟩ := act_eq ha
  have he := h.inv.effect hen hr
  refine ⟨(h.inv.stepResult hen hr).1,?_,h.attended.step he⟩
  rw [hf]
  exact h.fill.step hok he

/-- The frame that `pframe_get` returns. -/
theorem Good.returned (h : Good H s) (hok : FillsOk a) (ha : Frames.act H a s = some (s', r)) (hr : r = some (o, n, g)) :
    s'.cache.identity g = some (o, n) ∧ s'.cache.isBusy g = false ∧ s'.filled g = true := by
  obtain ⟨hen,hst,-,hf⟩ := act_eq ha
  obtain ⟨hid,hb⟩ := (h.inv.stepResult hen hst).2 o n g hr
  subst hr
  rw [hf]
  exact ⟨hid,hb,h.fill.returned h.inv hen hok hst⟩

/-- What is copied: a page that is not busy and has been filled, of the nearest object below
that has it. The new frame has its contents. -/
structure Copied (H : HashTable ℕ) (C : Chains) (s : Frames T F D) (w : Copy F) : Prop where
  src_idle : s.cache.isBusy w.src = false
  src_filled : s.filled w.src = true
  data_eq : s.data w.dst = s.data w.src
  dst_page : s.cache.identity w.dst = some (w.o, w.pagenum)
  dst_idle : s.cache.isBusy w.dst = false
  nearest : ((C.mmoShadowed w.o).bind fun y => resolve C.mmoShadowed (resident H s.cache) y w.pagenum) = some w.src

/-- The state between two calls that start from `s`, when the thread `t` has `st` on its
stack. -/
structure Mid (H : HashTable ℕ) (C : Chains) (s : Frames T F D) (t : T) (st : List (Pending ℕ F)) (m : Frames T F D) :
    Prop where
  good : Good H m
  kept : Kept C s.cache m.cache
  stack : m.cache.stack = update s.cache.stack t st

variable {st : List (Pending ℕ F)}

omit [DecidableEq F] in
theorem Mid.stack_self (h : Mid H C s t st m) : m.cache.stack t = st := by
  rw [h.stack,update_self]

variable {c c' : PageCache T ℕ F}

omit [DecidableEq F] in
theorem update_stack {st' : List (Pending ℕ F)} {k : T → List (Pending ℕ F)}
    (h : c.stack = update k t st) (h' : c'.stack = update c.stack t st') : c'.stack = update k t st' := by
  rw [h',h,update_idem]

omit [DecidableEq T] in
/-- Pinning changes nothing but the count and the lists of pages. -/
theorem pin_quiet (h : pframePin f c = some c') :
    c'.identity = c.identity ∧ c'.isBusy = c.isBusy ∧ c'.stack = c.stack ∧ ∀ x, (c'.frame x).isSome = (c.frame x).isSome := by
  obtain ⟨pf,hf,h⟩ := bind_eq_some_iff.mp h
  have hframe : c'.frame = update c.frame f (some { pf with pfPincount := pf.pfPincount+1 }) ∧
      c'.stack = c.stack := by
    split at h
    · cases h
    · split at h <;> cases h <;> exact ⟨rfl,rfl⟩
  have hid := identity_eq hf hframe.1 rfl rfl
  refine ⟨hid,?_,hframe.2,fun x => ?_⟩
  · rw [isBusy_update hframe.1,update_eq_self_iff]
    simp [isBusy,hf]
  · rw [← isSome_identity,← isSome_identity,hid]

/-- The end of `fillpage`. -/
theorem filled_cases {ret : ℤ} (hst : c.stack t = .filling o n f :: st)
    (h : stepResult H c (.filled t ret) = some (c', r)) : c'.identity = c.identity ∧
      c'.isBusy = update c.isBusy f false ∧ c'.stack = update c.stack t st ∧
      r = if ret < 0 then none else some (o, n, f) := by
  simp only [stepResult,hst,pframeFilled,map_map,map_eq_some_iff,comp_apply,Prod.mk.injEq] at h
  obtain ⟨pf,hf,rfl,rfl⟩ := h
  have hframe : (setStack t st (clearBusy f pf c)).frame =
      update c.frame f (some { pf with busy := false, pfWaitq := [] }) := rfl
  refine ⟨identity_eq hf hframe rfl rfl,isBusy_update hframe,rfl,?_⟩
  split <;> rfl

variable {w : Option (Copy F)}

/-- `shadow_fillpage` ends well when it copies from such a frame. -/
theorem Mid.finishFill (h : Mid H C s t [.filling o n f] m) (hidle : m.cache.isBusy g = false)
    (hfilled : m.filled g = true)
    (hnear : ((C.mmoShadowed o).bind fun y => resolve C.mmoShadowed (resident H m.cache) y n) = some g)
    (hs : finishFill H t o n f g m = some (s', w)) : Mid H C s t [] s' ∧ w = some ⟨o,n,f,g⟩ ∧ Copied H C s' ⟨o,n,f,g⟩ := by
  obtain ⟨⟨s1,r1⟩,h1,hs⟩ := bind_eq_some_iff.mp hs
  obtain ⟨⟨s2,r2⟩,h2,hs⟩ := bind_eq_some_iff.mp hs
  cases hs
  have hm : Good H { m with data := update m.data f (m.data g) } := ⟨h.good.inv,h.good.fill,h.good.attended⟩
  have hgood1 := hm.act (a := .pin t f) trivial h1
  have hgood2 := hgood1.act (a := .filled t 0) (Int.le_refl 0) h2
  obtain ⟨-,hr1,hd1,hf1⟩ := act_eq h1
  obtain ⟨-,hr2,hd2,hf2⟩ := act_eq h2
  obtain ⟨c1,hpin,he1⟩ := map_eq_some_iff.mp hr1
  cases he1
  obtain ⟨hid1,hb1,hst1,hsome1⟩ := pin_quiet hpin
  have htop : s1.cache.stack t = [.filling o n f] := by
    rw [hst1]
    exact h.stack_self
  obtain ⟨hid2,hb2,hst2,-⟩ := filled_cases htop hr2
  have hid : s'.cache.identity = m.cache.identity := hid2.trans hid1
  -- the frame that is filled is busy, so it is another one
  have hbusy : m.cache.isBusy f = true := by
    by_contra hc
    refine h.good.inv.not_filling (by simpa using hc) t o n ?_
    simp [works,h.stack_self,Pending.isGetting]
  have hne : g ≠ f := by
    rintro rfl
    rw [hbusy] at hidle
    cases hidle
  have hgsome : (m.cache.frame g).isSome := by
    obtain ⟨y,-,hy⟩ := bind_eq_some_iff.mp hnear
    obtain ⟨x,-,hx⟩ := resolve_eq_some C.descends hy
    rw [← isSome_identity,(resident_iff h.good.inv).mp hx]
    rfl
  have hfpage : m.cache.identity f = some (o, n) := h.good.inv.filling t o n f (by simp [h.stack_self])
  refine ⟨⟨hgood2,h.kept.trans (.of_eq C hid),?_⟩,rfl,?_⟩
  · refine update_stack h.stack ?_
    rw [hst2,hst1]
  · refine ⟨?_,?_,?_,?_,?_,?_⟩
    · show s'.cache.isBusy g = false
      rw [hb2,update_of_ne hne,hb1]
      exact hidle
    · show s'.filled g = true
      rw [hf2,hf1]
      have : (s1.cache.frame g).isSome = true := (hsome1 g).trans hgsome
      simp [noteFill,this,hgsome,hfilled]
    · show s'.data f = s'.data g
      rw [hd2,hd1]
      simp [hne]
    · show s'.cache.identity f = some (o, n)
      rw [hid]
      exact hfpage
    · show s'.cache.isBusy f = false
      rw [hb2,update_self]
    · show ((C.mmoShadowed o).bind fun y => resolve C.mmoShadowed (resident H s'.cache) y n) = some g
      rw [resident_congr h.good.inv hgood2.inv hid]
      exact hnear

omit [DecidableEq T] [DecidableEq F] in
/-- Looking pages up in the cache changes nothing that matters here. -/
theorem Good.same (h : Good H s) (hi : Inv H c) (hfr : c.frame = s.cache.frame)
    (hst : c.stack = s.cache.stack) : Good H { s with cache := c } := by
  refine ⟨hi,fun f hf => ?_,fun f hf => ?_⟩
  · show s.filled f = true ∨ ∃ t o n, .filling o n f ∈ c.works t
    rw [works_eq hst]
    exact h.fill f (by rw [← hfr]; exact hf)
  · show ∃ t, ∃ p ∈ c.works t, p.frame = some f
    rw [works_eq hst]
    refine h.attended f ?_
    rw [isBusy,← hfr]
    exact hf

omit [DecidableEq F] in
theorem Mid.trans {st' : List (Pending ℕ F)} (h : Mid H C s t st m) (h' : Mid H C m t st' s') : Mid H C s t st' s' :=
  ⟨h'.good,h.kept.trans h'.kept,update_stack h.stack h'.stack⟩

variable {b : ℕ} {mem : Option F}

/-- A `pframe_get` from a call that has `st` below it. -/
theorem Good.get_mid {r1 : Option F} (h : Good H m)
    (hok : FillsOk a) (ha : Frames.act H a m = some (s', r)) (hpage : m.cache.pageOf a = some (t, b, n))
    (hb : C.mmoShadowed b = none ∨ C.isTop b = true) (hg : pframeGet H t b n mem c = some (s'.cache, r1))
    (hr : r = r1.map (b, n, ·)) (hc : c.stack = update m.cache.stack t st) :
    (∃ g, r = some (b, n, g) ∧ Mid H C m t st s' ∧ s'.cache.identity g = some (b, n) ∧ s'.cache.isBusy g = false ∧
      s'.filled g = true) ∨
    (r = none ∧ Mid H C m t (.getting b n :: st) s') ∨
    (r = none ∧ mem = none ∧ Mid H C m t st s') ∨
    ∃ g, r = none ∧ Mid H C m t (.filling b n g :: st) s' := by
  obtain ⟨hen,hst,-,-⟩ := act_eq ha
  have hkept : Kept C m.cache s'.cache := by
    refine kept_of_effect (h.inv.effect hen hst) fun u o k hp => ?_
    rw [hpage] at hp
    cases hp
    exact hb
  have hgood := h.act hok ha
  have hct : c.stack t = st := by rw [hc,update_self]
  rcases get_cases hg with ⟨g,rfl,hs⟩ | ⟨rfl,hs⟩ | ⟨rfl,rfl,hs⟩ | ⟨g,rfl,-,hs⟩
  · exact .inl ⟨g,hr,⟨hgood,hkept,hs.trans hc⟩,h.returned hok ha hr⟩
  · exact .inr (.inl ⟨hr,hgood,hkept,update_stack hc (hct ▸ hs)⟩)
  · exact .inr (.inr (.inl ⟨hr,rfl,hgood,hkept,hs.trans hc⟩))
  · exact .inr (.inr (.inr ⟨g,hr,hgood,hkept,update_stack hc (hct ▸ hs)⟩))

variable {failed : Bool}

theorem resume_idle (h : ∀ o n f, (m.cache.stack t).head? = some (.filling o n f) → C.mmoShadowed o = none)
    (hs : resume H C t r failed m = some (s', w)) : m = s' ∧ w = none := by
  unfold resume at hs
  split at hs
  next o n f st hst =>
    rw [h o n f (by rw [hst]; rfl)] at hs
    cases hs
    exact ⟨rfl,rfl⟩
  · cases hs
    exact ⟨rfl,rfl⟩

omit [DecidableEq T] in
/-- The object at the end of the chain has the nearest frame when no shadow object has one. -/
theorem Clear.nearest (h : Clear C c o n) (hi : Inv H c) (ho : (C.mmoShadowed o).isSome)
    (hg : c.identity g = some (C.mmoBottomObj o, n)) :
    ((C.mmoShadowed o).bind fun y => resolve C.mmoShadowed (resident H c) y n) = some g := by
  obtain ⟨y,hy⟩ := isSome_iff_exists.mp ho
  obtain ⟨hu,hb⟩ := C.bottom o ho
  have hne : C.mmoBottomObj o ≠ o := by
    intro he
    rw [he,hy] at hb
    cases hb
  rw [hy,bind_some]
  refine resolve_first C.descends (hu.of_ne hne hy) (fun x hx hxb hub => ?_) ((resident_iff hi).mpr hg)
  have hx' : C.mmoShadowed x ≠ none := by
    cases hub with
    | refl => exact absurd rfl hxb
    | step hstep _ =>
      rw [hstep]
      simp
  by_contra hsome
  obtain ⟨f,hf⟩ := ne_none_iff_exists'.mp hsome
  exact h x y f hy hx hx' ((resident_iff hi).mp hf)

/-- `shadow_fillpage` goes on with the page of the bottom object. -/
theorem Mid.resume_copy (h : Mid H C s t [.filling o n f] m)
    (ho : (C.mmoShadowed o).isSome) (hc : Clear C m.cache o n) (hg : m.cache.identity g = some (C.mmoBottomObj o, n))
    (hidle : m.cache.isBusy g = false) (hfilled : m.filled g = true) {k : ℕ}
    (hs : resume H C t (some (b, k, g)) failed m = some (s', w)) :
    Mid H C s t [] s' ∧ w = some ⟨o,n,f,g⟩ ∧ Copied H C s' ⟨o,n,f,g⟩ := by
  simp only [resume,h.stack_self,ho,if_true] at hs
  exact h.finishFill hidle hfilled (hc.nearest h.good.inv ho hg) hs

/-! ### Runs -/

/-- What holds between the steps of a run. -/
structure RunInv (H : HashTable ℕ) (C : Chains) (s : Frames T F D) : Prop where
  good : Good H s
  shapes : ∀ t, Shape C s.cache (s.cache.stack t)

/-- What a step does: it keeps the invariant, and its copy is as it should be. -/
structure StepOk (H : HashTable ℕ) (C : Chains) (s : Frames T F D) (w : Option (Copy F)) : Prop where
  inv : RunInv H C s
  copied : ∀ x, w = some x → Copied H C s x

omit [DecidableEq F] in
theorem RunInv.mid (h : RunInv H C s) (hm : Mid H C s t st m) (hs : Shape C m.cache st) :
    RunInv H C m := ⟨hm.good,shapes_update h.shapes hm.kept hm.stack hs⟩

theorem RunInv.copied {x : Copy F} (h : RunInv H C s) (hm : Mid H C s t [] m ∧ w = some x ∧ Copied H C m x) :
    StepOk H C m w := by
  obtain ⟨hm,rfl,hc⟩ := hm
  refine ⟨h.mid hm .idle,fun y hy => ?_⟩
  cases hy
  exact hc

theorem RunInv.plain (h : RunInv H C s) (hm : Mid H C s t st m) (hs : Shape C m.cache st) :
    StepOk H C m none := ⟨h.mid hm hs,by rintro _ ⟨⟩⟩

/-- The frames below are at rest: what is at work in `m` besides the new fill was at work
in `s`. -/
theorem NoneAtWork.idle (hwork : NoneAtWork C s o n) (hm : Good H m)
    (hmw : m.cache.works = update s.cache.works t (.filling o n f :: s.cache.works t))
    (hmi : m.cache.identity = update s.cache.identity f (some (o, n))) {x y : ℕ} (hy : C.mmoShadowed o = some y)
    (hu : Under C.mmoShadowed y x) (hg : m.cache.identity g = some (x, n)) : m.cache.isBusy g = false := by
  have hlt : x < o := Nat.lt_of_le_of_lt (hu.le C.descends) (C.descends o y hy)
  have hgf : g ≠ f := by
    rintro rfl
    rw [hmi,update_self,some.injEq,Prod.mk.injEq] at hg
    omega
  rw [hmi,update_of_ne hgf] at hg
  by_contra hb
  obtain ⟨u,p,hp,hpg⟩ := hm.attended g (by simpa using hb)
  have hp' : p ∈ s.cache.works u := by
    rw [hmw] at hp
    by_cases hut : u = t
    · subst hut
      rw [update_self,List.mem_cons] at hp
      refine hp.resolve_left ?_
      rintro rfl
      exact hgf (some.inj hpg).symm
    · rwa [update_of_ne hut] at hp
  exact hwork u p g x y hp' hpg hg hy hu

/-- `shadow_fillpage` for a new frame copies from a frame that nobody is at work on, or it
looks the page up in the bottom object. -/
theorem RunInv.shadowFillpage (h : RunInv H C s) (hm : Mid H C s t [.filling o n f] m)
    (ho : (C.mmoShadowed o).isSome) (hmem : mem.isSome)
    (hidle : ∀ x y g, C.mmoShadowed o = some y → Under C.mmoShadowed y x → m.cache.identity g = some (x, n) →
      m.cache.isBusy g = false)
    (hs : shadowFillpage H C t o n f mem m = some (s', w)) : StepOk H C s' w := by
  obtain ⟨y,hy⟩ := isSome_iff_exists.mp ho
  unfold Frames.shadowFillpage at hs
  obtain ⟨r,c,hr,hi,hfr,hst,-,hfound⟩ := findBelow_eq C n (Nat.le_refl o) hm.good.inv
  rw [hr] at hs
  have hid : c.identity = m.cache.identity := by
    funext x
    rw [identity,identity,hfr]
  have hm' : Mid H C s t [.filling o n f] { m with cache := c } :=
    ⟨hm.good.same hi hfr hst,hm.kept.trans (.of_eq C hid),hst.trans hm.stack⟩
  rw [hy,bind_some] at hfound
  cases r with
  | some g =>
    obtain ⟨x,hu,hx⟩ := resolve_eq_some C.descends hfound.symm
    have hgx := (resident_iff hm.good.inv).mp hx
    have hrest := hidle x y g hy hu hgx
    have hfilled : m.filled g = true := by
      rcases hm.good.fill g (by rw [← isSome_identity,hgx]; rfl) with hf | ⟨u,o',n',hw⟩
      · exact hf
      · exact absurd hw (hm.good.inv.not_filling hrest u o' n')
    refine h.copied (hm'.finishFill ?_ hfilled ?_ hs)
    · show c.isBusy g = false
      rw [isBusy,hfr]
      exact hrest
    · show ((C.mmoShadowed o).bind fun y => resolve C.mmoShadowed (resident H c) y n) = some g
      rw [hy,resident_congr hm.good.inv hi hid]
      exact hfound.symm
  | none =>
    have hclear : Clear C c o n := by
      intro x y' g hy' hu hx hg
      rw [hy] at hy'
      cases hy'
      have hnone := resolve_eq_none C.descends hfound.symm hu
      rw [(resident_iff hm.good.inv).mpr (hid ▸ hg)] at hnone
      cases hnone
    obtain ⟨⟨m2,r2⟩,hact,hs⟩ := bind_eq_some_iff.mp hs
    obtain ⟨-,hst2,-,-⟩ := act_eq hact
    obtain ⟨⟨c2,r3⟩,hg,he⟩ := map_eq_some_iff.mp hst2
    cases he
    have hb := (C.bottom o ho).2
    have hself : c.stack = update c.stack t [.filling o n f] := by
      rw [show c.stack = _ from hst.trans hm.stack,update_idem]
    rcases hm'.good.get_mid (a := .get t (C.mmoBottomObj o) n mem) trivial hact rfl (.inl hb) hg rfl hself with
      ⟨g,hr2,hmid,hgid,hgb,hgf⟩ | ⟨hr2,hmid⟩ | ⟨-,rfl,-⟩ | ⟨g,hr2,hmid⟩
    · rw [hr2] at hs
      exact h.copied ((hm'.trans hmid).resume_copy ho (hclear.kept hmid.kept) hgid hgb hgf hs)
    · obtain ⟨rfl,rfl⟩ := resume_idle (by rw [hmid.stack_self]; simp) hs
      exact h.plain (hm'.trans hmid) (.copyWaits ho (hclear.kept hmid.kept))
    · cases hmem
    · obtain ⟨rfl,rfl⟩ := resume_idle (by rw [hmid.stack_self]; simpa using hb) hs
      exact h.plain (hm'.trans hmid) (.copyFills ho (hclear.kept hmid.kept))

/-- A write fault. -/
theorem RunInv.fault {mem' : Option F} (h : RunInv H C s) (hstack : s.cache.stack t = [])
    (htop : C.isTop o = true) (ho : (C.mmoShadowed o).isSome) (hwork : NoneAtWork C s o n) (hmem : mem'.isSome)
    (hs : shadowLookuppage H C t o n mem mem' s = some (s', w)) : StepOk H C s' w := by
  have hself : s.cache.stack = update s.cache.stack t [] := by
    rw [← hstack,update_eq_self]
  unfold shadowLookuppage at hs
  obtain ⟨r0,c0,hr0,hi0,hfr0,hst0,-,-,-⟩ := h.good.inv.getResident o n
  rw [hr0] at hs
  cases r0 with
  | some f0 =>
    dsimp only at hs
    split at hs
    · cases hs
    · cases hs
      have hid : c0.identity = s.cache.identity := by
        funext x
        rw [identity,identity,hfr0]
      exact h.plain ⟨h.good.same hi0 hfr0 hst0,.of_eq C hid,hst0.trans hself⟩ .idle
  | none =>
    obtain rfl := getResident_none hr0
    obtain ⟨⟨m,r⟩,hact,hs⟩ := bind_eq_some_iff.mp hs
    have hgood := h.good.act (a := .get t o n mem) trivial hact
    obtain ⟨hen,hst,-,-⟩ := act_eq hact
    have hkept : Kept C s.cache m.cache := by
      refine kept_of_effect (h.good.inv.effect hen hst) fun u x k hp => ?_
      cases hp
      exact .inr htop
    obtain ⟨⟨c1,r1⟩,hg,he⟩ := map_eq_some_iff.mp hst
    cases he
    rcases get_new hr0 hg with ⟨rfl,hm⟩ | ⟨f,rfl,hms,hmw,hmi⟩
    · cases hs
      exact h.plain ⟨hgood,hkept,by rw [hm]; exact hself⟩ .idle
    · rw [hstack] at hms
      exact h.shadowFillpage ⟨hgood,hkept,hms⟩ ho hmem
        (fun x y g hy hu hx => hwork.idle hgood hmw hmi hy hu hx) hs

/-- A thread goes on in `pframe_get`. -/
theorem RunInv.woken (h : RunInv H C s) (hmem : mem.isSome)
    (ha : act H (.woken t mem) s = some (m, r)) (hs : resume H C t r failed m = some (s', w)) : StepOk H C s' w := by
  obtain ⟨-,hst,-,-⟩ := act_eq ha
  simp only [stepResult] at hst
  split at hst
  next b n st hstack =>
    obtain ⟨⟨c1,r1⟩,hg,he⟩ := map_eq_some_iff.mp hst
    cases he
    have hpage : s.cache.pageOf (.woken t mem) = some (t, b, n) := by simp only [pageOf,hstack]
    have hshape := h.shapes t
    rw [hstack] at hshape
    cases hshape with
    | waits hb =>
      rcases h.good.get_mid (a := .woken t mem) trivial ha hpage (.inl hb) hg rfl rfl with
        ⟨g,-,hmid,-,-,-⟩ | ⟨-,hmid⟩ | ⟨-,rfl,-⟩ | ⟨g,-,hmid⟩
      · obtain ⟨rfl,rfl⟩ := resume_idle (by rw [hmid.stack_self]; simp) hs
        exact h.plain hmid .idle
      · obtain ⟨rfl,rfl⟩ := resume_idle (by rw [hmid.stack_self]; simp) hs
        exact h.plain hmid (.waits hb)
      · cases hmem
      · obtain ⟨rfl,rfl⟩ := resume_idle (by rw [hmid.stack_self]; simpa using hb) hs
        exact h.plain hmid (.fills hb)
    | copyWaits ho hc =>
      rename_i o f
      have hb := (C.bottom o ho).2
      rcases h.good.get_mid (a := .woken t mem) trivial ha hpage (.inl hb) hg rfl rfl with
        ⟨g,hr,hmid,hgid,hgb,hgf⟩ | ⟨-,hmid⟩ | ⟨-,rfl,-⟩ | ⟨g,-,hmid⟩
      · rw [hr] at hs
        exact h.copied (hmid.resume_copy ho (hc.kept hmid.kept) hgid hgb hgf hs)
      · obtain ⟨rfl,rfl⟩ := resume_idle (by rw [hmid.stack_self]; simp) hs
        exact h.plain hmid (.copyWaits ho (hc.kept hmid.kept))
      · cases hmem
      · obtain ⟨rfl,rfl⟩ := resume_idle (by rw [hmid.stack_self]; simpa using hb) hs
        exact h.plain hmid (.copyFills ho (hc.kept hmid.kept))
  · cases hst

/-- The `fillpage` of a bottom object returns. -/
theorem RunInv.filled {ret : ℤ} {d : F → D}
    (h : RunInv H C s) (hret : 0 ≤ ret) (hstack : s.cache.stack t = .filling b n g :: st) (hb : C.mmoShadowed b = none)
    (ha : act H (.filled t ret) { s with data := d } = some (m, r)) (hs : resume H C t r failed m = some (s', w)) :
    StepOk H C s' w := by
  have hgood : Good H { s with data := d } := ⟨h.good.inv,h.good.fill,h.good.attended⟩
  have hgood' := hgood.act (a := .filled t ret) hret ha
  obtain ⟨-,hst,-,-⟩ := act_eq ha
  obtain ⟨hid,-,hstk,hr⟩ := filled_cases hstack hst
  rw [if_neg (by omega)] at hr
  have hmid : Mid H C s t st m := ⟨hgood',.of_eq C hid,hstk⟩
  have hshape := h.shapes t
  rw [hstack] at hshape
  cases hshape with
  | fills _ =>
    obtain ⟨rfl,rfl⟩ := resume_idle (by rw [hmid.stack_self]; simp) hs
    exact h.plain hmid .idle
  | copyFills ho hc =>
    obtain ⟨hgid,hgb,hgf⟩ := hgood.returned (a := .filled t ret) hret ha hr
    rw [hr] at hs
    exact h.copied (hmid.resume_copy ho (hc.kept hmid.kept) hgid hgb hgf hs)

/-- The other operations of the cache. -/
theorem RunInv.cache {c : Op T ℕ F} (h : RunInv H C s) (hen : Enabled C s (.cache c))
    (ha : act H c s = some (s', r)) : StepOk H C s' none := by
  obtain ⟨hce,hst,-,-⟩ := act_eq ha
  have hok : FillsOk c := by
    cases c with
    | filled => exact hen.elim
    | _ => trivial
  have hgood := h.good.act hok ha
  have hpage : s.cache.pageOf c = none := by
    cases c with
    | get => exact hen.elim
    | woken => exact hen.elim
    | _ => rfl
  have hkept : Kept C s.cache s'.cache := kept_of_effect (h.good.inv.effect hce hst) (by rw [hpage]; rintro _ _ _ ⟨⟩)
  have hsame : s'.cache.stack = s.cache.stack → StepOk H C s' none := fun he => by
    refine ⟨⟨hgood,fun u => ?_⟩,by rintro _ ⟨⟩⟩
    rw [he]
    exact (h.shapes u).kept hkept
  have plain : ∀ {x : Option (PageCache T ℕ F)}, x.map (·, (none : Option (ℕ × ℕ × F))) = some (s'.cache, r) →
      x = some s'.cache := by
    intro x hx
    obtain ⟨y,hy,he⟩ := map_eq_some_iff.mp hx
    cases he
    exact hy
  cases c with
  | getResident o n =>
    obtain ⟨r1,c1,hr,-,-,hs1,-⟩ := h.good.inv.getResident o n
    simp only [stepResult,hr,some.injEq,Prod.mk.injEq] at hst
    exact hsame (hst.1 ▸ hs1)
  | get => exact hen.elim
  | woken => exact hen.elim
  | filled => exact hen.elim
  | pin t f => exact hsame (pin_quiet (plain hst)).2.2.1
  | unpin f =>
    obtain ⟨pf,-,hs2⟩ := bind_eq_some_iff.mp (plain hst)
    split at hs2
    · cases hs2
    · split at hs2 <;> exact hsame (by rw [← some.inj hs2]; rfl)
  | dirty t f =>
    obtain ⟨pf,-,hs2⟩ := bind_eq_some_iff.mp (plain hst)
    split at hs2
    · cases hs2
    · have hs : s'.cache.stack = update s.cache.stack t [.dirtying f] := by
        rw [← some.inj hs2,← show s.cache.stack t = [] from hen]
        rfl
      exact h.plain ⟨hgood,hkept,hs⟩ (.dirties f)
  | clean t f =>
    obtain ⟨pf,-,hs2⟩ := bind_eq_some_iff.mp (plain hst)
    split at hs2
    · cases hs2
    · have hs : s'.cache.stack = update s.cache.stack t [.cleaning f] := by
        rw [← some.inj hs2,← show s.cache.stack t = [] from hen]
        rfl
      exact h.plain ⟨hgood,hkept,hs⟩ (.cleans f)
  | dirtied t ret =>
    have hs1 := plain hst
    simp only [pframeDirtied] at hs1
    split at hs1
    next f st hstack =>
      obtain ⟨pf,-,hs2⟩ := map_eq_some_iff.mp hs1
      have hshape := h.shapes t
      rw [hstack] at hshape
      cases hshape
      exact h.plain ⟨hgood,hkept,by rw [← hs2]; rfl⟩ .idle
    · cases hs1
  | cleaned t ret =>
    have hs1 := plain hst
    simp only [pframeCleaned] at hs1
    split at hs1
    next f st hstack =>
      obtain ⟨pf,-,hs2⟩ := map_eq_some_iff.mp hs1
      have hshape := h.shapes t
      rw [hstack] at hshape
      cases hshape
      exact h.plain ⟨hgood,hkept,by rw [← hs2]; rfl⟩ .idle
    · cases hs1
  | free f =>
    obtain ⟨pf,-,hs2⟩ := bind_eq_some_iff.mp (plain hst)
    split at hs2
    · cases hs2
    · exact hsame (by rw [← some.inj hs2]; rfl)

theorem RunInv.step {disk : ℕ → ℕ → D} {x : Act T F D} (h : RunInv H C s) (hen : Enabled C s x)
    (hcalm : Calm C s x) (hs : result H C disk s x = some (s', w)) : StepOk H C s' w := by
  cases x with
  | fault t o n mem mem' => exact h.fault hen.1 hen.2.1 hen.2.2 hcalm.1 hcalm.2 hs
  | lookup t o n mem =>
    obtain ⟨⟨m,r⟩,ha,he⟩ := map_eq_some_iff.mp hs
    cases he
    obtain ⟨-,hst,-,-⟩ := act_eq ha
    obtain ⟨⟨c1,r1⟩,hg,he⟩ := map_eq_some_iff.mp hst
    cases he
    have hself : s.cache.stack = update s.cache.stack t [] := by
      rw [← hen.1,update_eq_self]
    rcases h.good.get_mid (a := .get t o n mem) trivial ha rfl (.inl hen.2) hg rfl hself with
      ⟨g,-,hmid,-,-,-⟩ | ⟨-,hmid⟩ | ⟨-,-,hmid⟩ | ⟨g,-,hmid⟩
    · exact h.plain hmid .idle
    · exact h.plain hmid (.waits hen.2)
    · exact h.plain hmid .idle
    · exact h.plain hmid (.fills hen.2)
  | woken t mem =>
    obtain ⟨⟨m,r⟩,ha,hs⟩ := bind_eq_some_iff.mp hs
    exact h.woken hcalm ha hs
  | filled t ret =>
    simp only [result] at hs
    split at hs
    next b n g st hstack =>
      split at hs
      · cases hs
      next hb =>
        obtain ⟨⟨m,r⟩,ha,hs⟩ := bind_eq_some_iff.mp hs
        exact h.filled hcalm hstack (by simpa using hb) ha hs
    · cases hs
  | store f d =>
    cases hs
    exact ⟨⟨⟨h.good.inv,h.good.fill,h.good.attended⟩,h.shapes⟩,by rintro _ ⟨⟩⟩
  | cache c =>
    obtain ⟨⟨m,r⟩,ha,he⟩ := map_eq_some_iff.mp hs
    cases he
    exact h.cache hen ha

/-- No thread is in a call of the cache, no frame is busy, and the frames in use have been filled. The
objects between a top object and the end of its chain may hold pages of their own, from before the
chain grew. -/
structure AtRest (H : HashTable ℕ) (s : Frames T F D) : Prop where
  inv : Inv H s.cache
  stack : ∀ t, s.cache.stack t = []
  idle : ∀ f, s.cache.isBusy f = false
  filled : ∀ f, (s.cache.frame f).isSome → s.filled f = true

omit [DecidableEq T] [DecidableEq F] in
theorem AtRest.runInv (h : AtRest H s) : RunInv H C s := by
  refine ⟨⟨h.inv,fun f hf => .inl (h.filled f hf),fun f hf => ?_⟩,fun t => ?_⟩
  · rw [h.idle] at hf
    cases hf
  · rw [h.stack]
    exact .idle

omit [DecidableEq T] [DecidableEq F] in
/-- A run comes to rest when its calls have returned. -/
theorem RunInv.atRest (h : RunInv H C s) (hst : ∀ t, s.cache.stack t = []) : AtRest H s := by
  have hworks : ∀ t, s.cache.works t = [] := fun t => by rw [works,hst]; rfl
  refine ⟨h.good.inv,hst,fun f => ?_,fun f hf => ?_⟩
  · by_contra hb
    obtain ⟨t,p,hp,-⟩ := h.good.attended f (by simpa using hb)
    rw [hworks] at hp
    cases hp
  · rcases h.good.fill f hf with hfill | ⟨t,o,n,hm⟩
    · exact hfill
    · rw [hworks] at hm
      cases hm

theorem RunInv.run {s0 : Frames T F D} {disk : ℕ → ℕ → D} {as : List (Act T F D)} (h0 : RunInv H C s0)
    (h : Exec (Frames.step H C disk) (fun s a => Enabled C s a ∧ Calm C s a) s0 as s) : RunInv H C s :=
  h.invariant h0 fun s a t hi ha hst => by
    obtain ⟨⟨s1,w1⟩,hr,rfl⟩ := map_eq_some_iff.mp hst
    exact (hi.step ha.1 ha.2 hr).inv

/-- A write fault copies a page that has been filled completely, and from the nearest object
below that has it, in every run in which write faults start when no thread is at work on the
page below and no `fillpage` fails. -/
theorem copies_filled_page {s0 : Frames T F D} {disk : ℕ → ℕ → D} {as : List (Act T F D)} (h0 : AtRest H s0)
    (h : Exec (step H C disk) (fun s a => Enabled C s a ∧ Calm C s a) s0 as s) {x : Act T F D} (hen : Enabled C s x)
    (hcalm : Calm C s x) {w : Copy F} (hs : result H C disk s x = some (s', some w)) :
    s'.cache.isBusy w.src = false ∧ s'.filled w.src = true ∧ s'.data w.dst = s'.data w.src ∧
      s'.cache.identity w.dst = some (w.o, w.pagenum) ∧ s'.cache.isBusy w.dst = false ∧
      ((C.mmoShadowed w.o).bind fun y => resolve C.mmoShadowed (resident H s'.cache) y w.pagenum) = some w.src := by
  have hrun : RunInv H C s := h0.runInv.run h
  obtain ⟨h1,h2,h3,h4,h5,h6⟩ := (hrun.step hen hcalm hs).copied w rfl
  exact ⟨h1,h2,h3,h4,h5,h6⟩

end Copies

end Frames

/-! ### Two private mappings of one file -/

/-- The objects 1 and 2 shadow the object 0. -/
def twoShadows : Chains where
  mmoShadowed o := if o = 1 ∨ o = 2 then some 0 else none
  mmoBottomObj _ := 0
  isTop o := o ≠ 0
  descends x y h := by
    dsimp only at h
    split at h <;> cases h
    omega
  bottom o h := by
    split at h
    next ho =>
      exact ⟨.step (if_pos ho) (.refl 0),rfl⟩
    · cases h
  top o ho x hx := by
    split at hx <;> cases hx
    simp at ho

/-- The free frames hold 99. -/
def emptyFrames : Frames (Fin 2) ℕ ℕ :=
  ⟨⟨fun _ => none,fun _ => [],fun _ => [],fun _ => 0,fun _ => 0,[],0,[],0,fun _ => none,fun _ => []⟩,
    fun _ => 99,fun _ => false⟩

/-- The contents of the file. -/
def sampleDisk (_ n : ℕ) : ℕ := n+10

/-- After a fork, the objects 3 and 4 shadow the object 1. -/
def forkedShadows : Chains where
  mmoShadowed o := if o = 3 ∨ o = 4 then some 1 else if o = 1 then some 0 else none
  mmoBottomObj _ := 0
  isTop o := o = 3 ∨ o = 4
  descends x y h := by
    dsimp only at h
    split at h
    · cases h
      omega
    · split at h <;> cases h
      omega
  bottom o h := by
    refine ⟨?_,rfl⟩
    split at h
    next ho =>
      exact .step (if_pos ho) (.step rfl (.refl 0))
    · split at h
      next ho =>
        subst ho
        exact .step rfl (.refl 0)
      · cases h
  top o ho x hx := by
    rw [decide_eq_true_eq] at ho
    split at hx
    · cases hx
      omega
    · split at hx <;> cases hx
      omega

theorem emptyFrames_atRest : Frames.AtRest ⟨id,7⟩ emptyFrames where
  inv := PageCache.Initial.inv
    ⟨fun _ => rfl,⟨fun _ => rfl,fun _ => rfl,rfl,rfl⟩,⟨fun _ => rfl,rfl,rfl⟩,fun _ => ⟨rfl,rfl⟩⟩
  stack _ := rfl
  idle _ := rfl
  filled _ h := by cases h

open Frames in
/-- A fault reads page 5 of object 1 from the file and the process changes it; then it forks. -/
theorem exists_forked : ∃ s s' : Frames (Fin 2) ℕ ℕ, AtRest ⟨id,7⟩ s ∧ s.cache.identity 0 = some (1, 5) ∧
    result ⟨id,7⟩ forkedShadows sampleDisk s (.fault 0 3 5 (some 2) (some 3)) = some (s', some ⟨3,5,2,0⟩) ∧ s'.data 2 = 33 := by
  have hcalm : Calm twoShadows emptyFrames (.fault 0 1 5 (some 0) (some 1)) := ⟨fun _ _ _ _ _ hp => (List.not_mem_nil hp).elim,rfl⟩
  have h : Exec (step ⟨id,7⟩ twoShadows sampleDisk) (fun s a => Enabled twoShadows s a ∧ Calm twoShadows s a) emptyFrames
      [.fault 0 1 5 (some 0) (some 1),.filled 0 0] _ :=
    (Exec.one ⟨⟨rfl,rfl,rfl⟩,hcalm⟩ rfl).snoc ⟨trivial,Int.le_refl 0⟩ rfl
  have h : Exec (step ⟨id,7⟩ twoShadows sampleDisk) (fun s a => Enabled twoShadows s a ∧ Calm twoShadows s a) emptyFrames
      [.fault 0 1 5 (some 0) (some 1),.filled 0 0,.store 0 33] _ := h.snoc ⟨rfl,trivial⟩ rfl
  refine ⟨_,_,(emptyFrames_atRest.runInv.run h).atRest fun t => ?_,rfl,rfl,rfl⟩
  match t with
  | 0 => rfl
  | 1 => rfl

open Frames in
/-- After it, a fault of the child copies the page from object 1. -/
theorem copies_filled_page_forkedShadows : ∃ s s' : Frames (Fin 2) ℕ ℕ, AtRest ⟨id,7⟩ s ∧ s.cache.identity 0 = some (1, 5) ∧
    result ⟨id,7⟩ forkedShadows sampleDisk s (.fault 0 3 5 (some 2) (some 3)) = some (s', some ⟨3,5,2,0⟩) ∧
    s'.data 2 = 33 ∧ s'.cache.isBusy 0 = false ∧ s'.data 2 = s'.data 0 := by
  obtain ⟨s,s',hrest,hid,hs,hd⟩ := exists_forked
  have hen : Enabled forkedShadows s (.fault 0 3 5 (some 2) (some 3)) := ⟨hrest.stack 0,rfl,rfl⟩
  have hcalm : Calm forkedShadows s (.fault 0 3 5 (some 2) (some 3)) := by
    refine ⟨fun u p g x y hp => ?_,rfl⟩
    rw [PageCache.works,hrest.stack] at hp
    cases hp
  have hc := copies_filled_page hrest (.nil s) hen hcalm hs
  exact ⟨s,s',hrest,hid,hs,hd,hc.1,hc.2.2.1⟩

open Frames in
/-- While thread 0 waits for page 5 of the file, thread 1 copies it as it is. -/
theorem unfilled_page_copied : ∃ s s' s'' : Frames (Fin 2) ℕ ℕ, ∃ w,
    Exec (step ⟨id,7⟩ twoShadows sampleDisk) (Enabled twoShadows) emptyFrames [.fault 0 1 5 (some 0) (some 1)] s ∧
    Enabled twoShadows s (.fault 1 2 5 (some 2) (some 3)) ∧
    result ⟨id,7⟩ twoShadows sampleDisk s (.fault 1 2 5 (some 2) (some 3)) = some (s', some ⟨2,5,2,1⟩) ∧
    s'.cache.isBusy 1 = true ∧ s'.filled 1 = false ∧ s'.data 2 = 99 ∧
    result ⟨id,7⟩ twoShadows sampleDisk s' (.filled 0 0) = some (s'', w) ∧ s''.data 1 = 15 ∧ s''.data 2 = 99 := by
  have h : Exec (step ⟨id,7⟩ twoShadows sampleDisk) (Enabled twoShadows) emptyFrames
      [.fault 0 1 5 (some 0) (some 1)] _ := .one ⟨rfl,rfl,rfl⟩ rfl
  exact ⟨_,_,_,_,h,⟨rfl,rfl,rfl⟩,rfl,rfl,rfl,rfl,rfl,rfl,rfl⟩

end Csci402.Mm
