import Csci402.Fs.VnodeInv

/-! The steps of the vnode cache. Each call that the callers may make returns and keeps the
invariant; a vnode leaves the list only at the end of `vput`, and a thread goes to sleep on
a vnode only when it finds it busy. -/

namespace Csci402.Fs.Cache

open Function Option List

variable {F I V G T : Type} {s t : Cache F I V G T} {a : Act F I V G T} {v : V} {vn : Vnode F I G T} {x : T}

/-- The step is the end of the `vput` that takes the vnode away. -/
def Frees (s : Cache F I V G T) (a : Act F I V G T) (v : V) : Prop :=
  ∃ x, a = .deleteDone x ∧ s.pc x = .deleting v

/-- The step is a `vget` that finds the vnode busy. -/
def Waits (s : Cache F I V G T) (a : Act F I V G T) (v : V) : Prop :=
  ∃ x fs vno new, a = .vget x fs vno new ∧
    ∃ vn, s.vnode v = some vn ∧ vn.vnBusy = true ∧ vn.vnFs = fs ∧ vn.vnVno = vno

/-- What is known after a step. -/
structure Stepped (s : Cache F I V G T) (a : Act F I V G T) (t : Cache F I V G T) : Prop where
  inv : Inv t
  removed : ∀ v ∈ s.inuse, v ∉ t.inuse ↔ Frees s a v
  waiting : ∀ v vn', t.vnode v = some vn' → vn'.vnWaitq ≠ [] →
    Waits s a v ∨ ∃ vn, s.vnode v = some vn ∧ vn.vnWaitq ≠ []
  deleting : ∀ x v, s.pc x = .deleting v → Frees s a v ∨ t.pc x = .deleting v
  reading : ∀ x v, t.pc x = .reading v → s.pc x = .reading v ∨ s.vnode v = none

/-- A step after which the same vnodes are there, with the same threads waiting. -/
theorem Stepped.of_same (hinv : Inv t) (hinuse : t.inuse = s.inuse) (ha : ∀ v, ¬ Frees s a v)
    (hw : ∀ v vn', t.vnode v = some vn' → ∃ vn, s.vnode v = some vn ∧ vn'.vnWaitq = vn.vnWaitq)
    (hd : ∀ x v, s.pc x = .deleting v → t.pc x = .deleting v)
    (hr : ∀ x v, t.pc x = .reading v → s.pc x = .reading v ∨ s.vnode v = none) : Stepped s a t where
  inv := hinv
  removed v hv := by
    rw [hinuse]
    exact ⟨fun hn => absurd hv hn,fun hf => absurd hf (ha v)⟩
  waiting v vn' hv hne := by
    obtain ⟨vn,hvn,he⟩ := hw v vn' hv
    exact .inr ⟨vn,hvn,he ▸ hne⟩
  deleting x v hx := .inr (hd x v hx)
  reading := hr

/-- A thread that is not inside `vget` or `vput`, or is on its way back to the search. -/
def Outside (s : Cache F I V G T) (x : T) : Prop := s.pc x = .user ∨ ∃ fs vno, s.pc x = .retry fs vno

theorem Outside.not_handles (h : Outside s x) (v : V) : ¬ s.Handles x v := by
  rintro (hr | hd)
  · rcases h with h | ⟨_,_,h⟩ <;> simp [h] at hr
  · rcases h with h | ⟨_,_,h⟩ <;> simp [h] at hd

theorem Outside.not_asleep (h : Outside s x) (fs : F) (vno : I) (v : V) : s.pc x ≠ .asleep fs vno v := by
  rcases h with h | ⟨_,_,h⟩ <;> simp [h]

/-- The page table says of the vnode what its list of pages says. -/
theorem Inv.page_iff (h : Inv s) (hv : s.vnode v = some vn) (g : G) :
    (s.page g).map Pframe.pfObj = some v ↔ g ∈ vn.mmoRespages := by
  simp [h.page,hv]

/-- From `s.pc` to `pc` threads have moved, after which `v` is busy or not; sleepers and threads
that take a vnode away stay where they are. -/
structure Shift (s : Cache F I V G T) (v : V) (busy : Bool) (pc : T → Pc F I V) : Prop where
  others : ∀ y w, w ≠ v → ((pc y = .reading w ∨ pc y = .deleting w) ↔ s.Handles y w)
  busy : busy = true ↔ ∃ y, pc y = .reading v ∨ pc y = .deleting v
  single : ∀ y z, pc y = .reading v ∨ pc y = .deleting v → pc z = .reading v ∨ pc z = .deleting v → y = z
  asleep : ∀ y fs vno w, pc y = .asleep fs vno w ↔ s.pc y = .asleep fs vno w
  deleting : ∀ y w, s.pc y = .deleting w → pc y = .deleting w
  reading : ∀ y w, pc y = .reading w → s.pc y = .reading w ∨ s.vnode w = none

theorem Inv.shift_refl (h : Inv s) (hv : s.vnode v = some vn) : Shift s v vn.vnBusy s.pc where
  others _ _ _ := Iff.rfl
  busy := h.busy v vn hv
  single y z := h.single y z v
  asleep _ _ _ _ := Iff.rfl
  deleting _ _ hy := hy
  reading _ _ hy := .inl hy

variable [DecidableEq T]

/-- One thread moves, which dealt with no other vnode than `v` and does not after; nobody else
deals with `v`. -/
theorem Inv.shift_update {p : Pc F I V} {busy : Bool} (hx : ∀ fs vno w, s.pc x ≠ .asleep fs vno w)
    (hd : ∀ w, s.pc x ≠ .deleting w) (hr : ∀ w, w ≠ v → s.pc x ≠ .reading w)
    (hp : ∀ w, w ≠ v → p ≠ .reading w ∧ p ≠ .deleting w) (hps : ∀ fs vno w, p ≠ .asleep fs vno w) (hno : ∀ y, y ≠ x → ¬ s.Handles y v)
    (hread : p = .reading v → s.vnode v = none) (hbusy : busy = true ↔ p = .reading v ∨ p = .deleting v) : Shift s v busy (update s.pc x p) := by
  have hkeep : ∀ y, y ≠ x → update s.pc x p y = s.pc y := fun y hy => update_of_ne hy ..
  have honly : ∀ y, update s.pc x p y = .reading v ∨ update s.pc x p y = .deleting v → y = x := by
    intro y hy
    by_contra hyx
    rw [hkeep y hyx] at hy
    exact hno y hyx hy
  refine ⟨fun y w hw => ?_,?_,fun y z hy hz => (honly y hy).trans (honly z hz).symm,fun y fs vno w => ?_,
    fun y w hy => ?_,fun y w hy => ?_⟩
  · by_cases hyx : y = x
    · subst hyx
      rw [update_self]
      exact ⟨fun hor => absurd hor (not_or.mpr (hp w hw)),fun hor => absurd hor (not_or.mpr ⟨hr w hw,hd w⟩)⟩
    · rw [hkeep y hyx]
      rfl
  · rw [hbusy]
    refine ⟨fun hor => ⟨x,by rwa [update_self]⟩,fun ⟨y,hy⟩ => ?_⟩
    rwa [honly y hy,update_self] at hy
  · by_cases hyx : y = x
    · subst hyx
      rw [update_self]
      exact iff_of_false (hps fs vno w) (hx fs vno w)
    · rw [hkeep y hyx]
  · rw [hkeep y (by rintro rfl; exact hd w hy)]
    exact hy
  · by_cases hyx : y = x
    · subst hyx
      rw [update_self] at hy
      have hwv : w = v := by
        by_contra hwv
        exact (hp w hwv).1 hy
      exact .inr (hwv ▸ hread (hwv ▸ hy))
    · rw [hkeep y hyx] at hy
      exact .inl hy

variable [DecidableEq V]

omit [DecidableEq T] in
/-- A step that changes one vnode, its pages and its references, and moves threads. -/
theorem Inv.stepped (h : Inv s) {vn' : Vnode F I G T} {n : ℕ} {pc : T → Pc F I V} {page : G → Option (Pframe V)}
    (hv : s.vnode v = some vn) (hok : VnodeOk n vn') (ha : ∀ v, ¬ Frees s a v)
    (hid : vn'.vnFs = vn.vnFs ∧ vn'.vnVno = vn.vnVno ∧ vn'.vnWaitq = vn.vnWaitq) (hshift : Shift s v vn'.vnBusy pc)
    (hpage : ∀ g, (page g).map Pframe.pfObj = some v ↔ g ∈ vn'.mmoRespages)
    (hpages : ∀ g w, w ≠ v → ((page g).map Pframe.pfObj = some w ↔ (s.page g).map Pframe.pfObj = some w)) :
    Stepped s a { setVnode v vn' s with pc, page, active := update s.active v n } := by
  have hwaitq : ∀ w wn', update s.vnode v (some vn') w = some wn' →
      ∃ wn, s.vnode w = some wn ∧ wn'.vnWaitq = wn.vnWaitq := by
    intro w wn' hw
    by_cases hwv : w = v
    · subst hwv
      rw [update_self] at hw
      cases hw
      exact ⟨vn,hv,hid.2.2⟩
    · rw [update_of_ne hwv] at hw
      exact ⟨wn',hw,rfl⟩
  refine .of_same ?_ rfl ha hwaitq hshift.deleting hshift.reading
  refine h.modify hv rfl ⟨hid.1,hid.2.1⟩ rfl (fun w hw => update_of_ne hw ..) ?_ hpage hpages
    hshift.others hshift.busy hshift.single fun w y => ?_
  · simpa using hok
  · simp only [hshift.asleep,← h.queue]
    by_cases hwv : w = v
    · simp [hwv,hv,hid.2.2]
    · rw [setVnode_of_ne hwv]

/-! ### References and pages -/

omit [DecidableEq T] [DecidableEq V] in
theorem Inv.not_handles (h : Inv s) (hv : s.vnode v = some vn) (hb : vn.vnBusy = false) (y : T) : ¬ s.Handles y v := by
  intro hy
  rw [(h.busy v vn hv).mpr ⟨y,hy⟩] at hb
  cases hb

omit [DecidableEq T] [DecidableEq V] in
/-- A vnode with an active reference is there, and is not busy. -/
theorem Inv.idle_of_active (h : Inv s) (ha : 0 < s.active v) : ∃ vn, s.vnode v = some vn ∧ vn.vnBusy = false := by
  cases hv : s.vnode v with
  | none =>
    rw [h.gone v hv] at ha
    exact absurd ha (Nat.lt_irrefl 0)
  | some vn =>
    refine ⟨vn,rfl,?_⟩
    by_contra hb
    have := ((h.ok v vn hv).busy (by simpa using hb)).2.2
    omega

omit [DecidableEq T] in
theorem vref_eq (hv : s.vnode v = some vn) (hr : 0 < vn.vnRefcount) :
    vref v s = some (setVnode v { vn with vnRefcount := vn.vnRefcount+1 } s) := by
  simp [vref,hv,hr,modVnode_eq hv]

omit [DecidableEq T] in
theorem Inv.vref (h : Inv s) (ha : 0 < s.active v) :
    ∃ t, (vref v s).map (setActive v (s.active v+1)) = some t ∧ Stepped s (.vref v) t := by
  obtain ⟨vn,hv,hb⟩ := h.idle_of_active ha
  have hok := h.ok v vn hv
  obtain ⟨hr,hpos⟩ := hok.idle hb
  have hshift := h.shift_refl hv
  have hpage := h.page_iff hv
  rw [vref_eq hv hpos]
  refine ⟨_,rfl,h.stepped hv ⟨hok.pages,hok.nodup,?_,fun _ => ?_⟩ nofun ⟨rfl,rfl,rfl⟩ hshift
    hpage fun g w _ => Iff.rfl⟩
  · simp [hb]
  · simp only
    omega

omit [DecidableEq T] in
theorem Inv.pframeAlloc [DecidableEq G] (h : Inv s) {g : G} (ha : 0 < s.active v) (hg : s.page g = none) :
    ∃ t, pframeAlloc v g s = some t ∧ Stepped s (.pframeAlloc v g) t := by
  obtain ⟨vn,hv,hb⟩ := h.idle_of_active ha
  have hok := h.ok v vn hv
  obtain ⟨hr,hpos⟩ := hok.idle hb
  have hnew : g ∉ vn.mmoRespages := by
    rw [← h.page_iff hv,hg]
    exact nofun
  have hshift := h.shift_refl hv
  have heq : Cache.pframeAlloc v g s = some { setVnode v { vn with
        vnRefcount := vn.vnRefcount+1, vnNrespages := vn.vnNrespages+1, mmoRespages := g :: vn.mmoRespages } s with
      page := update s.page g (some ⟨v,false⟩), active := update s.active v (s.active v) } := by
    rw [update_eq_self,Cache.pframeAlloc,vref_eq hv hpos,bind_eq_bind,bind_some,
      modVnode_eq (setVnode_self _ _ _),setVnode_setVnode]
    rfl
  refine ⟨_,heq,h.stepped hv ⟨?_,?_,?_,fun _ => ?_⟩ nofun ⟨rfl,rfl,rfl⟩ hshift (fun g' => ?_)
    fun g' w hw => ?_⟩
  · simp [hok.pages]
  · exact nodup_cons.mpr ⟨hnew,hok.nodup⟩
  · simp [hb]
  · simp only
    omega
  · by_cases hg' : g' = g
    · simp [hg']
    · simp [hg',h.page,hv]
  · by_cases hg' : g' = g
    · simp [hg',hg,Ne.symm hw]
    · simp [hg']

omit [DecidableEq T] [DecidableEq V] in
theorem Inv.setBusy [DecidableEq G] (h : Inv s) {g : G} {b : Bool} {pf : Pframe V} (hg : s.page g = some pf) :
    Stepped s (.setBusy g b) { s with page := update s.page g (some { pf with pfBusy := b }) } := by
  have hsame : ∀ g' w, ((update s.page g (some { pf with pfBusy := b }) g').map Pframe.pfObj = some w ↔
      (s.page g').map Pframe.pfObj = some w) := by
    intro g' w
    by_cases hg' : g' = g
    · simp [hg',hg]
    · simp [hg']
  refine .of_same ⟨h.nodup,h.mem,h.unique,h.ok,h.gone,fun g' w => (hsame g' w).trans (h.page g' w),h.busy,
    h.handled,h.single,h.queue⟩ rfl nofun (fun v vn hv => ⟨vn,hv,rfl⟩) (fun x v hx => hx)
    fun x v hx => .inl hx

/-! ### Putting -/

section Put

variable [DecidableEq G]

omit [DecidableEq V] [DecidableEq G] in
theorem afterPut_active (x : T) (v : V) (r : Cache F I V G T × Bool) : (afterPut x v r).active = r.1.active := by
  obtain ⟨s,deleted⟩ := r
  cases deleted <;> rfl

omit [DecidableEq T] [DecidableEq G] in
theorem setActive_self (v : V) (s : Cache F I V G T) : setActive v (s.active v) s = s := by
  rw [setActive,update_eq_self]

/-- `vput` of an idle vnode, after pages of it may have been freed, by a caller whose reference
is one of `n` that are not those of pages. -/
theorem Inv.put (h : Inv s) (vn1 : Vnode F I G T) (page : G → Option (Pframe V)) (query : Bool) {n : ℕ}
    (hv : s.vnode v = some vn) (hb : vn.vnBusy = false) (hx : s.pc x = .user) (ha : ∀ v, ¬ Frees s a v)
    (hid : vn1.vnFs = vn.vnFs ∧ vn1.vnVno = vn.vnVno ∧ vn1.vnWaitq = vn.vnWaitq) (hb1 : vn1.vnBusy = false)
    (hlen : vn1.vnNrespages = vn1.mmoRespages.length) (hnd : vn1.mmoRespages.Nodup)
    (hr : vn1.vnRefcount = n+vn1.vnNrespages) (hn : 0 < n)
    (hpage : ∀ g, (page g).map Pframe.pfObj = some v ↔ g ∈ vn1.mmoRespages)
    (hpages : ∀ g w, w ≠ v → ((page g).map Pframe.pfObj = some w ↔ (s.page g).map Pframe.pfObj = some w))
    (hq : query = false → ∀ g ∈ vn1.mmoRespages, page g = some ⟨v,false⟩) :
    ∃ r, vput query 2 v { setVnode v vn1 s with page } = some r ∧ r.1.active = s.active ∧
      Stepped s a (setActive v (n - 1) (afterPut x v r)) := by
  have hv1 : ({ setVnode v vn1 s with page } : Cache F I V G T).vnode v = some vn1 := setVnode_self ..
  rcases vput_spec 0 hv1 hb1 hlen hnd hr hn hq with ⟨hlast,he⟩ | ⟨hone,he⟩
  · have hshift : Shift s v vn1.vnBusy s.pc := by
      rw [hb1,← hb]
      exact h.shift_refl hv
    have hok : VnodeOk (n - 1) { vn1 with vnRefcount := vn1.vnRefcount - 1 } :=
      ⟨hlen,hnd,by simp [hb1],fun _ => by simp only; omega⟩
    have hstep := h.stepped hv hok ha hid hshift hpage hpages
    refine ⟨_,he,rfl,?_⟩
    simpa [afterPut,setActive,setVnode] using hstep
  · have hshift : Shift s v true (update s.pc x (.deleting v)) :=
      Inv.shift_update (by simp [hx]) (by simp [hx]) (by simp [hx]) (fun w hw => by simp [Ne.symm hw]) (by rintro _ _ _ ⟨⟩)
        (fun y _ => h.not_handles hv hb y) (by rintro ⟨⟩) (by simp)
    have hok : VnodeOk (n - 1)
        ({ vn1 with vnRefcount := 0, vnNrespages := 0, mmoRespages := [], vnBusy := true } : Vnode F I G T) :=
      ⟨rfl,nodup_nil,fun _ => ⟨rfl,rfl,by omega⟩,by rintro ⟨⟩⟩
    have hnone : ∀ g, (if g ∈ vn1.mmoRespages then none else page g).map Pframe.pfObj = some v ↔ g ∈ [] := by
      intro g
      by_cases hg : g ∈ vn1.mmoRespages
      · simp [hg]
      · simpa [hg] using hpage g
    have hother : ∀ g w, w ≠ v → ((if g ∈ vn1.mmoRespages then none else page g).map Pframe.pfObj = some w ↔
        (s.page g).map Pframe.pfObj = some w) := by
      intro g w hw
      by_cases hg : g ∈ vn1.mmoRespages
      · rw [← hpages g w hw,(hpage g).mpr hg]
        simp [hg,Ne.symm hw]
      · rw [if_neg hg,hpages g w hw]
    have hstep := h.stepped hv hok ha hid hshift hnone hother
    refine ⟨_,he,rfl,?_⟩
    simpa [afterPut,setActive,setPc,taken,setVnode] using hstep

omit [DecidableEq T] [DecidableEq V] [DecidableEq G] in
/-- What the file system promises, in terms of the pages. -/
theorem Inv.freePage (h : Inv s) (hv : s.vnode v = some vn) (hq : QuietPages s v) {g : G} (hg : g ∈ vn.mmoRespages) :
    FreePage s v g := by
  obtain ⟨pf,hpf,hobj⟩ := map_eq_some_iff.mp ((h.page_iff hv g).mpr hg)
  have hbusy : pf.pfBusy = false := hq vn hv g hg pf hpf
  rw [FreePage,hpf,← hobj,← hbusy]

theorem Inv.vput (h : Inv s) {query : Bool} (hx : s.pc x = .user) (ha : 0 < s.active v)
    (hq : query = false → QuietPages s v) : ∃ r, vput query 2 v s = some r ∧
      Stepped s (.vput x v query) (setActive v (s.active v - 1) (afterPut x v r)) := by
  obtain ⟨vn,hv,hb⟩ := h.idle_of_active ha
  have hok := h.ok v vn hv
  obtain ⟨r,hr,-,hstep⟩ := h.put vn s.page query hv hb hx (a := .vput x v query) nofun ⟨rfl,rfl,rfl⟩ hb
    hok.pages hok.nodup (hok.idle hb).1 ha (h.page_iff hv) (fun g w _ => Iff.rfl) fun hfalse g hg => h.freePage hv (hq hfalse) hg
  rw [setVnode_eq_self hv] at hr
  exact ⟨r,hr,hstep⟩

/-- The page that is freed had a reference of its own, which is the one that `pframe_free`
gives back. -/
theorem Inv.pframeFree (h : Inv s) {g : G} {query : Bool} (hx : s.pc x = .user) (hg : FreePage s v g)
    (hq : query = false → QuietPages s v) :
    ∃ r, pframeFree (Cache.vput query 2) g s = some (v, r) ∧ Stepped s (.pframeFree x g query) (afterPut x v r) := by
  obtain ⟨vn,hv,hmem⟩ := (h.page g v).mp (by rw [hg]; rfl)
  have hok := h.ok v vn hv
  have hb : vn.vnBusy = false := by
    by_contra hb
    rw [(hok.busy (by simpa using hb)).2.1] at hmem
    cases hmem
  have hlen := hok.pages
  have hr := (hok.idle hb).1
  have hpos := length_pos_of_mem hmem
  have hmem' : ∀ g', g' ∈ vn.mmoRespages.erase g ↔ g' ≠ g ∧ g' ∈ vn.mmoRespages := fun g' => hok.nodup.mem_erase_iff
  have hpage : ∀ g', (update s.page g none g').map Pframe.pfObj = some v ↔ g' ∈ vn.mmoRespages.erase g := by
    intro g'
    by_cases hg' : g' = g
    · simp [hg',hmem']
    · simpa [hg',hmem'] using h.page_iff hv g'
  have hpages : ∀ g' w, w ≠ v → ((update s.page g none g').map Pframe.pfObj = some w ↔
      (s.page g').map Pframe.pfObj = some w) := by
    intro g' w hw
    by_cases hg' : g' = g
    · rw [hg',hg]
      simp [Ne.symm hw]
    · simp [hg']
  have hfree : query = false → ∀ g' ∈ vn.mmoRespages.erase g, update s.page g none g' = some ⟨v,false⟩ := by
    intro hfalse g' hg'
    obtain ⟨hne,hold⟩ := (hmem' g').mp hg'
    rw [update_of_ne hne]
    exact h.freePage hv (hq hfalse) hold
  obtain ⟨r,hput,hactive,hstep⟩ := h.put
    { vn with vnNrespages := vn.vnNrespages - 1, mmoRespages := vn.mmoRespages.erase g }
    (update s.page g none) query (n := s.active v+1) hv hb hx (a := .pframeFree x g query) nofun
    ⟨rfl,rfl,rfl⟩ hb (by simp only [length_erase_of_mem hmem]; omega) (hok.nodup.erase g) (by simp only; omega)
    (Nat.succ_pos _) hpage hpages hfree
  refine ⟨r,?_,?_⟩
  · rw [Cache.pframeFree,uncache_eq hv hg,bind_some,hput]
    rfl
  · have hsame : (afterPut x v r).active = s.active := by
      rw [afterPut_active,hactive]
    rwa [Nat.add_sub_cancel,← hsame,setActive_self] at hstep

end Put

/-! ### Getting -/

section Get

variable {p : Pc F I V} {fs : F} {vno : I}

omit [DecidableEq V] in
theorem Outside.handles_update (hx : Outside s x) (hp : ∀ w, p ≠ .reading w ∧ p ≠ .deleting w) (y : T) (w : V) :
    Handles { s with pc := update s.pc x p } y w ↔ s.Handles y w := by
  by_cases hyx : y = x
  · subst hyx
    simp [Handles,hp w,not_or.mp (hx.not_handles w)]
  · simp [Handles,hyx]

omit [DecidableEq V] in
theorem Outside.asleep_update (hx : Outside s x) (hp : ∀ fs vno w, p ≠ .asleep fs vno w) (y : T) (fs : F) (vno : I)
    (w : V) : update s.pc x p y = .asleep fs vno w ↔ s.pc y = .asleep fs vno w := by
  by_cases hyx : y = x
  · subst hyx
    rw [update_self]
    exact iff_of_false (hp fs vno w) (hx.not_asleep fs vno w)
  · rw [update_of_ne hyx]

omit [DecidableEq V] in
theorem Outside.deleting_update (hx : Outside s x) {y : T} {w : V} (hy : s.pc y = .deleting w) :
    update s.pc x p y = .deleting w := by
  have hyx : y ≠ x := by
    rintro rfl
    exact hx.not_handles w (.inr hy)
  rwa [update_of_ne hyx]

omit [DecidableEq V] in
theorem reading_update (hp : ∀ w, p ≠ .reading w ∧ p ≠ .deleting w) {y : T} {w : V}
    (hy : update s.pc x p y = .reading w) : s.pc y = .reading w := by
  by_cases hyx : y = x
  · subst hyx
    rw [update_self] at hy
    exact absurd hy (hp w).1
  · rwa [update_of_ne hyx] at hy

omit [DecidableEq V] in
/-- A thread outside moves, and does not begin to deal with a vnode. -/
theorem Inv.shift_outside (h : Inv s) (hv : s.vnode v = some vn) (hx : Outside s x)
    (hp : ∀ w, p ≠ .reading w ∧ p ≠ .deleting w) (hps : ∀ fs vno w, p ≠ .asleep fs vno w) :
    Shift s v vn.vnBusy (update s.pc x p) where
  others y w _ := hx.handles_update hp y w
  busy := (h.busy v vn hv).trans (exists_congr fun y => (hx.handles_update hp y v).symm)
  single y z hy hz := h.single y z v ((hx.handles_update hp y v).mp hy) ((hx.handles_update hp z v).mp hz)
  asleep := hx.asleep_update hps
  deleting _ _ hy := hx.deleting_update hy
  reading _ _ hy := .inl (reading_update hp hy)

variable {new : Option V}

omit [DecidableEq V] in
/-- There is no memory for a new vnode. -/
theorem Inv.retry (h : Inv s) (hx : Outside s x) : Stepped s (.vget x fs vno new) (setPc x (.retry fs vno) s) := by
  have hh := hx.handles_update (p := .retry fs vno) (by simp)
  refine .of_same ⟨h.nodup,h.mem,h.unique,h.ok,h.gone,h.page,fun w wn hw => ?_,fun y w hy => ?_,
    fun y z w hy hz => ?_,fun w y => ?_⟩ rfl nofun (fun v vn hv => ⟨vn,hv,rfl⟩)
    (fun y w hy => hx.deleting_update hy) fun y w hy => .inl (reading_update (by simp) hy)
  · exact (h.busy w wn hw).trans (exists_congr fun y => (hh y w).symm)
  · exact h.handled y w ((hh y w).mp hy)
  · exact h.single y z w ((hh y w).mp hy) ((hh z w).mp hz)
  · rw [setPc,h.queue]
    exact exists_congr fun fs' => exists_congr fun vno' => (hx.asleep_update (by simp) y fs' vno' w).symm

/-- The vnode is found and can be used. -/
theorem Inv.found_idle (h : Inv s) (hx : Outside s x) (hv : s.vnode v = some vn) (hb : vn.vnBusy = false) :
    Stepped s (.vget x fs vno new) (setPc x .user (setActive v (s.active v+1)
      (setVnode v { vn with vnRefcount := vn.vnRefcount+1 } s))) := by
  have hok := h.ok v vn hv
  obtain ⟨hr,hpos⟩ := hok.idle hb
  have hshift := h.shift_outside (p := .user) hv hx (by simp) nofun
  have hpage := h.page_iff hv
  refine h.stepped hv ⟨hok.pages,hok.nodup,?_,fun _ => ?_⟩ nofun ⟨rfl,rfl,rfl⟩ hshift hpage fun g w _ => Iff.rfl
  · simp [hb]
  · simp only
    omega

/-- The vnode is found, and the thread has to wait for it. -/
theorem Inv.found_busy (h : Inv s) (hx : Outside s x) (hv : s.vnode v = some vn)
    (hb : vn.vnBusy = true) (hfs : vn.vnFs = fs) (hvno : vn.vnVno = vno) :
    Stepped s (.vget x fs vno new) (setPc x (.asleep fs vno v) (setVnode v { vn with vnWaitq := x :: vn.vnWaitq } s)) := by
  have hok := h.ok v vn hv
  have hpage := h.page_iff hv
  have hpc : ∀ w, Pc.asleep fs vno v ≠ .reading w ∧ Pc.asleep fs vno v ≠ .deleting w := by simp
  have hh := hx.handles_update hpc
  refine ⟨?_,fun w hw => ⟨fun hn => absurd hw hn,nofun⟩,fun w wn' hw hne => ?_,
    fun y w hy => .inr (hx.deleting_update hy),fun y w hy => .inl (reading_update hpc hy)⟩
  · refine h.modify hv rfl ⟨rfl,rfl⟩ rfl (fun w _ => rfl) ⟨hok.pages,hok.nodup,hok.busy,hok.idle⟩ hpage
      (fun g w _ => Iff.rfl) (fun y w _ => hh y w) ?_ (fun y z hy hz => ?_) fun w y => ?_
    · exact (h.busy v vn hv).trans (exists_congr fun y => (hh y v).symm)
    · exact h.single y z v ((hh y v).mp hy) ((hh z v).mp hz)
    · have hold := h.queue w y
      by_cases hyx : y = x
      · -- the thread that goes to sleep now is asleep on this vnode only
        subst hyx
        have hnot : ¬ ∃ wn, s.vnode w = some wn ∧ y ∈ wn.vnWaitq := by
          rw [hold]
          rintro ⟨fs',vno',hy⟩
          exact hx.not_asleep fs' vno' w hy
        by_cases hwv : w = v
        · simp [setPc,hwv]
        · simpa [setPc,setVnode_of_ne hwv,Ne.symm hwv] using hnot
      · by_cases hwv : w = v
        · simpa [setPc,hwv,hv,hyx] using hold
        · simpa [setPc,setVnode_of_ne hwv,hyx] using hold
  · by_cases hwv : w = v
    · exact .inl ⟨x,fs,vno,new,rfl,vn,hwv ▸ hv,hb,hfs,hvno⟩
    · refine .inr ⟨wn',?_,hne⟩
      exact (setVnode_of_ne hwv _ s).symm.trans hw

/-- The vnode is not found, and a new one is brought in. -/
theorem Inv.bringIn (h : Inv s) (hx : Outside s x) (hnone : s.vnode v = none)
    (hnew : ∀ w wn, s.vnode w = some wn → ¬ (wn.vnFs = fs ∧ wn.vnVno = vno)) :
    Stepped s (.vget x fs vno (some v)) (setPc x (.reading v) { s with
      vnode := update s.vnode v (some ⟨fs,vno,true,0,0,[],[]⟩), inuse := v :: s.inuse }) := by
  -- what stands at a name is the new vnode, or what stood there
  have hcases : ∀ w wn, update s.vnode v (some ⟨fs,vno,true,0,0,[],[]⟩) w = some wn →
      w = v ∧ wn = ⟨fs,vno,true,0,0,[],[]⟩ ∨ w ≠ v ∧ s.vnode w = some wn := by
    intro w wn hw
    by_cases hwv : w = v
    · subst hwv
      rw [update_self] at hw
      exact .inl ⟨rfl,(some.inj hw).symm⟩
    · exact .inr ⟨hwv,(update_of_ne hwv ..).symm.trans hw⟩
  -- nobody dealt with the name before, and only this thread does now
  have hno : ∀ y, ¬ s.Handles y v := fun y hy => by simpa [hnone] using h.handled y v hy
  have hshift : Shift s v true (update s.pc x (.reading v)) :=
    Inv.shift_update (hx.not_asleep · · ·) (fun w hw => hx.not_handles w (.inr hw))
      (fun w _ hw => hx.not_handles w (.inl hw)) (fun w hw => by simp [Ne.symm hw]) nofun (fun y _ => hno y)
      (fun _ => hnone) (by simp)
  refine ⟨⟨?_,fun w => ?_,fun w w' wn wn' hw hw' hf hi => ?_,fun w wn hw => ?_,fun w hw => ?_,fun g w => ?_,
    fun w wn hw => ?_,fun y w hy => ?_,fun y z w hy hz => ?_,fun w y => ?_⟩,fun w hw => ?_,
    fun w wn hw hne => ?_,fun y w hy => .inr (hshift.deleting y w hy),hshift.reading⟩
  · exact nodup_cons.mpr ⟨by simp [h.mem,hnone],h.nodup⟩
  · by_cases hwv : w = v
    · simp [setPc,hwv]
    · simp [setPc,hwv,h.mem]
  · rcases hcases w wn hw with ⟨hwv,rfl⟩ | ⟨-,hold⟩ <;> rcases hcases w' wn' hw' with ⟨hwv',rfl⟩ | ⟨-,hold'⟩
    · exact hwv.trans hwv'.symm
    · exact absurd ⟨hf.symm,hi.symm⟩ (hnew w' wn' hold')
    · exact absurd ⟨hf,hi⟩ (hnew w wn hold)
    · exact h.unique w w' wn wn' hold hold' hf hi
  · rcases hcases w wn hw with ⟨rfl,rfl⟩ | ⟨-,hw⟩
    · exact ⟨rfl,nodup_nil,fun _ => ⟨rfl,rfl,h.gone w hnone⟩,nofun⟩
    · exact h.ok w wn hw
  · by_cases hwv : w = v
    · exact hwv ▸ h.gone v hnone
    · exact h.gone w ((update_of_ne hwv ..).symm.trans hw)
  · by_cases hwv : w = v
    · subst hwv
      simp [setPc,h.page,hnone]
    · simp [setPc,hwv,h.page]
  · rcases hcases w wn hw with ⟨rfl,rfl⟩ | ⟨hwv,hw⟩
    · exact hshift.busy
    · exact (h.busy w wn hw).trans (exists_congr fun y => (hshift.others y w hwv).symm)
  · by_cases hwv : w = v
    · simp [setPc,hwv]
    · simpa [setPc,hwv] using h.handled y w ((hshift.others y w hwv).mp hy)
  · by_cases hwv : w = v
    · subst hwv
      exact hshift.single y z hy hz
    · exact h.single y z w ((hshift.others y w hwv).mp hy) ((hshift.others z w hwv).mp hz)
  · simp only [setPc,hshift.asleep,← h.queue]
    by_cases hwv : w = v
    · simp [hwv,hnone]
    · rw [update_of_ne hwv]
  · exact ⟨fun hn => absurd (mem_cons_of_mem v hw) hn,nofun⟩
  · rcases hcases w wn hw with ⟨rfl,rfl⟩ | ⟨-,hw⟩
    · exact absurd rfl hne
    · exact .inr ⟨wn,hw,hne⟩

/-- The vnode has been read. -/
theorem Inv.readDone (h : Inv s) (hx : s.pc x = .reading v) :
    ∃ t, readDone x s = some t ∧ Stepped s (.readDone x) t := by
  obtain ⟨vn,hv⟩ := isSome_iff_exists.mp (h.handled x v (.inl hx))
  have hok := h.ok v vn hv
  obtain ⟨-,hnil,hactive⟩ := hok.busy ((h.busy v vn hv).mpr ⟨x,.inl hx⟩)
  have hlen := hok.pages
  have hshift : Shift s v false (update s.pc x .user) :=
    Inv.shift_update (by simp [hx]) (by simp [hx]) (fun w hw => by simp [hx,Ne.symm hw]) (by simp) (by rintro _ _ _ ⟨⟩)
      (fun y hyx hy => hyx (h.single y x v hy (.inl hx))) (by rintro ⟨⟩) (by simp)
  have hpage := h.page_iff hv
  have heq : Cache.readDone x s = some (setPc x .user (setActive v (s.active v+1)
      (setVnode v { vn with vnBusy := false, vnRefcount := 1 } s))) := by
    simp [Cache.readDone,hx,hv,modVnode_eq hv,setVnode]
  refine ⟨_,heq,h.stepped hv ⟨hlen,hok.nodup,by rintro ⟨⟩,fun _ => ?_⟩ (by rintro _ ⟨_,⟨⟩,_⟩) ⟨rfl,rfl,rfl⟩ hshift hpage
    fun g w _ => Iff.rfl⟩
  rw [hnil,length_nil] at hlen
  simp only
  omega

end Get

/-! ### Taking a vnode away -/

/-- Where the threads are after `sched_broadcast_on` for those that wait. -/
def woken (waitq : List T) (s : Cache F I V G T) (y : T) : Pc F I V :=
  if y ∈ waitq then
    match s.pc y with
    | .asleep fs vno _ => .retry fs vno
    | pc => pc
  else s.pc y

variable {waitq : List T} {y : T}

omit [DecidableEq V] in
/-- A thread that does not sleep stays where it is. -/
theorem woken_eq (hy : ∀ fs vno w, s.pc y ≠ .asleep fs vno w) : woken waitq s y = s.pc y := by
  unfold woken
  split
  · cases hpc : s.pc y <;> simp_all
  · rfl

omit [DecidableEq V] in
theorem handles_woken (waitq : List T) (y : T) (w : V) :
    (woken waitq s y = .reading w ∨ woken waitq s y = .deleting w) ↔ s.Handles y w := by
  by_cases hy : ∀ fs vno w, s.pc y ≠ .asleep fs vno w
  · rw [woken_eq hy,Handles]
  · push Not at hy
    obtain ⟨fs,vno,w',hy⟩ := hy
    by_cases hmem : y ∈ waitq <;> simp [Handles,woken,hy,hmem]

omit [DecidableEq V] in
theorem woken_asleep {fs : F} {vno : I} {w : V} :
    woken waitq s y = .asleep fs vno w ↔ y ∉ waitq ∧ s.pc y = .asleep fs vno w := by
  by_cases hmem : y ∈ waitq
  · cases hpc : s.pc y <;> simp [woken,hmem,hpc]
  · simp [woken,hmem]

omit [DecidableEq V] in
theorem reading_woken {w : V} (hy : woken waitq s y = .reading w) : s.pc y = .reading w := by
  by_cases hns : ∀ fs vno w, s.pc y ≠ .asleep fs vno w
  · rwa [woken_eq hns] at hy
  · push Not at hns
    obtain ⟨fs,vno,w',hpc⟩ := hns
    by_cases hmem : y ∈ waitq <;> simp [woken,hpc,hmem] at hy

/-- The vnode has been deleted: the threads that wait for it go back to the search. -/
theorem Inv.deleteDone (h : Inv s) (hx : s.pc x = .deleting v) :
    ∃ t, deleteDone x s = some t ∧ Stepped s (.deleteDone x) t := by
  obtain ⟨vn,hv⟩ := isSome_iff_exists.mp (h.handled x v (.inr hx))
  obtain ⟨-,hnil,hactive⟩ := (h.ok v vn hv).busy ((h.busy v vn hv).mpr ⟨x,.inr hx⟩)
  have heq : Cache.deleteDone x s = some (setPc x .user { s with
      vnode := update s.vnode v none, inuse := s.inuse.erase v, pc := woken vn.vnWaitq s }) := by
    simp only [Cache.deleteDone,hx,hv,wake,modVnode,setPc,bind_eq_bind,bind_some,map_some,
      getD_some,update_idem]
    rfl
  refine ⟨_,heq,?_⟩
  -- the other vnodes are what they were
  have hcases : ∀ w wn, update s.vnode v none w = some wn → w ≠ v ∧ s.vnode w = some wn := by
    intro w wn hw
    by_cases hwv : w = v
    · subst hwv
      rw [update_self] at hw
      cases hw
    · exact ⟨hwv,(update_of_ne hwv ..).symm.trans hw⟩
  have hhandles : ∀ y w, update (woken vn.vnWaitq s) x .user y = .reading w ∨
      update (woken vn.vnWaitq s) x .user y = .deleting w ↔ w ≠ v ∧ s.Handles y w := by
    intro y w
    by_cases hyx : y = x
    · subst hyx
      simpa [Handles,hx] using fun hwv heq => hwv heq.symm
    · rw [update_of_ne hyx,handles_woken]
      refine ⟨fun hy => ⟨?_,hy⟩,And.right⟩
      rintro rfl
      exact hyx (h.single y x w hy (.inr hx))
  have hqueue : ∀ y w, (∃ fs vno, update (woken vn.vnWaitq s) x .user y = .asleep fs vno w) ↔
      w ≠ v ∧ ∃ fs vno, s.pc y = .asleep fs vno w := by
    intro y w
    by_cases hyx : y = x
    · simp [hyx,hx]
    · simp only [update_of_ne hyx,woken_asleep,exists_and_left,and_congr_left_iff]
      rintro ⟨fs,vno,hy⟩
      have hmem : y ∈ vn.vnWaitq ↔ ∃ fs' vno', s.pc y = .asleep fs' vno' v := by
        simpa [hv] using h.queue v y
      simp [hmem,hy]
  refine ⟨⟨h.nodup.erase v,fun w => ?_,fun w w' wn wn' hw hw' => ?_,fun w wn hw => ?_,fun w hw => ?_,
    fun g w => ?_,fun w wn hw => ?_,fun y w hy => ?_,fun y z w hy hz => ?_,fun w y => ?_⟩,fun w hw => ?_,
    fun w wn hw hne => ?_,fun y w hy => ?_,fun y w hy => ?_⟩
  · by_cases hwv : w = v
    · simp [setPc,hwv,h.nodup.mem_erase_iff]
    · simp [setPc,hwv,h.nodup.mem_erase_iff,h.mem]
  · exact h.unique w w' wn wn' (hcases w wn hw).2 (hcases w' wn' hw').2
  · exact h.ok w wn (hcases w wn hw).2
  · by_cases hwv : w = v
    · exact hwv ▸ hactive
    · exact h.gone w ((update_of_ne hwv ..).symm.trans hw)
  · by_cases hwv : w = v
    · simp [setPc,hwv,h.page,hv,hnil]
    · simp [setPc,hwv,h.page]
  · obtain ⟨hwv,hw⟩ := hcases w wn hw
    refine (h.busy w wn hw).trans (exists_congr fun y => ?_)
    exact ((hhandles y w).trans (and_iff_right hwv)).symm
  · obtain ⟨hwv,hold⟩ := (hhandles y w).mp hy
    simpa [setPc,hwv] using h.handled y w hold
  · exact h.single y z w ((hhandles y w).mp hy).2 ((hhandles z w).mp hz).2
  · rw [setPc,hqueue,← h.queue]
    by_cases hwv : w = v
    · simp [hwv]
    · simp [hwv]
  · have hfrees : Frees s (.deleteDone x) w ↔ w = v := by
      simp only [Frees,Act.deleteDone.injEq,exists_eq_left',hx,Pc.deleting.injEq]
      exact eq_comm
    rw [hfrees]
    simp [setPc,h.nodup.mem_erase_iff,hw]
  · exact .inr ⟨wn,(hcases w wn hw).2,hne⟩
  · by_cases hyx : y = x
    · subst hyx
      exact .inl ⟨y,rfl,hy⟩
    · refine .inr ((update_of_ne hyx ..).trans ?_)
      exact (woken_eq (by simp [hy])).trans hy
  · have hyx : y ≠ x := by
      rintro rfl
      cases (update_self ..).symm.trans hy
    exact .inl (reading_woken ((update_of_ne hyx ..).symm.trans hy))

/-! ### All steps -/

variable [DecidableEq F] [DecidableEq I] {fs : F} {vno : I}

omit [DecidableEq V] [DecidableEq T] in
theorem Inv.find_some (h : find fs vno s = some v) (hs : Inv s) :
    ∃ vn, s.vnode v = some vn ∧ vn.vnFs = fs ∧ vn.vnVno = vno := by
  obtain ⟨vn,hv⟩ := isSome_iff_exists.mp ((hs.mem v).mp (mem_of_find?_eq_some h))
  have hid := find?_some h
  simp only [hv,any_some,decide_eq_true_eq] at hid
  exact ⟨vn,hv,hid⟩

omit [DecidableEq V] [DecidableEq T] in
theorem Inv.find_none (h : find fs vno s = none) (hs : Inv s) (w : V) (wn : Vnode F I G T) (hw : s.vnode w = some wn) :
    ¬ (wn.vnFs = fs ∧ wn.vnVno = vno) := by
  have hmem : w ∈ s.inuse := (hs.mem w).mpr (by simp [hw])
  simpa [hw] using find?_eq_none.mp h w hmem

theorem Inv.vget (h : Inv s) {new : Option V} (hx : Outside s x) (hnew : ∀ v ∈ new, s.vnode v = none) :
    ∃ t, vget x fs vno new s = some t ∧ Stepped s (.vget x fs vno new) t := by
  cases hfind : find fs vno s with
  | some v =>
    obtain ⟨vn,hv,hfs,hvno⟩ := h.find_some hfind
    cases hb : vn.vnBusy with
    | true =>
      refine ⟨_,?_,h.found_busy hx hv hb hfs hvno⟩
      simp [Cache.vget,hfind,hv,hb,modVnode_eq hv]
    | false =>
      refine ⟨_,?_,h.found_idle hx hv hb⟩
      simp [Cache.vget,hfind,hv,hb,vref_eq hv ((h.ok v vn hv).idle hb).2]
      rfl
  | none =>
    cases new with
    | none => exact ⟨_,by simp [Cache.vget,hfind],h.retry hx⟩
    | some v => exact ⟨_,by simp [Cache.vget,hfind],h.bringIn hx (hnew v rfl) (h.find_none hfind)⟩

variable [DecidableEq G]

/-- Every call that callers may make returns, so that none of its assertions fails, and keeps
the invariant. -/
theorem Inv.step (h : Inv s) (ha : Enabled s a) : ∃ t, step s a = some t ∧ Stepped s a t := by
  cases a with
  | vget x fs vno new => exact h.vget (ha.1.imp_right fun hx => ⟨fs,vno,hx⟩) ha.2
  | readDone x =>
    cases hx : s.pc x with
    | reading v => exact h.readDone hx
    | _ => simp [Enabled,hx,Pc.isReading] at ha
  | vref v => exact h.vref ha
  | vput x v query =>
    obtain ⟨hx,hactive,hq⟩ := ha
    obtain ⟨r,hr,hstep⟩ := h.vput hx hactive hq
    exact ⟨_,by rw [Cache.step,hr,map_some],hstep⟩
  | deleteDone x =>
    cases hx : s.pc x with
    | deleting v => exact h.deleteDone hx
    | _ => simp [Enabled,hx,Pc.isDeleting] at ha
  | pframeAlloc v g => exact h.pframeAlloc ha.1 ha.2
  | pframeFree x g query =>
    obtain ⟨hx,hg,hpf⟩ := ha
    obtain ⟨pf,hg⟩ := ne_none_iff_exists'.mp hg
    obtain ⟨hbusy,hq⟩ := hpf pf hg
    have hfree : FreePage s pf.pfObj g := by rw [FreePage,hg,← hbusy]
    obtain ⟨r,hr,hstep⟩ := h.pframeFree hx hfree hq
    exact ⟨_,by rw [Cache.step,hr,map_some],hstep⟩
  | setBusy g b =>
    obtain ⟨pf,hg⟩ := ne_none_iff_exists'.mp ha
    exact ⟨_,by rw [Cache.step,hg,map_some],h.setBusy hg⟩

end Csci402.Fs.Cache
