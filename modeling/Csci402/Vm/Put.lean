import Csci402.Vm.HeapOps

/-! `put` drops one reference. When that was the last one the object goes, with its
pages and with its own references to the objects below it, and so on down the chain.
The recursion ends because an object shadows only older ones, and nothing that is
still referred to goes. -/

namespace Csci402.Vm

namespace Memory

open Lib Function Option

variable {D : Type} {s s0 t u : Memory D} {dying : Finset ℕ} {ext : ℕ → ℤ} {o : ℕ} {ob : Mmobj}

/-- From `s` to `t` some objects go, with their pages; of the others, those in `X` apart,
only the counts change. -/
structure DropsOff (X : Finset ℕ) (s t : Memory D) : Prop where
  clears : Clears s t
  obj : ∀ x ob, x ∉ X → t.objs x = some ob → ∃ r, s.objs x = some { ob with mmoRefcount := r }
  frame_of : ∀ f pf, pf.pfObj ∉ X → t.frames f = some pf → s.frames f = some pf
  frame_kept : ∀ f pf, pf.pfObj ∉ X → s.frames f = some pf → (t.objs pf.pfObj).isSome →
    t.frames f = some pf
  nextObj : t.nextObj = s.nextObj
  nextFrame : t.nextFrame = s.nextFrame
  disk : t.disk = s.disk
  held : t.held = s.held

theorem DropsOff.trans {X : Finset ℕ} (h : DropsOff X s t) (h' : DropsOff X t u) : DropsOff X s u where
  clears := h.clears.trans h'.clears
  obj x ob hx hu := by
    obtain ⟨r,ht⟩ := h'.obj x ob hx hu
    obtain ⟨r',hs⟩ := h.obj x _ hx ht
    exact ⟨r',hs⟩
  frame_of f pf hx hu := h.frame_of f pf hx (h'.frame_of f pf hx hu)
  frame_kept f pf hx hs hu := by
    obtain ⟨ob,ho⟩ := isSome_iff_exists.mp hu
    obtain ⟨r,ht⟩ := h'.obj pf.pfObj ob hx ho
    exact h'.frame_kept f pf hx (h.frame_kept f pf hx hs (by simp [ht])) hu
  nextObj := h'.nextObj.trans h.nextObj
  nextFrame := h'.nextFrame.trans h.nextFrame
  disk := h'.disk.trans h.disk
  held := h'.held.trans h.held

theorem DropsOff.mono {X Y : Finset ℕ} (hXY : X ⊆ Y) (h : DropsOff X s t) : DropsOff Y s t where
  __ := h
  obj x ob hx := h.obj x ob fun hm => hx (hXY hm)
  frame_of f pf hx := h.frame_of f pf fun hm => hx (hXY hm)
  frame_kept f pf hx := h.frame_kept f pf fun hm => hx (hXY hm)

/-- The exception does not matter once the object is freed. -/
theorem DropsOff.freeObj (h : DropsOff {o} s t) (ho : ∀ f pf, t.frames f = some pf → pf.pfObj ≠ o) :
    DropsOff ∅ s (t.freeObj o) where
  clears := h.clears.trans (Clears.of_procs rfl rfl rfl)
  obj x ob _ hx := by
    rw [objs_freeObj] at hx
    split at hx
    · cases hx
    next he =>
      exact h.obj x ob (by simpa using he) hx
  frame_of f pf _ hf := h.frame_of f pf (by simpa using ho f pf hf) hf
  frame_kept f pf _ hs hx := by
    rw [objs_freeObj] at hx
    split at hx
    · cases hx
    next he =>
      exact h.frame_kept f pf (by simpa using he) hs hx
  nextObj := h.nextObj
  nextFrame := h.nextFrame
  disk := h.disk
  held := h.held

theorem dropsOff_decRef (X : Finset ℕ) (s : Memory D) (o : ℕ) : DropsOff X s (s.decRef o) where
  clears := clears_modObj s o _
  obj x ob _ hx := by
    rw [decRef,objs_modObj] at hx
    split at hx
    next he =>
      subst he
      obtain ⟨ob0,h0,rfl⟩ := map_eq_some_iff.mp hx
      exact ⟨ob0.mmoRefcount,h0⟩
    · exact ⟨ob.mmoRefcount,hx⟩
  frame_of _ _ _ h := h
  frame_kept _ _ _ h _ := h
  nextObj := rfl
  nextFrame := rfl
  disk := rfl
  held := rfl

/-! ### Counts inside `put` -/

/-- With two references more than the state shows, an object stays in use. -/
theorem Heap.inUse_decRef (h : Heap s dying ext) (ho : s.objs o = some ob) (hd : o ∉ dying)
    (he : 2 ≤ ext o) : InUse { ob with mmoRefcount := ob.mmoRefcount - 1 } := by
  have hc := h.count o ob ho hd
  have hn := h.pages.nres o ob ho
  have h₁ := areaRefs_nonneg s o
  have h2 := objRefs_nonneg s dying o
  simp only [Pi.add_apply,Pi.zero_apply] at hc h₁ h2
  unfold InUse
  simp only
  omega

/-- `put` only counts down then. -/
theorem Heap.putFuel_decRef (h : Heap s dying ext) (ho : s.objs o = some ob) (hd : o ∉ dying)
    (he : 2 ≤ ext o) (linked : ℕ → Bool) (n : ℕ) : putFuel linked (n+1) o s = some (s.decRef o) := by
  have hc := h.count o ob ho hd
  have hn := h.pages.nres o ob ho
  have h₁ := areaRefs_nonneg s o
  have h2 := objRefs_nonneg s dying o
  simp only [Pi.add_apply,Pi.zero_apply] at hc h₁ h2
  have h3 : 0 < ob.mmoRefcount := by omega
  have h4 : ob.mmoRefcount - 1 ≠ ob.mmoNrespages := by omega
  simp only [putFuel,ho,bind_some]
  split
  · simp [anonPut,h3,h4]
  · simp [shadowPut,h3,h4]
  · have h5 : 0 ≤ ob.mmoNrespages ∧ ob.mmoNrespages < ob.mmoRefcount := by omega
    have h6 : 0 < ob.mmoRefcount - 1 := by omega
    have h7 : ¬ (ob.mmoNrespages = ob.mmoRefcount - 1 ∧ linked o = false) := by omega
    rw [vput,if_pos h5,if_neg h7,vputDrop,ho]
    exact if_pos h6

/-- When the count says so, the reference that is dropped is the only one. -/
theorem Heap.last_ref (h : Heap s dying ext) (ho : s.objs o = some ob) (hd : o ∉ dying)
    (he : 1 ≤ ext o) (hc : ob.mmoRefcount - 1 = ob.mmoNrespages) :
    s.areaRefs o = 0 ∧ s.objRefs dying o = 0 ∧ ext o = 1 := by
  have hc' := h.count o ob ho hd
  have h₁ := areaRefs_nonneg s o
  have h2 := objRefs_nonneg s dying o
  simp only [Pi.add_apply,Pi.zero_apply] at hc' h₁ h2
  omega

/-! ### The pages of an object -/

/-- The loop over the resident pages of `o`, started in `s0` with the object `ob`: the
pages `rest` are still there, and nothing else has changed. -/
structure Freeing (s0 : Memory D) (o : ℕ) (ob : Mmobj) (dying : Finset ℕ) (ext : ℕ → ℤ)
    (rest : List ℕ) (s : Memory D) : Prop where
  heap : Heap s dying ext
  clears : Clears s0 s
  others : ∀ x, x ≠ o → s.objs x = s0.objs x
  self : ∃ r, s.objs o = some { ob with
    mmoRefcount := r, mmoNrespages := rest.length, mmoRespages := rest }
  frames : ∀ f pf, pf.pfObj ≠ o → (s.frames f = some pf ↔ s0.frames f = some pf)
  nextObj : s.nextObj = s0.nextObj
  nextFrame : s.nextFrame = s0.nextFrame
  disk : s.disk = s0.disk
  held : s.held = s0.held

theorem Freeing.start (h : Heap s dying ext) (ho : s.objs o = some ob) :
    Freeing s o ob dying ext (s.respages o) s where
  heap := h
  clears := Clears.refl s
  others _ _ := rfl
  self := by
    have hn := h.pages.nres o ob ho
    have hr : s.respages o = ob.mmoRespages := by simp [respages,ho]
    exact ⟨ob.mmoRefcount,by rw [ho,hr,← hn]⟩
  frames _ _ _ := Iff.rfl
  nextObj := rfl
  nextFrame := rfl
  disk := rfl
  held := rfl

theorem Freeing.respages {rest : List ℕ} (h : Freeing s0 o ob dying ext rest s) : s.respages o = rest := by
  obtain ⟨r,hr⟩ := h.self
  simp [Memory.respages,hr]

/-- The references to `o` do not change, so the loop leaves the last one. -/
theorem Freeing.refs {rest : List ℕ} (h : Freeing s0 o ob dying ext rest s) (ho : s0.objs o = some ob) :
    s.areaRefs = s0.areaRefs ∧ s.objRefs dying = s0.objRefs dying := by
  refine ⟨areaRefs_congr h.clears.nextPid h.clears.vmmList,objRefs_congr h.nextObj fun i _ => ?_⟩
  by_cases hi : i = o
  · subst hi
    obtain ⟨r,hr⟩ := h.self
    rw [hr,ho]
    rfl
  · rw [h.others i hi]

/-- The page of one round, unpinned where the loop does that, is not pinned. -/
theorem Heap.unpinned (h : Heap s dying ext) {unpin : Bool} {k : ℕ} {pf : Pframe D}
    (hk : s.frames k = some pf) (ho : s.objs pf.pfObj = some ob) (hu : unpin = true ∨ ob.mmoOps = .vnode) :
    ∃ s1 pf1, (if unpin && (s.frames k).any (fun pf => 0 < pf.pfPincount) then pframeUnpin k s
        else s) = s1 ∧
      Heap s1 dying ext ∧ s1.frames k = some pf1 ∧ pf1.pfObj = pf.pfObj ∧ pf1.pfPincount = 0 ∧
      s1 = { s with frames := update s.frames k (some pf1) } := by
  have hp := h.pages.pin k pf ob hk ho
  by_cases hc : unpin = true ∧ 0 < pf.pfPincount
  · have hle : pf.pfPincount ≤ 1 := by split at hp <;> omega
    refine ⟨pframeUnpin k s,{ pf with pfPincount := pf.pfPincount - 1 },?_,?_,?_,rfl,?_,?_⟩
    · simp [hk,hc]
    · refine h.modFrame (fun _ => ⟨rfl,rfl⟩) fun pf' ob' hk' ho' => ?_
      have := h.pages.pin k pf' ob' hk' ho'
      change pf'.pfPincount - 1 ≤ _
      omega
    · simp [pframeUnpin,frames_modFrame,hk]
    · change pf.pfPincount - 1 = 0
      omega
    · simp [pframeUnpin,Memory.modFrame,hk]
  · have hz : pf.pfPincount = 0 := by
      rcases hu with hu | hu
      · simp only [hu,true_and] at hc
        omega
      · rw [if_pos hu] at hp
        omega
    refine ⟨s,pf,?_,h,hk,rfl,hz,?_⟩
    · simp [hk,hz]
    · rw [← hk,update_eq_self]

theorem Freeing.round {put : ℕ → Memory D → Option (Memory D)} {unpin : Bool} {k : ℕ}
    {rest : List ℕ} (h : Freeing s0 o ob dying ext (k :: rest) s) (hd : o ∉ dying)
    (hu : unpin = true ∨ ob.mmoOps = .vnode) (he : 1 ≤ ext o)
    (hput : ∀ s ob, Heap s dying (ext+Pi.single o 1) → s.objs o = some ob →
      put o s = some (s.decRef o)) :
    ∃ t, pframeFree put k (if unpin && (s.frames k).any (fun pf => 0 < pf.pfPincount) then
        pframeUnpin k s else s) = some t ∧
      Freeing s0 o ob dying ext rest t := by
  obtain ⟨r,hself⟩ := h.self
  obtain ⟨pf,hk,hko⟩ := h.heap.pages.resident_frame hself (f := k) (by simp)
  have hself' := hself
  rw [← hko] at hself'
  obtain ⟨s1,pf1,hs1,hh1,hk1,hko1,hp1,he1⟩ := h.heap.unpinned hk hself' hu
  rw [hko] at hko1
  obtain ⟨s2,hs2,hun⟩ := hh1.pframeUncache hk1 hp1 (by rwa [hko1])
  have hh2 := hh1.uncached hk1 hun
  rw [hko1] at hun hh2
  have hobj1 : s1.objs = s.objs := by rw [he1]
  have hself2 : s2.objs o = some { ob with
      mmoRefcount := r, mmoNrespages := rest.length, mmoRespages := rest } := by
    rw [hun.objs,update_self,hobj1,hself]
    simp
  have hput2 := hput s2 _ hh2 hself2
  have hh3 := hh2.decRef hself2 (hh2.inUse_decRef hself2 hd (by
    rw [Pi.add_apply,Pi.single_eq_same]
    omega))
  rw [add_sub_cancel_right] at hh3
  have hfr : ∀ f pf, pf.pfObj ≠ o → (s2.frames f = some pf ↔ s.frames f = some pf) := by
    intro f pf' hne
    rw [hun.frames,he1]
    by_cases hf : f = k
    · subst hf
      simp only [update_self]
      refine iff_of_false (by simp) fun hc => ?_
      rw [hk] at hc
      cases hc
      exact hne hko
    · simp [hf]
  have hn1 : s1.nextObj = s.nextObj ∧ s1.nextFrame = s.nextFrame ∧ s1.disk = s.disk ∧
      s1.held = s.held := by rw [he1]; exact ⟨rfl,rfl,rfl,rfl⟩
  have hc1 : Clears s s1 := by rw [he1]; exact Clears.of_procs rfl rfl rfl
  refine ⟨s2.decRef o,?_,hh3,?_,fun x hx => ?_,⟨r - 1,?_⟩,fun f pf' hne => ?_,
    (hun.nextObj.trans hn1.1).trans h.nextObj,(hun.nextFrame.trans hn1.2.1).trans h.nextFrame,
    (hun.disk.trans hn1.2.2.1).trans h.disk,(hun.held.trans hn1.2.2.2).trans h.held⟩
  · simp only [hs1,pframeFree,hk1,bind_eq_bind,bind_some,hs2,hko1,hput2]
  · exact ((h.clears.trans hc1).trans hun.clears).trans (clears_modObj s2 o _)
  · rw [decRef,objs_modObj,if_neg hx,hun.objs,update_of_ne hx,hobj1]
    exact h.others x hx
  · simp [decRef,objs_modObj,hself2]
  · exact (hfr f pf' hne).trans (h.frames f pf' hne)

/-- The loop frees every page of an object with one reference left. -/
theorem Heap.freePages (h : Heap s dying ext) {put : ℕ → Memory D → Option (Memory D)}
    (unpin : Bool) (ho : s.objs o = some ob) (hd : o ∉ dying)
    (hu : unpin = true ∨ ob.mmoOps = .vnode) (he : 1 ≤ ext o)
    (hput : ∀ s ob, Heap s dying (ext+Pi.single o 1) → s.objs o = some ob →
      put o s = some (s.decRef o)) :
    ∃ t, freePages put unpin o s = some t ∧ Freeing s o ob dying ext [] t := by
  refine listIterate_rule (Freeing s o ob dying ext) (fun k rest s' h' => ?_)
    (fun k rest s' h' => h'.round hd hu he hput) (Freeing.start h ho)
  exact ⟨[],by simp [h'.respages],by simp⟩

theorem Freeing.dropsOff (h : Freeing s0 o ob dying ext [] s) : DropsOff {o} s0 s where
  clears := h.clears
  obj x xob hx hs := by
    rw [Finset.mem_singleton] at hx
    rw [h.others x hx] at hs
    exact ⟨xob.mmoRefcount,hs⟩
  frame_of f pf hx hf := (h.frames f pf (by simpa using hx)).mp hf
  frame_kept f pf hx hf _ := (h.frames f pf (by simpa using hx)).mpr hf
  nextObj := h.nextObj
  nextFrame := h.nextFrame
  disk := h.disk
  held := h.held

theorem Pages.no_frame (h : Pages s) (ho : s.respages o = []) {f : ℕ} {pf : Pframe D}
    (hf : s.frames f = some pf) : pf.pfObj ≠ o := by
  intro he
  have hm : f ∈ s.respages pf.pfObj := h.resident.mem.mpr (by simp [hf])
  rw [he,ho] at hm
  cases hm

/-! ### `put` -/

/-- What `put` of `o` comes to. -/
structure Dropped (s t : Memory D) (dying : Finset ℕ) (ext : ℕ → ℤ) (o : ℕ) : Prop where
  heap : Heap t dying (ext - Pi.single o 1)
  drops : DropsOff ∅ s t
  dying_eq : ∀ x ∈ dying, t.objs x = s.objs x
  kept : ∀ x, x ∉ dying → (s.objs x).isSome → (if x = o then 2 else 1) ≤ ext x → (t.objs x).isSome

theorem Heap.dropped_decRef (h : Heap s dying ext) (ho : s.objs o = some ob) (hd : o ∉ dying)
    (hu : InUse { ob with mmoRefcount := ob.mmoRefcount - 1 }) :
    Dropped s (s.decRef o) dying ext o := by
  refine ⟨h.decRef ho hu,dropsOff_decRef ∅ s o,fun x hx => ?_,fun x _ hx _ => ?_⟩
  · have he : x ≠ o := fun he => hd (he ▸ hx)
    rw [Memory.decRef,objs_modObj,if_neg he]
  · rw [Memory.decRef,objs_modObj]
    split
    next he =>
      subst he
      simpa using hx
    · exact hx

/-- An object that refers to nothing goes after its pages. -/
theorem Freeing.dropped (h : Freeing s0 o ob dying ext [] s) (ho : s0.objs o = some ob)
    (hd : o ∉ dying) (hb : ob.mmoShadowed = none ∧ ob.mmoBottomObj = none)
    (hl : s0.areaRefs o = 0 ∧ s0.objRefs dying o = 0 ∧ ext o = 1) : Dropped s0 (s.freeObj o) dying ext o := by
  obtain ⟨r,hself⟩ := h.self
  obtain ⟨hra,hro⟩ := h.refs ho
  have hmark := h.heap.markDying hself hd (by rw [hra,hl.1]) (by rw [hro,hl.2.1])
  have hlinks : links (some { ob with
      mmoRefcount := r, mmoNrespages := (0 : ℕ), mmoRespages := [] }) = 0 := by
    simp [links,hb]
  rw [show (([] : List ℕ).length : ℤ) = (0 : ℕ) from rfl,hlinks,add_zero] at hmark
  have hfree := hmark.freeObj h.respages
  refine ⟨hfree.congr_ext fun x hx _ => ?_,
    h.dropsOff.freeObj fun f pf hf => h.heap.pages.no_frame h.respages hf,fun x hx => ?_,
    fun x hxd hx h1 => ?_⟩
  · rw [objs_freeObj] at hx
    split at hx
    · cases hx
    next he =>
      simp [he]
  · have he : x ≠ o := fun he => hd (he ▸ hx)
    rw [objs_freeObj,if_neg he,h.others x he]
  · have he : x ≠ o := by
      rintro rfl
      rw [if_pos rfl] at h1
      omega
    rw [objs_freeObj,if_neg he,h.others x he]
    exact hx

theorem single_nonneg (y x : ℕ) : 0 ≤ (Pi.single y 1 : ℕ → ℤ) x := tally_nonneg (some y) x

/-- A shadow object goes after its pages and its two references. -/
theorem Freeing.dropped_shadow (h : Freeing s0 o ob dying ext [] s) (ho : s0.objs o = some ob)
    (hd : o ∉ dying) (hk : ob.mmoOps = .shadow) (hpos : ∀ x, 0 ≤ ext x)
    (hl : s0.areaRefs o = 0 ∧ s0.objRefs dying o = 0 ∧ ext o = 1) {put : ℕ → Memory D → Option (Memory D)}
    (hput : ∀ x s dying ext, x < o → Heap s dying ext → (∀ y, 0 ≤ ext y) → (s.objs x).isSome →
      x ∉ dying → 1 ≤ ext x → ∃ t, put x s = some t ∧ Dropped s t dying ext x) :
    ∃ sh b s2 s3, ob.mmoShadowed = some sh ∧ ob.mmoBottomObj = some b ∧ put b s = some s2 ∧
      put sh s2 = some s3 ∧ Dropped s0 (s3.freeObj o) dying ext o := by
  obtain ⟨r,hself⟩ := h.self
  obtain ⟨hra,hro⟩ := h.refs ho
  obtain ⟨sh,b,hlk⟩ := h.heap.shape.link o _ hself hd hk
  have hsh : ob.mmoShadowed = some sh := hlk.shadowed
  have hb : ob.mmoBottomObj = some b := hlk.bottom
  -- the two references are held by nobody while `o` is torn down
  have hmark := h.heap.markDying hself hd (by rw [hra,hl.1]) (by rw [hro,hl.2.1])
  have hlinks : links (some { ob with
      mmoRefcount := r, mmoNrespages := (([] : List ℕ).length : ℤ), mmoRespages := [] }) =
      Pi.single sh 1+Pi.single b 1 := by
    simp [links,hsh,hb]
  rw [hlinks,← add_assoc] at hmark
  have hne : ∀ x, x ≠ o → x ∉ dying → x ∉ insert o dying := by
    intro x hx hxd
    rw [Finset.mem_insert,not_or]
    exact ⟨hx,hxd⟩
  have hbs : (s.objs b).isSome := by
    obtain ⟨bob,hbob,-⟩ := hlk.base
    simp [hbob]
  have hshs : (s.objs sh).isSome := by
    obtain ⟨shob,hshob,-⟩ := bind_eq_some_iff.mp hlk.chain
    simp [hshob]
  have hbd := hne b (Nat.ne_of_lt hlk.bottom_lt) hlk.bottom_alive
  have hshd := hne sh (Nat.ne_of_lt hlk.shadowed_lt) hlk.shadowed_alive
  have hpos1 : ∀ x, 0 ≤ (ext+Pi.single sh 1 : ℕ → ℤ) x := fun x =>
    add_nonneg (hpos x) (single_nonneg sh x)
  obtain ⟨s2,hs2,hd2⟩ := hput b s _ _ hlk.bottom_lt hmark
    (fun x => add_nonneg (hpos1 x) (single_nonneg b x)) hbs hbd (by
      have := hpos1 b
      rw [Pi.add_apply,Pi.single_eq_same]
      omega)
  have hkept2 : ∀ x, x ∉ insert o dying → (s.objs x).isSome → 1 ≤ (ext+Pi.single sh 1 : ℕ → ℤ) x →
      (s2.objs x).isSome := by
    intro x hxd hx h1
    refine hd2.kept x hxd hx ?_
    rw [Pi.add_apply]
    split
    next he =>
      rw [he] at h1 ⊢
      rw [Pi.single_eq_same]
      omega
    · have := single_nonneg b x
      omega
  have hheap2 := hd2.heap
  rw [add_sub_cancel_right] at hheap2
  have hsh1 : 1 ≤ (ext+Pi.single sh 1 : ℕ → ℤ) sh := by
    have := hpos sh
    rw [Pi.add_apply,Pi.single_eq_same]
    omega
  obtain ⟨s3,hs3,hd3⟩ := hput sh s2 _ _ hlk.shadowed_lt hheap2 hpos1 (hkept2 sh hshd hshs hsh1) hshd
    hsh1
  have hheap3 := hd3.heap
  rw [add_sub_cancel_right] at hheap3
  have hself3 : s3.respages o = [] := by
    rw [Memory.respages,hd3.dying_eq o (Finset.mem_insert_self o dying),
      hd2.dying_eq o (Finset.mem_insert_self o dying)]
    exact h.respages
  refine ⟨sh,b,s2,s3,hsh,hb,hs2,hs3,?_,?_,fun x hx => ?_,fun x hxd hx h1 => ?_⟩
  · refine (hheap3.freeObj hself3).congr_ext fun x hx _ => ?_
    rw [objs_freeObj] at hx
    split at hx
    · cases hx
    next he =>
      simp [he]
  · exact ((h.dropsOff.trans (hd2.drops.mono (Finset.empty_subset _))).trans
      (hd3.drops.mono (Finset.empty_subset _))).freeObj
        fun f pf hf => hheap3.pages.no_frame hself3 hf
  · have he : x ≠ o := fun he => hd (he ▸ hx)
    rw [objs_freeObj,if_neg he,hd3.dying_eq x (Finset.mem_insert_of_mem hx),
      hd2.dying_eq x (Finset.mem_insert_of_mem hx),h.others x he]
  · have he : x ≠ o := by
      rintro rfl
      rw [if_pos rfl] at h1
      omega
    rw [if_neg he] at h1
    have hxs : (s.objs x).isSome := by rwa [h.others x he]
    have h1' : 1 ≤ (ext+Pi.single sh 1 : ℕ → ℤ) x := by
      have := single_nonneg sh x
      rw [Pi.add_apply]
      omega
    rw [objs_freeObj,if_neg he]
    refine hd3.kept x (hne x he hxd) (hkept2 x (hne x he hxd) hxs h1') ?_
    split
    next hes =>
      rw [hes] at h1 ⊢
      rw [Pi.add_apply,Pi.single_eq_same]
      omega
    · exact h1'

/-- `put` with enough rounds returns, and drops one reference. -/
theorem Heap.putFuel (linked : ℕ → Bool) (n : ℕ) (h : Heap s dying ext) (hpos : ∀ x, 0 ≤ ext x)
    (ho : (s.objs o).isSome) (hd : o ∉ dying) (he : 1 ≤ ext o) (hn : o+2 ≤ n) :
    ∃ t, putFuel linked n o s = some t ∧ Dropped s t dying ext o := by
  induction n generalizing o s dying ext with
  | zero => omega
  | succ n ih =>
    obtain ⟨ob,ho⟩ := isSome_iff_exists.mp ho
    have hc := h.count o ob ho hd
    have hnres := h.pages.nres o ob ho
    have h₁ := areaRefs_nonneg s o
    have h2 := objRefs_nonneg s dying o
    simp only [Pi.add_apply,Pi.zero_apply] at hc h₁ h2
    have hr : 0 < ob.mmoRefcount := by omega
    have hdec := h.dropped_decRef ho hd
    -- inside the loop over the pages `put` only counts down
    have hput : ∀ (s' : Memory D) ob', Heap s' dying (ext+Pi.single o 1) → s'.objs o = some ob' →
        Memory.putFuel linked n o s' = some (s'.decRef o) := by
      intro s' ob' hs' ho'
      obtain ⟨m,rfl⟩ : ∃ m, n = m+1 := ⟨n - 1,by omega⟩
      refine hs'.putFuel_decRef ho' hd ?_ linked m
      rw [Pi.add_apply,Pi.single_eq_same]
      omega
    have hih : ∀ x (s : Memory D) dying ext, x < o → Heap s dying ext → (∀ y, 0 ≤ ext y) → (s.objs x).isSome →
        x ∉ dying → 1 ≤ ext x → ∃ t, Memory.putFuel linked n x s = some t ∧ Dropped s t dying ext x :=
      fun x s dying ext hx hs hp hxs hxd hxe => ih hs hp hxs hxd hxe (by omega)
    simp only [Memory.putFuel,ho,bind_some]
    split
    next hk =>
      rw [anonPut,if_pos hr]
      split
      next hlast =>
        obtain ⟨t,ht,hf⟩ := h.freePages true ho hd (.inl rfl) he hput
        exact ⟨_,by rw [ht]; rfl,hf.dropped ho hd (h.shape.base o ob ho (by simp [hk]))
          (h.last_ref ho hd he hlast)⟩
      next hlast =>
        exact ⟨_,rfl,hdec ⟨by simp only; omega,fun _ => by simp only; omega⟩⟩
    next hk =>
      rw [shadowPut,if_pos hr]
      split
      next hlast =>
        obtain ⟨t,ht,hf⟩ := h.freePages true ho hd (.inl rfl) he hput
        obtain ⟨sh,b,s2,s3,hsh,hb,hs2,hs3,hdr⟩ :=
          hf.dropped_shadow ho hd hk hpos (h.last_ref ho hd he hlast) hih
        exact ⟨_,by simp [ht,hsh,hb,hs2,hs3],hdr⟩
      next hlast =>
        exact ⟨_,rfl,hdec ⟨by simp only; omega,fun _ => by simp only; omega⟩⟩
    next hk =>
      have hbase := h.shape.base o ob ho (by simp [hk])
      rw [vput,if_pos (by omega)]
      split
      next hlast =>
        obtain ⟨t,ht,hf⟩ := h.freePages false ho hd (.inr hk) he hput
        have hl := h.last_ref ho hd he (by omega)
        obtain ⟨r,hself⟩ := hf.self
        have hr1 : r = 1 := by
          have hcount := hf.heap.count o _ hself hd
          obtain ⟨hra,hro⟩ := hf.refs ho
          simp only [hra,hro,Pi.add_apply,List.length_nil] at hcount
          omega
        subst hr1
        exact ⟨_,by simp [ht,hself,vputDrop],hf.dropped ho hd hbase hl⟩
      next hlast =>
        rw [vputDrop,ho]
        by_cases hone : ob.mmoRefcount = 1
        · -- no pages and no other reference
          have hz : ob.mmoNrespages = 0 := by omega
          have hres : s.respages o = [] := by
            have : ob.mmoRespages.length = 0 := by omega
            simpa [respages,ho] using this
          have hstart := Freeing.start h ho
          rw [hres] at hstart
          exact ⟨s.freeObj o,by simp [hone,hz],hstart.dropped ho hd hbase
            (h.last_ref ho hd he (by omega))⟩
        · exact ⟨_,if_pos (by omega),hdec ⟨by simp only; omega,fun hk' => absurd hk hk'⟩⟩

theorem Heap.put (env : Env D) (h : Heap s dying ext) (hpos : ∀ x, 0 ≤ ext x)
    (ho : (s.objs o).isSome) (hd : o ∉ dying) (he : 1 ≤ ext o) :
    ∃ t, put env o s = some t ∧ Dropped s t dying ext o :=
  h.putFuel env.queryVnode (o+2) hpos ho hd he (Nat.le_refl _)

end Memory

end Csci402.Vm
