import Csci402.Vm.Chain
import Csci402.Vm.Fork
import Csci402.Vm.MapHeap

/-! The objects of private areas. A private area has the shadow object at the top of its
chain for itself: no other process maps it and nothing shadows it, so a frame in it is seen
through that area only. Mapping and forking give every private area a new object, and the
other operations make no shadow objects. -/

namespace Csci402.Vm

open Lib Option

theorem Vmarea.isShared_iff {a : Vmarea} (h : a.vmaFlags.shared ∨ a.vmaFlags.priv) :
    a.isShared = false ↔ a.vmaFlags.priv = true := by
  unfold Vmarea.isShared
  cases hs : a.vmaFlags.shared <;> cases hp : a.vmaFlags.priv <;> simp_all

/-- Two areas that agree on one page agree on all. -/
theorem Vmarea.target_eq {a b : Vmarea} {v : ℕ} (h : b.target v = a.target v) (w : ℕ) : b.target w = a.target w := by
  simp only [Vmarea.target,Prod.mk.injEq] at h ⊢
  obtain ⟨ho,hp,hprot,hflags⟩ := h
  refine ⟨ho,?_,hprot,hflags⟩
  unfold Vmarea.page u32 at hp ⊢
  omega

namespace Memory

variable {D : Type} {U : UserMem} {s t : Memory D} {ext ext' : ℕ → ℤ} {pid q lo n o x : ℕ}
  {prot : Prot} {flags : MapFlags} {off : ℕ} {file : Option ℕ} {a b : Vmarea} {ob : Mmobj}

/-- The areas of `t` are areas of `s`, parts of such areas, or such areas made longer. -/
def SameTargets (s t : Memory D) : Prop :=
  ∀ q, ∀ b ∈ t.vmmList q, ∃ a ∈ s.vmmList q, ∀ v, b.target v = a.target v

/-- What the list means is enough to know where its areas come from. -/
theorem target_of_trans (h : AreasOk U (t.vmmList q))
    (htr : ∀ v x, trans (t.vmmList q) v = some x → ∃ a ∈ s.vmmList q, a.target v = x)
    (hb : b ∈ t.vmmList q) : ∃ a ∈ s.vmmList q, ∀ v, b.target v = a.target v := by
  have hne := h.spaced.nonempty b hb
  obtain ⟨a,ha,he⟩ := htr b.vmaStart _
    ((trans_eq_some h).mpr ⟨b,hb,Nat.le_refl _,hne,rfl⟩)
  exact ⟨a,ha,Vmarea.target_eq he.symm⟩

theorem isShared_of_target {v : ℕ} (h : b.target v = a.target v) : b.isShared = a.isShared := by
  have hf : b.vmaFlags = a.vmaFlags := congrArg (fun x => x.2.2.2) h
  rw [Vmarea.isShared,Vmarea.isShared,hf]

theorem obj_of_target {v : ℕ} (h : b.target v = a.target v) : b.vmaObj = a.vmaObj := congrArg Prod.fst h

theorem page_of_target {v : ℕ} (h : b.target v = a.target v) : b.page v = a.page v :=
  congrArg (fun x => x.2.1) h

structure Owned (s : Memory D) : Prop where
  kind : ∀ pid, ∀ a ∈ s.vmmList pid, ∀ o ob, a.vmaObj = some o → s.objs o = some ob →
    (ob.mmoOps = .shadow ↔ a.isShared = false)
  sole : ∀ pid, ∀ a ∈ s.vmmList pid, a.isShared = false → ∀ o, a.vmaObj = some o →
    ∀ q, ∀ b ∈ s.vmmList q, b.vmaObj = some o → q = pid ∧ ∀ v, b.page v = a.page v
  top : ∀ pid, ∀ a ∈ s.vmmList pid, a.isShared = false → ∀ o, a.vmaObj = some o →
    ∀ x, s.under x ≠ some o

theorem Heap.area_lt (h : Heap s ∅ ext) (ha : a ∈ s.vmmList q) (ho : a.vmaObj = some o) : o < s.nextObj := by
  obtain ⟨ob,hob⟩ := isSome_iff_exists.mp (h.holders.area q a ha o ho).2
  exact h.shape.obj_lt o ob hob

/-! ### Operations that make no shadow object -/

/-- Objects keep their kind and what they shadow; new ones shadow nothing. -/
def NoShadow (s t : Memory D) : Prop :=
  ∀ x ob, t.objs x = some ob → (∃ ob0, s.objs x = some ob0 ∧ shape ob = shape ob0) ∨
    s.nextObj ≤ x ∧ ob.mmoShadowed = none

theorem Owned.evolve (h : Owned s) (hh : Heap s ∅ ext) (ht : SameTargets s t) (hn : NoShadow s t) : Owned t where
  kind pid b hb o ob hbo hob := by
    obtain ⟨a,ha,he⟩ := ht pid b hb
    have hao : a.vmaObj = some o := (obj_of_target (he 0)).symm.trans hbo
    rw [isShared_of_target (he 0)]
    rcases hn o ob hob with ⟨ob0,h0,hs⟩ | ⟨hge,-⟩
    · rw [show ob.mmoOps = ob0.mmoOps from congrArg Prod.fst hs]
      exact h.kind pid a ha o ob0 hao h0
    · exact absurd (hh.area_lt ha hao) (Nat.not_lt.mpr hge)
  sole pid b hb hpriv o hbo q c hc hco := by
    obtain ⟨a,ha,he⟩ := ht pid b hb
    obtain ⟨d,hd,he'⟩ := ht q c hc
    obtain ⟨hq,hp⟩ := h.sole pid a ha ((isShared_of_target (he 0)).symm.trans hpriv) o
      ((obj_of_target (he 0)).symm.trans hbo) q d hd ((obj_of_target (he' 0)).symm.trans hco)
    refine ⟨hq,fun v => ?_⟩
    rw [page_of_target (he v),page_of_target (he' v),hp]
  top pid b hb hpriv o hbo x hx := by
    obtain ⟨a,ha,he⟩ := ht pid b hb
    obtain ⟨ob,hob,hsh⟩ := bind_eq_some_iff.mp hx
    rcases hn x ob hob with ⟨ob0,h0,hs⟩ | ⟨-,hnone⟩
    · refine h.top pid a ha ((isShared_of_target (he 0)).symm.trans hpriv) o
        ((obj_of_target (he 0)).symm.trans hbo) x ?_
      simp only [shape,Prod.mk.injEq] at hs
      rw [under,h0,bind_some,← hs.2.1,hsh]
    · rw [hnone] at hsh
      cases hsh

theorem Shrinks.noShadow (h : Shrinks s t) (ht : Heap t ∅ ext') : NoShadow s t := fun x ob hob =>
  .inl (h.obj x ob (h.same ▸ ht.shape.obj_lt x ob hob) hob)

/-! ### `vmmap_map` -/

theorem Mapped.area_cases (h : Mapped U pid lo n prot flags off s t o) (ha : a ∈ t.vmmList q) :
    (∃ b ∈ s.vmmList q, ∀ v, a.target v = b.target v) ∨
      q = pid ∧ a.vmaFlags = flags ∧ a.vmaObj = some o ∧ ∀ v, a.page v = u32 (u32 off / pageSize+v - lo) := by
  by_cases hq : q = pid
  · subst hq
    rcases h.area a ha with ⟨b,hb,hp⟩ | ⟨hstart,-,hoff,-,hfl,ho⟩
    · exact .inl ⟨b,hb,hp.target⟩
    · refine .inr ⟨rfl,hfl,ho,fun v => ?_⟩
      rw [Vmarea.page,hstart,hoff]
      rfl
  · rw [h.edits.vmmList q hq] at ha
    exact .inl ⟨a,ha,fun _ => rfl⟩

theorem Owned.mapped (h : Owned s) (hh : Heap s ∅ ext) (ht : Heap t ∅ ext') (hk : Keeps s t)
    (hm : Mapped U pid lo n prot flags off s t o) (htop : NewTop file flags s t o)
    (hfl : flags.shared ∨ flags.priv) : Owned t := by
  -- the new area is private exactly when it has a new shadow object
  have hnew : ∀ {a : Vmarea}, a.vmaFlags = flags → (a.isShared = false ↔ flags.priv = true) := by
    intro a hf
    rw [Vmarea.isShared_iff (by rw [hf]; exact hfl),hf]
  have hold : ∀ {q a o'}, a ∈ s.vmmList q → a.vmaObj = some o' → o' < s.nextObj := fun ha ho =>
    hh.area_lt ha ho
  have hkind : ∀ q, ∀ a ∈ t.vmmList q, ∀ o' ob, a.vmaObj = some o' → t.objs o' = some ob →
      (ob.mmoOps = .shadow ↔ a.isShared = false) := by
    intro q a ha o' ob hao hob
    rcases hm.area_cases ha with ⟨b,hb,he⟩ | ⟨-,hf,ho,-⟩
    · have hbo : b.vmaObj = some o' := (obj_of_target (he 0)).symm.trans hao
      obtain ⟨ob0,h0,hs⟩ := hk.obj o' ob (hold hb hbo) hob
      rw [show ob.mmoOps = ob0.mmoOps from congrArg Prod.fst hs,isShared_of_target (he 0)]
      exact h.kind q b hb o' ob0 hbo h0
    · cases ho.symm.trans hao
      obtain ⟨tob,htob,hiff⟩ := htop.kind
      cases htob.symm.trans hob
      rw [hiff,hnew hf]
  refine ⟨hkind,fun q a ha hpriv x hax r b hb hbx => ?_,fun q a ha hpriv x hax y hy => ?_⟩
  · rcases hm.area_cases ha with ⟨a0,ha0,hea⟩ | ⟨hq,hf,ho,hpage⟩
    · have hax0 := (obj_of_target (hea 0)).symm.trans hax
      rcases hm.area_cases hb with ⟨b0,hb0,heb⟩ | ⟨hr,hf',ho',-⟩
      · obtain ⟨hqr,hp⟩ := h.sole q a0 ha0 ((isShared_of_target (hea 0)).symm.trans hpriv) x hax0 r b0 hb0
          ((obj_of_target (heb 0)).symm.trans hbx)
        refine ⟨hqr,fun v => ?_⟩
        rw [page_of_target (hea v),page_of_target (heb v),hp]
      · -- the new area would have an old shadow object
        cases ho'.symm.trans hbx
        obtain ⟨tob,htob,hiff⟩ := htop.kind
        have hshadow := (hkind q a ha o tob hax htob).mpr hpriv
        exact absurd (htop.fresh (.inl (hiff.mp hshadow))) (Nat.not_le.mpr (hold ha0 hax0))
    · cases ho.symm.trans hax
      have hfresh := htop.fresh (.inl ((hnew hf).mp hpriv))
      rcases hm.area_cases hb with ⟨b0,hb0,heb⟩ | ⟨hr,-,-,hpage'⟩
      · exact absurd hfresh (Nat.not_le.mpr (hold hb0 ((obj_of_target (heb 0)).symm.trans hbx)))
      · refine ⟨hr.trans hq.symm,fun v => ?_⟩
        rw [hpage,hpage']
  · have hdesc := ht.shape.descends y x hy
    obtain ⟨yob,hyo,hsh⟩ := bind_eq_some_iff.mp hy
    have hyt := ht.shape.obj_lt y yob hyo
    rcases hm.area_cases ha with ⟨a0,ha0,hea⟩ | ⟨-,hf,ho,-⟩
    · by_cases hys : y < s.nextObj
      · refine h.top q a0 ha0 ((isShared_of_target (hea 0)).symm.trans hpriv) x
          ((obj_of_target (hea 0)).symm.trans hax) y ?_
        rw [hk.under hys (by simp [hyo]),hy]
      · obtain ⟨xob,hxo,hne⟩ := htop.below y yob x (Nat.not_lt.mp hys) hyo hsh
        exact hne ((hkind q a ha x xob hax hxo).mpr hpriv)
    · cases ho.symm.trans hax
      have hlast := htop.last ((hnew hf).mp hpriv)
      omega

/-! ### `do_fork` -/

/-- An area of a process after a fork: the area it was, or one with a new object. -/
theorem Forked.area_cases (h : Forked U pid s t) (ha : a ∈ t.vmmList q) :
    (∃ r, ∃ b ∈ s.vmmList r, (r = q ∨ r = pid ∧ a.isShared = true) ∧ (a.isShared = true ∨ q ≠ pid) ∧
        ∀ v, a.target v = b.target v) ∨
      ∃ side, side < 2 ∧ (q = if side = 0 then pid else s.nextPid) ∧ a.isShared = false ∧
        ∃ p ∈ forkedAreas side s.nextObj (s.vmmList pid), p.isShared = false ∧ ∀ v, a.target v = p.target v := by
  have hside : ∀ side, side < 2 → (q = if side = 0 then pid else s.nextPid) →
      ∀ p ∈ forkedAreas side s.nextObj (s.vmmList pid), (∀ v, a.target v = p.target v) →
      (∃ r, ∃ b ∈ s.vmmList r, (r = q ∨ r = pid ∧ a.isShared = true) ∧ (a.isShared = true ∨ q ≠ pid) ∧
          ∀ v, a.target v = b.target v) ∨
        ∃ side, side < 2 ∧ (q = if side = 0 then pid else s.nextPid) ∧ a.isShared = false ∧
          ∃ p ∈ forkedAreas side s.nextObj (s.vmmList pid), p.isShared = false ∧ ∀ v, a.target v = p.target v := by
    intro side hs hq p hp he
    have hsh := isShared_of_target (he 0)
    cases hpsh : p.isShared with
    | false => exact .inr ⟨side,hs,hq,hsh.trans hpsh,p,hp,hpsh,he⟩
    | true =>
      obtain ⟨b,hb,-,hf,hsame,-⟩ := mem_forkedAreas hp
      have hbsh : b.isShared = true := by rw [← hpsh,Vmarea.isShared,Vmarea.isShared,hf]
      rw [hsame hbsh] at he
      exact .inl ⟨pid,b,hb,.inr ⟨rfl,hsh.trans hpsh⟩,.inl (hsh.trans hpsh),he⟩
  by_cases hqp : q = pid
  · subst hqp
    rw [h.parent] at ha
    exact hside 0 (by omega) rfl a ha fun _ => rfl
  · by_cases hqc : q = s.nextPid
    · subst hqc
      rw [h.child] at ha
      obtain ⟨p,hp,i,-,-,rfl⟩ := mem_renumber ha
      exact hside 1 (by omega) rfl p hp fun _ => rfl
    · rw [h.other q hqp hqc] at ha
      exact .inl ⟨q,a,ha,.inl rfl,.inr hqp,fun _ => rfl⟩

theorem Owned.forked (h : Owned s) (hh : Heap s ∅ ext) (ht : Heap t ∅ ext') (hf : Forked U pid s t) : Owned t := by
  have hk := hf.grows.keeps
  -- the objects of the new areas are new
  have hnew : ∀ {side p o'}, p ∈ forkedAreas side s.nextObj (s.vmmList pid) → p.isShared = false →
      p.vmaObj = some o' → ∃ j, o' = s.nextObj+2*j+side := by
    intro side p o' hp hps hpo
    obtain ⟨j,hj,-⟩ := forkedAreas_obj hp hps
    exact ⟨j,some.inj (hpo.symm.trans hj)⟩
  -- what a new object shadows is the object of an area of the parent
  have hbelow : ∀ y x, s.nextObj ≤ y → t.under y = some x → ∃ a0 ∈ s.vmmList pid, a0.vmaObj = some x := by
    intro y x hy hyx
    obtain ⟨yob,hyo,hsh⟩ := bind_eq_some_iff.mp hyx
    have hlt := ht.shape.obj_lt y yob hyo
    rw [hf.nextObj] at hlt
    obtain ⟨side,hs,p,hp,hps,hpy⟩ := forkedAreas_surj hy hlt
    obtain ⟨a0,ha0,-,y',b,hpy',hshape⟩ := hf.tops side hs p hp hps
    cases hpy.symm.trans hpy'
    rw [hyo] at hshape
    simp only [shape,map_some,some.injEq,Prod.mk.injEq] at hshape
    exact ⟨a0,ha0,hshape.2.1.symm.trans hsh⟩
  refine ⟨fun q a ha x ob hax hob => ?_,fun q a ha hpriv x hax r b hb hbx => ?_,
    fun q a ha hpriv x hax y hy => ?_⟩
  · rcases hf.area_cases ha with ⟨r,a0,ha0,-,-,he⟩ | ⟨side,hs,-,hsh,p,hp,hps,he⟩
    · have hax0 : a0.vmaObj = some x := (obj_of_target (he 0)).symm.trans hax
      obtain ⟨ob0,h0,hshape⟩ := hk.obj x ob (hh.area_lt ha0 hax0) hob
      rw [show ob.mmoOps = ob0.mmoOps from congrArg Prod.fst hshape,isShared_of_target (he 0)]
      exact h.kind r a0 ha0 x ob0 hax0 h0
    · obtain ⟨a0,-,-,y,b,hpy,hshape⟩ := hf.tops side hs p hp hps
      cases ((obj_of_target (he 0)).symm.trans hax).symm.trans hpy
      rw [hob] at hshape
      simp only [shape,map_some,some.injEq,Prod.mk.injEq] at hshape
      simp [hshape.1,hsh]
  · rcases hf.area_cases ha with ⟨r1,a0,ha0,hr1,hq,hea⟩ | ⟨side,hs,hq,-,p,hp,hps,hea⟩
    · have hax0 := (obj_of_target (hea 0)).symm.trans hax
      have hqp : q ≠ pid := hq.resolve_left (by simp [hpriv])
      obtain rfl : r1 = q := hr1.resolve_right (by simp [hpriv])
      rcases hf.area_cases hb with ⟨r2,b0,hb0,hr2,-,heb⟩ | ⟨side,-,-,-,p,hp,hps,heb⟩
      · obtain ⟨hrr,hp⟩ := h.sole r1 a0 ha0 ((isShared_of_target (hea 0)).symm.trans hpriv) x hax0 r2 b0 hb0
          ((obj_of_target (heb 0)).symm.trans hbx)
        refine ⟨?_,fun v => ?_⟩
        · rcases hr2 with rfl | ⟨rfl,-⟩
          · exact hrr
          · exact absurd hrr.symm hqp
        · rw [page_of_target (hea v),page_of_target (heb v),hp]
      · obtain ⟨j,hj⟩ := hnew hp hps ((obj_of_target (heb 0)).symm.trans hbx)
        have := hh.area_lt ha0 hax0
        omega
    · have hpx := (obj_of_target (hea 0)).symm.trans hax
      obtain ⟨j,hj⟩ := hnew hp hps hpx
      rcases hf.area_cases hb with ⟨r2,b0,hb0,-,-,heb⟩ | ⟨side',hs',hr,-,p',hp',hps',heb⟩
      · have := hh.area_lt hb0 ((obj_of_target (heb 0)).symm.trans hbx)
        omega
      · have hpx' := (obj_of_target (heb 0)).symm.trans hbx
        obtain ⟨j',hj'⟩ := hnew hp' hps' hpx'
        -- the side is the parity of the number of the object
        obtain rfl : side = side' := by omega
        obtain rfl := forkedAreas_unique hp hp' hps hps' (hpx.trans hpx'.symm)
        refine ⟨hr.trans hq.symm,fun v => ?_⟩
        rw [page_of_target (hea v),page_of_target (heb v)]
  · rcases hf.area_cases ha with ⟨r1,a0,ha0,hr1,hq,hea⟩ | ⟨side,hs,-,-,p,hp,hps,hea⟩
    · have hax0 := (obj_of_target (hea 0)).symm.trans hax
      have hpriv0 := (isShared_of_target (hea 0)).symm.trans hpriv
      have hqp : q ≠ pid := hq.resolve_left (by simp [hpriv])
      obtain rfl : r1 = q := hr1.resolve_right (by simp [hpriv])
      by_cases hys : y < s.nextObj
      · refine h.top r1 a0 ha0 hpriv0 x hax0 y ?_
        obtain ⟨yob,hyo,-⟩ := bind_eq_some_iff.mp hy
        rw [hk.under hys (by simp [hyo]),hy]
      · obtain ⟨b0,hb0,hbx⟩ := hbelow y x (Nat.not_lt.mp hys) hy
        exact hqp (h.sole r1 a0 ha0 hpriv0 x hax0 pid b0 hb0 hbx).1.symm
    · obtain ⟨j,hj⟩ := hnew hp hps ((obj_of_target (hea 0)).symm.trans hax)
      have hdesc := ht.shape.descends y x hy
      obtain ⟨b0,hb0,hbx⟩ := hbelow y x (by omega) hy
      have := hh.area_lt hb0 hbx
      omega

end Memory

end Csci402.Vm
