import Csci402.Vm.Coherence

/-! The lists `mmo_vmas`. Every area is to be on the list of the object at the bottom of its
chain and on no other. Here is what the single changes of the memory do to that: which leave
the lists and the bottom objects of the areas as they are, and how an area gets onto a list
and off it. -/

namespace Csci402.Vm

namespace Memory

open Lib Function Option List

variable {D : Type} {U : UserMem} {s t u : Memory D} {ext : ℕ → ℤ} {env : Env D} {pid q lo hi n k o b : ℕ}
  {a : Vmarea} {link : ℕ × ℕ} {done rest : List Vmarea}

/-- `mmo_vmas` of an object. -/
def vmas (s : Memory D) (o : ℕ) : List (ℕ × ℕ) := (s.objs o).elim [] Mmobj.mmoVmas

/-- The object of the area that a link belongs to. -/
def areaObj (s : Memory D) (link : ℕ × ℕ) : Option ℕ := (s.findArea link.1 link.2).bind Vmarea.vmaObj

/-- The bottom object of that object. -/
def home (s : Memory D) (link : ℕ × ℕ) : Option ℕ := (s.areaObj link).bind s.mmobjBottomObj

/-- An area is on the list of its bottom object, once, and on no other list, and the lists
hold nothing else. -/
def Registered (s : Memory D) : Prop := Indexed s.vmas s.home

theorem mem_of_areaObj (h : s.areaObj link = some o) :
    ∃ a ∈ s.vmmList link.1, a.vmaId = link.2 ∧ a.vmaObj = some o := by
  obtain ⟨a,ha,ho⟩ := bind_eq_some_iff.mp h
  exact ⟨a,mem_of_find?_eq_some ha,by simpa using find?_some ha,ho⟩

theorem ListInv.areaObj_eq (h : ListInv U s pid) (ha : a ∈ s.vmmList pid) : s.areaObj (pid, a.vmaId) = a.vmaObj := by
  obtain ⟨done,rest,hl⟩ := append_of_mem ha
  rw [areaObj,findArea_eq hl h.ids,bind_some]

theorem Heap.areaObj_isSome (h : Heap s ∅ ext) (ho : s.areaObj link = some o) : (s.objs o).isSome := by
  obtain ⟨a,ha,-,hao⟩ := mem_of_areaObj ho
  exact (h.holders.area link.1 a ha o hao).2

/-! ### What does not touch the lists -/

/-- Areas have the same bottom objects and objects the same lists. -/
structure SameHomes (s t : Memory D) : Prop where
  vmas : ∀ x, t.vmas x = s.vmas x
  home : ∀ l, t.home l = s.home l

theorem SameHomes.trans (h : SameHomes s t) (h' : SameHomes t u) : SameHomes s u :=
  ⟨fun x => (h'.vmas x).trans (h.vmas x),fun l => (h'.home l).trans (h.home l)⟩

theorem Registered.same (h : Registered s) (hs : SameHomes s t) : Registered t := by
  rw [Registered,show t.vmas = s.vmas from funext hs.vmas,show t.home = s.home from funext hs.home]
  exact h

theorem home_congr (ha : t.areaObj link = s.areaObj link)
    (hb : ∀ o, s.areaObj link = some o → t.mmobjBottomObj o = s.mmobjBottomObj o) : t.home link = s.home link := by
  unfold home
  rw [ha]
  cases ho : s.areaObj link with
  | none => rfl
  | some o => exact hb o ho

/-- Areas have the same objects, and objects have the same links and lists. -/
structure SameLinks (s t : Memory D) : Prop where
  areaObj : ∀ l, t.areaObj l = s.areaObj l
  shape : ∀ x, (t.objs x).map shape = (s.objs x).map shape
  vmas : ∀ x, t.vmas x = s.vmas x

theorem SameLinks.trans (h : SameLinks s t) (h' : SameLinks t u) : SameLinks s u :=
  ⟨fun l => (h'.areaObj l).trans (h.areaObj l),fun x => (h'.shape x).trans (h.shape x),
    fun x => (h'.vmas x).trans (h.vmas x)⟩

theorem SameLinks.bottom (h : SameLinks s t) (o : ℕ) : t.mmobjBottomObj o = s.mmobjBottomObj o :=
  mmobjBottomObj_of_shape h.shape o

theorem SameLinks.homes (h : SameLinks s t) : SameHomes s t :=
  ⟨h.vmas,fun l => home_congr (h.areaObj l) fun o _ => h.bottom o⟩

theorem areaObj_of_lists (h : ∀ q, t.vmmList q = s.vmmList q) (l : ℕ × ℕ) : t.areaObj l = s.areaObj l := by
  rw [areaObj,areaObj,findArea,findArea,h]

theorem SameLinks.of_objs (hl : ∀ q, t.vmmList q = s.vmmList q) (ho : t.objs = s.objs) : SameLinks s t :=
  ⟨areaObj_of_lists hl,fun x => by rw [ho],fun x => by rw [Memory.vmas,Memory.vmas,ho]⟩

theorem vmas_modObj {f : Mmobj → Mmobj} (hf : ∀ ob, (f ob).mmoVmas = ob.mmoVmas) (x : ℕ) :
    (s.modObj o f).vmas x = s.vmas x := by
  rw [vmas,vmas,objs_modObj]
  split
  next hx =>
    subst hx
    cases s.objs x <;> simp [hf]
  · rfl

theorem SameLinks.modObj {f : Mmobj → Mmobj} (hs : ∀ ob, Memory.shape (f ob) = Memory.shape ob)
    (hv : ∀ ob, (f ob).mmoVmas = ob.mmoVmas) : SameLinks s (s.modObj o f) :=
  ⟨areaObj_of_lists fun _ => rfl,shape_modObj hs,vmas_modObj hv⟩

theorem SameLinks.ref (h : ref o s = some t) : SameLinks s t := by
  obtain ⟨ob,-,h⟩ := bind_eq_some_iff.mp h
  split at h
  · cases h
    exact .modObj (fun _ => rfl) fun _ => rfl
  · cases h

theorem Adds.sameLinks (h : Adds s t) : SameLinks s t := by
  refine ⟨areaObj_of_lists h.vmmList,h.shape,fun x => ?_⟩
  have hx := h.vmas x
  unfold Memory.vmas
  cases hs : s.objs x <;> cases ht : t.objs x <;> simp_all

theorem Uncached.sameLinks {f : ℕ} (h : Uncached s t f o) : SameLinks s t := by
  refine ⟨areaObj_of_lists h.clears.vmmList,h.shape,fun x => ?_⟩
  rw [vmas,vmas,h.objs]
  by_cases hx : x = o
  · subst hx
    cases s.objs x <;> simp
  · simp [hx]

/-! ### Areas -/

theorem findArea_modArea {f : Vmarea → Vmarea} (hf : ∀ a, (f a).vmaId = a.vmaId) (q j : ℕ) :
    (s.modArea pid k f).findArea q j =
      if q = pid ∧ j = k then (s.findArea q j).map f else s.findArea q j := by
  unfold findArea
  rw [vmmList_modArea]
  by_cases hq : q = pid
  · subst hq
    have hp : ((fun a : Vmarea => decide (a.vmaId = j)) ∘ fun a => if a.vmaId = k then f a else a) =
        fun a => decide (a.vmaId = j) := by
      funext a
      simp only [comp_apply]
      split <;> simp [hf]
    rw [if_pos rfl,find?_map,hp]
    cases ha : (s.vmmList q).find? fun a => decide (a.vmaId = j) with
    | none => simp
    | some a =>
      have hid : a.vmaId = j := by simpa using find?_some ha
      by_cases hj : j = k
      · simp [hid,hj]
      · simp [hid,hj]
  · simp [hq]

theorem areaObj_modArea {f : Vmarea → Vmarea} (hf : ∀ a, (f a).vmaId = a.vmaId ∧ (f a).vmaObj = a.vmaObj)
    (l : ℕ × ℕ) : (s.modArea pid k f).areaObj l = s.areaObj l := by
  rw [areaObj,areaObj,findArea_modArea fun a => (hf a).1]
  split
  · rw [bind_map]
    exact congrArg _ (funext fun a => (hf a).2)
  · rfl

/-- An area changes its range. -/
theorem SameLinks.modArea {f : Vmarea → Vmarea} (hf : ∀ a, (f a).vmaId = a.vmaId ∧ (f a).vmaObj = a.vmaObj) :
    SameLinks s (s.modArea pid k f) :=
  ⟨areaObj_modArea hf,fun _ => rfl,fun _ => rfl⟩

/-- An area gets an object. -/
theorem areaObj_setObj (hk : (s.findArea pid k).isSome) (l : ℕ × ℕ) :
    (s.modArea pid k fun a => { a with vmaObj := some o }).areaObj l =
      if l = (pid, k) then some o else s.areaObj l := by
  obtain ⟨a,ha⟩ := isSome_iff_exists.mp hk
  obtain ⟨q,j⟩ := l
  unfold areaObj
  rw [findArea_modArea (f := fun a => { a with vmaObj := some o }) fun _ => rfl]
  by_cases hl : q = pid ∧ j = k
  · obtain ⟨rfl,rfl⟩ := hl
    simp only [and_self,if_true,ha,map_some,bind_some]
  · have hne : (q, j) ≠ (pid, k) := fun he => hl (Prod.mk.inj he)
    rw [if_neg hl,if_neg hne]

theorem home_setObj (hk : (s.findArea pid k).isSome) (l : ℕ × ℕ) :
    (s.modArea pid k fun a => { a with vmaObj := some o }).home l =
      if l = (pid, k) then s.mmobjBottomObj o else s.home l := by
  unfold home
  rw [areaObj_setObj hk]
  split
  · rfl
  · rfl

theorem isSome_of_home (h : s.home (pid, k) = some b) : (s.findArea pid k).isSome := by
  obtain ⟨o,ho,-⟩ := bind_eq_some_iff.mp h
  exact isSome_of_isSome_bind (isSome_of_eq_some ho)

/-- The object of an area is replaced by one above the same bottom object. -/
theorem SameHomes.setObj (hk : s.home (pid, k) = some b) (ho : s.mmobjBottomObj o = some b) :
    SameHomes s (s.modArea pid k fun a => { a with vmaObj := some o }) := by
  refine ⟨fun _ => rfl,fun l => ?_⟩
  rw [home_setObj (isSome_of_home hk)]
  split
  next hl =>
    rw [ho,hl,hk]
  · rfl

/-- An area that had no object is put on the list of its bottom object. -/
theorem Registered.attach (h : Registered s) (hn : s.home link = none)
    (hv : ∀ x, t.vmas x = if x = b then s.vmas b ++ [link] else s.vmas x)
    (hh : ∀ l, t.home l = if l = link then some b else s.home l) : Registered t := by
  have hv' : t.vmas = update s.vmas b (s.vmas b ++ [link]) := by
    funext x
    rw [hv,update_apply]
  have hh' : t.home = update s.home link (some b) := by
    funext l
    rw [hh,update_apply]
  rw [Registered,hv',hh']
  exact Indexed.insert h hn b (perm_append_singleton link (s.vmas b))

theorem findArea_unlinkArea (q j : ℕ) :
    (s.unlinkArea pid k).findArea q j = if q = pid ∧ j = k then none else s.findArea q j := by
  unfold findArea
  rw [vmmList_unlinkArea]
  by_cases hq : q = pid
  · subst hq
    rw [if_pos rfl,find?_filter]
    by_cases hj : j = k
    · rw [if_pos ⟨rfl,hj⟩,find?_eq_none]
      intro a _
      simp [hj]
    · rw [if_neg fun hc => hj hc.2]
      refine congrArg (fun p => List.find? p _) (funext fun a => ?_)
      by_cases ha : a.vmaId = j
      · simp [ha,hj]
      · simp [ha]
  · simp [hq]

/-- `list_remove` of both links. -/
theorem Registered.unlinkArea (h : Registered s) (pid k : ℕ) : Registered (s.unlinkArea pid k) := by
  have hv : (s.unlinkArea pid k).vmas = fun x => (s.vmas x).filter (· ≠ (pid, k)) := by
    funext x
    change ((s.objs x).map _).elim [] Mmobj.mmoVmas = _
    unfold vmas
    cases s.objs x <;> rfl
  have hh : (s.unlinkArea pid k).home = update s.home (pid, k) none := by
    funext l
    obtain ⟨q,j⟩ := l
    rw [update_apply]
    by_cases hl : q = pid ∧ j = k
    · obtain ⟨rfl,rfl⟩ := hl
      simp [home,areaObj,findArea_unlinkArea]
    · have hne : (q, j) ≠ (pid, k) := fun he => hl (Prod.mk.inj he)
      have ha : (s.unlinkArea pid k).areaObj (q, j) = s.areaObj (q, j) := by
        rw [areaObj,areaObj,findArea_unlinkArea,if_neg hl]
      rw [if_neg hne]
      refine home_congr ha fun o _ => mmobjBottomObj_of_shape (fun x => ?_) o
      change ((s.objs x).map _).map shape = _
      cases s.objs x <;> rfl
  rw [Registered,hv,hh]
  exact Indexed.filter_ne h (pid, k)

/-! ### Objects -/

/-- References are dropped: an object that goes has no area on its list. -/
theorem Registered.drops (h : Registered s) (hd : DropsOff ∅ s t) (ht : Heap t ∅ ext) : Registered t := by
  have hobj : ∀ {x ob}, t.objs x = some ob → ∃ r, s.objs x = some { ob with mmoRefcount := r } :=
    fun {x ob} hx => hd.obj x ob (Finset.notMem_empty x) hx
  have hhome : ∀ l, t.home l = s.home l := by
    intro l
    refine (home_congr (t := s) (s := t) (areaObj_of_lists (fun q => (hd.clears.vmmList q).symm) l) fun o ho => ?_).symm
    obtain ⟨ob,hob⟩ := isSome_iff_exists.mp (ht.areaObj_isSome ho)
    obtain ⟨r,hr⟩ := hobj hob
    rw [mmobjBottomObj,mmobjBottomObj,hr,hob]
    rfl
  refine h.same ⟨fun x => ?_,hhome⟩
  unfold vmas
  cases hx : t.objs x with
  | some ob =>
    obtain ⟨r,hr⟩ := hobj hx
    rw [hr]
    rfl
  | none =>
    have hnil : s.vmas x = [] := by
      rw [eq_nil_iff_forall_not_mem]
      intro l hl
      obtain ⟨o,-,hb⟩ := bind_eq_some_iff.mp ((hhome l).trans ((Indexed.mem h).mp hl))
      obtain ⟨bob,hbob,-⟩ := ht.bottom_base hb
      rw [hx] at hbob
      cases hbob
    exact hnil.symm

/-- There is no object from `nextObj` on, and no area has one there. -/
structure Below (s : Memory D) : Prop where
  obj : ∀ x, s.nextObj ≤ x → s.objs x = none
  area : ∀ l o, s.areaObj l = some o → o < s.nextObj

theorem Heap.below (h : Heap s ∅ ext) : Below s := by
  refine ⟨fun x hx => ?_,fun l o ho => ?_⟩
  · by_contra hc
    obtain ⟨ob,hob⟩ := ne_none_iff_exists'.mp hc
    exact absurd (h.shape.obj_lt x ob hob) (Nat.not_lt.mpr hx)
  · obtain ⟨ob,hob⟩ := isSome_iff_exists.mp (h.areaObj_isSome ho)
    exact h.shape.obj_lt o ob hob

theorem Below.create (h : Below s) (ob : Mmobj) : Below (s.create ob) := by
  refine ⟨fun x hx => ?_,fun l o ho => Nat.lt_succ_of_lt (h.area l o ho)⟩
  have hlt : s.nextObj < x := hx
  rw [objs_create,if_neg (Nat.ne_of_gt hlt)]
  exact h.obj x (Nat.le_of_lt hlt)

/-- A new object has an empty list. -/
theorem SameHomes.create (h : Below s) {ob : Mmobj} (hv : ob.mmoVmas = []) : SameHomes s (s.create ob) := by
  refine ⟨fun x => ?_,fun l => home_congr rfl fun o ho => ?_⟩
  · rw [Memory.vmas,Memory.vmas,objs_create]
    split
    next hx =>
      rw [hx,h.obj _ (Nat.le_refl _)]
      exact hv
    · rfl
  · rw [mmobjBottomObj,mmobjBottomObj,objs_create,if_neg (Nat.ne_of_lt (h.area l o ho))]

theorem SameHomes.newShadow (h : Below s) (o b : ℕ) : SameHomes s (s.newShadow o b) := by
  rw [newShadow_eq_create]
  exact .create h rfl

theorem bottom_newShadow (s : Memory D) (o b : ℕ) : (s.newShadow o b).mmobjBottomObj s.nextObj = some b := by
  rw [newShadow_eq_create,mmobjBottomObj,objs_create,if_pos rfl]
  rfl

end Memory

end Csci402.Vm
