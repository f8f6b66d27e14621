import Csci402.Lib.Indexed
import Csci402.Lib.Tally
import Csci402.Vm.Access

/-! The memory objects and their reference counts. The invariant allows for references
that are counted but held by nobody in the state, as happens inside a function
(`ext`), and for objects that are being torn down, whose references no longer count
(`dying`). Every update of the state is then a lemma that says how `ext` changes. -/

namespace Csci402.Vm

namespace Memory

open Lib Option

variable {D : Type} {s t u : Memory D} {dying : Finset ℕ} {ext : ℕ → ℤ} {o : ℕ} {ob : Mmobj}

/-- The references that an object holds to others. -/
def links (ob : Option Mmobj) : ℕ → ℤ :=
  ob.elim 0 fun ob => tally ob.mmoShadowed+tally ob.mmoBottomObj

/-- The references of the objects that are not being torn down. -/
def objRefs (s : Memory D) (dying : Finset ℕ) : ℕ → ℤ :=
  ∑ i ∈ Finset.range s.nextObj, if i ∈ dying then 0 else links (s.objs i)

/-- The references of all areas. -/
def areaRefs (s : Memory D) : ℕ → ℤ :=
  ∑ pid ∈ Finset.range s.nextPid, tallyList Vmarea.vmaObj (s.vmmList pid)

/-- A shadow object `o` over `sh`, at the end of whose chain is `b`. -/
structure Linked (s : Memory D) (dying : Finset ℕ) (o : ℕ) (ob : Mmobj) (sh b : ℕ) : Prop where
  shadowed : ob.mmoShadowed = some sh
  bottom : ob.mmoBottomObj = some b
  shadowed_lt : sh < o
  bottom_lt : b < o
  chain : s.mmobjBottomObj sh = some b
  base : ∃ bob, s.objs b = some bob ∧ bob.mmoOps ≠ .shadow
  shadowed_alive : sh ∉ dying
  bottom_alive : b ∉ dying

/-- What kind of object it is and what it refers to. -/
def shape (ob : Mmobj) : ObjKind × Option ℕ × Option ℕ :=
  (ob.mmoOps, ob.mmoShadowed, ob.mmoBottomObj)

structure Shape (s : Memory D) (dying : Finset ℕ) : Prop where
  obj_lt : ∀ o ob, s.objs o = some ob → o < s.nextObj
  base : ∀ o ob, s.objs o = some ob → ob.mmoOps ≠ .shadow →
    ob.mmoShadowed = none ∧ ob.mmoBottomObj = none
  link : ∀ o ob, s.objs o = some ob → o ∉ dying → ob.mmoOps = .shadow →
    ∃ sh b, Linked s dying o ob sh b

/-- Every frame is a resident page of its object, and the only one with its number. -/
structure Pages (s : Memory D) : Prop where
  resident : Indexed (fun o => s.respages o) fun f => (s.frames f).map Pframe.pfObj
  nres : ∀ o ob, s.objs o = some ob → ob.mmoNrespages = ob.mmoRespages.length
  inj : ∀ f g pf pg, s.frames f = some pf → s.frames g = some pg → pf.pfObj = pg.pfObj →
    pf.pfPagenum = pg.pfPagenum → f = g
  frame_lt : ∀ f pf, s.frames f = some pf → f < s.nextFrame
  pin : ∀ f pf ob, s.frames f = some pf → s.objs pf.pfObj = some ob →
    pf.pfPincount ≤ if ob.mmoOps = .vnode then 0 else 1

/-- The areas on a list of an object exist, and so do the objects of areas. -/
structure Holders (s : Memory D) (dying : Finset ℕ) : Prop where
  vmas : ∀ o ob, s.objs o = some ob → ∀ link ∈ ob.mmoVmas, ∃ a ∈ s.vmmList link.1, a.vmaId = link.2
  area : ∀ pid, ∀ a ∈ s.vmmList pid, ∀ o, a.vmaObj = some o → o ∉ dying ∧ (s.objs o).isSome
  pid_lt : ∀ pid, s.live pid → pid < s.nextPid

/-- The count of an object is that of its pages and of the references to it. -/
def Counted (s : Memory D) (dying : Finset ℕ) (ext : ℕ → ℤ) : Prop :=
  ∀ o ob, s.objs o = some ob → o ∉ dying →
    ob.mmoRefcount = ob.mmoNrespages+(s.areaRefs+s.objRefs dying+ext) o

/-- An object that is there is in use. The object of a file may be kept for its pages. -/
def InUse (ob : Mmobj) : Prop :=
  0 < ob.mmoRefcount ∧ (ob.mmoOps ≠ .vnode → ob.mmoNrespages < ob.mmoRefcount)

structure Heap (s : Memory D) (dying : Finset ℕ) (ext : ℕ → ℤ) : Prop where
  shape : Shape s dying
  pages : Pages s
  holders : Holders s dying
  count : Counted s dying ext
  used : ∀ o ob, s.objs o = some ob → o ∉ dying → InUse ob

/-! ### References -/

theorem links_nonneg (ob : Option Mmobj) : 0 ≤ links ob := by
  cases ob with
  | none => exact le_refl _
  | some ob => exact fun x => add_nonneg (tally_nonneg _ x) (tally_nonneg _ x)

theorem objRefs_nonneg (s : Memory D) (dying : Finset ℕ) : 0 ≤ s.objRefs dying :=
  sum_range_nonneg fun i => by
    split
    · exact le_refl _
    · exact links_nonneg _

theorem areaRefs_nonneg (s : Memory D) : 0 ≤ s.areaRefs :=
  sum_range_nonneg fun _ => tallyList_nonneg _ _

/-- An object that nothing refers to is in no link of a live object. -/
theorem Shape.link_ne (h : Shape s dying) (hr : s.objRefs dying o = 0) {i : ℕ} {iob : Mmobj}
    (hi : s.objs i = some iob) (hd : i ∉ dying) : iob.mmoShadowed ≠ some o ∧ iob.mmoBottomObj ≠ some o := by
  have hle := le_sum_range (f := fun i => if i ∈ dying then 0 else links (s.objs i))
    (fun i => by split; exacts [le_refl _,links_nonneg _]) (h.obj_lt i iob hi) o
  have h1 := tally_nonneg iob.mmoShadowed o
  have h2 := tally_nonneg iob.mmoBottomObj o
  change _ ≤ s.objRefs dying o at hle
  have hsum : tally iob.mmoShadowed o+tally iob.mmoBottomObj o ≤ 0 := by
    simpa only [if_neg hd,hi,links,elim_some,Pi.add_apply,hr] using hle
  simp only [Pi.zero_apply,tally_apply] at h1 h2 hsum
  constructor
  · intro he
    rw [if_pos he] at hsum
    omega
  · intro he
    rw [if_pos he] at hsum
    omega

theorem Holders.area_ne (h : Holders s dying) (hr : s.areaRefs o = 0) {pid : ℕ} {a : Vmarea}
    (ha : a ∈ s.vmmList pid) : a.vmaObj ≠ some o := by
  intro he
  have hle := le_sum_range (f := fun pid => tallyList Vmarea.vmaObj (s.vmmList pid))
    (fun _ => tallyList_nonneg _ _) (h.pid_lt pid (live_of_mem ha)) o
  have hpos := tallyList_pos ha he
  change _ ≤ s.areaRefs o at hle
  omega

theorem objRefs_congr (hn : t.nextObj = s.nextObj)
    (h : ∀ i, i ∉ dying → links (t.objs i) = links (s.objs i)) : t.objRefs dying = s.objRefs dying := by
  unfold objRefs
  rw [hn]
  refine Finset.sum_congr rfl fun i _ => ?_
  split
  · rfl
  next hi =>
    exact h i hi

theorem areaRefs_congr (hn : t.nextPid = s.nextPid) (h : ∀ pid, t.vmmList pid = s.vmmList pid) :
    t.areaRefs = s.areaRefs := by
  unfold areaRefs
  rw [hn]
  exact Finset.sum_congr rfl fun pid _ => by rw [h pid]

/-- The references of one more object no longer count. -/
theorem objRefs_insert (hlt : o < s.nextObj) (hd : o ∉ dying) :
    s.objRefs (insert o dying) = s.objRefs dying - links (s.objs o) := by
  unfold objRefs
  rw [sum_range_of_eq (f := fun i => if i ∈ dying then 0 else links (s.objs i)) hlt fun i hi => by
    simp [hi]]
  simp [hd,sub_eq_add_neg]

theorem objRefs_freeObj : (s.freeObj o).objRefs dying = s.objRefs (insert o dying) := by
  unfold objRefs freeObj
  refine Finset.sum_congr rfl fun i _ => ?_
  by_cases hi : i = o
  · subst hi
    simp [links]
  · simp [hi]

/-! ### Updates that a part of the invariant does not see -/

theorem links_eq_of_shape {ob ob' : Option Mmobj} (h : ob'.map shape = ob.map shape) :
    links ob' = links ob := by
  cases ob <;> cases ob' <;> simp_all [links,shape]

theorem mmobjBottomObj_of_shape (h : ∀ x, (t.objs x).map shape = (s.objs x).map shape)
    (o : ℕ) : t.mmobjBottomObj o = s.mmobjBottomObj o := by
  have ho := h o
  unfold mmobjBottomObj
  cases hs : s.objs o <;> cases ht : t.objs o <;> simp_all [shape]

/-- The other half of the shape being the same. -/
theorem exists_of_shape (h : ∀ x, (t.objs x).map shape = (s.objs x).map shape)
    (ho : t.objs o = some ob) : ∃ ob0, s.objs o = some ob0 ∧ ob.mmoOps = ob0.mmoOps ∧
      ob.mmoShadowed = ob0.mmoShadowed ∧ ob.mmoBottomObj = ob0.mmoBottomObj := by
  have hx := h o
  rw [ho,map_some] at hx
  obtain ⟨ob0,hs,he⟩ := map_eq_some_iff.mp hx.symm
  simp only [shape,Prod.mk.injEq] at he
  exact ⟨ob0,hs,he.1.symm,he.2.1.symm,he.2.2.symm⟩

theorem Shape.congr (h : Shape s dying) (hs : ∀ x, (t.objs x).map shape = (s.objs x).map shape)
    (hn : t.nextObj = s.nextObj) : Shape t dying where
  obj_lt o ob ho := by
    obtain ⟨ob0,ho,-⟩ := exists_of_shape hs ho
    rw [hn]
    exact h.obj_lt o ob0 ho
  base o ob ho hk := by
    obtain ⟨ob0,ho,he⟩ := exists_of_shape hs ho
    rw [he.2.1,he.2.2]
    exact h.base o ob0 ho (by rwa [← he.1])
  link o ob ho hd hk := by
    obtain ⟨ob0,ho,he⟩ := exists_of_shape hs ho
    obtain ⟨sh,b,hl⟩ := h.link o ob0 ho hd (by rwa [← he.1])
    refine ⟨sh,b,by rw [he.2.1]; exact hl.shadowed,by rw [he.2.2]; exact hl.bottom,hl.shadowed_lt,
      hl.bottom_lt,by rw [mmobjBottomObj_of_shape hs]; exact hl.chain,?_,hl.shadowed_alive,
      hl.bottom_alive⟩
    obtain ⟨bob,hb,hbk⟩ := hl.base
    have hx := hs b
    rw [hb,map_some] at hx
    obtain ⟨bob',hb',he'⟩ := map_eq_some_iff.mp hx
    simp only [shape,Prod.mk.injEq] at he'
    exact ⟨bob',hb',by rwa [he'.1]⟩

theorem isSome_of_shape (h : ∀ x, (t.objs x).map shape = (s.objs x).map shape) (o : ℕ) :
    (t.objs o).isSome = (s.objs o).isSome := by
  rw [← isSome_map (f := shape),h,isSome_map]

theorem Holders.congr (h : Holders s dying) (hc : Clears s t)
    (hs : ∀ x, (t.objs x).map shape = (s.objs x).map shape)
    (hv : ∀ o ob, t.objs o = some ob → ∀ link ∈ ob.mmoVmas, ∃ a ∈ s.vmmList link.1, a.vmaId = link.2) :
    Holders t dying where
  vmas o ob ho link hl := by
    rw [hc.vmmList]
    exact hv o ob ho link hl
  area pid a ha o hao := by
    rw [hc.vmmList] at ha
    rw [isSome_of_shape hs]
    exact h.area pid a ha o hao
  pid_lt pid hp := by
    rw [hc.nextPid]
    exact h.pid_lt pid ((hc.live pid).mp hp)

/-- The references are the same, and a count has changed by as much as `ext` has. -/
theorem Counted.congr {ext' : ℕ → ℤ} (h : Counted s dying ext) (hc : Clears s t)
    (hs : ∀ x, (t.objs x).map shape = (s.objs x).map shape) (hn : t.nextObj = s.nextObj)
    (hd : ∀ o ob, t.objs o = some ob → o ∉ dying → ∃ ob0, s.objs o = some ob0 ∧
      ob.mmoRefcount - ob.mmoNrespages = ob0.mmoRefcount - ob0.mmoNrespages+(ext' o - ext o)) :
    Counted t dying ext' := by
  intro o ob ho hod
  obtain ⟨ob0,ho0,he⟩ := hd o ob ho hod
  have hc0 := h o ob0 ho0 hod
  rw [areaRefs_congr hc.nextPid hc.vmmList,objRefs_congr hn fun i _ => links_eq_of_shape (hs i)]
  simp only [Pi.add_apply] at hc0 ⊢
  omega

theorem Heap.congr_ext {ext' : ℕ → ℤ} (h : Heap s dying ext)
    (he : ∀ o, (s.objs o).isSome → o ∉ dying → ext' o = ext o) : Heap s dying ext' where
  __ := h
  count := h.count.congr (Clears.refl s) (fun _ => rfl) rfl fun o ob ho hd =>
    ⟨ob,ho,by rw [he o (by simp [ho]) hd]; omega⟩

/-- Objects and frames are the same. -/
structure SameHeap (s t : Memory D) : Prop where
  objs : t.objs = s.objs
  frames : t.frames = s.frames
  nextObj : t.nextObj = s.nextObj
  nextFrame : t.nextFrame = s.nextFrame
  disk : t.disk = s.disk
  held : t.held = s.held

theorem SameHeap.refl (s : Memory D) : SameHeap s s := ⟨rfl,rfl,rfl,rfl,rfl,rfl⟩

theorem SameHeap.trans (h : SameHeap s t) (h' : SameHeap t u) : SameHeap s u :=
  ⟨h'.objs.trans h.objs,h'.frames.trans h.frames,h'.nextObj.trans h.nextObj,
    h'.nextFrame.trans h.nextFrame,h'.disk.trans h.disk,h'.held.trans h.held⟩

theorem Pages.congr (h : Pages s) (hs : SameHeap s t) : Pages t := by
  obtain ⟨h1,h2,h3,h4,h5⟩ := h
  refine ⟨?_,by rwa [hs.objs],by rwa [hs.frames],by rwa [hs.frames,hs.nextFrame],
    by rwa [hs.frames,hs.objs]⟩
  have hr : ∀ o, t.respages o = s.respages o := fun o => by rw [respages,respages,hs.objs]
  simpa only [hr,hs.frames] using h1

theorem Heap.clears (h : Heap s dying ext) (hc : Clears s t) (hs : SameHeap s t) : Heap t dying ext := by
  have hsh : ∀ x, (t.objs x).map Memory.shape = (s.objs x).map Memory.shape := fun x => by rw [hs.objs]
  refine ⟨h.shape.congr hsh hs.nextObj,h.pages.congr hs,h.holders.congr hc hsh ?_,
    h.count.congr hc hsh hs.nextObj fun o ob ho _ => ⟨ob,by rwa [← hs.objs],by omega⟩,
    by rw [hs.objs]; exact h.used⟩
  rw [hs.objs]
  exact h.holders.vmas

end Memory

end Csci402.Vm
