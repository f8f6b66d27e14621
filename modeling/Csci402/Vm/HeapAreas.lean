import Csci402.Vm.AreaOps
import Csci402.Vm.Put

/-! How changes of the areas and new objects change the invariant of the heap. An area
that gets an object takes a reference that nobody held, and an area that goes leaves
one behind. -/

namespace Csci402.Vm

namespace Memory

open Lib Option List

variable {D : Type} {s t u : Memory D} {ext ext' : ℕ → ℤ} {pid o b k : ℕ} {ob : Mmobj} {a : Vmarea}
  {done rest : List Vmarea}

/-! ### Objects that stay -/

/-- From `s` to `t` objects come and go. Those that stay refer to what they did and have
the same pages, and new ones have no pages. Objects held from outside stay. -/
structure Keeps (s t : Memory D) : Prop where
  nextObj : s.nextObj ≤ t.nextObj
  nextFrame : t.nextFrame = s.nextFrame
  obj : ∀ x ob, x < s.nextObj → t.objs x = some ob → ∃ ob0, s.objs x = some ob0 ∧ shape ob = shape ob0
  frame_of : ∀ f pf, t.frames f = some pf → s.frames f = some pf
  frame_kept : ∀ f pf, s.frames f = some pf → pf.pfObj < s.nextObj → (t.objs pf.pfObj).isSome →
    t.frames f = some pf
  kept : ∀ x, 0 < s.held x → (s.objs x).isSome → (t.objs x).isSome
  disk : t.disk = s.disk
  held : t.held = s.held

theorem Keeps.trans (h : Keeps s t) (h' : Keeps t u) : Keeps s u where
  nextObj := Nat.le_trans h.nextObj h'.nextObj
  nextFrame := h'.nextFrame.trans h.nextFrame
  obj x ob hx hu := by
    obtain ⟨ob1,h1,he1⟩ := h'.obj x ob (Nat.lt_of_lt_of_le hx h.nextObj) hu
    obtain ⟨ob0,h0,he0⟩ := h.obj x ob1 hx h1
    exact ⟨ob0,h0,he1.trans he0⟩
  frame_of f pf hf := h.frame_of f pf (h'.frame_of f pf hf)
  frame_kept f pf hf hx hu := by
    obtain ⟨ob,hob⟩ := isSome_iff_exists.mp hu
    have hx' := Nat.lt_of_lt_of_le hx h.nextObj
    obtain ⟨ob1,h1,-⟩ := h'.obj pf.pfObj ob hx' hob
    exact h'.frame_kept f pf (h.frame_kept f pf hf hx (by simp [h1])) hx' hu
  kept x hx hs := h'.kept x (by rwa [h.held]) (h.kept x hx hs)
  disk := h'.disk.trans h.disk
  held := h'.held.trans h.held

/-- No object comes or goes. -/
theorem Keeps.of_shape (hs : ∀ x, (t.objs x).map shape = (s.objs x).map shape)
    (hf : t.frames = s.frames) (hn : t.nextObj = s.nextObj ∧ t.nextFrame = s.nextFrame)
    (hd : t.disk = s.disk ∧ t.held = s.held) : Keeps s t where
  nextObj := Nat.le_of_eq hn.1.symm
  nextFrame := hn.2
  obj x ob _ hx := by
    have he := hs x
    rw [hx] at he
    obtain ⟨ob0,h0,he⟩ := map_eq_some_iff.mp he.symm
    exact ⟨ob0,h0,he.symm⟩
  frame_of f pf h := by rwa [hf] at h
  frame_kept f pf h _ _ := by rwa [hf]
  kept x _ hx := by rwa [isSome_of_shape hs]
  disk := hd.1
  held := hd.2

theorem SameHeap.keeps (h : SameHeap s t) : Keeps s t :=
  Keeps.of_shape (fun x => by rw [h.objs]) h.frames ⟨h.nextObj,h.nextFrame⟩ ⟨h.disk,h.held⟩

theorem keeps_modObj {f : Mmobj → Mmobj} (hf : ∀ ob, shape (f ob) = shape ob) : Keeps s (s.modObj o f) :=
  Keeps.of_shape (shape_modObj hf) rfl ⟨rfl,rfl⟩ ⟨rfl,rfl⟩

theorem DropsOff.keeps (h : DropsOff ∅ s t)
    (hk : ∀ x, 0 < s.held x → (s.objs x).isSome → (t.objs x).isSome) : Keeps s t where
  nextObj := Nat.le_of_eq h.nextObj.symm
  nextFrame := h.nextFrame
  obj x ob _ hx := by
    obtain ⟨r,hr⟩ := h.obj x ob (Finset.notMem_empty x) hx
    exact ⟨_,hr,rfl⟩
  frame_of f pf hf := h.frame_of f pf (Finset.notMem_empty _) hf
  frame_kept f pf hf _ hx := h.frame_kept f pf (Finset.notMem_empty _) hf hx
  kept := hk
  disk := h.disk
  held := h.held

/-- No object is new. -/
structure Shrinks (s t : Memory D) : Prop extends Keeps s t where
  same : t.nextObj = s.nextObj

theorem Shrinks.trans (h : Shrinks s t) (h' : Shrinks t u) : Shrinks s u :=
  ⟨h.toKeeps.trans h'.toKeeps,h'.same.trans h.same⟩

theorem SameHeap.shrinks (h : SameHeap s t) : Shrinks s t := ⟨h.keeps,h.nextObj⟩

/-! ### Areas -/

/-- An object without the list of its areas. -/
def bare (ob : Mmobj) : Mmobj := { ob with mmoVmas := [] }

/-- Areas and the lists of areas change, and nothing else in the objects. -/
theorem Heap.relist (h : Heap s ∅ ext) (hb : ∀ x, (t.objs x).map bare = (s.objs x).map bare)
    (hf : t.frames = s.frames) (hn : t.nextObj = s.nextObj ∧ t.nextFrame = s.nextFrame)
    (hv : ∀ o ob, t.objs o = some ob → ∀ link ∈ ob.mmoVmas, ∃ a ∈ t.vmmList link.1, a.vmaId = link.2)
    (ha : ∀ pid, ∀ a ∈ t.vmmList pid, ∀ o, a.vmaObj = some o → (s.objs o).isSome)
    (hp : ∀ pid, t.live pid → pid < t.nextPid) (hr : t.areaRefs+ext' = s.areaRefs+ext) : Heap t ∅ ext' := by
  have hobj : ∀ x ob, t.objs x = some ob → ∃ ob0, s.objs x = some ob0 ∧ bare ob = bare ob0 := by
    intro x ob hx
    have he := hb x
    rw [hx] at he
    obtain ⟨ob0,h0,he⟩ := map_eq_some_iff.mp he.symm
    exact ⟨ob0,h0,he.symm⟩
  have hsh : ∀ x, (t.objs x).map Memory.shape = (s.objs x).map Memory.shape := by
    intro x
    have hc : ∀ ob : Option Mmobj, ob.map Memory.shape = (ob.map bare).map Memory.shape := by
      rintro (_ | ob) <;> rfl
    rw [hc,hb x,← hc]
  have hres : ∀ x, t.respages x = s.respages x := by
    intro x
    have hc : ∀ ob : Option Mmobj, ob.elim [] Mmobj.mmoRespages = (ob.map bare).elim [] Mmobj.mmoRespages := by
      rintro (_ | ob) <;> rfl
    rw [respages,respages,hc,hb x,← hc]
  refine ⟨h.shape.congr hsh hn.1,⟨?_,fun x ob hx => ?_,?_,?_,fun f pf ob hfr hx => ?_⟩,
    ⟨hv,fun p a hm x hx => ⟨Finset.notMem_empty x,?_⟩,hp⟩,fun x ob hx hd => ?_,
    fun x ob hx hd => ?_⟩
  · simpa only [hres,hf] using h.pages.resident
  · obtain ⟨ob0,h0,he⟩ := hobj x ob hx
    have := h.pages.nres x ob0 h0
    simp only [bare,Mmobj.mk.injEq] at he
    rw [he.2.2.1,he.2.2.2.1,this]
  · rw [hf]
    exact h.pages.inj
  · rw [hf,hn.2]
    exact h.pages.frame_lt
  · rw [hf] at hfr
    obtain ⟨ob0,h0,he⟩ := hobj _ ob hx
    simp only [bare,Mmobj.mk.injEq] at he
    rw [he.1]
    exact h.pages.pin f pf ob0 hfr h0
  · rw [isSome_of_shape hsh]
    exact ha p a hm x hx
  · obtain ⟨ob0,h0,he⟩ := hobj x ob hx
    have hc := h.count x ob0 h0 hd
    have hrx := congrFun hr x
    simp only [bare,Mmobj.mk.injEq] at he
    rw [objRefs_congr hn.1 fun i _ => links_eq_of_shape (hsh i),he.2.1,he.2.2.1,hc]
    simp only [Pi.add_apply] at hrx ⊢
    omega
  · obtain ⟨ob0,h0,he⟩ := hobj x ob hx
    have := h.used x ob0 h0 hd
    simp only [bare,Mmobj.mk.injEq] at he
    rwa [InUse,he.1,he.2.1,he.2.2.1]

/-- The references when only the list of one process has changed. -/
theorem areaRefs_of_edits (hed : Edits pid s t) (hp : pid < s.nextPid) : t.areaRefs = s.areaRefs +
      (tallyList Vmarea.vmaObj (t.vmmList pid) - tallyList Vmarea.vmaObj (s.vmmList pid)) := by
  unfold areaRefs
  rw [hed.nextPid]
  exact sum_range_of_eq (f := fun p => tallyList Vmarea.vmaObj (s.vmmList p)) hp
    fun p hpp => by rw [hed.vmmList p hpp]

/-- The list of one process changes, and no area goes. -/
theorem Heap.editList (h : Heap s ∅ ext) (hs : SameHeap s t) (hed : Edits pid s t)
    (hlive : s.live pid) (hids : ∀ a ∈ s.vmmList pid, ∃ b ∈ t.vmmList pid, b.vmaId = a.vmaId)
    (ho : ∀ a ∈ t.vmmList pid, ∀ o, a.vmaObj = some o → (s.objs o).isSome) :
    Heap t ∅ (ext+(tallyList Vmarea.vmaObj (s.vmmList pid) -
      tallyList Vmarea.vmaObj (t.vmmList pid))) := by
  refine h.relist (fun x => by rw [hs.objs]) hs.frames ⟨hs.nextObj,hs.nextFrame⟩
    (fun x ob hx link hl => ?_) (fun p a ha x hax => ?_) (fun p hp => ?_) ?_
  · rw [hs.objs] at hx
    obtain ⟨a,ha,hid⟩ := h.holders.vmas x ob hx link hl
    by_cases hp : link.1 = pid
    · rw [hp] at ha ⊢
      obtain ⟨b,hb,hbid⟩ := hids a ha
      exact ⟨b,hb,hbid.trans hid⟩
    · rw [hed.vmmList _ hp]
      exact ⟨a,ha,hid⟩
  · by_cases hp : p = pid
    · subst hp
      exact ho a ha x hax
    · rw [hed.vmmList p hp] at ha
      exact (h.holders.area p a ha x hax).2
  · rw [hed.nextPid]
    exact h.holders.pid_lt p ((hed.live p).mp hp)
  · rw [areaRefs_of_edits hed (h.holders.pid_lt pid hlive)]
    abel

theorem sameHeap_modArea (s : Memory D) (pid k : ℕ) (f : Vmarea → Vmarea) : SameHeap s (s.modArea pid k f) :=
  ⟨rfl,rfl,rfl,rfl,rfl,rfl⟩

theorem sameHeap_addArea (s : Memory D) (pid : ℕ) (l : List Vmarea) : SameHeap s (s.addArea pid l) :=
  ⟨rfl,rfl,rfl,rfl,rfl,rfl⟩

theorem sameHeap_ptUnmapRange (s : Memory D) (pid lo hi : ℕ) : SameHeap s (s.ptUnmapRange pid lo hi) :=
  ⟨rfl,rfl,rfl,rfl,rfl,rfl⟩

/-- An area changes its range or its object. -/
theorem Heap.modArea (h : Heap s ∅ ext) {f : Vmarea → Vmarea}
    (hl : s.vmmList pid = done ++ a :: rest) (hn : (s.areaIds pid).Nodup)
    (hid : (f a).vmaId = a.vmaId) (ho : ∀ o, (f a).vmaObj = some o → (s.objs o).isSome) :
    Heap (s.modArea pid a.vmaId f) ∅ (ext+(tally a.vmaObj - tally (f a).vmaObj)) := by
  have hl' := vmmList_modArea_eq hl hn f
  have hheap := h.editList (sameHeap_modArea s pid a.vmaId f) (edits_modArea s pid a.vmaId f)
    (live_of_mem (a := a) (by simp [hl])) (fun x hx => ?_) fun x hx y hy => ?_
  · have hdiff : tallyList Vmarea.vmaObj (s.vmmList pid) -
        tallyList Vmarea.vmaObj ((s.modArea pid a.vmaId f).vmmList pid) =
        tally a.vmaObj - tally (f a).vmaObj := by
      rw [hl',hl]
      simp only [tallyList_append,tallyList_cons]
      abel
    rwa [hdiff] at hheap
  · rw [hl']
    rw [hl,mem_append,mem_cons] at hx
    rcases hx with hx | rfl | hx
    · exact ⟨x,by simp [hx],rfl⟩
    · exact ⟨f x,by simp,hid⟩
    · exact ⟨x,by simp [hx],rfl⟩
  · rw [hl',mem_append,mem_cons] at hx
    rcases hx with hx | rfl | hx
    · exact (h.holders.area pid x (by simp [hl,hx]) y hy).2
    · exact ho y hy
    · exact (h.holders.area pid x (by simp [hl,hx]) y hy).2

/-- An area is added. -/
theorem Heap.addArea (h : Heap s ∅ ext) {l : List Vmarea} (hlive : s.live pid)
    (hl : l.Perm (a :: s.vmmList pid)) (ho : ∀ o, a.vmaObj = some o → (s.objs o).isSome) :
    Heap (s.addArea pid l) ∅ (ext - tally a.vmaObj) := by
  have hl' : (s.addArea pid l).vmmList pid = l := (vmmList_setList hlive).trans (if_pos rfl)
  have hheap := h.editList (sameHeap_addArea s pid l) (edits_addArea s pid l) hlive
    (fun x hx => ⟨x,by rw [hl',hl.mem_iff]; simp [hx],rfl⟩) fun x hx y hy => ?_
  · have hdiff : ext+(tallyList Vmarea.vmaObj (s.vmmList pid) -
        tallyList Vmarea.vmaObj ((s.addArea pid l).vmmList pid)) = ext - tally a.vmaObj := by
      have hperm : tallyList Vmarea.vmaObj l = tallyList Vmarea.vmaObj (a :: s.vmmList pid) :=
        (hl.map _).sum_eq
      rw [hl',hperm,tallyList_cons]
      abel
    rwa [hdiff] at hheap
  · rw [hl',hl.mem_iff,mem_cons] at hx
    rcases hx with rfl | hx
    · exact ho y hy
    · exact (h.holders.area pid x hx y hy).2

theorem keeps_unlinkArea (s : Memory D) (pid k : ℕ) : Keeps s (s.unlinkArea pid k) :=
  Keeps.of_shape (fun x => by
    change ((s.objs x).map _).map shape = _
    cases s.objs x <;> rfl) rfl ⟨rfl,rfl⟩ ⟨rfl,rfl⟩

/-- An area is taken off its lists; the reference it held is held by nobody. -/
theorem Heap.unlinkArea (h : Heap s ∅ ext) (hl : s.vmmList pid = done ++ a :: rest)
    (hn : (s.areaIds pid).Nodup) : Heap (s.unlinkArea pid a.vmaId) ∅ (ext+tally a.vmaObj) := by
  have hlive : s.live pid := live_of_mem (a := a) (by simp [hl])
  have hed := edits_unlinkArea s pid a.vmaId
  have hl' : (s.unlinkArea pid a.vmaId).vmmList pid = done ++ rest := by
    rw [areaIds,hl] at hn
    rw [vmmList_unlinkArea,if_pos rfl,hl]
    exact filter_key hn
  refine h.relist (fun x => ?_) rfl ⟨rfl,rfl⟩ (fun x ob hx link hm => ?_) (fun p c hc x hx => ?_)
    (fun p hp => ?_) ?_
  · change ((s.objs x).map _).map bare = _
    cases s.objs x <;> rfl
  · obtain ⟨ob0,h0,rfl⟩ := map_eq_some_iff.mp hx
    obtain ⟨hm,hne⟩ := mem_filter.mp hm
    obtain ⟨c,hc,hid⟩ := h.holders.vmas x ob0 h0 link hm
    refine ⟨c,?_,hid⟩
    rw [vmmList_unlinkArea]
    split
    next hp =>
      rw [hp] at hc
      refine mem_filter.mpr ⟨hc,?_⟩
      simp only [ne_eq,decide_not,Bool.not_eq_eq_eq_not,Bool.not_true,decide_eq_false_iff_not] at hne ⊢
      exact fun he => hne (Prod.ext hp (hid.symm.trans he))
    · exact hc
  · rw [vmmList_unlinkArea] at hc
    split at hc
    · exact (h.holders.area pid c (mem_filter.mp hc).1 x hx).2
    · exact (h.holders.area p c hc x hx).2
  · exact h.holders.pid_lt p ((hed.live p).mp hp)
  · rw [areaRefs_of_edits hed (h.holders.pid_lt pid hlive),hl',hl]
    simp only [tallyList_append,tallyList_cons]
    abel

/-! ### New objects -/

/-- Nothing refers to an object that is not there. -/
theorem Heap.refs_none (h : Heap s ∅ ext) (ho : s.objs o = none) : s.areaRefs o = 0 ∧ s.objRefs ∅ o = 0 := by
  constructor
  · unfold areaRefs
    rw [Finset.sum_apply]
    refine Finset.sum_eq_zero fun p _ => ?_
    rw [tallyList_apply,Nat.cast_eq_zero,countP_eq_zero]
    intro a ha he
    have := (h.holders.area p a ha o (by simpa using he)).2
    simp [ho] at this
  · unfold objRefs
    rw [Finset.sum_apply]
    refine Finset.sum_eq_zero fun i _ => ?_
    rw [if_neg (Finset.notMem_empty i)]
    cases hi : s.objs i with
    | none => rfl
    | some iob =>
      by_cases hk : iob.mmoOps = .shadow
      · obtain ⟨sh,b,hlk⟩ := h.shape.link i iob hi (Finset.notMem_empty i) hk
        obtain ⟨bob,hb,-⟩ := hlk.base
        obtain ⟨shob,hsh,-⟩ := bind_eq_some_iff.mp hlk.chain
        have h1 : sh ≠ o := fun he => by rw [he,ho] at hsh; cases hsh
        have h2 : b ≠ o := fun he => by rw [he,ho] at hb; cases hb
        simp [links,hlk.shadowed,hlk.bottom,h1.symm,h2.symm]
      · simp [links,h.shape.base i iob hi hk]

/-- A new object, with the number `nextObj`. -/
def create (ob : Mmobj) (s : Memory D) : Memory D :=
  { s with objs := Function.update s.objs s.nextObj (some ob), nextObj := s.nextObj+1 }

theorem newShadow_eq_create (s : Memory D) (o b : ℕ) :
    s.newShadow o b = s.create ⟨.shadow,1,0,[],some o,some b,[]⟩ := by
  simp [newShadow,newObj,modObj,create]

theorem objs_create (s : Memory D) (ob : Mmobj) (x : ℕ) :
    (s.create ob).objs x = if x = s.nextObj then some ob else s.objs x := by
  unfold create
  by_cases h : x = s.nextObj
  · subst h
    simp
  · simp [h]

theorem Heap.objs_nextObj (h : Heap s ∅ ext) : s.objs s.nextObj = none := by
  cases ho : s.objs s.nextObj with
  | none => rfl
  | some ob => exact absurd (h.shape.obj_lt _ ob ho) (Nat.lt_irrefl _)

theorem keeps_create (s : Memory D) (ob : Mmobj) : Keeps s (s.create ob) where
  nextObj := Nat.le_succ _
  nextFrame := rfl
  obj x ob' hx ho := by
    rw [objs_create,if_neg (Nat.ne_of_lt hx)] at ho
    exact ⟨ob',ho,rfl⟩
  frame_of _ _ hf := hf
  frame_kept _ _ hf _ _ := hf
  kept x _ hx := by
    rw [objs_create]
    split
    · rfl
    · exact hx
  disk := rfl
  held := rfl

/-- A new object starts with a reference that nobody holds yet, and with its own
references to other objects, which were not counted. -/
theorem Heap.create (h : Heap s ∅ ext) (he : ext s.nextObj = 0)
    (hnew : ob.mmoRefcount = 1 ∧ ob.mmoNrespages = 0 ∧ ob.mmoRespages = [] ∧ ob.mmoVmas = [])
    (hbase : ob.mmoOps ≠ .shadow → ob.mmoShadowed = none ∧ ob.mmoBottomObj = none)
    (hlink : ob.mmoOps = .shadow → ∃ sh b, ob.mmoShadowed = some sh ∧ ob.mmoBottomObj = some b ∧
      s.mmobjBottomObj sh = some b ∧ ∃ bob, s.objs b = some bob ∧ bob.mmoOps ≠ .shadow) :
    Heap (s.create ob) ∅ (ext+Pi.single s.nextObj 1 - links (some ob)) := by
  have hnone := h.objs_nextObj
  have hlt : ∀ {x}, (s.objs x).isSome → x < s.nextObj := by
    intro x hx
    obtain ⟨xob,hx⟩ := isSome_iff_exists.mp hx
    exact h.shape.obj_lt x xob hx
  have hold : ∀ {x}, x < s.nextObj → (s.create ob).objs x = s.objs x := fun hx => by
    rw [objs_create,if_neg (Nat.ne_of_lt hx)]
  have hobj : ∀ x xob, (s.create ob).objs x = some xob →
      x = s.nextObj ∧ xob = ob ∨ x < s.nextObj ∧ s.objs x = some xob := by
    intro x xob hx
    rw [objs_create] at hx
    split at hx
    next he =>
      cases hx
      exact .inl ⟨he,rfl⟩
    · exact .inr ⟨h.shape.obj_lt x xob hx,hx⟩
  have hbot : ∀ {x y}, s.mmobjBottomObj x = some y → (s.create ob).mmobjBottomObj x = some y := by
    intro x y hxy
    obtain ⟨xob,hx,-⟩ := bind_eq_some_iff.mp hxy
    rw [mmobjBottomObj,hold (h.shape.obj_lt x xob hx)]
    exact hxy
  have hrefs : (s.create ob).objRefs ∅ = s.objRefs ∅ + links (some ob) := by
    unfold objRefs
    rw [show (s.create ob).nextObj = s.nextObj+1 from rfl,Finset.sum_range_succ]
    simp only [Finset.notMem_empty,if_false]
    rw [objs_create,if_pos rfl]
    exact congrArg (· + _) (Finset.sum_congr rfl fun i hi => by rw [hold (Finset.mem_range.mp hi)])
  have hareas : (s.create ob).areaRefs = s.areaRefs := rfl
  refine ⟨⟨fun x xob hx => ?_,fun x xob hx hk => ?_,fun x xob hx _ hk => ?_⟩,
    ⟨?_,fun x xob hx => ?_,h.pages.inj,h.pages.frame_lt,fun f pf xob hf hx => ?_⟩,
    ⟨fun x xob hx => ?_,fun p c hc x hx => ⟨Finset.notMem_empty x,?_⟩,h.holders.pid_lt⟩,
    fun x xob hx hd => ?_,fun x xob hx hd => ?_⟩
  · change x < s.nextObj+1
    rcases hobj x xob hx with ⟨he,-⟩ | ⟨hx,-⟩ <;> omega
  · rcases hobj x xob hx with ⟨-,rfl⟩ | ⟨-,hx⟩
    · exact hbase hk
    · exact h.shape.base x xob hx hk
  · rcases hobj x xob hx with ⟨rfl,rfl⟩ | ⟨hlx,hx⟩
    · obtain ⟨sh,b,h1,h2,h3,bob,h4,h5⟩ := hlink hk
      have hb := h.shape.obj_lt b bob h4
      obtain ⟨shob,hsh,-⟩ := bind_eq_some_iff.mp h3
      exact ⟨sh,b,h1,h2,h.shape.obj_lt sh shob hsh,hb,hbot h3,⟨bob,by rw [hold hb,h4],h5⟩,
        Finset.notMem_empty _,Finset.notMem_empty _⟩
    · obtain ⟨sh,b,hl⟩ := h.shape.link x xob hx (Finset.notMem_empty x) hk
      refine ⟨sh,b,{ hl with chain := hbot hl.chain, base := ?_ }⟩
      obtain ⟨bob,hb,hbk⟩ := hl.base
      exact ⟨bob,by rw [hold (h.shape.obj_lt b bob hb),hb],hbk⟩
  · have hr : (fun x => (s.create ob).respages x) = fun x => s.respages x := by
      funext x
      rw [respages,objs_create,respages]
      split
      next he =>
        subst he
        simp [hnone,hnew]
      · rfl
    rw [hr]
    exact h.pages.resident
  · rcases hobj x xob hx with ⟨-,rfl⟩ | ⟨-,hx⟩
    · simp [hnew]
    · exact h.pages.nres x xob hx
  · obtain ⟨pob,hp,-⟩ := h.pages.owner hf
    rw [hold (h.shape.obj_lt _ pob hp)] at hx
    exact h.pages.pin f pf xob hf hx
  · rcases hobj x xob hx with ⟨-,rfl⟩ | ⟨-,hx⟩
    · simp [hnew]
    · exact h.holders.vmas x xob hx
  · have hs := (h.holders.area p c hc x hx).2
    rw [hold (hlt hs)]
    exact hs
  · rw [hrefs,hareas]
    rcases hobj x xob hx with ⟨rfl,rfl⟩ | ⟨hlx,hx⟩
    · obtain ⟨h1,h2⟩ := h.refs_none hnone
      simp only [Pi.add_apply,Pi.sub_apply,Pi.single_eq_same,h1,h2,he,hnew]
      omega
    · have hc := h.count x xob hx hd
      simp only [Pi.add_apply,Pi.sub_apply,Pi.single_eq_of_ne (Nat.ne_of_lt hlx)] at hc ⊢
      omega
  · rcases hobj x xob hx with ⟨-,rfl⟩ | ⟨-,hx⟩
    · simp [InUse,hnew]
    · exact h.used x xob hx hd

/-- The bottom object of an object is there. -/
theorem Heap.bottom_base (h : Heap s ∅ ext) (hb : s.mmobjBottomObj o = some b) :
    ∃ bob, s.objs b = some bob ∧ bob.mmoOps ≠ .shadow := by
  obtain ⟨ob,ho,-⟩ := bind_eq_some_iff.mp hb
  obtain ⟨b',bob,hb',hbob,hk⟩ := h.shape.bottom ho (Finset.notMem_empty o)
  rw [hb] at hb'
  cases hb'
  exact ⟨bob,hbob,hk⟩

theorem Heap.newShadow (h : Heap s ∅ ext) (he : ext s.nextObj = 0) (hb : s.mmobjBottomObj o = some b) :
    Heap (s.newShadow o b) ∅ (ext+Pi.single s.nextObj 1 - (Pi.single o 1+Pi.single b 1)) := by
  rw [newShadow_eq_create]
  exact h.create he ⟨rfl,rfl,rfl,rfl⟩ (fun hk => absurd rfl hk)
    fun _ => ⟨o,b,rfl,rfl,hb,h.bottom_base hb⟩

/-- An area is put on the list of the object at the end of the chain. -/
theorem Heap.insertVma (h : Heap s ∅ ext) (link : ℕ × ℕ) (ho : (s.objs o).isSome)
    (hl : ∃ a ∈ s.vmmList link.1, a.vmaId = link.2) :
    ∃ t, insertVma o link s = some t ∧ Heap t ∅ ext ∧ Keeps s t ∧ Clears s t ∧
      t.nextObj = s.nextObj ∧ ∀ x, (t.objs x).map Memory.shape = (s.objs x).map Memory.shape := by
  obtain ⟨ob,ho⟩ := isSome_iff_exists.mp ho
  obtain ⟨b,bob,hb,hbob,-⟩ := h.shape.bottom ho (Finset.notMem_empty o)
  have hm := h.modObj (o := b) (f := fun ob => { ob with mmoVmas := ob.mmoVmas ++ [link] }) (δ := 0)
    (fun _ => ⟨rfl,rfl,rfl,(add_zero _).symm⟩) (h.used b) (fun xob hx l hm => ?_)
  · rw [Pi.single_zero,add_zero] at hm
    refine ⟨_,?_,hm,keeps_modObj fun _ => rfl,clears_modObj s b _,rfl,shape_modObj fun _ => rfl⟩
    simp [Memory.insertVma,hb,hbob]
  · rcases mem_append.mp hm with hm | hm
    · exact h.holders.vmas b xob hx l hm
    · rw [mem_singleton.mp hm]
      exact hl

end Memory

end Csci402.Vm
