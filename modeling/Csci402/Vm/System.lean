import Csci402.Vm.Lookup
import Csci402.Vm.Owned

/-! The virtual memory subsystem as a whole. A call that returns in a consistent state
leaves a consistent state: the lists of areas are maps, every area has an object, the
counts of the objects are exact, and private areas own their objects. -/

namespace Csci402.Vm

namespace Memory

open Lib Function Option

variable {D : Type} {U : UserMem} {s t : Memory D} {ext : ℕ → ℤ} {env : Env D}
  {pid lo n o f : ℕ} {ob : Mmobj} {file : Option ℕ} {flags : MapFlags} {prot : Prot} {off : ℕ}

structure Sys (U : UserMem) (s : Memory D) : Prop where
  list : ∀ pid, ListInv U s pid
  backed : ∀ pid, Backed s pid
  heap : Heap s ∅ fun x => (s.held x : ℤ)
  held : ∀ x, 0 < s.held x → ∃ ob, s.objs x = some ob ∧ ob.mmoOps = .vnode
  owned : Owned s

/-- A function that returns returns this. -/
theorem of_returns {α : Type} {x : Option α} {P : α → Prop} {y : α} (h : ∃ t, x = some t ∧ P t)
    (hx : x = some y) : P y := by
  obtain ⟨t,ht,hp⟩ := h
  cases ht.symm.trans hx
  exact hp

theorem Sys.fresh (h : Sys U s) {x : ℕ} (hx : s.nextObj ≤ x) : (s.held x : ℤ) = 0 := by
  by_contra hc
  obtain ⟨ob,hob,-⟩ := h.held x (by omega)
  exact absurd (h.heap.shape.obj_lt x ob hob) (Nat.not_lt.mpr hx)

/-- The objects that are left are as old as they were: a number is not used again. -/
structure Ages (s t : Memory D) : Prop where
  nextObj : s.nextObj ≤ t.nextObj
  obj : ∀ x ob, x < s.nextObj → t.objs x = some ob → ∃ ob0, s.objs x = some ob0 ∧ shape ob = shape ob0

theorem Ages.refl (s : Memory D) : Ages s s := ⟨Nat.le_refl _,fun _ ob _ h => ⟨ob,h,rfl⟩⟩

theorem Ages.trans {u : Memory D} (h : Ages s t) (h' : Ages t u) : Ages s u where
  nextObj := Nat.le_trans h.nextObj h'.nextObj
  obj x ob hx hu := by
    obtain ⟨ob1,h1,he1⟩ := h'.obj x ob (Nat.lt_of_lt_of_le hx h.nextObj) hu
    obtain ⟨ob0,h0,he0⟩ := h.obj x ob1 hx h1
    exact ⟨ob0,h0,he1.trans he0⟩

theorem Keeps.ages (h : Keeps s t) : Ages s t := ⟨h.nextObj,h.obj⟩

theorem Ages.of_shape (hn : t.nextObj = s.nextObj) (h : ∀ x, (t.objs x).map shape = (s.objs x).map shape) :
    Ages s t where
  nextObj := Nat.le_of_eq hn.symm
  obj x ob _ hx := by
    have he := h x
    rw [hx] at he
    obtain ⟨ob0,h0,he⟩ := map_eq_some_iff.mp he.symm
    exact ⟨ob0,h0,he.symm⟩

/-- What holds of the state after a call. -/
structure Next (U : UserMem) (s t : Memory D) : Prop where
  sys : Sys U t
  ages : Ages s t

theorem Next.refl (h : Sys U s) : Next U s s := ⟨h,Ages.refl s⟩

theorem Next.trans {u : Memory D} (h : Next U s t) (h' : Next U t u) : Next U s u := ⟨h'.sys,h.ages.trans h'.ages⟩

/-! ### Steps that make no shadow object -/

theorem Sys.evolve (h : Sys U s) (hl : ∀ q, ListInv U t q) (hheap : Heap t ∅ fun x => (t.held x : ℤ))
    (hheld : ∀ x, 0 < t.held x → ∃ ob, t.objs x = some ob ∧ ob.mmoOps = .vnode)
    (ht : SameTargets s t) (hn : NoShadow s t) : Sys U t where
  list := hl
  backed q b hb := by
    obtain ⟨a,ha,he⟩ := ht q b hb
    rw [obj_of_target (he 0)]
    exact h.backed q a ha
  heap := hheap
  held := hheld
  owned := h.owned.evolve h.heap ht hn

/-- The file that is held keeps its object. -/
theorem Keeps.held_vnode (hk : Keeps s t) (h : Sys U s) {x : ℕ} (hx : 0 < t.held x) :
    ∃ ob, t.objs x = some ob ∧ ob.mmoOps = .vnode := by
  rw [hk.held] at hx
  obtain ⟨ob0,h0,hv⟩ := h.held x hx
  obtain ⟨ob,hob⟩ := isSome_iff_exists.mp (hk.kept x hx (by simp [h0]))
  obtain ⟨ob1,h1,hs⟩ := hk.obj x ob (h.heap.shape.obj_lt x ob0 h0) hob
  cases h0.symm.trans h1
  exact ⟨ob,hob,(congrArg Prod.fst hs).trans hv⟩

theorem Sys.shrink (h : Sys U s) (hl : ∀ q, ListInv U t q) (hheap : Heap t ∅ fun x => (s.held x : ℤ))
    (hs : Shrinks s t) (ht : SameTargets s t) : Sys U t := by
  refine h.evolve hl ?_ (fun x hx => hs.held_vnode h hx) ht (hs.noShadow hheap)
  rw [hs.held]
  exact hheap

/-- Lists of areas are as they were, and so are the kinds of objects. -/
theorem Sys.same_lists (h : Sys U s) (hl : ∀ q, t.vmmList q = s.vmmList q) (hn : s.nextArea ≤ t.nextArea)
    (hheap : Heap t ∅ fun x => (s.held x : ℤ)) (hshape : ∀ x, (t.objs x).map shape = (s.objs x).map shape)
    (hheld : t.held = s.held) : Sys U t := by
  have hobj : ∀ x ob, t.objs x = some ob → ∃ ob0, s.objs x = some ob0 ∧ shape ob = shape ob0 := by
    intro x ob hx
    have he := hshape x
    rw [hx] at he
    obtain ⟨ob0,h0,he⟩ := map_eq_some_iff.mp he.symm
    exact ⟨ob0,h0,he.symm⟩
  refine h.evolve (fun q => (h.list q).congr (hl q) hn) (by rw [hheld]; exact hheap) (fun x hx => ?_)
    (fun q b hb => ⟨b,by rwa [← hl q],fun _ => rfl⟩) fun x ob hx => .inl (hobj x ob hx)
  rw [hheld] at hx
  obtain ⟨ob0,h0,hv⟩ := h.held x hx
  have hsome : (t.objs x).isSome := by
    rw [isSome_of_shape hshape,h0]
    rfl
  obtain ⟨ob,hob⟩ := isSome_iff_exists.mp hsome
  obtain ⟨ob1,h1,hs⟩ := hobj x ob hob
  cases h0.symm.trans h1
  exact ⟨ob,hob,(congrArg Prod.fst hs).trans hv⟩

theorem Sys.ptMap (h : Sys U s) (pid v f : ℕ) (w : Bool) : Sys U (s.ptMap pid v f w) := by
  have hl : ∀ q, (s.ptMap pid v f w).vmmList q = s.vmmList q := fun q => vmmList_modProc fun _ => rfl
  exact h.same_lists hl (Nat.le_refl _)
    (h.heap.same_lists ⟨rfl,rfl,rfl,rfl,rfl,rfl⟩ hl (fun q => live_modProc.mp) rfl) (fun _ => rfl) rfl

/-- Only what a frame holds changes. -/
theorem Sys.store (h : Sys U s) (f : ℕ) (g : D → D) :
    Sys U (s.modFrame f fun pf => { pf with pfData := g pf.pfData }) :=
  h.same_lists (fun _ => rfl) (Nat.le_refl _)
    (h.heap.modFrame (fun _ => ⟨rfl,rfl⟩) fun pf ob hf ho => h.heap.pages.pin f pf ob hf ho) (fun _ => rfl) rfl

/-! ### Taking mappings away -/

theorem Removed.sameTargets {hi : ℕ} (h : Removed U pid lo hi s t) : SameTargets s t := by
  intro q b hb
  by_cases hq : q = pid
  · subst hq
    obtain ⟨a,ha,hp,-⟩ := h.piece b hb
    exact ⟨a,ha,hp.target⟩
  · rw [h.edits.vmmList q hq] at hb
    exact ⟨b,hb,fun _ => rfl⟩

theorem Edits.lists (h : Edits pid s t) (hs : ∀ q, ListInv U s q) (ht : ListInv U t pid) (q : ℕ) : ListInv U t q := by
  by_cases hq : q = pid
  · rw [hq]
    exact ht
  · exact (hs q).congr (h.vmmList q hq) h.nextArea

theorem Sys.remove (h : Sys U s) (env : Env D) (pid : ℕ) (hn : lo+n < 2 ^ 32) :
    ∃ t, vmmapRemove U env pid lo n s = some t ∧ Sys U t ∧ Shrinks s t ∧ Removed U pid lo (lo+n) s t := by
  obtain ⟨t,ht,hheap,hs⟩ := vmmapRemove_heap env (h.list pid) h.heap (fun _ => Int.le_refl _) (h.backed pid) hn
  have hrem := vmmapRemove_areas (h.list pid) hn ht
  exact ⟨t,ht,h.shrink (hrem.edits.lists h.list hrem.list) hheap hs hrem.sameTargets,hs,hrem⟩

theorem Sys.next_remove (h : Sys U s) (hn : lo+n < 2 ^ 32) (ht : vmmapRemove U env pid lo n s = some t) :
    Next U s t := by
  obtain ⟨hsys,hs,-⟩ := of_returns (h.remove env pid hn) ht
  exact ⟨hsys,hs.ages⟩

theorem listInv_nil (h : s.vmmList pid = []) : ListInv U s pid where
  ok := by
    rw [h]
    exact ⟨⟨by simp,List.Pairwise.nil⟩,by simp⟩
  ids := by simp [areaIds,h]
  fresh := by simp [h]

theorem Sys.exit (h : Sys U s) (env : Env D) (pid : ℕ) :
    ∃ t, doExit env pid s = some t ∧ Sys U t ∧ Shrinks s t ∧ Exited pid s t := by
  obtain ⟨t,ht,hheap,hs,hex⟩ := doExit_heap env (h.list pid).ids h.heap (fun _ => Int.le_refl _) (h.backed pid)
  refine ⟨t,ht,h.shrink (fun q => ?_) hheap hs fun q b hb => ?_,hs,hex⟩
  · by_cases hq : q = pid
    · exact listInv_nil ((hex.vmmList q).trans (if_pos hq))
    · exact (h.list q).congr ((hex.vmmList q).trans (if_neg hq)) (Nat.le_of_eq hex.nextArea.symm)
  · rw [hex.vmmList] at hb
    split at hb
    · cases hb
    · exact ⟨b,hb,fun _ => rfl⟩

theorem Sys.next_exit (h : Sys U s) (ht : doExit env pid s = some t) : Next U s t := by
  obtain ⟨hsys,hs,-⟩ := of_returns (h.exit env pid) ht
  exact ⟨hsys,hs.ages⟩

theorem HeapEndsAt.sameTargets {e : ℕ} (h : HeapEndsAt s t pid e) (ht : AreasOk U (t.vmmList pid))
    (hs : AreasOk U (s.vmmList pid)) {b : Vmarea} (hb : b ∈ t.vmmList pid) :
    ∃ a ∈ s.vmmList pid, ∀ v, b.target v = a.target v := by
  obtain ⟨p,heap,hp,hlook,-,htr⟩ := h
  have hheap := (vmmapLookup_mem hlook).1
  rw [show p.vmmList = s.vmmList pid by simp [vmmList,hp]] at hheap
  refine target_of_trans ht (fun v x hx => ?_) hb
  rw [htr] at hx
  split at hx
  · exact ⟨heap,hheap,some.inj hx⟩
  · split at hx
    · cases hx
    · obtain ⟨a,ha,-,-,he⟩ := (trans_eq_some hs).mp hx
      exact ⟨a,ha,he⟩

variable {addr : ℕ} {r : Except Errno ℕ}

theorem Sys.brk (h : Sys U s) (ht : doBrk U env pid addr s = some (t, r)) : Sys U t ∧ Shrinks s t := by
  obtain ⟨⟨hlist,hother,-,hna⟩,hcase⟩ := doBrk_areas (h.list pid) ht
  obtain ⟨hheap,hs⟩ := doBrk_heap (h.list pid) h.heap (fun _ => Int.le_refl _) (h.backed pid) ht
  refine ⟨h.shrink (fun q => ?_) hheap hs fun q b hb => ?_,hs⟩
  · by_cases hq : q = pid
    · rw [hq]
      exact hlist
    · exact (h.list q).congr (hother q hq) hna
  · by_cases hq : q = pid
    · subst hq
      rcases hcase with ⟨-,rfl⟩ | hends
      · exact ⟨b,hb,fun _ => rfl⟩
      · exact hends.sameTargets hlist.ok (h.list q).ok hb
    · rw [hother q hq] at hb
      exact ⟨b,hb,fun _ => rfl⟩

/-! ### Page lookups -/

theorem Adds.vmmList (h : Adds s t) (q : ℕ) : t.vmmList q = s.vmmList q := by
  rw [Memory.vmmList,Memory.vmmList,h.procs]

theorem Adds.ages (h : Adds s t) : Ages s t := .of_shape h.next.1 h.shape

theorem Adds.clears (h : Adds s t) : Clears s t := .of_procs h.procs h.next.2.1 h.next.2.2

theorem Sys.adds (h : Sys U s) (hheap : Heap t ∅ fun x => (s.held x : ℤ)) (ha : Adds s t) : Sys U t :=
  h.same_lists ha.vmmList (Nat.le_of_eq ha.next.2.1.symm) hheap ha.shape ha.held

section Lookups

variable [Zero D]

theorem Sys.lookuppage (h : Sys U s) (env : Env D) (ho : s.objs o = some ob) (n : ℕ) (w : Bool) :
    ∃ t r, lookuppage env o n w s = some (t, r) ∧ Sys U t ∧ Looked s t o n w r := by
  obtain ⟨t,r,ht,hheap,hl⟩ := lookuppage_heap env h.heap ho n w
  exact ⟨t,r,ht,h.adds hheap hl.adds,hl⟩

omit [Zero D] in
/-- The object of an area is there. -/
theorem Sys.area_obj (h : Sys U s) {a : Vmarea} (ha : a ∈ s.vmmList pid) :
    ∃ o ob, a.vmaObj = some o ∧ s.objs o = some ob := by
  obtain ⟨o,ho⟩ := isSome_iff_exists.mp (h.backed pid a ha)
  obtain ⟨ob,hob⟩ := isSome_iff_exists.mp (h.heap.holders.area pid a ha o ho).2
  exact ⟨o,ob,ho,hob⟩

variable {v : ℕ}

theorem Sys.lookupVfn (h : Sys U s) {w : Bool} {r : Option ℕ} (ht : lookupVfn env pid v w s = some (t, r)) :
    Sys U t ∧ ∃ a o, vmmapLookup (s.vmmList pid) v = some a ∧ a.vmaObj = some o ∧
      Looked s t o (a.page v) w r := by
  obtain ⟨a,ha,ht⟩ := bind_eq_some_iff.mp ht
  obtain ⟨o,ob,ho,hob⟩ := h.area_obj (vmmapLookup_mem ha).1
  simp only [ho] at ht
  obtain ⟨t',r',ht',hsys,hl⟩ := h.lookuppage env hob (a.page v) w
  cases ht'.symm.trans ht
  exact ⟨hsys,a,o,ha,ho,hl⟩

/-- A page fault ends the process, if need be after a lookup that failed, or enters the
frame that was looked up. -/
theorem Sys.pagefault_lookup (h : Sys U s) {vaddr : ℕ} {cause : Cause}
    (ht : handlePagefault env pid vaddr cause s = some t) : (∃ s1, Sys U s1 ∧ doExit env pid s1 = some t ∧
      (s1 = s ∨ ∃ a o, vmmapLookup (s.vmmList pid) (vaddr / pageSize) = some a ∧ a.vmaObj = some o ∧
        Looked s s1 o (a.page (vaddr / pageSize)) cause.write none)) ∨
    ∃ a o s1 f, vmmapLookup (s.vmmList pid) (vaddr / pageSize) = some a ∧ permitted cause a.vmaProt = true ∧
      a.vmaObj = some o ∧ Sys U s1 ∧ Looked s s1 o (a.page (vaddr / pageSize)) cause.write (some f) ∧
      t = s1.ptMap pid (vaddr / pageSize) f cause.write := by
  unfold handlePagefault at ht
  dsimp only at ht
  split at ht
  · exact .inl ⟨s,h,ht,.inl rfl⟩
  next a ha =>
    split at ht
    next hperm =>
      obtain ⟨o,ob,ho,hob⟩ := h.area_obj (vmmapLookup_mem ha).1
      obtain ⟨s1,r,hs1,hsys,hl⟩ := h.lookuppage env hob (a.page (vaddr / pageSize)) cause.write
      simp only [ho,hs1,bind_eq_bind,bind_some] at ht
      cases r with
      | none => exact .inl ⟨s1,hsys,ht,.inr ⟨a,o,ha,ho,hl⟩⟩
      | some g =>
        cases ht
        exact .inr ⟨a,o,s1,g,ha,hperm,ho,hsys,hl,rfl⟩
    · exact .inl ⟨s,h,ht,.inl rfl⟩

theorem Sys.pagefault (h : Sys U s) {vaddr : ℕ} {cause : Cause}
    (ht : handlePagefault env pid vaddr cause s = some t) : Next U s t := by
  rcases h.pagefault_lookup ht with ⟨s1,hsys,he,rfl | ⟨_,_,_,_,hl⟩⟩ | ⟨_,_,_,_,_,_,_,hsys,hl,rfl⟩
  · exact h.next_exit he
  · exact Next.trans ⟨hsys,hl.adds.ages⟩ (hsys.next_exit he)
  · exact ⟨hsys.ptMap pid _ _ cause.write,hl.adds.ages.trans (.of_shape rfl fun _ => rfl)⟩

/-- A read finds no area, or it looks the page up. -/
theorem Sys.readPage_looked (h : Sys U s) {r : Option D} (ht : readPage env pid v s = some (t, r)) :
    r = none ∧ t = s ∨ ∃ a o f pf, vmmapLookup (s.vmmList pid) v = some a ∧ a.vmaObj = some o ∧ Sys U t ∧
      Looked s t o (a.page v) false (some f) ∧ t.frames f = some pf ∧ r = some pf.pfData := by
  unfold readPage at ht
  split at ht
  · cases ht
    exact .inl ⟨rfl,rfl⟩
  next a ha =>
    obtain ⟨o,ob,ho,hob⟩ := h.area_obj (vmmapLookup_mem ha).1
    obtain ⟨s1,r1,hs1,hsys,hl⟩ := h.lookuppage env hob (a.page v) false
    simp only [ho,hs1,bind_eq_bind,bind_some] at ht
    obtain ⟨f,hr,ht⟩ := bind_eq_some_iff.mp ht
    obtain ⟨pf,hf,ht⟩ := bind_eq_some_iff.mp ht
    cases ht
    exact .inr ⟨a,o,f,pf,ha,ho,hsys,hr ▸ hl,hf,rfl⟩

theorem Sys.readPage_adds (h : Sys U s) {r : Option D} (ht : readPage env pid v s = some (t, r)) :
    Sys U t ∧ Adds s t := by
  obtain ⟨-,rfl⟩ | ⟨a,o,f,pf,-,-,hsys,hl,-⟩ := h.readPage_looked ht
  · exact ⟨h,.refl t⟩
  · exact ⟨hsys,hl.adds⟩

variable {g : D → D} {r : Option Unit}

/-- A write finds no area, or it looks the page up and stores into the frame. -/
theorem Sys.writePage_looked (h : Sys U s) (ht : Memory.writePage env pid v g s = some (t, r)) :
    r = none ∧ t = s ∧ vmmapLookup (s.vmmList pid) v = none ∨ r = some () ∧ ∃ a o s1 f,
      vmmapLookup (s.vmmList pid) v = some a ∧ a.vmaObj = some o ∧ Sys U s1 ∧ Looked s s1 o (a.page v) true (some f) ∧
      t = s1.modFrame f fun pf => { pf with pfData := g pf.pfData } := by
  unfold Memory.writePage at ht
  split at ht
  next ha =>
    cases ht
    exact .inl ⟨rfl,rfl,ha⟩
  next a ha =>
    obtain ⟨o,ob,ho,hob⟩ := h.area_obj (vmmapLookup_mem ha).1
    obtain ⟨s1,r1,hs1,hsys,hl⟩ := h.lookuppage env hob (a.page v) true
    simp only [ho,hs1,bind_eq_bind,bind_some] at ht
    obtain ⟨f,rfl,ht⟩ := bind_eq_some_iff.mp ht
    cases ht
    exact .inr ⟨rfl,a,o,s1,f,ha,ho,hsys,hl,rfl⟩

theorem Sys.writePage (h : Sys U s) (ht : writePage env pid v g s = some (t, r)) : Sys U t := by
  obtain ⟨-,rfl,-⟩ | ⟨-,a,o,s1,f,-,-,hsys,-,rfl⟩ := h.writePage_looked ht
  · exact h
  · exact hsys.store f g

omit [Zero D] in
/-- The loop of a copy keeps what every round keeps. -/
theorem copyPages_rule {β : Type} (I : Memory D → Prop) {visit : ℕ → ℕ → ℕ → Memory D → Option (Memory D × Option β)}
    (hv : ∀ c d k s t r, I s → visit c d k s = some (t, r) → I t) {e count fuel c d : ℕ}
    {r : Option (List β)} (h : I s) (ht : copyPages visit e count fuel c d s = some (t, r)) : I t := by
  induction fuel generalizing c d s r with
  | zero => cases ht
  | succ fuel ih =>
    unfold copyPages at ht
    split at ht
    · obtain ⟨⟨s1,r1⟩,hs1,ht⟩ := bind_eq_some_iff.mp ht
      have h1 := hv _ _ _ s s1 r1 h hs1
      cases r1 with
      | none =>
        cases ht
        exact h1
      | some x =>
        obtain ⟨⟨s2,r2⟩,hs2,ht⟩ := bind_eq_some_iff.mp ht
        cases ht
        exact ih h1 hs2
    · cases ht
      exact h

/-- The calls that look up pages, one or many. -/
def Accesses : Call D → Prop
  | .lookup .. | .read .. | .write .. | .vmmapRead .. | .vmmapWrite .. => True
  | _ => False

/-- They keep what new frames and stores into frames keep. -/
theorem Sys.access {c : Env D × Call D} (I : Memory D → Prop) (hadds : ∀ {s t}, Sys U t → Adds s t → I s → I t)
    (hstore : ∀ {s} f (g : D → D), I s → I (s.modFrame f fun pf => { pf with pfData := g pf.pfData })) (h : Sys U s)
    (hI : I s) (hc : Accesses c.2) (hst : step U s c = some t) : Sys U t ∧ I t := by
  have hread : ∀ {env pid v s t r}, Sys U s ∧ I s → readPage env pid v s = some (t, r) → Sys U t ∧ I t := by
    rintro env pid v s t r ⟨hs,hI⟩ ht
    obtain ⟨hsys,ha⟩ := hs.readPage_adds ht
    exact ⟨hsys,hadds hsys ha hI⟩
  have hwrite : ∀ {env pid v g s t r}, Sys U s ∧ I s → Memory.writePage env pid v g s = some (t, r) → Sys U t ∧ I t := by
    rintro env pid v g s t r ⟨hs,hI⟩ ht
    obtain ⟨-,rfl,-⟩ | ⟨-,a,o,s1,f,-,-,hsys,hl,rfl⟩ := hs.writePage_looked ht
    · exact ⟨hs,hI⟩
    · exact ⟨hsys.store f g,hstore f g (hadds hsys hl.adds hI)⟩
  obtain ⟨env,c⟩ := c
  cases c with
  | lookup pid vfn forwrite =>
    obtain ⟨⟨t',r⟩,ht,rfl⟩ := map_eq_some_iff.mp hst
    obtain ⟨hsys,a,o,-,-,hl⟩ := h.lookupVfn ht
    exact ⟨hsys,hadds hsys hl.adds hI⟩
  | read pid vfn =>
    obtain ⟨⟨t',r⟩,ht,rfl⟩ := map_eq_some_iff.mp hst
    exact hread ⟨h,hI⟩ ht
  | write pid vfn store =>
    obtain ⟨⟨t',r⟩,ht,rfl⟩ := map_eq_some_iff.mp hst
    exact hwrite ⟨h,hI⟩ ht
  | vmmapRead pid vaddr count =>
    obtain ⟨⟨t',r⟩,ht,rfl⟩ := map_eq_some_iff.mp hst
    exact copyPages_rule (fun s => Sys U s ∧ I s) (fun _ _ _ _ _ _ => hread) ⟨h,hI⟩ ht
  | vmmapWrite pid vaddr count store =>
    obtain ⟨⟨t',r⟩,ht,rfl⟩ := map_eq_some_iff.mp hst
    exact copyPages_rule (fun s => Sys U s ∧ I s) (fun _ _ _ _ _ _ => hwrite) ⟨h,hI⟩ ht
  | _ => exact hc.elim

/-- The calls that leave the maps of the processes. -/
def Mapless : Call D → Prop
  | .reclaim _ | .vget | .vref _ | .vput _ => True
  | c => Accesses c

theorem Sys.mapless {c : Env D × Call D} (h : Sys U s) (hc : Mapless c.2) (hst : step U s c = some t) : Clears s t := by
  have hacc : Accesses c.2 → Clears s t := fun hc =>
    (h.access (Clears s) (fun _ ha h => h.trans ha.clears) (fun _ _ h => h.trans (.of_procs rfl rfl rfl)) (.refl s) hc hst).2
  obtain ⟨env,c⟩ := c
  cases c with
  | reclaim frame =>
    have hput : ∀ o s t, put env o s = some t → Clears s t := fun _ _ _ => put_clears
    exact pframeFree_clears hput hst
  | vget =>
    cases hst
    exact .of_procs rfl rfl rfl
  | vref o =>
    obtain ⟨s1,hs1,rfl⟩ := map_eq_some_iff.mp hst
    exact (ref_clears hs1).trans (.of_procs rfl rfl rfl)
  | vput o =>
    obtain ⟨s1,hs1,rfl⟩ := map_eq_some_iff.mp hst
    exact (put_clears hs1).trans (.of_procs rfl rfl rfl)
  | _ => exact hacc hc

end Lookups

/-! ### Adding mappings and processes -/

theorem Sys.map (h : Sys U s) (env : Env D) (dir : Dir) (prot : Prot) {lopage : ℕ} (hlive : s.live pid)
    (hf : Mappable env s file) (hn : n < 2 ^ 32) (hargs : MapArgs U s pid lopage n flags off) :
    ∃ t r, vmmapMap U env pid file lopage n prot flags off dir s = some (t, r) ∧ Sys U t ∧ Keeps s t ∧
      ((∃ e, r = .error e) ∧ t = s ∨ ∃ lo o, r = .ok lo ∧ Mapped U pid lo n prot flags off s t o ∧
        NewTop file flags s t o) := by
  obtain ⟨t,r,ht,hheap,hk,hb,hcase⟩ := vmmapMap_heap env dir prot (h.list pid) hlive h.heap
    (fun _ => Int.le_refl _) (fun x hx => h.fresh hx) (h.backed pid) hf hn hargs
  refine ⟨t,r,ht,?_,hk,hcase⟩
  rcases hcase with ⟨-,rfl⟩ | ⟨lo,o,-,hm,htop⟩
  · exact h
  · refine ⟨hm.edits.lists h.list hm.list,fun q => ?_,by rw [hk.held]; exact hheap,fun x hx => hk.held_vnode h hx,
      h.owned.mapped h.heap hheap hk hm htop hargs.flags_ok⟩
    by_cases hq : q = pid
    · rw [hq]
      exact hb
    · intro a ha
      rw [hm.edits.vmmList q hq] at ha
      exact h.backed q a ha

theorem Sys.vmmapMap (h : Sys U s) {dir : Dir} {lopage : ℕ} (hlive : s.live pid)
    (hf : Mappable env s file) (hn : n < 2 ^ 32)
    (ht : vmmapMap U env pid file lopage n prot flags off dir s = some (t, r)) : Next U s t := by
  obtain ⟨t',r',ht',hsys,hk,-⟩ := h.map env dir prot hlive hf hn (vmmapMap_args hn (h.list pid) ht)
  cases ht'.symm.trans ht
  exact ⟨hsys,hk.ages⟩

theorem Forked.lists (hf : Forked U pid s t) (h : ∀ q, ListInv U s q) (q : ℕ) : ListInv U t q := by
  have hp := h pid
  by_cases hqp : q = pid
  · subst hqp
    refine ⟨?_,?_,fun a ha => ?_⟩
    · rw [hf.parent]
      exact hp.ok.of_spans spans_forkedAreas
    · rw [areaIds,hf.parent,ids_forkedAreas]
      exact hp.ids
    · rw [hf.parent] at ha
      obtain ⟨b,hb,hid,-⟩ := mem_forkedAreas ha
      rw [hid,hf.nextArea]
      exact Nat.lt_of_lt_of_le (hp.fresh b hb) (Nat.le_add_right _ _)
  · by_cases hqc : q = s.nextPid
    · subst hqc
      refine ⟨?_,?_,fun a ha => ?_⟩
      · rw [hf.child]
        exact hp.ok.of_spans (spans_renumber.trans spans_forkedAreas)
      · rw [areaIds,hf.child,ids_renumber]
        exact List.nodup_range'
      · rw [hf.child] at ha
        obtain ⟨b,-,i,-,hi,rfl⟩ := mem_renumber ha
        rw [length_forkedAreas] at hi
        rw [hf.nextArea]
        exact hi
    · refine (h q).congr (hf.other q hqp hqc) ?_
      rw [hf.nextArea]
      exact Nat.le_add_right _ _

theorem Forked.backed (hf : Forked U pid s t) (h : ∀ q, Backed s q) (q : ℕ) : Backed t q := by
  intro a ha
  rcases hf.area_cases ha with ⟨r,b,hb,-,-,he⟩ | ⟨side,-,-,-,p,hp,hps,he⟩
  · rw [obj_of_target (he 0)]
    exact h r b hb
  · obtain ⟨j,hj,-⟩ := forkedAreas_obj hp hps
    rw [obj_of_target (he 0),hj]
    rfl

theorem Sys.fork (h : Sys U s) (hlive : s.live pid) : ∃ t, doFork U pid s = some t ∧ Sys U t ∧ Forked U pid s t := by
  obtain ⟨t,ht,hheap,hf⟩ := doFork_heap (h.list pid) hlive h.heap (fun x hx => h.fresh hx) (h.backed pid)
  have hk := hf.grows.keeps
  exact ⟨t,ht,⟨hf.lists h.list,hf.backed h.backed,by rw [hk.held]; exact hheap,fun x hx => hk.held_vnode h hx,
    h.owned.forked h.heap hheap hf⟩,hf⟩

theorem vmmList_procCreate (h : Heap s ∅ ext) (q : ℕ) : s.procCreate.vmmList q = s.vmmList q := by
  by_cases hq : q = s.nextPid
  · subst hq
    rw [h.vmmList_nextPid]
    simp [vmmList,procCreate]
  · simp [vmmList,procCreate,hq]

theorem Heap.procCreate (h : Heap s ∅ ext) : Heap s.procCreate ∅ ext := by
  have hl := vmmList_procCreate h
  refine h.relist (fun _ => rfl) rfl ⟨rfl,rfl⟩ (fun x ob hx link hm => ?_) (fun q a ha x hx => ?_) (fun q hq => ?_) ?_
  · rw [hl]
    exact h.holders.vmas x ob hx link hm
  · rw [hl] at ha
    exact (h.holders.area q a ha x hx).2
  · change q < s.nextPid+1
    by_cases hqn : q = s.nextPid
    · omega
    · have : s.live q := by simpa [live,Memory.procCreate,hqn] using hq
      exact Nat.lt_succ_of_lt (h.holders.pid_lt q this)
  · have : s.procCreate.areaRefs = s.areaRefs := by
      unfold areaRefs
      change ∑ q ∈ Finset.range (s.nextPid+1), _ = _
      rw [Finset.sum_range_succ,hl,h.vmmList_nextPid,tallyList_nil,add_zero]
      exact Finset.sum_congr rfl fun q _ => by rw [hl]
    rw [this]

theorem Sys.procCreate (h : Sys U s) : Next U s s.procCreate :=
  ⟨h.same_lists (vmmList_procCreate h.heap) (Nat.le_refl _) h.heap.procCreate (fun _ => rfl) rfl,
    .of_shape rfl fun _ => rfl⟩

/-! ### Pages and files -/

/-- References from outside are no part of the heap. -/
theorem Heap.setHeld (h : Heap s ∅ ext) (g : ℕ → ℕ) : Heap { s with held := g } ∅ ext :=
  h.relist (fun _ => rfl) rfl ⟨rfl,rfl⟩ h.holders.vmas (fun q a ha x hx => (h.holders.area q a ha x hx).2)
    h.holders.pid_lt rfl

theorem Sys.vget (h : Sys U s) : Next U s ((newObj .vnode s).hold s.nextObj) := by
  have hnew : newObj .vnode s = s.create ⟨.vnode,1,0,[],none,none,[]⟩ := rfl
  have h1 : Heap (s.create ⟨.vnode,1,0,[],none,none,[]⟩) ∅ ((fun x => (s.held x : ℤ))+Pi.single s.nextObj 1 -
      links (some ⟨.vnode,1,0,[],none,none,[]⟩)) :=
    h.heap.create (h.fresh (Nat.le_refl _)) ⟨rfl,rfl,rfl,rfl⟩ (fun _ => ⟨rfl,rfl⟩) fun hk => by cases hk
  rw [← hnew] at h1
  have hobjs : ∀ x, ((newObj .vnode s).hold s.nextObj).objs x =
      if x = s.nextObj then some ⟨.vnode,1,0,[],none,none,[]⟩ else s.objs x := by
    intro x
    change (newObj .vnode s).objs x = _
    rw [hnew,objs_create]
  have hheld : ∀ x, ((newObj .vnode s).hold s.nextObj).held x = s.held x+if x = s.nextObj then 1 else 0 := by
    intro x
    change update s.held s.nextObj (s.held s.nextObj+1) x = _
    by_cases hx : x = s.nextObj
    · subst hx
      simp
    · simp [hx]
  refine ⟨h.evolve (fun q => (h.list q).congr rfl (Nat.le_refl _)) ?_ (fun x hx => ?_)
    (fun q b hb => ⟨b,hb,fun _ => rfl⟩) fun x ob hx => ?_,Nat.le_succ _,fun x ob hx hxo => ?_⟩
  · have hext : (fun x => ((((newObj .vnode s).hold s.nextObj).held x : ℕ) : ℤ)) =
        (fun x => (s.held x : ℤ))+Pi.single s.nextObj 1 - links (some ⟨.vnode,1,0,[],none,none,[]⟩) := by
      funext x
      rw [hheld]
      by_cases hx : x = s.nextObj
      · subst hx
        simp [links]
      · simp [links,hx]
    rw [hext]
    exact h1.setHeld _
  · rw [hheld] at hx
    rw [hobjs]
    split
    · exact ⟨_,rfl,rfl⟩
    next hne =>
      rw [if_neg hne,add_zero] at hx
      exact h.held x hx
  · rw [hobjs] at hx
    split at hx
    next he =>
      cases hx
      exact .inr ⟨Nat.le_of_eq he.symm,rfl⟩
    · exact .inl ⟨ob,hx,rfl⟩
  · rw [hobjs,if_neg (Nat.ne_of_lt hx)] at hxo
    exact ⟨ob,hxo,rfl⟩

theorem held_hold (s : Memory D) (o : ℕ) :
    (fun x => ((s.hold o).held x : ℤ)) = (fun x => (s.held x : ℤ))+Pi.single o 1 := by
  funext x
  change ((update s.held o (s.held o+1) x : ℕ) : ℤ) = _
  by_cases hx : x = o
  · subst hx
    simp
  · simp [hx]

theorem Sys.vref (h : Sys U s) (ho : s.objs o = some ob) (hv : ob.mmoOps = .vnode)
    (ht : (ref o s).map (hold o) = some t) : Next U s t := by
  obtain ⟨s1,hs1,h1,he⟩ := h.heap.ref (by simp [ho]) (Finset.notMem_empty o)
  rw [hs1] at ht
  cases ht
  have hcl := ref_clears hs1
  have hheld1 : s1.held = s.held := by rw [he]; rfl
  have hshape : ∀ x, (s1.objs x).map shape = (s.objs x).map shape := by
    rw [he]
    exact shape_modObj fun _ => rfl
  refine ⟨h.evolve (fun q => (h.list q).congr (hcl.vmmList q) (Nat.le_of_eq hcl.nextArea.symm)) ?_ (fun x hx => ?_)
    (fun q b hb => ⟨b,hcl.vmmList q ▸ hb,fun _ => rfl⟩) fun x xob hx => ?_,.of_shape (t := s1.hold o) (nextObj_ref hs1 :) hshape⟩
  · rw [held_hold,hheld1]
    exact h1.setHeld _
  · have hx' : x = o ∨ 0 < s.held x := by
      by_cases hxo : x = o
      · exact .inl hxo
      · have : update s1.held o (s1.held o+1) x = s1.held x := update_of_ne hxo ..
        change 0 < update s1.held o (s1.held o+1) x at hx
        rw [this,hheld1] at hx
        exact .inr hx
    obtain ⟨ob0,h0,hv0⟩ : ∃ ob0, s.objs x = some ob0 ∧ ob0.mmoOps = .vnode := by
      rcases hx' with rfl | hx'
      · exact ⟨ob,ho,hv⟩
      · exact h.held x hx'
    have hs := hshape x
    rw [h0] at hs
    obtain ⟨ob1,hob1,hs⟩ := map_eq_some_iff.mp hs
    exact ⟨ob1,hob1,(congrArg Prod.fst hs).trans hv0⟩
  · have hs := hshape x
    change s1.objs x = some xob at hx
    rw [hx] at hs
    obtain ⟨ob0,h0,hs⟩ := map_eq_some_iff.mp hs.symm
    exact .inl ⟨ob0,h0,hs.symm⟩

/-- A reference that is dropped, when `g` is what is held afterwards. -/
theorem Sys.dropped {ext : ℕ → ℤ} {g : ℕ → ℕ} {s1 : Memory D} (h : Sys U s) (hd : Dropped s1 t ∅ ext o)
    (hcl : Clears s s1) (hn : s1.nextObj = s.nextObj) (hshape : ∀ x, (s1.objs x).map shape = (s.objs x).map shape)
    (hg : ∀ x, (g x : ℤ) = ext x - (Pi.single o 1 : ℕ → ℤ) x) (hle : ∀ x, g x ≤ s.held x) :
    Next U s { t with held := g } := by
  have hct := hcl.trans hd.drops.clears
  have hobj : ∀ x ob, t.objs x = some ob → ∃ ob0, s.objs x = some ob0 ∧ shape ob = shape ob0 := by
    intro x ob hx
    obtain ⟨r,hr⟩ := hd.drops.obj x ob (Finset.notMem_empty x) hx
    have hs := hshape x
    rw [hr] at hs
    obtain ⟨ob0,h0,hs⟩ := map_eq_some_iff.mp hs.symm
    exact ⟨ob0,h0,hs.symm⟩
  refine ⟨h.evolve (fun q => (h.list q).congr (hct.vmmList q) (Nat.le_of_eq hct.nextArea.symm)) ?_ (fun x hx => ?_)
    (fun q b hb => ⟨b,hct.vmmList q ▸ hb,fun _ => rfl⟩) fun x ob hx => .inl (hobj x ob hx),
    Nat.le_of_eq (hd.drops.nextObj.trans hn).symm,fun x ob _ hx => hobj x ob hx⟩
  · rw [show (fun x => (g x : ℤ)) = ext - Pi.single o 1 from funext hg]
    exact hd.heap.setHeld _
  · change 0 < g x at hx
    obtain ⟨ob0,h0,hv⟩ := h.held x (Nat.lt_of_lt_of_le hx (hle x))
    have hsome : (s1.objs x).isSome := by
      rw [← isSome_map,hshape,isSome_map,h0]
      rfl
    have hge : (if x = o then (2 : ℤ) else 1) ≤ ext x := by
      have := hg x
      by_cases hxo : x = o
      · subst hxo
        simp only [Pi.single_eq_same] at this
        rw [if_pos rfl]
        omega
      · simp only [Pi.single_eq_of_ne hxo] at this
        rw [if_neg hxo]
        omega
    obtain ⟨ob,hob⟩ := isSome_iff_exists.mp (hd.kept x (Finset.notMem_empty x) hsome hge)
    obtain ⟨ob1,h1,hs⟩ := hobj x ob hob
    cases h0.symm.trans h1
    exact ⟨ob,hob,(congrArg Prod.fst hs).trans hv⟩

theorem Sys.vput (h : Sys U s) (ho : 0 < s.held o) (ht : (put env o s).map (release o) = some t) : Next U s t := by
  obtain ⟨ob,hob,-⟩ := h.held o ho
  obtain ⟨s1,hs1,hd⟩ := h.heap.put env (fun x => Int.natCast_nonneg _) (by simp [hob]) (Finset.notMem_empty o)
    (by omega)
  rw [hs1] at ht
  cases ht
  have hheld : s1.held = s.held := hd.drops.held
  refine h.dropped hd (Clears.refl s) rfl (fun _ => rfl) (fun x => ?_) fun x => ?_
  · rw [hheld]
    by_cases hx : x = o
    · subst hx
      simp only [update_self,Pi.single_eq_same]
      omega
    · simp [hx]
  · rw [hheld]
    by_cases hx : x = o
    · subst hx
      simp
    · simp [hx]

/-- A page that is freed is taken out of the page tables and off its object, and then the
reference to the object is dropped. -/
theorem Sys.reclaim_steps (h : Sys U s) (ht : pframeFree (put env) f s = some t) :
    ∃ pf s1, s.frames f = some pf ∧ pframeUncache f pf s = some s1 ∧ put env pf.pfObj s1 = some t ∧
      Uncached s s1 f pf.pfObj ∧ Dropped s1 t ∅ ((fun x => (s.held x : ℤ))+Pi.single pf.pfObj 1) pf.pfObj := by
  obtain ⟨pf,hf,ht⟩ := bind_eq_some_iff.mp ht
  obtain ⟨s1,hs1,hput⟩ := bind_eq_some_iff.mp ht
  have hpin : pf.pfPincount = 0 := by
    by_contra hc
    simp [pframeUncache,hc] at hs1
  have hu := of_returns (h.heap.pframeUncache hf hpin (Finset.notMem_empty _)) hs1
  obtain ⟨ob,hob,-⟩ := h.heap.pages.owner hf
  have hsome : (s1.objs pf.pfObj).isSome := by
    rw [← isSome_map,hu.shape,isSome_map,hob]
    rfl
  have hpos : ∀ x, 0 ≤ (s.held x : ℤ)+(Pi.single pf.pfObj 1 : ℕ → ℤ) x := fun x =>
    add_nonneg (Int.natCast_nonneg _) (single_nonneg pf.pfObj x)
  have hd := of_returns ((h.heap.uncached hf hu).put env hpos hsome (Finset.notMem_empty _) (by simp)) hput
  exact ⟨pf,s1,hf,hs1,hput,hu,hd⟩

theorem Sys.reclaim (h : Sys U s) (ht : pframeFree (put env) f s = some t) : Next U s t := by
  obtain ⟨pf,s1,-,-,-,hu,hd⟩ := h.reclaim_steps ht
  have hheld : t.held = s.held := hd.drops.held.trans hu.held
  have hsys := h.dropped hd hu.clears hu.nextObj hu.shape (g := s.held) (fun x => by simp) fun x => Nat.le_refl _
  rwa [← hheld] at hsys

/-! ### Runs -/

/-- The calls of a run: a process that maps or forks has not exited, a file that is mapped
is held and can be mapped, a range that is removed does not wrap, and references to files
are dropped by those who hold them. -/
def Allowed (s : Memory D) : Env D × Call D → Prop
  | (env, .map pid file _ npages _ _ _ _) => s.live pid ∧ npages < 2 ^ 32 ∧ Mappable env s file
  | (_, .remove _ lopage npages) => lopage+npages < 2 ^ 32
  | (env, .mmap pid _ len _ flags file _) =>
    s.live pid ∧ len < 2 ^ 32 ∧ (flags.anon = false → Mappable env s (file.map Prod.fst))
  | (_, .munmap _ addr len) => addr+len < 2 ^ 32
  | (_, .fork pid) => s.live pid
  | (_, .vref o) => ∃ ob, s.objs o = some ob ∧ ob.mmoOps = .vnode
  | (_, .vput o) => 0 < s.held o
  | _ => True

variable {len : ℕ}

theorem pagesOf_lt (h : len < 2 ^ 32) : pagesOf len ≤ 2 ^ 20 := by
  unfold pagesOf pageSize
  split <;> omega

/-- `do_mmap` refuses, or it is `vmmap_map`. -/
theorem doMmap_cases {file : Option (ℕ × Bool)}
    (ht : doMmap U env pid addr len prot flags file off s = some (t, r)) : t = s ∨ ∃ f,
      ((flags.anon = false → Mappable env s (file.map Prod.fst)) → Mappable env s f) ∧
      vmmapMap U env pid f (addr / pageSize) (pagesOf len) prot flags off .hilo s = some (t, r) := by
  unfold doMmap at ht
  split at ht
  · cases ht
    exact .inl rfl
  split at ht
  · cases ht
    exact .inl rfl
  split at ht
  · cases ht
    exact .inl rfl
  split at ht
  · cases ht
    exact .inl rfl
  split at ht
  · exact .inr ⟨none,fun _ => by rintro _ ⟨⟩,ht⟩
  next hanon =>
    split at ht
    · cases ht
      exact .inl rfl
    · split at ht
      · cases ht
        exact .inl rfl
      · exact .inr ⟨_,fun hf => hf (by simpa using hanon),ht⟩

theorem Sys.doMmap (h : Sys U s) {file : Option (ℕ × Bool)} (hlive : s.live pid)
    (hlen : len < 2 ^ 32) (hf : flags.anon = false → Mappable env s (file.map Prod.fst))
    (ht : doMmap U env pid addr len prot flags file off s = some (t, r)) : Next U s t := by
  rcases doMmap_cases ht with rfl | ⟨f,hfile,ht⟩
  · exact .refl h
  · exact h.vmmapMap hlive (hfile hf) (Nat.lt_of_le_of_lt (pagesOf_lt hlen) (by decide)) ht

theorem Sys.munmap (h : Sys U s) (env : Env D) (pid : ℕ) (ha : addr < 2 ^ 32) (hlen : len < 2 ^ 32) :
    ∃ t r, doMunmap U env pid addr len s = some (t, r) ∧ Sys U t ∧ Shrinks s t ∧
      (t = s ∨ Removed U pid (addr / pageSize) (addr / pageSize+pagesOf len) s t) := by
  have hp := pagesOf_lt hlen
  have hn : addr / pageSize+pagesOf len < 2 ^ 32 := by
    unfold pageSize
    omega
  unfold Memory.doMunmap
  split
  · exact ⟨s,_,rfl,h,(SameHeap.refl s).shrinks,.inl rfl⟩
  split
  · exact ⟨s,_,rfl,h,(SameHeap.refl s).shrinks,.inl rfl⟩
  · obtain ⟨t,ht,hsys,hs,hrem⟩ := h.remove env pid hn
    exact ⟨t,_,by rw [ht]; rfl,hsys,hs,.inr hrem⟩

/-- `do_munmap` refuses, or it is `vmmap_remove`. -/
theorem doMunmap_cases {r : Except Errno Unit} (ht : doMunmap U env pid addr len s = some (t, r)) : t = s ∨
    (addr+len < 2 ^ 32 → addr / pageSize+pagesOf len < 2 ^ 20) ∧
      vmmapRemove U env pid (addr / pageSize) (pagesOf len) s = some t := by
  unfold doMunmap at ht
  split at ht
  · cases ht
    exact .inl rfl
  split at ht
  · cases ht
    exact .inl rfl
  next haddr hrange =>
    obtain ⟨t',hrem,he⟩ := map_eq_some_iff.mp ht
    cases he
    refine .inr ⟨fun hlen => ?_,hrem⟩
    have hH := U.high_lt
    rw [u32_add hlen] at hrange
    have hin : addr+len ≤ U.high*pageSize := by omega
    unfold pagesOf pageSize at *
    split <;> omega

theorem Sys.doMunmap (h : Sys U s) {r : Except Errno Unit} (hlen : addr+len < 2 ^ 32)
    (ht : doMunmap U env pid addr len s = some (t, r)) : Next U s t := by
  rcases doMunmap_cases ht with rfl | ⟨hn,hrem⟩
  · exact .refl h
  · exact h.next_remove (Nat.lt_trans (hn hlen) (by decide)) hrem

theorem Sys.step [Zero D] {c : Env D × Call D} (h : Sys U s) (hc : Allowed s c) (hst : step U s c = some t) :
    Next U s t := by
  have hacc : Accesses c.2 → Next U s t := fun hc => by
    obtain ⟨hsys,hages⟩ := h.access (Ages s) (fun _ ha h => h.trans ha.ages) (fun _ _ h => h.trans (.of_shape rfl fun _ => rfl))
      (.refl s) hc hst
    exact ⟨hsys,hages⟩
  obtain ⟨env,c⟩ := c
  cases c with
  | procCreate =>
    cases hst
    exact h.procCreate
  | map pid file lopage npages prot flags off dir =>
    obtain ⟨⟨t',r⟩,ht,rfl⟩ := map_eq_some_iff.mp hst
    exact h.vmmapMap hc.1 hc.2.2 hc.2.1 ht
  | remove pid lopage npages => exact h.next_remove hc hst
  | mmap pid addr len prot flags file off =>
    obtain ⟨⟨t',r⟩,ht,rfl⟩ := map_eq_some_iff.mp hst
    exact h.doMmap hc.1 hc.2.1 hc.2.2 ht
  | munmap pid addr len =>
    obtain ⟨⟨t',r⟩,ht,rfl⟩ := map_eq_some_iff.mp hst
    exact h.doMunmap hc ht
  | brk pid addr =>
    obtain ⟨⟨t',r⟩,ht,rfl⟩ := map_eq_some_iff.mp hst
    exact ⟨(h.brk ht).1,(h.brk ht).2.ages⟩
  | fork pid =>
    obtain ⟨hsys,hf⟩ := of_returns (h.fork hc) hst
    exact ⟨hsys,hf.grows.keeps.ages⟩
  | exit pid => exact h.next_exit hst
  | pagefault pid vaddr cause => exact h.pagefault hst
  | reclaim frame => exact h.reclaim hst
  | vget =>
    cases hst
    exact h.vget
  | vref o =>
    obtain ⟨ob,ho,hv⟩ := hc
    exact h.vref ho hv hst
  | vput o => exact h.vput hc hst
  | _ => exact hacc trivial

/-- No process, object or frame yet. -/
structure Initial (s : Memory D) : Prop where
  objs : ∀ o, s.objs o = none
  frames : ∀ f, s.frames f = none
  procs : ∀ pid, s.procs pid = none
  held : ∀ o, s.held o = 0

theorem Initial.vmmList (h : Initial s) (q : ℕ) : s.vmmList q = [] := by simp [Memory.vmmList,h.procs]

theorem Initial.heap (h : Initial s) : Heap s ∅ fun x => (s.held x : ℤ) where
  shape := ⟨by simp [h.objs],by simp [h.objs],by simp [h.objs]⟩
  pages := by
    refine ⟨fun o => ?_,by simp [h.objs],by simp [h.frames],by simp [h.frames],by simp [h.frames]⟩
    simp [respages,h.objs,h.frames]
  holders := ⟨by simp [h.objs],by simp [h.vmmList],by simp [live,h.procs]⟩
  count := by
    intro o ob ho
    simp [h.objs] at ho
  used := by simp [h.objs]

theorem Initial.sys (h : Initial s) : Sys U s where
  list q := listInv_nil (h.vmmList q)
  backed q a ha := by simp [h.vmmList] at ha
  heap := h.heap
  held x hx := by simp [h.held] at hx
  owned := ⟨by simp [h.vmmList],by simp [h.vmmList],by simp [h.vmmList]⟩

theorem sys_of_exec [Zero D] {s0 : Memory D} {cs : List (Env D × Call D)} (h0 : Sys U s0)
    (h : Exec (step U) Allowed s0 cs s) : Sys U s := by
  induction h with
  | nil => exact h0
  | snoc _ hc hst ih => exact (ih.step hc hst).sys

/-! ### A memory to start from -/

instance (s : Memory D) (o : ℕ) : Decidable (∃ ob, s.objs o = some ob ∧ ob.mmoOps = .vnode) :=
  inferInstanceAs (Decidable (∃ ob ∈ s.objs o, _))

instance (env : Env D) (s : Memory D) (file : Option ℕ) : Decidable (Mappable env s file) :=
  inferInstanceAs (Decidable (∀ f ∈ file, _))

instance (s : Memory D) (pid : ℕ) : Decidable (s.live pid) := inferInstanceAs (Decidable (_ = _))

instance (s : Memory D) : ∀ c : Env D × Call D, Decidable (Allowed s c) := by
  rintro ⟨env,⟨⟩⟩ <;> unfold Allowed <;> infer_instance

end Memory

def emptyMemory : Memory ℕ := ⟨fun _ => none,fun _ => none,fun _ => none,0,0,0,0,fun _ _ => 0,fun _ => 0⟩

theorem emptyMemory_initial : emptyMemory.Initial := ⟨fun _ => rfl,fun _ => rfl,fun _ => rfl,fun _ => rfl⟩

/-- Every frame can be had and every file can be read and mapped. -/
def calmEnv : Env ℕ := ⟨fun _ => true,fun _ => true,fun _ => true,fun _ => none,0⟩

def readWrite : Prot := ⟨true,true,false⟩

def privateAnon : MapFlags := ⟨false,true,true,true⟩

end Csci402.Vm
