import Csci402.Vm.HeapAreas

/-! Taking mappings away: `vmmap_remove`, `vmmap_destroy` and exit return whenever the
heap is consistent, and leave it so. -/

namespace Csci402.Vm

namespace Memory

open Lib Function Option List

variable {D : Type} {U : UserMem} {s t u : Memory D} {ext : ℕ → ℤ}
  {pid lo hi n k o : ℕ} {a : Vmarea} {done rest : List Vmarea}

/-- Every area of the process has an object. -/
def Backed (s : Memory D) (pid : ℕ) : Prop := ∀ a ∈ s.vmmList pid, a.vmaObj.isSome

theorem insertArea_perm (a : Vmarea) (l : List Vmarea) : (insertArea a l).Perm (a :: l) := by
  induction l with
  | nil => exact List.Perm.refl _
  | cons b l ih =>
    unfold insertArea
    split
    · exact List.Perm.refl _
    · exact (ih.cons b).trans (List.Perm.swap a b l)

/-! ### `vmmap_remove` -/

/-- An area goes, with its reference. -/
theorem Heap.unlinkPut (env : Env D) (h : Heap s ∅ ext) (hpos : ∀ x, (s.held x : ℤ) ≤ ext x)
    (hl : s.vmmList pid = done ++ a :: rest) (hn : (s.areaIds pid).Nodup) (ho : a.vmaObj = some o) :
    ∃ t, Memory.put env o (s.unlinkArea pid a.vmaId) = some t ∧ Heap t ∅ ext ∧ Shrinks s t ∧
      DropsOff ∅ (s.unlinkArea pid a.vmaId) t := by
  have hu := h.unlinkArea hl hn
  rw [ho,tally_some] at hu
  have hsome : ((s.unlinkArea pid a.vmaId).objs o).isSome := by
    change ((s.objs o).map _).isSome
    rw [isSome_map]
    exact (h.holders.area pid a (by simp [hl]) o ho).2
  have hge : ∀ x, (s.held x : ℤ)+(if x = o then 1 else 0) ≤ (ext+Pi.single o 1 : ℕ → ℤ) x := by
    intro x
    have := hpos x
    rw [Pi.add_apply,Pi.single_apply]
    omega
  obtain ⟨t,ht,hd⟩ := hu.put env (fun x => by have := hge x; omega) hsome (Finset.notMem_empty o) (by
    have := hge o
    rw [if_pos rfl] at this
    omega)
  have hheap := hd.heap
  rw [add_sub_cancel_right] at hheap
  have hkeep := hd.drops.keeps fun x hx hs => hd.kept x (Finset.notMem_empty x) hs (by
    have := hge x
    change 0 < s.held x at hx
    split at this <;> split <;> omega)
  exact ⟨t,ht,hheap,⟨(keeps_unlinkArea s pid a.vmaId).trans hkeep,hd.drops.nextObj⟩,hd.drops⟩

theorem splitArea_heap (h : ListInv U s pid) (hh : Heap s ∅ ext)
    (hl : s.vmmList pid = done ++ a :: rest) (ho : a.vmaObj = some o) (hlh : lo ≤ hi)
    (hc : a.vmaEnd > hi ∧ a.vmaStart < lo) :
    ∃ t, splitArea U pid lo hi a s = some t ∧ Heap t ∅ ext ∧ Shrinks s t := by
  have hmem : a ∈ s.vmmList pid := by simp [hl]
  have hb := h.ok.bounds a hmem
  have hsome := (hh.holders.area pid a hmem o ho).2
  unfold splitArea
  generalize hnew : ({ a with
    vmaId := s.nextArea
    vmaStart := hi
    vmaOff := u32 (a.vmaOff+hi - a.vmaStart) } : Vmarea) = newvma
  have hid : newvma.vmaId = s.nextArea := by rw [← hnew]
  have hno : newvma.vmaObj = some o := by rw [← hnew]; exact ho
  have hins : vmmapInsert U newvma (s.vmmList pid) = some (insertArea newvma (s.vmmList pid)) := by
    refine if_pos ?_
    rw [← hnew]
    simp only
    omega
  have hperm := insertArea_perm newvma (s.vmmList pid)
  have hlive : s.live pid := live_of_mem hmem
  have hadd := hh.addArea hlive hperm (by rw [hno]; rintro _ ⟨⟩; exact hsome)
  obtain ⟨s1,hs1,hheap1,he1⟩ := hadd.ref hsome (Finset.notMem_empty o)
  have hcl := ref_clears hs1
  have hlist : s1.vmmList pid = insertArea newvma (s.vmmList pid) := by
    rw [hcl.vmmList pid]
    exact (vmmList_setList hlive).trans (if_pos rfl)
  obtain ⟨done',rest',hl'⟩ := append_of_mem (hperm.mem_iff.mpr (mem_cons_of_mem _ hmem))
  rw [hl'] at hlist
  have hids : (s1.areaIds pid).Nodup := by
    rw [areaIds,hlist,← hl']
    exact h.ids_addArea hid hperm
  have hsome1 : (s1.objs o).isSome := by
    rw [he1,objs_modObj,if_pos rfl,isSome_map]
    exact hsome
  have hmod := hheap1.modArea (f := fun a => { a with vmaEnd := lo }) hlist hids rfl (by
    rw [ho]; rintro _ ⟨⟩; exact hsome1)
  have hext : ext - tally newvma.vmaObj+Pi.single o 1+(tally a.vmaObj - tally a.vmaObj) = ext := by
    rw [hno,tally_some]
    abel
  rw [hext] at hmod
  refine ⟨_,?_,hmod,?_⟩
  · simp only [hins,hno,hs1,bind_eq_bind,bind_some]
    rfl
  · have h1 : Shrinks (s.addArea pid (insertArea newvma (s.vmmList pid))) s1 := by
      rw [he1]
      exact ⟨keeps_modObj fun _ => rfl,rfl⟩
    exact ((sameHeap_addArea s pid _).shrinks.trans h1).trans (sameHeap_modArea s1 pid _ _).shrinks

theorem removeArea_heap (env : Env D) (h : ListInv U s pid) (hh : Heap s ∅ ext) (hpos : ∀ x, (s.held x : ℤ) ≤ ext x)
    (hl : s.vmmList pid = done ++ a :: rest) (ho : a.vmaObj = some o) (hlh : lo ≤ hi) :
    ∃ t, removeArea U env pid lo hi a.vmaId s = some t ∧ Heap t ∅ ext ∧ Shrinks s t := by
  -- an area that is shortened keeps its object
  have hmod : ∀ f : Vmarea → Vmarea, (f a).vmaId = a.vmaId → (f a).vmaObj = a.vmaObj →
      Heap (s.modArea pid a.vmaId f) ∅ ext := by
    intro f hid hob
    have := hh.modArea hl h.ids hid (by
      rw [hob]
      exact fun x hx => (hh.holders.area pid a (by simp [hl]) x hx).2)
    rwa [hob,sub_self,add_zero] at this
  unfold removeArea
  rw [findArea_eq hl h.ids]
  simp only [bind_eq_bind,bind_some]
  split
  next hc =>
    exact splitArea_heap h hh hl ho hlh hc
  split
  · exact ⟨_,rfl,hmod _ rfl rfl,(sameHeap_modArea s pid _ _).shrinks⟩
  split
  · exact ⟨_,rfl,hmod _ rfl rfl,(sameHeap_modArea s pid _ _).shrinks⟩
  split
  · simp only [ho,bind_some]
    obtain ⟨t,ht,hheap,hs,-⟩ := hh.unlinkPut env hpos hl h.ids ho
    exact ⟨t,ht,hheap,hs⟩
  · exact ⟨s,rfl,hh,(SameHeap.refl s).shrinks⟩

/-- `vmmap_remove` of a range that does not overflow returns. -/
theorem vmmapRemove_heap (env : Env D) (h : ListInv U s pid) (hh : Heap s ∅ ext) (hpos : ∀ x, (s.held x : ℤ) ≤ ext x)
    (hb : Backed s pid) (hn : lo+n < 2 ^ 32) :
    ∃ t, vmmapRemove U env pid lo n s = some t ∧ Heap t ∅ ext ∧ Shrinks s t := by
  have hlh : lo ≤ lo+n := Nat.le_add_right lo n
  have hloop : ∃ s1, listIterate (areaIds pid) (removeArea U env pid lo (lo+n)) s = some s1 ∧
      Cutting U pid lo (lo+n) s [] s1 ∧ Heap s1 ∅ ext ∧ Shrinks s s1 := by
    refine listIterate_rule (fun rest t => Cutting U pid lo (lo+n) s rest t ∧ Heap t ∅ ext ∧ Shrinks s t)
      (fun _ _ _ hI => hI.1.next) (fun k rest t hI => ?_)
      ⟨Cutting.start h,hh,(SameHeap.refl s).shrinks⟩
    have ⟨⟨before,done,todo,hs,hids,hl,hinv,_⟩,ht,hk⟩ := hI
    cases todo with
    | nil => cases hids
    | cons a todo =>
      obtain ⟨rfl,-⟩ := List.cons.inj hids
      obtain ⟨o,ho⟩ := isSome_iff_exists.mp (hb a (by simp [hs]))
      obtain ⟨u,hu,hheap,hkeep⟩ := removeArea_heap env hinv ht (by rwa [hk.held]) hl ho hlh
      exact ⟨u,hu,hI.1.round hlh hu,hheap,hk.trans hkeep⟩
  obtain ⟨s1,hs1,-,hheap,hkeep⟩ := hloop
  refine ⟨s1.ptUnmapRange pid (addrPage lo) (addrPage (lo+n)),?_,
    hheap.clears (clears_ptUnmapRange s1 pid _ _) (sameHeap_ptUnmapRange s1 pid _ _),
    hkeep.trans (sameHeap_ptUnmapRange s1 pid _ _).shrinks⟩
  unfold vmmapRemove
  simp only [u32_add hn,hs1,bind_eq_bind,bind_some]
  rfl

/-- The areas that are left have the objects of the areas they are pieces of. -/
theorem Removed.backed (h : Removed U pid lo hi s t) (hb : Backed s pid) : Backed t pid := by
  intro b hm
  obtain ⟨a,ha,hp,-⟩ := h.piece b hm
  have he : b.vmaObj = a.vmaObj := congrArg Prod.fst (hp.target 0)
  rw [he]
  exact hb a ha

/-! ### `vmmap_destroy` and exit -/

/-- `vmmap_destroy` returns and leaves an empty list; it keeps what every round keeps. -/
theorem vmmapDestroy_heap (env : Env D) (I : Memory D → Prop)
    (hI : ∀ t u k, I t → DropsOff ∅ (t.unlinkArea pid k) u → Heap u ∅ ext → I u) (h0 : I s)
    (hids : (s.areaIds pid).Nodup) (hh : Heap s ∅ ext) (hpos : ∀ x, (s.held x : ℤ) ≤ ext x) (hb : Backed s pid) :
    ∃ t, vmmapDestroy env pid s = some t ∧ Heap t ∅ ext ∧ Shrinks s t ∧ Edits pid s t ∧
      t.nextArea = s.nextArea ∧ t.areaIds pid = [] ∧ I t := by
  -- the areas ahead are all that is left
  suffices ∃ t, vmmapDestroy env pid s = some t ∧ Heap t ∅ ext ∧ Shrinks s t ∧ Edits pid s t ∧
      t.nextArea = s.nextArea ∧ t.areaIds pid = [] ∧ t.vmmList pid <:+ s.vmmList pid ∧ I t by
    obtain ⟨t,ht,h1,h2,h3,h4,h5,-,h6⟩ := this
    exact ⟨t,ht,h1,h2,h3,h4,h5,h6⟩
  refine listIterate_rule (fun rest t => Heap t ∅ ext ∧ Shrinks s t ∧ Edits pid s t ∧
      t.nextArea = s.nextArea ∧ t.areaIds pid = rest ∧ t.vmmList pid <:+ s.vmmList pid ∧ I t)
    (fun k rest t h => ⟨[],h.2.2.2.2.1,not_mem_nil⟩) (fun k rest t h => ?_)
    ⟨hh,(SameHeap.refl s).shrinks,(Clears.refl s).edits pid,rfl,rfl,suffix_refl _,h0⟩
  · obtain ⟨hheap,hkeep,hed,hna,hrest,hsuf,hI1⟩ := h
    obtain ⟨a,todo,hl,rfl,rfl⟩ := map_eq_cons_iff.mp hrest
    have hids' : (t.areaIds pid).Nodup := (hsuf.sublist.map Vmarea.vmaId).nodup hids
    obtain ⟨o,ho⟩ := isSome_iff_exists.mp (hb a (hsuf.subset (by simp [hl])))
    have hl' : t.vmmList pid = [] ++ a :: todo := hl
    obtain ⟨u,hu,hheap',hkeep',hdrop⟩ := hheap.unlinkPut env (by rwa [hkeep.held]) hl' hids' ho
    have hcl := put_clears hu
    have hlu : u.vmmList pid = todo := by
      rw [areaIds,hl'] at hids'
      rw [hcl.vmmList,vmmList_unlinkArea,if_pos rfl,hl']
      exact filter_key hids'
    refine ⟨u,?_,hheap',hkeep.trans hkeep',
      (hed.trans (edits_unlinkArea t pid a.vmaId)).trans (hcl.edits pid),hcl.nextArea.trans hna,
      by rw [areaIds,hlu],?_,hI t u a.vmaId hI1 hdrop hheap'⟩
    · unfold destroyArea
      rw [findArea_eq hl' hids']
      simp only [bind_eq_bind,bind_some,ho]
      exact hu
    · rw [hlu]
      rw [hl] at hsuf
      exact (suffix_cons a todo).trans hsuf

/-- What is left when a process has exited. -/
structure Exited (pid : ℕ) (s t : Memory D) : Prop where
  vmmList : ∀ q, t.vmmList q = if q = pid then [] else s.vmmList q
  live : ∀ q, t.live q ↔ q ≠ pid ∧ s.live q
  brkOf : ∀ q, q ≠ pid → t.brkOf q = s.brkOf q
  entry : ∀ q v, t.entry q v = none ∨ q ≠ pid ∧ t.entry q v = s.entry q v
  nextArea : t.nextArea = s.nextArea
  nextPid : t.nextPid = s.nextPid

theorem doExit_heap (env : Env D) (hids : (s.areaIds pid).Nodup) (hh : Heap s ∅ ext) (hpos : ∀ x, (s.held x : ℤ) ≤ ext x)
    (hb : Backed s pid) : ∃ t, doExit env pid s = some t ∧ Heap t ∅ ext ∧ Shrinks s t ∧ Exited pid s t := by
  obtain ⟨t,ht,hheap,hkeep,hed,hna,hnil,-⟩ :=
    vmmapDestroy_heap env (fun _ => True) (fun _ _ _ _ _ _ => trivial) trivial hids hh hpos hb
  replace hnil : t.vmmList pid = [] := map_eq_nil_iff.mp hnil
  let u : Memory D := { t with procs := update t.procs pid none }
  have hproc : ∀ q, u.procs q = if q = pid then none else t.procs q := by
    intro q
    change update t.procs pid none q = _
    by_cases hq : q = pid
    · subst hq
      simp
    · simp [hq]
  have hlist : ∀ q, u.vmmList q = t.vmmList q := by
    intro q
    rw [vmmList,hproc]
    split
    next hq =>
      rw [hq,hnil]
      rfl
    · rfl
  have hlive : ∀ q, u.live q ↔ q ≠ pid ∧ t.live q := by
    intro q
    rw [live,hproc]
    split
    next hq =>
      simp [hq]
    next hq =>
      simp [hq,live]
  refine ⟨u,by simp only [doExit,ht]; rfl,?_,?_,fun q => ?_,fun q => ?_,fun q hq => ?_,
    fun q v => ?_,hna,hed.nextPid⟩
  · refine hheap.relist (fun _ => rfl) rfl ⟨rfl,rfl⟩ (fun x ob hx link hm => ?_)
      (fun q a ha x hx => ?_) (fun q hq => hheap.holders.pid_lt q ((hlive q).mp hq).2) ?_
    · rw [hlist]
      exact hheap.holders.vmas x ob hx link hm
    · rw [hlist] at ha
      exact (hheap.holders.area q a ha x hx).2
    · exact congrArg (· + ext) (areaRefs_congr rfl hlist)
  · exact hkeep.trans ⟨Keeps.of_shape (fun _ => rfl) rfl ⟨rfl,rfl⟩ ⟨rfl,rfl⟩,rfl⟩
  · rw [hlist]
    split
    next hq =>
      rw [hq,hnil]
    next hq =>
      exact hed.vmmList q hq
  · rw [hlive,hed.live]
  · rw [brkOf,hproc,if_neg hq]
    exact hed.brkOf q
  · rw [entry,hproc]
    split
    · exact .inl rfl
    next hq =>
      exact (hed.entry q v).imp_right fun he => ⟨hq,he⟩

end Memory

end Csci402.Vm
