import Csci402.Vm.ForkAreas
import Csci402.Vm.Unmap

/-! `do_fork` returns whenever the heap is consistent, and leaves it so. The loop over the
areas of the child looks the areas of the parent up by address; a private area gets
two new shadow objects over the object it had. -/

namespace Csci402.Vm

namespace Memory

open Lib Option List

variable {D : Type} {U : UserMem} {s s0 t u : Memory D} {ext : ℕ → ℤ} {pid child o b k : ℕ}
  {a c : Vmarea}

/-! ### One area -/

/-- Objects are added, and the ones there refer to what they did. -/
structure Grows (s t : Memory D) : Prop where
  keeps : Keeps s t
  shape : ∀ x, (s.objs x).isSome → (t.objs x).map shape = (s.objs x).map shape

theorem Grows.trans (h : Grows s t) (h' : Grows t u) : Grows s u where
  keeps := h.keeps.trans h'.keeps
  shape x hx := by
    have ht := h.shape x hx
    rw [← ht]
    refine h'.shape x ?_
    rw [← isSome_map,ht,isSome_map]
    exact hx

theorem Grows.of_shape (hk : Keeps s t) (h : ∀ x, (t.objs x).map Memory.shape = (s.objs x).map Memory.shape) :
    Grows s t :=
  ⟨hk,fun x _ => h x⟩

theorem SameHeap.grows (h : SameHeap s t) : Grows s t :=
  ⟨h.keeps,fun x _ => by rw [h.objs]⟩

theorem Heap.grows_newShadow (h : Heap s ∅ ext) (o b : ℕ) : Grows s (s.newShadow o b) := by
  rw [newShadow_eq_create]
  refine ⟨keeps_create s _,fun x hx => ?_⟩
  have hne : x ≠ s.nextObj := by
    rintro rfl
    rw [h.objs_nextObj] at hx
    cases hx
  rw [objs_create,if_neg hne]

theorem Grows.isSome (h : Grows s t) (ho : (s.objs o).isSome) : (t.objs o).isSome := by
  rw [← isSome_map,h.shape o ho,isSome_map]
  exact ho

theorem Grows.bottom (h : Grows s t) (hb : s.mmobjBottomObj o = some b) : t.mmobjBottomObj o = some b := by
  obtain ⟨ob,ho,-⟩ := bind_eq_some_iff.mp hb
  have hs := h.shape o (by simp [ho])
  unfold mmobjBottomObj at hb ⊢
  rw [ho] at hs hb
  obtain ⟨tob,ht,he⟩ := map_eq_some_iff.mp hs
  simp only [Memory.shape,Prod.mk.injEq] at he
  simpa [ht,he] using hb

theorem Heap.ref_grows (h : Heap s ∅ ext) (ho : (s.objs o).isSome) :
    ∃ t, Memory.ref o s = some t ∧ Heap t ∅ (ext+Pi.single o 1) ∧ Grows s t ∧ Clears s t ∧
      t.nextObj = s.nextObj := by
  obtain ⟨t,ht,hheap,he⟩ := h.ref ho (Finset.notMem_empty o)
  have hg : Grows s t := by
    rw [he]
    exact Grows.of_shape (keeps_modObj fun _ => rfl) (shape_modObj fun _ => rfl)
  exact ⟨t,ht,hheap,hg,ref_clears ht,nextObj_ref ht⟩

theorem shape_newShadow (s : Memory D) (o b : ℕ) :
    ((s.newShadow o b).objs s.nextObj).map shape = some (.shadow, some o, some b) := by
  rw [newShadow_eq_create,objs_create,if_pos rfl]
  rfl

/-- The two new shadow objects over `o`, with their references taken. -/
theorem Heap.newShadows (h : Heap s ∅ ext) (hz : ∀ x, s.nextObj ≤ x → ext x = 0) (hb : s.mmobjBottomObj o = some b) :
    ∃ t1 t2 t, Memory.ref o ((s.newShadow o b).newShadow o b) = some t1 ∧
      Memory.ref b t1 = some t2 ∧ Memory.ref b t2 = some t ∧
      Heap t ∅ (ext+Pi.single s.nextObj 1+Pi.single (s.nextObj+1) 1 - Pi.single o 1) ∧
      Grows s t ∧ Clears s t ∧ t.nextObj = s.nextObj+2 ∧
      (t.objs s.nextObj).map Memory.shape = some (.shadow, some o, some b) ∧
      (t.objs (s.nextObj+1)).map Memory.shape = some (.shadow, some o, some b) := by
  obtain ⟨ob,ho,-⟩ := bind_eq_some_iff.mp hb
  obtain ⟨bob,hbob,-⟩ := h.bottom_base hb
  have hol := h.shape.obj_lt o ob ho
  have hbl := h.shape.obj_lt b bob hbob
  have hg1 := h.grows_newShadow o b
  have h1 := h.newShadow (hz _ (Nat.le_refl _)) hb
  have hn1 : (s.newShadow o b).nextObj = s.nextObj+1 := rfl
  have hz1 : (ext+Pi.single s.nextObj 1 - (Pi.single o 1+Pi.single b 1) : ℕ → ℤ)
      (s.newShadow o b).nextObj = 0 := by
    rw [hn1]
    simp only [Pi.add_apply,Pi.sub_apply,Pi.single_apply,hz _ (Nat.le_succ s.nextObj)]
    rw [if_neg (by omega),if_neg (by omega),if_neg (by omega)]
    rfl
  have hg2 := h1.grows_newShadow o b
  have h2 := h1.newShadow hz1 (hg1.bottom hb)
  have hg := hg1.trans hg2
  have hos : (s.objs o).isSome := by simp [ho]
  have hbs : (s.objs b).isSome := by simp [hbob]
  obtain ⟨t1,ht1,hh1,hgr1,hc1,hnt1⟩ := h2.ref_grows (hg.isSome hos)
  have hgt1 := hg.trans hgr1
  obtain ⟨t2,ht2,hh2,hgr2,hc2,hnt2⟩ := hh1.ref_grows (hgt1.isSome hbs)
  obtain ⟨t,ht,hh,hgr,hc,hnt⟩ := hh2.ref_grows ((hgt1.trans hgr2).isSome hbs)
  have hrefs := (hgr1.trans hgr2).trans hgr
  have hsh2 := shape_newShadow (s.newShadow o b) o b
  have hsh1 := shape_newShadow s o b
  have hs1 : ((s.newShadow o b).objs s.nextObj).isSome := by
    rw [← isSome_map,hsh1]
    rfl
  have hs2 : (((s.newShadow o b).newShadow o b).objs (s.nextObj+1)).isSome := by
    rw [← isSome_map,← hn1,hsh2]
    rfl
  refine ⟨t1,t2,t,ht1,ht2,ht,?_,hg.trans hrefs,?_,?_,?_,?_⟩
  · have hext : ext+Pi.single s.nextObj 1 - (Pi.single o 1+Pi.single b 1) +
        Pi.single (s.newShadow o b).nextObj 1 - (Pi.single o 1+Pi.single b 1)+Pi.single o 1 +
        Pi.single b 1+Pi.single b 1 =
        ext+Pi.single s.nextObj 1+Pi.single (s.nextObj+1) 1 - Pi.single o 1 := by
      rw [hn1]
      abel
    exact hext ▸ hh
  · exact ((((clears_newShadow s o b).trans (clears_newShadow _ o b)).trans hc1).trans hc2).trans hc
  · rw [hnt,hnt2,hnt1]
    rfl
  · rw [(hg2.trans hrefs).shape _ hs1,hsh1]
  · rw [hrefs.shape _ hs2,← hn1,hsh2]

/-- From `s` to `t` only areas change; entries may be cleared. -/
structure SameProcs (s t : Memory D) : Prop where
  live : ∀ q, t.live q ↔ s.live q
  brkOf : ∀ q, t.brkOf q = s.brkOf q
  entry : ∀ q v, t.entry q v = none ∨ t.entry q v = s.entry q v
  nextArea : t.nextArea = s.nextArea
  nextPid : t.nextPid = s.nextPid

theorem SameProcs.trans (h : SameProcs s t) (h' : SameProcs t u) : SameProcs s u where
  live q := (h'.live q).trans (h.live q)
  brkOf q := (h'.brkOf q).trans (h.brkOf q)
  entry q v := by
    rcases h'.entry q v with he | he
    · exact .inl he
    · rw [he]
      exact h.entry q v
  nextArea := h'.nextArea.trans h.nextArea
  nextPid := h'.nextPid.trans h.nextPid

theorem Clears.sameProcs (h : Clears s t) : SameProcs s t :=
  ⟨h.live,h.brkOf,h.entry,h.nextArea,h.nextPid⟩

theorem sameProcs_modArea (s : Memory D) (pid k : ℕ) (f : Vmarea → Vmarea) : SameProcs s (s.modArea pid k f) :=
  let h := edits_modArea s pid k f
  ⟨h.live,h.brkOf,h.entry,rfl,rfl⟩

/-- What one round of the loop does. -/
structure ForkedArea (t u : Memory D) (ext : ℕ → ℤ) (pid child : ℕ) (a c : Vmarea)
    (dp rp dc rc : List Vmarea) : Prop where
  heap : Heap u ∅ ext
  grows : Grows t u
  procs : SameProcs t u
  other : ∀ q, q ≠ pid → q ≠ child → u.vmmList q = t.vmmList q
  parent : u.vmmList pid = dp ++ forkedAreas 0 t.nextObj [a] ++ rp
  child : u.vmmList child = dc ++ { c with
    vmaObj := if a.isShared then a.vmaObj else some (t.nextObj+1) } :: rc
  nextObj : u.nextObj = forkNext t.nextObj [a]
  tops : a.isShared = false → ∃ b, ∀ side, side < 2 →
    (u.objs (t.nextObj+side)).map shape = some (.shadow, a.vmaObj, some b)

section Round

variable {dp rp dc rc : List Vmarea} (h : Heap t ∅ ext) (hne : pid ≠ child)
  (hp : t.vmmList pid = dp ++ a :: rp) (hok : AreasOk U (t.vmmList pid))
  (hc : t.vmmList child = dc ++ c :: rc)
  (hcn : (t.areaIds child).Nodup) (hca : c.vmaStart = a.vmaStart ∧ c.vmaFlags = a.vmaFlags)
  (hco : c.vmaObj = none) (hao : a.vmaObj = some o)

include h hne hp hok hc hcn hca hco hao

theorem forkArea_shared (hsh : a.isShared = true) :
    ∃ u, forkArea pid child c.vmaId t = some u ∧ ForkedArea t u ext pid child a c dp rp dc rc := by
  have hmem : a ∈ t.vmmList pid := by simp [hp]
  have hlook : vmmapLookup (t.vmmList pid) c.vmaStart = some a := by
    rw [hca.1]
    exact (vmmapLookup_eq_some hok).mpr ⟨hmem,Nat.le_refl _,hok.spaced.nonempty a hmem⟩
  have hsome := (h.holders.area pid a hmem o hao).2
  let t1 := t.modArea child c.vmaId fun a => { a with vmaObj := some o }
  have h1 : Heap t1 ∅ (ext - Pi.single o 1) := by
    have := h.modArea (f := fun a => { a with vmaObj := some o }) hc hcn rfl (by
      rintro _ ⟨⟩; exact hsome)
    rwa [hco,tally_none,tally_some,zero_sub,← sub_eq_add_neg] at this
  obtain ⟨t2,ht2,h2,hg2,hc2,hn2⟩ := h1.ref_grows hsome
  rw [sub_add_cancel] at h2
  have hl1 : t1.vmmList child = dc ++ { c with vmaObj := some o } :: rc := vmmList_modArea_eq hc hcn _
  have hl2 : t2.vmmList child = dc ++ { c with vmaObj := some o } :: rc := by rw [hc2.vmmList,hl1]
  obtain ⟨u,hu,hhu,hku,hcu,hnu,hsu⟩ := h2.insertVma (child, c.vmaId) (hg2.isSome hsome)
    ⟨{ c with vmaObj := some o },by simp [hl2],rfl⟩
  have hlu : ∀ q, u.vmmList q = t1.vmmList q := fun q => by rw [hcu.vmmList,hc2.vmmList]
  refine ⟨u,?_,hhu,((sameHeap_modArea t child _ _).grows.trans hg2).trans (Grows.of_shape hku hsu),
    ((sameProcs_modArea t child _ _).trans hc2.sameProcs).trans hcu.sameProcs,fun q _ hq => ?_,?_,?_,
    ?_,fun hf => ?_⟩
  · have hcond : c.vmaFlags.shared = true ∧ ¬ c.vmaFlags.priv = true := by
      rw [hca.2]
      simpa [Vmarea.isShared] using hsh
    simp only [forkArea,findArea_eq hc hcn,hlook,hao,bind_eq_bind,bind_some,
      if_pos hcond]
    change (ref o t1).bind _ = _
    rw [ht2]
    exact hu
  · rw [hlu,vmmList_modArea,if_neg hq]
  · rw [hlu,vmmList_modArea,if_neg hne,hp]
    simp [forkedAreas,hsh]
  · rw [hlu,hl1,hsh,hao]
    rfl
  · rw [hnu,hn2]
    simp only [forkNext,countP_cons,hsh]
    rfl
  · rw [hsh] at hf
    cases hf

theorem forkArea_private (hpn : (t.areaIds pid).Nodup) (hz : ∀ x, t.nextObj ≤ x → ext x = 0) (hsh : a.isShared = false) :
    ∃ u, forkArea pid child c.vmaId t = some u ∧ ForkedArea t u ext pid child a c dp rp dc rc := by
  have hmem : a ∈ t.vmmList pid := by simp [hp]
  have hlook : vmmapLookup (t.vmmList pid) c.vmaStart = some a := by
    rw [hca.1]
    exact (vmmapLookup_eq_some hok).mpr ⟨hmem,Nat.le_refl _,hok.spaced.nonempty a hmem⟩
  obtain ⟨ob,hob⟩ := isSome_iff_exists.mp (h.holders.area pid a hmem o hao).2
  obtain ⟨b,-,hb,-⟩ := h.shape.bottom hob (Finset.notMem_empty o)
  obtain ⟨t1,t2,t3,ht1,ht2,ht3,h3,hg3,hc3,hn3,hs1,hs2⟩ := h.newShadows hz hb
  have hl3 : t3.vmmList pid = dp ++ a :: rp := by rw [hc3.vmmList,hp]
  have hsome1 : (t3.objs t.nextObj).isSome := by
    rw [← isSome_map,hs1]
    rfl
  have hsome2 : (t3.objs (t.nextObj+1)).isSome := by
    rw [← isSome_map,hs2]
    rfl
  let t4 := t3.modArea pid a.vmaId fun a => { a with vmaObj := some t.nextObj }
  have h4 := h3.modArea (f := fun a => { a with vmaObj := some t.nextObj }) hl3
    (by rw [areaIds,hc3.vmmList]; exact hpn) rfl (by rintro _ ⟨⟩; exact hsome1)
  have hl4 : t4.vmmList child = dc ++ c :: rc := by
    rw [vmmList_modArea,if_neg hne.symm,hc3.vmmList,hc]
  let t5 := t4.modArea child c.vmaId fun a => { a with vmaObj := some (t.nextObj+1) }
  have hcn4 : (t4.areaIds child).Nodup := by
    rw [areaIds,hl4,← hc]
    exact hcn
  have h5 := h4.modArea (f := fun a => { a with vmaObj := some (t.nextObj+1) }) hl4 hcn4 rfl (by
    rintro _ ⟨⟩; exact hsome2)
  have hext : ext+Pi.single t.nextObj 1+Pi.single (t.nextObj+1) 1 - Pi.single o 1 +
      (tally a.vmaObj - tally (some t.nextObj))+(tally c.vmaObj - tally (some (t.nextObj+1))) =
      ext := by
    rw [hao,hco]
    simp only [tally_some,tally_none]
    abel
  replace h5 : Heap t5 ∅ ext := hext ▸ h5
  have hl5 : t5.vmmList child = dc ++ { c with vmaObj := some (t.nextObj+1) } :: rc :=
    vmmList_modArea_eq hl4 hcn4 _
  obtain ⟨u,hu,hhu,hku,hcu,hnu,hsu⟩ := h5.insertVma (o := t.nextObj) (child, c.vmaId)
    hsome1 ⟨{ c with vmaObj := some (t.nextObj+1) },by simp [hl5],rfl⟩
  have hgu : Grows t3 u := ((sameHeap_modArea t3 pid _ _).grows.trans
    (sameHeap_modArea t4 child _ _).grows).trans (Grows.of_shape hku hsu)
  refine ⟨u,?_,hhu,hg3.trans hgu,((hc3.sameProcs.trans (sameProcs_modArea t3 pid _ _)).trans
    (sameProcs_modArea t4 child _ _)).trans hcu.sameProcs,fun q hq hq' => ?_,?_,?_,?_,
    fun _ => ⟨b,fun side hside => ?_⟩⟩
  · have hcond : ¬ (c.vmaFlags.shared = true ∧ ¬ c.vmaFlags.priv = true) := by
      rw [hca.2]
      simpa [Vmarea.isShared] using hsh
    simp only [forkArea,findArea_eq hc hcn,hlook,hao,bind_eq_bind,bind_some,
      if_neg hcond,hb,ht1,ht2,ht3]
    exact hu
  · rw [hcu.vmmList,vmmList_modArea,if_neg hq',vmmList_modArea,if_neg hq,hc3.vmmList]
  · rw [hcu.vmmList,vmmList_modArea,if_neg hne]
    have hlist := vmmList_modArea_eq hl3 (by rw [areaIds,hc3.vmmList]; exact hpn)
      fun a => { a with vmaObj := some t.nextObj }
    rw [hlist]
    simp [forkedAreas,hsh]
  · rw [hcu.vmmList,hl5,hsh]
    rfl
  · rw [hnu]
    change t3.nextObj = _
    rw [hn3]
    simp [forkNext,hsh]
  · have hx : (t3.objs (t.nextObj+side)).map shape = some (.shadow, some o, some b) := by
      rcases (by omega : side = 0 ∨ side = 1) with rfl | rfl
      · exact hs1
      · exact hs2
    have hsome : (t3.objs (t.nextObj+side)).isSome := by
      rw [← isSome_map,hx]
      rfl
    rw [hgu.shape _ hsome,hx,hao]

end Round

/-! ### The loop -/

/-- The area `p` of a process after the fork has a new shadow object over the object that
the area had before. -/
def NewShadow (t : Memory D) (l : List Vmarea) (p : Vmarea) : Prop :=
  ∃ a ∈ l, p = { a with vmaObj := p.vmaObj } ∧ ∃ x b, p.vmaObj = some x ∧
    (t.objs x).map shape = some (.shadow, a.vmaObj, some b)

/-- The loop of `do_fork`, started in `s` and now in `t`: the areas `before` are done. -/
structure Forking (s : Memory D) (ext : ℕ → ℤ) (pid child k0 : ℕ) (before todo : List Vmarea)
    (t : Memory D) : Prop where
  heap : Heap t ∅ ext
  grows : Grows s t
  procs : SameProcs s t
  other : ∀ q, q ≠ pid → q ≠ child → t.vmmList q = s.vmmList q
  parent : t.vmmList pid = forkedAreas 0 s.nextObj before ++ todo
  child : t.vmmList child = renumber k0 (forkedAreas 1 s.nextObj before) ++
    vmmapClone (k0+before.length) todo
  nextObj : t.nextObj = forkNext s.nextObj before
  tops : ∀ side, side < 2 → ∀ p ∈ forkedAreas side s.nextObj before, p.isShared = false →
    NewShadow t before p

section Loop

variable {k0 : ℕ} {before todo : List Vmarea}

theorem Forking.ids_child (h : Forking s ext pid child k0 before todo t) :
    t.areaIds child = List.range' k0 before.length ++ List.range' (k0+before.length) todo.length := by
  have hclone : (vmmapClone (k0+before.length) todo).map Vmarea.vmaId =
      List.range' (k0+before.length) todo.length := by
    rw [vmmapClone_eq,List.map_map,← ids_renumber]
    rfl
  rw [areaIds,h.child,map_append,ids_renumber,length_forkedAreas,hclone]

theorem Forking.ids_child_nodup (h : Forking s ext pid child k0 before todo t) : (t.areaIds child).Nodup := by
  rw [h.ids_child,range'_append_1]
  exact nodup_range'

theorem Forking.ids_parent (h : Forking s ext pid child k0 before todo t) :
    t.areaIds pid = (before ++ todo).map Vmarea.vmaId := by
  rw [areaIds,h.parent,map_append,ids_forkedAreas,← map_append]

/-- The new shadow objects of one round. -/
theorem ForkedArea.tops_area {dp rp dc rc : List Vmarea} {p : Vmarea} {side : ℕ}
    (h : ForkedArea t u ext pid child a c dp rp dc rc) (hs : side < 2)
    (hp : p ∈ forkedAreas side t.nextObj [a]) (hsh : p.isShared = false) : NewShadow u (before ++ [a]) p := by
  unfold forkedAreas at hp
  split at hp
  next ha =>
    rw [mem_singleton.mp hp,ha] at hsh
    cases hsh
  next ha =>
    obtain ⟨b,hb⟩ := h.tops (by simpa using ha)
    rw [mem_singleton.mp hp]
    exact ⟨a,by simp,rfl,_,b,rfl,hb side hs⟩

theorem Forking.round (hok : AreasOk U (before ++ a :: todo))
    (hids : ((before ++ a :: todo).map Vmarea.vmaId).Nodup) (hao : a.vmaObj = some o)
    (hz : ∀ x, s.nextObj ≤ x → ext x = 0) (hne : pid ≠ child) (h : Forking s ext pid child k0 before (a :: todo) t) :
    ∃ u, forkArea pid child (k0+before.length) t = some u ∧
      Forking s ext pid child k0 (before ++ [a]) todo u := by
  have hz' : ∀ x, t.nextObj ≤ x → ext x = 0 := fun x hx =>
    hz x (Nat.le_trans h.grows.keeps.nextObj hx)
  have hpok : AreasOk U (t.vmmList pid) := by
    refine hok.of_spans ?_
    rw [h.parent,spans_append,spans_forkedAreas,← spans_append]
  have hpn : (t.areaIds pid).Nodup := by
    rw [h.ids_parent]
    exact hids
  obtain ⟨u,hu,hf⟩ : ∃ u, forkArea pid child (k0+before.length) t = some u ∧
      ForkedArea t u ext pid child a { a with vmaId := k0+before.length, vmaObj := none }
        (forkedAreas 0 s.nextObj before) todo (renumber k0 (forkedAreas 1 s.nextObj before))
        (vmmapClone (k0+before.length+1) todo) := by
    cases hsh : a.isShared with
    | true => exact forkArea_shared h.heap hne h.parent hpok h.child h.ids_child_nodup ⟨rfl,rfl⟩ rfl hao hsh
    | false =>
      exact forkArea_private h.heap hne h.parent hpok h.child h.ids_child_nodup ⟨rfl,rfl⟩ rfl hao hpn
        hz' hsh
  refine ⟨u,hu,hf.heap,h.grows.trans hf.grows,h.procs.trans hf.procs,fun q hq hq' => ?_,?_,?_,?_,
    fun side hs p hp hsh => ?_⟩
  · rw [hf.other q hq hq',h.other q hq hq']
  · rw [hf.parent,forkedAreas_append,h.nextObj]
  · rw [hf.child,forkedAreas_append,renumber_append,length_forkedAreas,renumber_forkedAreas,
      h.nextObj,length_append,append_assoc]
    rfl
  · rw [hf.nextObj,h.nextObj,forkNext_append]
  · rw [forkedAreas_append,← h.nextObj] at hp
    rcases mem_append.mp hp with hp | hp
    · obtain ⟨x,hx,hpx,y,b,hy,hsy⟩ := h.tops side hs p hp hsh
      have hsome : (t.objs y).isSome := by
        rw [← isSome_map,hsy]
        rfl
      exact ⟨x,by simp [hx],hpx,y,b,hy,by rw [hf.grows.shape y hsome,hsy]⟩
    · exact hf.tops_area hs hp hsh

/-- The areas of the child that the loop has still to come to. -/
theorem Forking.next {k : ℕ} {rest : List ℕ} (h : Forking s ext pid child k0 before todo t)
    (hrest : List.range' (k0+before.length) todo.length = k :: rest) :
    ∃ done, t.areaIds child = done ++ k :: rest ∧ k ∉ done := by
  have hn := h.ids_child_nodup
  rw [h.ids_child,hrest] at hn
  exact ⟨_,by rw [h.ids_child,hrest],fun hm => (nodup_append.mp hn).2.2 k hm k (by simp) rfl⟩

/-- The loop of `do_fork` returns, and keeps what its rounds keep. -/
theorem forkAreas_loop {L : List Vmarea} (I : Memory D → Prop) (hok : AreasOk U L) (hids : (L.map Vmarea.vmaId).Nodup)
    (hb : ∀ a ∈ L, a.vmaObj.isSome) (hz : ∀ x, s.nextObj ≤ x → ext x = 0) (hne : pid ≠ child)
    (hI : ∀ before a todo t u, L = before ++ a :: todo → Forking s ext pid child k0 before (a :: todo) t → I t →
      forkArea pid child (k0+before.length) t = some u → I u)
    (h : Forking s ext pid child k0 [] L s) (h0 : I s) :
    ∃ t, listIterate (areaIds child) (forkArea pid child) s = some t ∧
      Forking s ext pid child k0 L [] t ∧ I t := by
  have hloop : ∃ t, listIterate (areaIds child) (forkArea pid child) s = some t ∧
      ∃ before todo, L = before ++ todo ∧ List.range' (k0+before.length) todo.length = [] ∧
        Forking s ext pid child k0 before todo t ∧ I t := by
    refine listIterate_rule (fun rest t => ∃ before todo, L = before ++ todo ∧
        List.range' (k0+before.length) todo.length = rest ∧
        Forking s ext pid child k0 before todo t ∧ I t) (fun k rest t hinv => ?_) (fun k rest t hinv => ?_) ?_
    · obtain ⟨before,todo,-,hrest,hf,-⟩ := hinv
      exact hf.next hrest
    · obtain ⟨before,todo,rfl,hrest,hf,hIt⟩ := hinv
      cases todo with
      | nil => cases hrest
      | cons a todo =>
        rw [length_cons,range'_succ,List.cons.injEq] at hrest
        obtain ⟨rfl,hrest⟩ := hrest
        obtain ⟨o,ho⟩ := isSome_iff_exists.mp (hb a (by simp))
        obtain ⟨u,hu,hf'⟩ := hf.round hok hids ho hz hne
        refine ⟨u,hu,before ++ [a],todo,by simp,?_,hf',hI before a todo t u rfl hf hIt hu⟩
        rw [length_append,length_singleton,← Nat.add_assoc]
        exact hrest
    · exact ⟨[],L,rfl,by rw [h.ids_child]; rfl,h,h0⟩
  obtain ⟨t,ht,before,todo,rfl,hnil,hf,hIt⟩ := hloop
  cases todo with
  | nil =>
    rw [append_nil]
    exact ⟨t,ht,hf,hIt⟩
  | cons a todo => cases hnil

end Loop

/-! ### `do_fork` -/

/-- What `do_fork` has done. -/
structure Forked (U : UserMem) (pid : ℕ) (s t : Memory D) : Prop where
  parent : t.vmmList pid = forkedAreas 0 s.nextObj (s.vmmList pid)
  child : t.vmmList s.nextPid = renumber s.nextArea (forkedAreas 1 s.nextObj (s.vmmList pid))
  other : ∀ q, q ≠ pid → q ≠ s.nextPid → t.vmmList q = s.vmmList q
  live : ∀ q, t.live q ↔ q = s.nextPid ∨ s.live q
  brkOf : ∀ q, t.brkOf q = if q = s.nextPid then s.brkOf pid else s.brkOf q
  entry : ∀ q v, t.entry q v = none ∨
    q ≠ s.nextPid ∧ ¬ (q = pid ∧ U.low ≤ v ∧ v < U.high) ∧ t.entry q v = s.entry q v
  nextObj : t.nextObj = forkNext s.nextObj (s.vmmList pid)
  nextArea : t.nextArea = s.nextArea+(s.vmmList pid).length
  nextPid : t.nextPid = s.nextPid+1
  grows : Grows s t
  tops : ∀ side, side < 2 → ∀ p ∈ forkedAreas side s.nextObj (s.vmmList pid), p.isShared = false →
    NewShadow t (s.vmmList pid) p

/-- The state before the loop: the child has copies of the areas of its parent `p`, without
objects. -/
def forkStart (p : Proc) (s : Memory D) : Memory D :=
  { s.procCreate.modProc s.nextPid fun _ =>
      ⟨vmmapClone s.nextArea p.vmmList,fun _ => none,p.pBrk,p.pStartBrk⟩ with
    nextArea := s.nextArea+p.vmmList.length }

theorem procs_forkStart (p : Proc) (s : Memory D) (q : ℕ) : (forkStart p s).procs q = if q = s.nextPid then
      some ⟨vmmapClone s.nextArea p.vmmList,fun _ => none,p.pBrk,p.pStartBrk⟩ else s.procs q := by
  by_cases hq : q = s.nextPid
  · subst hq
    simp [forkStart,modProc,procCreate]
  · simp [forkStart,modProc,procCreate,hq]

theorem vmmList_forkStart (p : Proc) (s : Memory D) (q : ℕ) :
    (forkStart p s).vmmList q = if q = s.nextPid then vmmapClone s.nextArea p.vmmList else s.vmmList q := by
  rw [vmmList,procs_forkStart]
  split <;> rfl

theorem live_forkStart (p : Proc) (s : Memory D) (q : ℕ) : (forkStart p s).live q ↔ q = s.nextPid ∨ s.live q := by
  rw [live,procs_forkStart]
  split
  next hq =>
    simp [hq]
  next hq =>
    simp [hq,live]

theorem sameHeap_forkStart (p : Proc) (s : Memory D) : SameHeap s (forkStart p s) := ⟨rfl,rfl,rfl,rfl,rfl,rfl⟩

theorem vmmapClone_obj {k : ℕ} {l : List Vmarea} (ha : a ∈ vmmapClone k l) : a.vmaObj = none := by
  rw [vmmapClone_eq] at ha
  obtain ⟨b,-,rfl⟩ := List.mem_map.mp ha
  rfl

theorem Heap.vmmList_nextPid (h : Heap s ∅ ext) : s.vmmList s.nextPid = [] := by
  have hdead : ¬ s.live s.nextPid := fun hl => Nat.lt_irrefl _ (h.holders.pid_lt _ hl)
  have hnone : s.procs s.nextPid = none := by simpa [live] using hdead
  simp [vmmList,hnone]

theorem Heap.forkStart (h : Heap s ∅ ext) (p : Proc) : Heap (forkStart p s) ∅ ext := by
  have hlist := vmmList_forkStart p s
  refine h.relist (fun _ => rfl) rfl ⟨rfl,rfl⟩ (fun x ob hx link hm => ?_) (fun q a ha x hx => ?_)
    (fun q hq => ?_) ?_
  · obtain ⟨a,ha,hid⟩ := h.holders.vmas x ob hx link hm
    have hq : link.1 ≠ s.nextPid := fun he => by
      rw [he,h.vmmList_nextPid] at ha
      cases ha
    exact ⟨a,by rw [hlist,if_neg hq]; exact ha,hid⟩
  · rw [hlist] at ha
    split at ha
    · rw [vmmapClone_obj ha] at hx
      cases hx
    · exact (h.holders.area q a ha x hx).2
  · change q < s.nextPid+1
    rcases (live_forkStart p s q).mp hq with rfl | hq
    · exact Nat.lt_succ_self _
    · exact Nat.lt_succ_of_lt (h.holders.pid_lt q hq)
  · have hrefs : (Memory.forkStart p s).areaRefs = s.areaRefs := by
      unfold areaRefs
      rw [show (Memory.forkStart p s).nextPid = s.nextPid+1 from rfl,Finset.sum_range_succ]
      have hzero : tallyList Vmarea.vmaObj ((Memory.forkStart p s).vmmList s.nextPid) = 0 := by
        rw [hlist,if_pos rfl]
        refine sum_eq_zero fun f hf => ?_
        obtain ⟨a,ha,rfl⟩ := List.mem_map.mp hf
        rw [vmmapClone_obj ha,tally_none]
      rw [hzero,add_zero]
      exact Finset.sum_congr rfl fun q hq => by
        rw [hlist,if_neg (Nat.ne_of_lt (Finset.mem_range.mp hq))]
    rw [hrefs]

theorem Forking.start {p : Proc} (hp : s.procs pid = some p) (hh : Heap s ∅ ext) :
    Forking (forkStart p s) ext pid s.nextPid s.nextArea [] (s.vmmList pid) (forkStart p s) := by
  have hne : pid ≠ s.nextPid := Nat.ne_of_lt (hh.holders.pid_lt pid (by rw [live,hp]; rfl))
  have hlp : s.vmmList pid = p.vmmList := by simp [vmmList,hp]
  exact ⟨hh.forkStart p,(SameHeap.refl _).grows,(Clears.refl _).sameProcs,fun _ _ _ => rfl,
    by rw [vmmList_forkStart,if_neg hne]; rfl,by rw [vmmList_forkStart,if_pos rfl,hlp]; rfl,rfl,
    by rintro _ _ _ ⟨⟩⟩

theorem doFork_eq {p : Proc} (hp : s.procs pid = some p) :
    doFork U pid s = (listIterate (areaIds s.nextPid) (forkArea pid s.nextPid) (forkStart p s)).map
      fun t => t.ptUnmapRange pid U.low U.high := by
  simp only [doFork,hp,bind_eq_bind,bind_some]
  rw [map_eq_bind]
  rfl

theorem doFork_heap (h : ListInv U s pid) (hlive : s.live pid) (hh : Heap s ∅ ext)
    (hz : ∀ x, s.nextObj ≤ x → ext x = 0) (hb : Backed s pid) :
    ∃ t, doFork U pid s = some t ∧ Heap t ∅ ext ∧ Forked U pid s t := by
  obtain ⟨p,hp⟩ := isSome_iff_exists.mp hlive
  have hlp : s.vmmList pid = p.vmmList := by simp [vmmList,hp]
  have hne : pid ≠ s.nextPid := Nat.ne_of_lt (hh.holders.pid_lt pid hlive)
  have hproc := procs_forkStart p s
  obtain ⟨t,ht,hf,-⟩ := forkAreas_loop (s := forkStart p s) (fun _ => True) h.ok h.ids hb hz hne
    (fun _ _ _ _ _ _ _ _ _ => trivial) (Forking.start hp hh) trivial
  have hcl := clears_ptUnmapRange t pid U.low U.high
  have hsame : SameHeap t (t.ptUnmapRange pid U.low U.high) := sameHeap_ptUnmapRange t pid _ _
  refine ⟨t.ptUnmapRange pid U.low U.high,by rw [doFork_eq hp,ht]; rfl,hf.heap.clears hcl hsame,?_⟩
  refine ⟨?_,?_,fun q hq hq' => ?_,fun q => ?_,fun q => ?_,fun q v => ?_,hf.nextObj,?_,
    hf.procs.nextPid,((sameHeap_forkStart p s).grows.trans hf.grows).trans hsame.grows,hf.tops⟩
  · rw [hcl.vmmList,hf.parent,append_nil]
    rfl
  · rw [hcl.vmmList,hf.child]
    exact append_nil _
  · rw [hcl.vmmList,hf.other q hq hq',vmmList_forkStart,if_neg hq']
  · rw [hcl.live,hf.procs.live,live_forkStart]
  · rw [hcl.brkOf,hf.procs.brkOf,brkOf,hproc]
    split
    · simp [brkOf,hp]
    · rfl
  · rw [entry_ptUnmapRange]
    split
    · exact .inl rfl
    next hc =>
      rcases hf.procs.entry q v with he | he
      · exact .inl he
      · rw [he,entry,hproc]
        split
        · exact .inl rfl
        next hq =>
          exact .inr ⟨hq,hc,rfl⟩
  · rw [hlp]
    exact hf.procs.nextArea

end Memory

end Csci402.Vm
