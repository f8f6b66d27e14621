import Csci402.Vm.Links

/-! `pframe_remove_from_pts` comes to every area through which a page can be mapped, if every
area is on the list of its bottom object. Mapping, forking, shortening and taking areas away
keep it so. The one step that does not is the first case of `vmmap_remove`, which cuts an area
in two and puts the new half on no list. -/

namespace Csci402.Vm

open Option List

namespace Memory

open Lib

variable {D : Type} {U : UserMem} {s t : Memory D} {ext : ℕ → ℤ} {env : Env D} {pid q lo hi n k o b v : ℕ} {a : Vmarea}
  {link : ℕ × ℕ} {done rest : List Vmarea}

/-! ### Taking mappings away -/

/-- No area reaches over both ends of the range. -/
def Whole (s : Memory D) (pid lo hi : ℕ) : Prop := ∀ a ∈ s.vmmList pid, ¬ (a.vmaStart < lo ∧ hi < a.vmaEnd)

theorem removeArea_registered (h : ListInv U s pid) (hh : Heap s ∅ ext) (hpos : ∀ x, (s.held x : ℤ) ≤ ext x)
    (hr : Registered s) (hl : s.vmmList pid = done ++ a :: rest) (ho : a.vmaObj = some o)
    (hw : ¬ (a.vmaStart < lo ∧ hi < a.vmaEnd)) (ht : removeArea U env pid lo hi a.vmaId s = some t) :
    Registered t := by
  unfold removeArea at ht
  rw [findArea_eq hl h.ids] at ht
  simp only [bind_eq_bind,bind_some] at ht
  split at ht
  next hc =>
    exact absurd ⟨hc.2,hc.1⟩ hw
  split at ht
  · cases ht
    exact hr.same (SameLinks.homes (.modArea fun _ => ⟨rfl,rfl⟩))
  split at ht
  · cases ht
    exact hr.same (SameLinks.homes (.modArea fun _ => ⟨rfl,rfl⟩))
  split at ht
  · simp only [ho,bind_some] at ht
    obtain ⟨hheap,-,hd⟩ := of_returns (hh.unlinkPut env hpos hl h.ids ho) ht
    exact (hr.unlinkArea pid a.vmaId).drops hd hheap
  · cases ht
    exact hr

theorem vmmapRemove_registered (h : ListInv U s pid) (hh : Heap s ∅ ext) (hpos : ∀ x, (s.held x : ℤ) ≤ ext x)
    (hb : Backed s pid) (hr : Registered s) (hn : lo+n < 2 ^ 32) (hw : Whole s pid lo (lo+n))
    (ht : vmmapRemove U env pid lo n s = some t) : Registered t := by
  have hlh : lo ≤ lo+n := Nat.le_add_right lo n
  unfold vmmapRemove at ht
  simp only [u32_add hn] at ht
  obtain ⟨s1,hs1,ht⟩ := bind_eq_some_iff.mp ht
  cases ht
  -- what lies ahead is as it was at the start, so no round cuts an area in two
  have hround : ∀ k rest t u, Cutting U pid lo (lo+n) s (k :: rest) t ∧ Heap t ∅ ext ∧ t.held = s.held ∧ Registered t →
      removeArea U env pid lo (lo+n) k t = some u →
      Cutting U pid lo (lo+n) s rest u ∧ Heap u ∅ ext ∧ u.held = s.held ∧ Registered u := by
    rintro k rest t u ⟨hc,hht,hheld,hrt⟩ hu
    obtain ⟨before,done,todo,hs,hids,hl,hinv,-⟩ := id hc
    cases todo with
    | nil => cases hids
    | cons a todo =>
      obtain ⟨rfl,-⟩ := List.cons.inj hids
      have ha : a ∈ s.vmmList pid := by simp [hs]
      obtain ⟨o,ho⟩ := isSome_iff_exists.mp (hb a ha)
      have hpos' : ∀ x, (t.held x : ℤ) ≤ ext x := by rwa [hheld]
      obtain ⟨hheap,hk⟩ := of_returns (removeArea_heap env hinv hht hpos' hl ho hlh) hu
      exact ⟨hc.round hlh hu,hheap,hk.held.trans hheld,
        removeArea_registered hinv hht hpos' hrt hl ho (hw a ha) hu⟩
  have hend := listIterate_inv (fun rest t => Cutting U pid lo (lo+n) s rest t ∧ Heap t ∅ ext ∧ t.held = s.held ∧
    Registered t) (fun _ _ _ h => h.1.next) (fun _ _ _ _ => hround _ _ _ _) ⟨Cutting.start h,hh,rfl,hr⟩ hs1
  exact hend.2.2.2.same (SameLinks.of_objs (clears_ptUnmapRange s1 pid _ _).vmmList rfl).homes

/-- A range that wraps starts behind its end: an area that does not reach over both is left
alone. -/
theorem vmmapRemove_wrapped (h : ListInv U s pid) (hlo : lo < 2 ^ 32) (hn : n < 2 ^ 32)
    (hwrap : 2 ^ 32 ≤ lo+n) (hw : Whole s pid lo (u32 (lo+n))) :
    vmmapRemove U env pid lo n s = some (s.ptUnmapRange pid (addrPage lo) (addrPage (u32 (lo+n)))) := by
  have hlt : u32 (lo+n) < lo := by
    unfold u32
    omega
  have hround : ∀ k ∈ s.areaIds pid, removeArea U env pid lo (u32 (lo+n)) k s = some s := by
    intro k hk
    obtain ⟨a,ha,rfl⟩ := List.mem_map.mp hk
    obtain ⟨done,rest,hl⟩ := append_of_mem ha
    have hwa := hw a ha
    have hlt := h.ok.spaced.nonempty a ha
    unfold removeArea
    rw [findArea_eq hl h.ids]
    simp only [bind_eq_bind,bind_some]
    rw [if_neg (by omega),if_neg (by omega),if_neg (by omega),if_neg (by omega)]
    rfl
  obtain ⟨s1,hs1,rfl,-⟩ : ∃ t, listIterate (areaIds pid) (removeArea U env pid lo (u32 (lo+n))) s = some t ∧
      t = s ∧ [] <:+ s.areaIds pid := by
    refine listIterate_rule (fun rest t => t = s ∧ rest <:+ s.areaIds pid) (fun k rest t hI => ?_) (fun k rest t hI => ?_)
      ⟨rfl,suffix_refl _⟩
    · obtain ⟨rfl,done,hd⟩ := hI
      have hids := h.ids
      rw [← hd] at hids
      exact ⟨done,hd.symm,fun hm => (nodup_append.mp hids).2.2 k hm k (by simp) rfl⟩
    · obtain ⟨rfl,hsuf⟩ := hI
      exact ⟨t,hround k (hsuf.subset mem_cons_self),rfl,(suffix_cons k rest).trans hsuf⟩
  simp only [vmmapRemove,hs1]
  rfl

theorem doExit_registered (hids : (s.areaIds pid).Nodup) (hh : Heap s ∅ ext) (hpos : ∀ x, (s.held x : ℤ) ≤ ext x)
    (hb : Backed s pid) (hr : Registered s) (ht : doExit env pid s = some t) : Registered t := by
  obtain ⟨s1,hs1,ht⟩ := bind_eq_some_iff.mp ht
  cases ht
  obtain ⟨-,-,-,-,hnil,hr1⟩ := of_returns (vmmapDestroy_heap env Registered
    (fun t u k hrt hd hheap => (hrt.unlinkArea pid k).drops hd hheap) hr hids hh hpos hb) hs1
  refine hr1.same (SameLinks.homes (.of_objs (fun q => ?_) rfl))
  by_cases hq : q = pid
  · subst hq
    rw [map_eq_nil_iff.mp hnil]
    simp [vmmList]
  · simp [vmmList,hq]

/-! ### Adding mappings -/

theorem find?_insertArea (hid : ∀ b ∈ rest, b.vmaId ≠ a.vmaId) (j : ℕ) :
    (insertArea a rest).find? (fun b => b.vmaId = j) =
      if j = a.vmaId then some a else rest.find? fun b => b.vmaId = j := by
  induction rest with
  | nil =>
    by_cases hj : j = a.vmaId
    · simp [insertArea,hj]
    · simp [insertArea,hj,Ne.symm hj]
  | cons b rest ih =>
    have ih := ih fun c hc => hid c (mem_cons_of_mem b hc)
    have hb := hid b mem_cons_self
    unfold insertArea
    by_cases hj : j = a.vmaId
    · subst hj
      split
      · simp
      · simp [hb,ih]
    · split
      · simp [find?_cons,Ne.symm hj]
      · simp [find?_cons,ih,hj]

/-- An area without an object is added. -/
theorem SameLinks.addArea (h : ListInv U s pid) (hlive : s.live pid) (hid : a.vmaId = s.nextArea) (ha : a.vmaObj = none) :
    SameLinks s (s.addArea pid (insertArea a (s.vmmList pid))) := by
  refine ⟨fun l => ?_,fun _ => rfl,fun _ => rfl⟩
  have hne : ∀ b ∈ s.vmmList pid, b.vmaId ≠ a.vmaId := fun b hb => by
    rw [hid]
    exact Nat.ne_of_lt (h.fresh b hb)
  have hlist : (s.addArea pid (insertArea a (s.vmmList pid))).vmmList l.1 =
      if l.1 = pid then insertArea a (s.vmmList pid) else s.vmmList l.1 := vmmList_setList hlive
  unfold Memory.areaObj findArea
  rw [hlist]
  split
  next hl =>
    rw [hl,find?_insertArea hne]
    split
    next hk =>
      have hnone : (s.vmmList pid).find? (fun b => b.vmaId = l.2) = none := by
        rw [find?_eq_none]
        intro b hb
        rw [hk]
        simpa using hne b hb
      rw [hnone,bind_some,ha]
      rfl
    · rfl
  · rfl

variable {flags : MapFlags}

theorem mapAttach_registered {ob : Mmobj} (hr : Registered s) (hh : Heap s ∅ ext) (ho : s.objs o = some ob)
    (hb : ob.mmoShadowed = none) (ha : s.findArea pid k = some a) (hao : a.vmaObj = none)
    (ht : mapAttach pid k o flags s = some t) : Registered t := by
  have hnone : s.home (pid, k) = none := by simp [home,areaObj,ha,hao]
  have hlt := hh.shape.obj_lt o ob ho
  simp only [mapAttach,ho,bind_eq_bind,bind_some] at ht
  generalize hs1 : s.modObj o (fun ob => { ob with mmoVmas := ob.mmoVmas ++ [(pid, k)] }) = s1 at ht
  have hobjs1 : ∀ x, s1.objs x = if x = o then some { ob with mmoVmas := ob.mmoVmas ++ [(pid, k)] } else s.objs x := by
    intro x
    rw [← hs1,objs_modObj,ho]
    rfl
  have hn1 : s1.nextObj = s.nextObj := by
    rw [← hs1]
    rfl
  have hfind1 : (s1.findArea pid k).isSome := by
    rw [← hs1]
    exact isSome_of_eq_some ha
  have harea1 : ∀ l, s1.areaObj l = s.areaObj l := by
    rw [← hs1]
    exact areaObj_of_lists fun _ => rfl
  have hhome1 : ∀ l, s1.home l = s.home l := by
    refine fun l => home_congr (harea1 l) fun y _ => mmobjBottomObj_of_shape ?_ y
    rw [← hs1]
    exact shape_modObj fun _ => rfl
  have hbot1 : s1.mmobjBottomObj o = some o := by
    rw [mmobjBottomObj,hobjs1,if_pos rfl,bind_some,hb]
  generalize hs2 : s1.modArea pid k (fun a => { a with vmaObj := some o }) = s2 at ht
  have hobjs2 : s2.objs = s1.objs := by
    rw [← hs2]
    rfl
  have hn2 : s2.nextObj = s.nextObj := by
    rw [← hs2]
    exact hn1
  have hhome2 : ∀ l, s2.home l = if l = (pid, k) then some o else s.home l := by
    intro l
    rw [← hs2,home_setObj hfind1,hbot1,hhome1]
  have h2 : Registered s2 := by
    refine hr.attach (b := o) hnone (fun x => ?_) hhome2
    rw [vmas,hobjs2,hobjs1]
    split
    · rw [vmas,ho]
      rfl
    · rfl
  split at ht
  · obtain ⟨b,hbot2,ht⟩ := bind_eq_some_iff.mp ht
    obtain ⟨s3,hs3,ht⟩ := bind_eq_some_iff.mp ht
    cases ht
    -- the shadow object is above the object that the area is on the list of
    obtain rfl : o = b := by
      rw [mmobjBottomObj,hobjs2] at hbot2
      exact some.inj (hbot1.symm.trans hbot2)
    have hbelow : Below s2 := by
      refine ⟨fun x hx => ?_,fun l y hy => ?_⟩
      · rw [hn2] at hx
        rw [hobjs2,hobjs1,if_neg (by omega)]
        exact hh.below.obj x hx
      · rw [← hs2,areaObj_setObj hfind1,harea1] at hy
        rw [hn2]
        split at hy
        · cases hy
          exact hlt
        · exact hh.below.area l y hy
    have hsame := (SameHomes.newShadow hbelow o o).trans (SameLinks.ref hs3).homes
    refine h2.same (hsame.trans (.setObj (b := o) ?_ ?_))
    · rw [hsame.home,hhome2,if_pos rfl]
    · rw [(SameLinks.ref hs3).bottom,bottom_newShadow]
  · cases ht
    exact h2

variable {file : Option ℕ}

theorem mapObject_registered {r : Except Errno Unit} (hr : Registered s)
    (hh : Heap s ∅ ext) (hz : ext s.nextObj = 0) (hf : Mappable env s file) (ha : s.findArea pid k = some a)
    (hao : a.vmaObj = none) (ht : mapObject env pid k file flags s = some (t, r)) : Registered t := by
  cases file with
  | none =>
    obtain ⟨t',ht',he⟩ := map_eq_some_iff.mp ht
    cases he
    have hnew : newObj .anon s = s.create ⟨.anon,1,0,[],none,none,[]⟩ := rfl
    have h1 : Heap (s.create ⟨.anon,1,0,[],none,none,[]⟩) ∅ _ :=
      hh.create hz ⟨rfl,rfl,rfl,rfl⟩ (fun _ => ⟨rfl,rfl⟩) fun hk => by cases hk
    rw [hnew] at ht'
    exact mapAttach_registered (hr.same (.create hh.below rfl)) h1
      (by rw [objs_create,if_pos rfl]) rfl ha hao ht'
  | some f =>
    obtain ⟨hok,-,ob,hob,hops⟩ := hf f rfl
    simp only [mapObject,hok] at ht
    obtain ⟨t',ht',he⟩ := map_eq_some_iff.mp ht
    cases he
    obtain ⟨s1,hs1,ht'⟩ := bind_eq_some_iff.mp ht'
    obtain ⟨h1,he1⟩ := of_returns (hh.ref (isSome_of_eq_some hob) (Finset.notMem_empty f)) hs1
    have hob1 : s1.objs f = some { ob with mmoRefcount := ob.mmoRefcount+1 } := by
      rw [he1,objs_modObj,if_pos rfl,hob]
      rfl
    exact mapAttach_registered (hr.same (SameLinks.ref hs1).homes) h1 hob1 (hh.shape.base f ob hob (by simp [hops])).1
      (by rw [findArea,(ref_clears hs1).vmmList]; exact ha) hao ht'

theorem mapInsert_registered {prot : Prot} {off : ℕ} {r : Except Errno Unit}
    (h : ListInv U s pid) (hlive : s.live pid) (hr : Registered s) (hh : Heap s ∅ ext) (hz : ext s.nextObj = 0)
    (hf : Mappable env s file) (ht : mapInsert U env pid file lo n prot flags off s = some (t, r)) : Registered t := by
  obtain ⟨l,hl,ht⟩ := bind_eq_some_iff.mp ht
  generalize hnew : mapArea s.nextArea lo n prot flags off = a at hl
  have hid : a.vmaId = s.nextArea := by
    rw [← hnew]
    rfl
  have hobj : a.vmaObj = none := by
    rw [← hnew]
    rfl
  unfold vmmapInsert at hl
  split at hl
  · cases hl
    have hadd := hh.addArea hlive (insertArea_perm a (s.vmmList pid)) (by simp [hobj])
    have hfind : (s.addArea pid (insertArea a (s.vmmList pid))).findArea pid s.nextArea = some a := by
      have hlist : (s.addArea pid (insertArea a (s.vmmList pid))).vmmList pid = insertArea a (s.vmmList pid) :=
        (vmmList_setList hlive).trans (if_pos rfl)
      rw [findArea,hlist,find?_insertArea (fun b hb => by rw [hid]; exact Nat.ne_of_lt (h.fresh b hb)),
        if_pos hid.symm]
    refine mapObject_registered (hr.same (SameLinks.addArea h hlive hid hobj).homes) hadd ?_ hf hfind hobj ht
    rw [hobj,tally_none,sub_zero]
    exact hz
  · cases hl

theorem Sys.vmmapMap_registered (h : Sys U s) (hr : Registered s) {lopage : ℕ} {prot : Prot}
    {off : ℕ} {dir : Dir} {r : Except Errno ℕ} (hlive : s.live pid) (hf : Mappable env s file)
    (hn : n < 2 ^ 32) (hw : Whole s pid lopage (lopage+n))
    (ht : Memory.vmmapMap U env pid file lopage n prot flags off dir s = some (t, r)) : Registered t := by
  have hH := U.high_lt
  have hargs := vmmapMap_args hn (h.list pid) ht
  obtain ⟨-,⟨hpl,-⟩ | ⟨s1,lo,r',hpl,hins,-⟩⟩ := vmmapMap_cases ht
  · obtain ⟨t',r',hpl',-,-,-,hsame⟩ := mapPlace_heap env dir (h.list pid) h.heap (fun _ => Int.le_refl _)
      (h.backed pid) hargs.npages_pos hargs.range
    cases hpl'.symm.trans hpl
    rw [hsame rfl]
    exact hr
  · obtain ⟨t',r',hpl',hheap,hkeep,-⟩ := mapPlace_heap env dir (h.list pid) h.heap (fun _ => Int.le_refl _)
      (h.backed pid) hargs.npages_pos hargs.range
    cases hpl'.symm.trans hpl
    obtain ⟨hrem,hlo,hhi,-⟩ := mapPlace_areas (h.list pid) hargs.npages_pos hn hpl
    have hr1 : Registered s1 := by
      rcases mapPlace_state hpl with rfl | ⟨rfl,hs1⟩
      · exact hr
      · exact vmmapRemove_registered (h.list pid) h.heap (fun _ => Int.le_refl _) (h.backed pid) hr (by omega) hw hs1
    refine mapInsert_registered hrem.list ((hrem.edits.live pid).mpr hlive) hr1 hheap ?_ (hf.keeps hkeep.toKeeps h.heap) hins
    exact h.fresh hkeep.nextObj

/-! ### `do_fork` -/

/-- The area goes to the end of the list of the bottom object of `o`. -/
theorem insertVma_homes (hb : s.mmobjBottomObj o = some b) (ht : insertVma o link s = some t) :
    (∀ x, t.vmas x = if x = b then s.vmas b ++ [link] else s.vmas x) ∧ ∀ l, t.home l = s.home l := by
  simp only [insertVma,hb,bind_eq_bind,bind_some] at ht
  obtain ⟨ob,hob,ht⟩ := bind_eq_some_iff.mp ht
  cases ht
  refine ⟨fun x => ?_,fun l => home_congr rfl fun y _ => mmobjBottomObj_of_shape (fun x => ?_) y⟩
  · rw [vmas,objs_modObj]
    split
    · rw [hob,vmas,hob]
      rfl
    · rfl
  · refine shape_modObj ?_ x
    exact fun _ => rfl

theorem forkArea_registered {child : ℕ} (hr : Registered s) (hh : Heap s ∅ ext) (hne : pid ≠ child)
    (hpn : (s.areaIds pid).Nodup) (hc : s.areaObj (child, k) = none) (ht : forkArea pid child k s = some t) :
    Registered t := by
  obtain ⟨c,hfind,ht⟩ := bind_eq_some_iff.mp ht
  obtain ⟨p,hlook,ht⟩ := bind_eq_some_iff.mp ht
  obtain ⟨o,ho,ht⟩ := bind_eq_some_iff.mp ht
  have hsome : (s.findArea child k).isSome := isSome_of_eq_some hfind
  have hnone : s.home (child, k) = none := by rw [home,hc,Option.bind_none]
  have hp : s.areaObj (pid, p.vmaId) = some o := by
    obtain ⟨done,rest,hl⟩ := append_of_mem (vmmapLookup_mem hlook).1
    rw [areaObj,findArea_eq hl hpn,bind_some,ho]
  obtain ⟨ob,hob⟩ := isSome_iff_exists.mp (hh.areaObj_isSome hp)
  obtain ⟨b,-,hb,-⟩ := hh.shape.bottom hob (Finset.notMem_empty o)
  split at ht
  · -- a shared area: the child has the object of its parent
    obtain ⟨s1,hs1,ht⟩ := bind_eq_some_iff.mp ht
    have hsame := SameLinks.ref hs1
    obtain ⟨hv,hhome⟩ := insertVma_homes ((hsame.bottom o).trans hb) ht
    refine hr.attach (b := b) hnone (fun x => ?_) fun l => ?_
    · rw [hv,hsame.vmas,hsame.vmas]
      rfl
    · rw [hhome,hsame.homes.home,home_setObj hsome,hb]
  · -- a private one: both have a new shadow object above the bottom object of the parent's
    rw [hb] at ht
    simp only [bind_eq_bind,bind_some] at ht
    obtain ⟨s1,hs1,ht⟩ := bind_eq_some_iff.mp ht
    obtain ⟨s2,hs2,ht⟩ := bind_eq_some_iff.mp ht
    obtain ⟨s3,hs3,ht⟩ := bind_eq_some_iff.mp ht
    have hrefs := ((SameLinks.ref hs1).trans (.ref hs2)).trans (.ref hs3)
    have hbelow : Below (s.newShadow o b) := by
      rw [newShadow_eq_create]
      exact hh.below.create _
    have h3 : SameHomes s s3 := ((SameHomes.newShadow hh.below o b).trans (.newShadow hbelow o b)).trans hrefs.homes
    have hchild : s3.mmobjBottomObj (s.nextObj+1) = some b := by
      rw [hrefs.bottom]
      exact bottom_newShadow (s.newShadow o b) o b
    have hparent : s3.mmobjBottomObj s.nextObj = some b := by
      have hlt : s.nextObj ≠ (s.newShadow o b).nextObj := Nat.ne_of_lt (Nat.lt_succ_self _)
      rw [hrefs.bottom,newShadow_eq_create,mmobjBottomObj,objs_create,if_neg hlt]
      exact bottom_newShadow s o b
    generalize hs4 : s3.modArea pid p.vmaId (fun a => { a with vmaObj := some s.nextObj }) = s4 at ht
    have h4 : SameHomes s s4 := by
      rw [← hs4]
      refine h3.trans (.setObj ?_ hparent)
      rw [h3.home,home,hp,bind_some,hb]
    have hsome4 : (s4.findArea child k).isSome := by
      rw [← hs4,findArea,vmmList_modArea,if_neg hne.symm,(ref_clears hs3).vmmList,(ref_clears hs2).vmmList,
        (ref_clears hs1).vmmList]
      exact hsome
    have hbot4 : ∀ x, s4.mmobjBottomObj x = s3.mmobjBottomObj x := by
      rw [← hs4]
      exact fun _ => rfl
    generalize hs5 : s4.modArea child k (fun a => { a with vmaObj := some (s.nextObj+1) }) = s5 at ht
    have hbot5 : s5.mmobjBottomObj s.nextObj = some b := by
      rw [← hs5]
      exact (hbot4 _).trans hparent
    obtain ⟨hv,hhome⟩ := insertVma_homes hbot5 ht
    refine hr.attach (b := b) hnone (fun x => ?_) fun l => ?_
    · rw [hv,← h4.vmas,← h4.vmas,← hs5]
      rfl
    · rw [hhome,← hs5,home_setObj hsome4,hbot4,hchild,h4.home]

/-- The copies of the areas have no object yet. -/
theorem SameLinks.forkStart (h : Heap s ∅ ext) (p : Proc) : SameLinks s (forkStart p s) := by
  refine ⟨fun l => ?_,fun _ => rfl,fun _ => rfl⟩
  unfold Memory.areaObj findArea
  rw [vmmList_forkStart]
  split
  next hl =>
    rw [hl,h.vmmList_nextPid]
    cases hf : (vmmapClone s.nextArea p.vmmList).find? fun a => decide (a.vmaId = l.2) with
    | none => rfl
    | some a => exact vmmapClone_obj (mem_of_find?_eq_some hf)
  · rfl

theorem Sys.doFork_registered (h : Sys U s) (hr : Registered s) (hlive : s.live pid) (ht : doFork U pid s = some t) :
    Registered t := by
  obtain ⟨p,hp⟩ := isSome_iff_exists.mp hlive
  rw [doFork_eq hp] at ht
  obtain ⟨s1,hs1,rfl⟩ := map_eq_some_iff.mp ht
  have hne : pid ≠ s.nextPid := Nat.ne_of_lt (h.heap.holders.pid_lt pid hlive)
  have hround : ∀ before a todo t u, s.vmmList pid = before ++ a :: todo →
      Forking (forkStart p s) (fun x => (s.held x : ℤ)) pid s.nextPid s.nextArea before (a :: todo) t →
      Registered t → forkArea pid s.nextPid (s.nextArea+before.length) t = some u → Registered u := by
    intro before a todo t u hl hf hrt hu
    refine forkArea_registered hrt hf.heap hne ?_ ?_ hu
    · rw [hf.ids_parent,← hl]
      exact (h.list pid).ids
    · exact congrArg (Option.bind · Vmarea.vmaObj) (findArea_eq hf.child hf.ids_child_nodup)
  obtain ⟨-,hr1⟩ := of_returns (forkAreas_loop (s := forkStart p s) Registered (h.list pid).ok (h.list pid).ids (h.backed pid)
    (fun x hx => h.fresh hx) hne hround (Forking.start hp h.heap)
    (hr.same (SameLinks.forkStart h.heap p).homes)) hs1
  exact hr1.same (SameLinks.of_objs (clears_ptUnmapRange s1 pid _ _).vmmList rfl).homes

/-! ### The other calls -/

/-- A range that ends with an area does not lie inside another. -/
theorem ListInv.whole_end (h : ListInv U s pid) {vma : Vmarea} (hv : vma ∈ s.vmmList pid) (hlo : lo < vma.vmaEnd) :
    Whole s pid lo vma.vmaEnd := by
  rintro a ha ⟨hstart,hend⟩
  have hne := h.ok.spaced.nonempty vma hv
  have hlast := (vmmapLookup_eq_some h.ok (v := vma.vmaEnd - 1)).mpr ⟨hv,by omega,by omega⟩
  have hother := (vmmapLookup_eq_some h.ok (v := vma.vmaEnd - 1)).mpr ⟨ha,by omega,by omega⟩
  cases hlast.symm.trans hother
  exact Nat.lt_irrefl _ hend

theorem Sys.doBrk_registered (h : Sys U s) (hr : Registered s) {addr : ℕ} {r : Except Errno ℕ}
    (ht : doBrk U env pid addr s = some (t, r)) : Registered t := by
  have hH := U.high_lt
  obtain ⟨p,hp,ht⟩ := bind_eq_some_iff.mp ht
  split at ht
  · cases ht
    exact hr
  split at ht
  · cases ht
    exact hr
  obtain ⟨vma,hvma,ht⟩ := bind_eq_some_iff.mp ht
  have hlist : p.vmmList = s.vmmList pid := by simp [vmmList,hp]
  have hmem : vma ∈ s.vmmList pid := hlist ▸ (vmmapLookup_mem hvma).1
  have hend := ((h.list pid).ok.bounds vma hmem).2
  have hset : ∀ {s1 : Memory D}, Registered s1 → Registered (s1.setBrk pid addr) := fun h1 =>
    h1.same (SameLinks.homes (.of_objs (fun _ => vmmList_setBrk) rfl))
  unfold moveBrk at ht
  split at ht
  next hcut =>
    obtain ⟨s1,hs1,ht⟩ := bind_eq_some_iff.mp ht
    cases ht
    have hw := (h.list pid).whole_end hmem hcut
    rw [show vma.vmaEnd = pagesOf addr+(vma.vmaEnd - pagesOf addr) by omega] at hw
    exact hset (vmmapRemove_registered (h.list pid) h.heap (fun _ => Int.le_refl _) (h.backed pid) hr (by omega) hw hs1)
  split at ht
  · obtain ⟨empty,-,ht⟩ := bind_eq_some_iff.mp ht
    split at ht
    · cases ht
      exact hset (hr.same (SameLinks.homes (.modArea fun _ => ⟨rfl,rfl⟩)))
    · cases ht
      exact hr
  · cases ht
    exact hset hr

theorem Sys.vput_registered (h : Sys U s) (hr : Registered s) (ho : 0 < s.held o) (ht : put env o s = some t) :
    Registered t := by
  obtain ⟨ob,hob,-⟩ := h.held o ho
  have hd := of_returns (h.heap.put env (fun x => Int.natCast_nonneg _) (isSome_of_eq_some hob)
    (Finset.notMem_empty o) (by omega)) ht
  exact hr.drops hd.drops hd.heap

theorem Sys.reclaim_registered (h : Sys U s) (hr : Registered s) {f : ℕ} (ht : pframeFree (put env) f s = some t) :
    Registered t := by
  obtain ⟨pf,s1,-,-,-,hu,hd⟩ := h.reclaim_steps ht
  exact (hr.same hu.sameLinks.homes).drops hd.drops hd.heap

/-! ### Runs -/

/-- The calls of a run that cut no area in two. -/
def UnsplitCall (s : Memory D) : Env D × Call D → Prop
  | (env, .map pid file lopage npages prot flags off dir) =>
    Allowed s (env, .map pid file lopage npages prot flags off dir) ∧ Whole s pid lopage (lopage+npages)
  | (_, .remove pid lopage npages) =>
    lopage < 2 ^ 32 ∧ npages < 2 ^ 32 ∧ Whole s pid lopage (u32 (lopage+npages))
  | (env, .mmap pid addr len prot flags file off) =>
    Allowed s (env, .mmap pid addr len prot flags file off) ∧
      Whole s pid (addr / pageSize) (addr / pageSize+pagesOf len)
  | (_, .munmap pid addr len) =>
    addr < 2 ^ 32 ∧ len < 2 ^ 32 ∧ Whole s pid (addr / pageSize) (addr / pageSize+pagesOf len)
  | c => Allowed s c

/-- What holds in every state of such a run. -/
structure Tidy (U : UserMem) (s : Memory D) : Prop where
  sys : Sys U s
  offsets : ∀ q, Offsets s q
  registered : Registered s

theorem Tidy.remove (h : Tidy U s) (hlo : lo < 2 ^ 32) (hn : n < 2 ^ 32) (hw : Whole s pid lo (u32 (lo+n)))
    (ht : vmmapRemove U env pid lo n s = some t) : Tidy U t := by
  by_cases hsum : lo+n < 2 ^ 32
  · rw [u32_add hsum] at hw
    have hed := (vmmapRemove_areas (h.sys.list pid) hsum ht).edits
    exact ⟨(h.sys.next_remove hsum ht).sys,
      hed.offsets h.offsets (vmmapRemove_offsets (h.sys.list pid) (h.offsets pid) hsum ht),
      vmmapRemove_registered (h.sys.list pid) h.sys.heap (fun _ => Int.le_refl _) (h.sys.backed pid) h.registered hsum hw ht⟩
  · rw [vmmapRemove_wrapped (h.sys.list pid) hlo hn (by omega) hw] at ht
    cases ht
    have hcl := clears_ptUnmapRange s pid (addrPage lo) (addrPage (u32 (lo+n)))
    have hsame : SameHeap s (s.ptUnmapRange pid (addrPage lo) (addrPage (u32 (lo+n)))) := sameHeap_ptUnmapRange s pid _ _
    exact ⟨h.sys.same_lists hcl.vmmList (Nat.le_refl _) (h.sys.heap.clears hcl hsame) (fun _ => rfl) rfl,
      fun q => (h.offsets q).of_list (hcl.vmmList q),h.registered.same (SameLinks.of_objs hcl.vmmList rfl).homes⟩

section Runs

variable [Zero D]

theorem Tidy.step {c : Env D × Call D} (h : Tidy U s) (hc : UnsplitCall s c) (hst : Memory.step U s c = some t) :
    Tidy U t := by
  have hr := h.registered
  have hadds : ∀ {t}, Adds s t → Registered t := fun ha => hr.same ha.sameLinks.homes
  have hacc : Accesses c.2 → Registered t := fun ha => by
    refine (h.sys.access Registered (fun _ ha h => h.same ha.sameLinks.homes) (fun _ _ h => ?_) hr ha hst).2
    exact h.same (SameLinks.homes (.of_objs (fun _ => rfl) rfl))
  have hmade : Allowed s c → Registered t → Tidy U t := fun hal hrt =>
    ⟨(h.sys.step hal hst).sys,h.sys.step_offsets h.offsets hal hst,hrt⟩
  obtain ⟨env,c⟩ := c
  cases c with
  | procCreate =>
    cases hst
    exact hmade hc (hr.same (SameLinks.homes (.of_objs (vmmList_procCreate h.sys.heap) rfl)))
  | map pid file lopage npages prot flags off dir =>
    obtain ⟨hal,hw⟩ := hc
    obtain ⟨⟨t',r⟩,ht,he⟩ := map_eq_some_iff.mp hst
    cases he
    exact hmade hal (h.sys.vmmapMap_registered hr hal.1 hal.2.2 hal.2.1 hw ht)
  | remove pid lopage npages => exact h.remove hc.1 hc.2.1 hc.2.2 hst
  | mmap pid addr len prot flags file off =>
    obtain ⟨hal,hw⟩ := hc
    obtain ⟨⟨t',r⟩,ht,he⟩ := map_eq_some_iff.mp hst
    cases he
    refine hmade hal ?_
    rcases doMmap_cases ht with rfl | ⟨f,hfile,ht⟩
    · exact hr
    · exact h.sys.vmmapMap_registered hr hal.1 (hfile hal.2.2)
        (Nat.lt_of_le_of_lt (pagesOf_lt hal.2.1) (by decide)) hw ht
  | munmap pid addr len =>
    obtain ⟨haddr,hlen,hw⟩ := hc
    obtain ⟨⟨t',r⟩,ht,he⟩ := map_eq_some_iff.mp hst
    cases he
    rcases doMunmap_cases ht with rfl | ⟨-,hrem⟩
    · exact h
    · have hp := pagesOf_lt hlen
      have hlo : addr / pageSize < 2 ^ 20 := by
        unfold pageSize
        omega
      refine h.remove (by omega) (by omega) ?_ hrem
      rw [u32_add (by omega)]
      exact hw
  | brk pid addr =>
    obtain ⟨⟨t',r⟩,ht,he⟩ := map_eq_some_iff.mp hst
    cases he
    exact hmade hc (h.sys.doBrk_registered hr ht)
  | fork pid => exact hmade hc (h.sys.doFork_registered hr hc hst)
  | exit pid =>
    exact hmade hc (doExit_registered (h.sys.list pid).ids h.sys.heap (fun _ => Int.le_refl _) (h.sys.backed pid) hr hst)
  | pagefault pid vaddr cause =>
    refine hmade hc ?_
    have hexit : ∀ s1, Sys U s1 → Registered s1 → doExit env pid s1 = some t → Registered t := fun s1 h1 hr1 he =>
      doExit_registered (h1.list pid).ids h1.heap (fun _ => Int.le_refl _) (h1.backed pid) hr1 he
    rcases h.sys.pagefault_lookup hst with ⟨s1,hsys,he,rfl | ⟨_,_,_,_,hl⟩⟩ | ⟨_,_,_,_,_,_,_,-,hl,rfl⟩
    · exact hexit _ h.sys hr he
    · exact hexit s1 hsys (hadds hl.adds) he
    · exact (hadds hl.adds).same (SameLinks.homes (.of_objs (fun _ => vmmList_modProc fun _ => rfl) rfl))
  | lookup | read | write | vmmapRead | vmmapWrite => exact hmade hc (hacc trivial)
  | reclaim frame => exact hmade hc (h.sys.reclaim_registered hr hst)
  | vget =>
    cases hst
    exact hmade hc ((hr.same (.create h.sys.heap.below rfl)).same (SameLinks.homes (.of_objs (fun _ => rfl) rfl)))
  | vref o =>
    obtain ⟨s1,hs1,rfl⟩ := map_eq_some_iff.mp hst
    exact hmade hc ((hr.same (SameLinks.ref hs1).homes).same (SameLinks.homes (.of_objs (fun _ => rfl) rfl)))
  | vput o =>
    obtain ⟨s1,hs1,rfl⟩ := map_eq_some_iff.mp hst
    exact hmade hc ((h.sys.vput_registered hr hc hs1).same (SameLinks.homes (.of_objs (fun _ => rfl) rfl)))

theorem tidy_of_exec {s0 : Memory D} {cs : List (Env D × Call D)} (h0 : Initial s0)
    (h : Exec (step U) UnsplitCall s0 cs s) : Tidy U s := by
  induction h with
  | nil =>
    refine ⟨h0.sys,fun q a ha => by simp [h0.vmmList] at ha,fun x => ?_⟩
    simp [vmas,home,areaObj,findArea,h0.objs,h0.vmmList]
  | snoc _ hc hst ih => exact ih.step hc hst

omit [Zero D] in
/-- `pframe_remove_from_pts` returns, and no page of an area at the page of the frame is
mapped any more. -/
theorem Tidy.removeFromPts (h : Tidy U s) {pf : Pframe D} (ho : (s.objs pf.pfObj).isSome) :
    ∃ t, pframeRemoveFromPts pf s = some t ∧ ∀ q v a, vmmapLookup (s.vmmList q) v = some a →
      a.vmaObj.bind s.mmobjBottomObj = s.mmobjBottomObj pf.pfObj → a.page v = pf.pfPagenum → t.entry q v = none := by
  have hH := U.high_lt
  obtain ⟨ob,hob⟩ := isSome_iff_exists.mp ho
  obtain ⟨b,bob,hb,hbob,-⟩ := h.sys.heap.shape.bottom hob (Finset.notMem_empty _)
  obtain ⟨t,ht,-⟩ := foldlM_removeFromPt (n := pf.pfPagenum) (h.sys.heap.holders.vmas b bob hbob)
  refine ⟨t,?_,fun q v a ha hbot hpage => ?_⟩
  · simp only [pframeRemoveFromPts,hb,hbob,bind_eq_bind,bind_some]
    exact ht
  · obtain ⟨ham,hstart,hend⟩ := vmmapLookup_mem ha
    have hbound := ((h.sys.list q).ok.bounds a ham).2
    have hpage' : pf.pfPagenum = a.vmaOff+(v - a.vmaStart) :=
      hpage.symm.trans ((h.offsets q a ham).page_eq hstart (by omega))
    have hmem : (q, a.vmaId) ∈ s.vmas b := by
      rw [Indexed.mem h.registered,home,(h.sys.list q).areaObj_eq ham,hbot,hb]
    rw [vmas,hbob] at hmem
    obtain ⟨done,rest,hl⟩ := append_of_mem ham
    rw [hpage'] at ht
    exact removeFromPts_entry (findArea_eq hl (h.sys.list q).ids) (h.offsets q a ham) ⟨hstart,hend⟩ (by omega) hmem ht

/-- In every state of such a run, an area is on the list of its bottom object once and on no
other list, the lists hold nothing else, and `pframe_remove_from_pts` clears the entries of
every area that covers the page. -/
theorem areas_registered (U : UserMem) {s0 : Memory D} {cs : List (Env D × Call D)} (h0 : Initial s0)
    (h : Exec (step U) UnsplitCall s0 cs s) : (∀ q, (s.areaIds q).Nodup) ∧
    (∀ q, ∀ a ∈ s.vmmList q, ∃ o b, a.vmaObj = some o ∧ s.mmobjBottomObj o = some b ∧
      ∀ x, (s.vmas x).count (q, a.vmaId) = if x = b then 1 else 0) ∧
    (∀ x, ∀ link ∈ s.vmas x, ∃ a ∈ s.vmmList link.1, a.vmaId = link.2 ∧ a.vmaObj.bind s.mmobjBottomObj = some x) ∧
    ∀ pf : Pframe D, (s.objs pf.pfObj).isSome → ∃ t, pframeRemoveFromPts pf s = some t ∧
      ∀ q v a, vmmapLookup (s.vmmList q) v = some a → a.vmaObj.bind s.mmobjBottomObj = s.mmobjBottomObj pf.pfObj →
        a.page v = pf.pfPagenum → t.entry q v = none := by
  have ht := tidy_of_exec h0 h
  refine ⟨fun q => (ht.sys.list q).ids,fun q a ha => ?_,fun x link hl => ?_,fun pf ho => ht.removeFromPts ho⟩
  · obtain ⟨o,ob,ho,hob⟩ := ht.sys.area_obj ha
    obtain ⟨b,-,hb,-⟩ := ht.sys.heap.shape.bottom hob (Finset.notMem_empty o)
    have hhome : s.home (q, a.vmaId) = some b := by
      rw [home,(ht.sys.list q).areaObj_eq ha,ho,bind_some,hb]
    refine ⟨o,b,ho,hb,fun x => ?_⟩
    rw [(Indexed.nodup ht.registered x).count]
    simp only [Indexed.mem ht.registered,hhome,some.injEq,eq_comm]
  · obtain ⟨o,hao,hb⟩ := bind_eq_some_iff.mp ((Indexed.mem ht.registered).mp hl)
    obtain ⟨a,ha,hid,ho⟩ := mem_of_areaObj hao
    exact ⟨a,ha,hid,by rw [ho,bind_some,hb]⟩

end Runs

/-! ### Samples -/

instance (s : Memory D) (pid lo hi : ℕ) : Decidable (Whole s pid lo hi) :=
  inferInstanceAs (Decidable (∀ a ∈ s.vmmList pid, ¬ (a.vmaStart < lo ∧ hi < a.vmaEnd)))

instance (s : Memory D) : ∀ c : Env D × Call D, Decidable (UnsplitCall s c) := by
  rintro ⟨env,⟨⟩⟩ <;> unfold UnsplitCall <;> infer_instance

end Memory

open Memory Lib

/-- An area is inherited, cut short at its end by the child and mapped over at its start. -/
def trimmedCalls : List (Env ℕ × Call ℕ) :=
  [.procCreate,.map 0 none 0x500 4 readWrite privateAnon 0 .hilo,.fork 0,.remove 1 0x503 1,
    .map 1 none 0x500 1 readWrite privateAnon 0 .hilo,.pagefault 1 0x501000 ⟨false,false⟩].map fun c => (calmEnv, c)

def trimmedMemory : Memory ℕ := (run (step sampleUser) UnsplitCall emptyMemory trimmedCalls).getD emptyMemory

theorem areas_registered_trimmedMemory : Exec (step sampleUser) UnsplitCall emptyMemory trimmedCalls trimmedMemory ∧
    (trimmedMemory.vmmList 1).map (fun a => (a.vmaId, a.vmaStart, a.vmaEnd)) = [(2, 0x500, 0x501),(1, 0x501, 0x503)] ∧
    trimmedMemory.vmas 0 = [(0, 0),(1, 1)] ∧ trimmedMemory.entry 1 0x501 = some (0, false) ∧
    ∃ pf t, trimmedMemory.frames 0 = some pf ∧ pframeRemoveFromPts pf trimmedMemory = some t ∧ t.entry 1 0x501 = none := by
  have h : Exec (step sampleUser) UnsplitCall emptyMemory trimmedCalls trimmedMemory :=
    Exec.ofRun_getD (by decide +kernel) _
  obtain ⟨-,-,-,hpts⟩ := areas_registered sampleUser emptyMemory_initial h
  have ha : vmmapLookup (trimmedMemory.vmmList 1) 0x501 = some ⟨1,0x501,0x503,1,readWrite,privateAnon,some 3⟩ := by
    decide +kernel
  have hf : (trimmedMemory.frames 0).map (fun pf => (pf.pfObj, pf.pfPagenum)) = some (0, 1) := by decide +kernel
  obtain ⟨pf,hf,hpf⟩ := map_eq_some_iff.mp hf
  obtain ⟨hobj,hpage⟩ := Prod.mk.inj hpf
  obtain ⟨t,ht,hclear⟩ := hpts pf (by rw [hobj]; decide +kernel)
  exact ⟨h,by decide +kernel,by decide +kernel,by decide +kernel,pf,t,hf,ht,
    hclear 1 0x501 _ ha (by rw [hobj]; decide +kernel) (by rw [hpage]; decide +kernel)⟩

/-- A process reads the last page of a file of four pages and unmaps the second. -/
def halvesCalls : List (Env ℕ × Call ℕ) :=
  [.procCreate,.vget,.map 0 (some 0) 0x500 4 readWrite ⟨true,false,true,false⟩ 0 .hilo,
    .pagefault 0 0x503000 ⟨false,false⟩,.remove 0 0x501 1].map fun c => (calmEnv, c)

def halvesMemory : Memory ℕ := (run (step sampleUser) Allowed emptyMemory halvesCalls).getD emptyMemory

/-- The new half is not on the list of its object, and the entry of its page stays. -/
theorem half_unregistered : Exec (step sampleUser) Allowed emptyMemory halvesCalls halvesMemory ∧
    (halvesMemory.vmmList 0).map (fun a => (a.vmaId, a.vmaObj, a.page a.vmaStart)) = [(0, some 0, 0),(1, some 0, 2)] ∧
    halvesMemory.mmobjBottomObj 0 = some 0 ∧ halvesMemory.vmas 0 = [(0, 0)] ∧
    (halvesMemory.frames 0).bind (fun pf => (pframeRemoveFromPts pf halvesMemory).map fun t =>
      (pf.pfObj, pf.pfPagenum, t.entry 0 0x503)) = some (0, 3, some (0, false)) := by
  refine ⟨Exec.ofRun_getD (by decide +kernel) _,?_,?_,?_,?_⟩
  · decide +kernel
  · decide +kernel
  · decide +kernel
  · decide +kernel

end Csci402.Vm
