import Csci402.Lib.Run
import Csci402.Vm.AreaOps

/-! The list of areas of a process refines a finite map from page numbers: `vmmap_map`
overrides it on the pages of the new area, `vmmap_remove` takes a range out of it,
and `do_brk` extends it after the heap or cuts it there. -/

namespace Csci402.Vm

namespace Memory

open Lib Option List

variable {D : Type} {U : UserMem} {env : Env D} {s t u : Memory D} {pid pid' v lo hi n k : ℕ}
  {a : Vmarea} {file : Option ℕ} {flags : MapFlags} {prot : Prot} {off : ℕ}

/-! ### `vmmap_map` -/

theorem free_of_trans (h : AreasOk U (s.vmmList pid)) (hn : 0 < n)
    (ht : ∀ v, lo ≤ v ∧ v < lo+n → trans (s.vmmList pid) v = none) :
    Free Vmarea.vmaStart Vmarea.vmaEnd lo (lo+n) (s.vmmList pid) := by
  intro a ha
  have hne := h.spaced.nonempty a ha
  by_contra hc
  -- the first page of both the area and the range
  have := trans_eq_none.mp (ht (max a.vmaStart lo) (by omega)) a ha
  omega

theorem Removed.of_free (h : ListInv U s pid)
    (hf : Free Vmarea.vmaStart Vmarea.vmaEnd lo hi (s.vmmList pid)) : Removed U pid lo hi s s := by
  refine ⟨h,(Clears.refl s).edits pid,fun v => ?_,
    fun b hb => ⟨b,hb,⟨Nat.le_refl _,Nat.le_refl _,fun _ => rfl⟩,.inl rfl⟩⟩
  split
  next hv =>
    refine trans_eq_none.mpr fun a ha => ?_
    have := hf a ha
    omega
  · rfl

variable {lopage : ℕ} {dir : Dir}

/-- The range for a new area is in user memory and, now, free. -/
theorem mapPlace_areas (h : ListInv U s pid) (hn : 0 < n)
    (hn' : n < 2 ^ 32) (ht : mapPlace U env pid lopage n dir s = some (t, some lo)) :
    Removed U pid lo (lo+n) s t ∧ U.low ≤ lo ∧ lo+n ≤ U.high ∧ (lopage ≠ 0 → lo = lopage) := by
  have hH := U.high_lt
  unfold mapPlace at ht
  split at ht
  next h0 =>
    obtain ⟨r,hr,he⟩ := bind_eq_some_iff.mp ht
    simp only [Option.pure_def,some.injEq,Prod.mk.injEq] at he
    obtain ⟨rfl,he⟩ := he
    split at he
    · cases he
    · cases he
      obtain ⟨h1,h2,h3⟩ := vmmapFindRange_spec h.ok hn hr (by omega)
      exact ⟨Removed.of_free h h3,h1,h2,fun hc => absurd h0 hc⟩
  · obtain ⟨e,he,ht⟩ := bind_eq_some_iff.mp ht
    obtain ⟨h1,h2,-,hf⟩ := vmmapIsRangeEmpty_spec h.ok hn' he
    split at ht
    next hemp =>
      cases ht
      exact ⟨Removed.of_free h (hf.mp hemp),h1,h2,fun _ => rfl⟩
    · obtain ⟨s1,hs1,ht⟩ := bind_eq_some_iff.mp ht
      cases ht
      exact ⟨vmmapRemove_areas h (by omega) hs1,h1,h2,fun _ => rfl⟩

/-- Where there is something in the range it is removed. -/
theorem mapPlace_state (ht : mapPlace U env pid lopage n dir s = some (t, some lo)) :
    t = s ∨ lo = lopage ∧ vmmapRemove U env pid lo n s = some t := by
  unfold mapPlace at ht
  split at ht
  · obtain ⟨range,-,ht⟩ := bind_eq_some_iff.mp ht
    simp only [Option.pure_def,some.injEq,Prod.mk.injEq] at ht
    exact .inl ht.1.symm
  · obtain ⟨empty,-,ht⟩ := bind_eq_some_iff.mp ht
    split at ht
    · cases ht
      exact .inl rfl
    · obtain ⟨s1,hs1,ht⟩ := bind_eq_some_iff.mp ht
      cases ht
      exact .inr ⟨rfl,hs1⟩

/-- The object of a new mapping: the file's or a new one, or a new shadow object over it. -/
def mapTop (file : Option ℕ) (flags : MapFlags) (s : Memory D) : ℕ :=
  if flags.priv then s.nextObj+(if file.isNone then 1 else 0) else file.getD s.nextObj

/-- The new area gets an object. -/
theorem mapAttach_areas {o : ℕ} (h : mapAttach pid k o flags s = some t) :
    Edits pid s t ∧ t.nextArea = s.nextArea ∧ t.vmmList pid = (s.vmmList pid).map fun a =>
      if a.vmaId = k then { a with vmaObj := some (if flags.priv then s.nextObj else o) } else a := by
  obtain ⟨ob,-,h⟩ := bind_eq_some_iff.mp h
  have hed := ((clears_modObj s o fun ob => { ob with mmoVmas := ob.mmoVmas ++ [(pid, k)] }).edits
    pid).trans (edits_modArea _ pid k fun a => { a with vmaObj := some o })
  split at h
  next hp =>
    obtain ⟨b,-,h⟩ := bind_eq_some_iff.mp h
    obtain ⟨s1,hs1,h⟩ := bind_eq_some_iff.mp h
    cases h
    have hcl := (clears_newShadow _ o b).trans (ref_clears hs1)
    refine ⟨(hed.trans (hcl.edits pid)).trans (edits_modArea s1 pid k _),hcl.nextArea,?_⟩
    rw [vmmList_modArea,if_pos rfl,hcl.vmmList pid,vmmList_modArea,if_pos rfl,List.map_map]
    refine map_congr_left fun a _ => ?_
    by_cases hk : a.vmaId = k
    · simp only [Function.comp_apply,hk,hp,if_true]
      rfl
    · simp [hk]
  next hp =>
    cases h
    refine ⟨hed,rfl,?_⟩
    simp only [Bool.not_eq_true] at hp
    simp only [hp,Bool.false_eq_true,if_false]
    exact vmmList_modArea.trans (if_pos rfl)

theorem mapObject_areas (h : mapObject env pid k file flags s = some (t, .ok ())) :
    Edits pid s t ∧ t.nextArea = s.nextArea ∧ t.vmmList pid = (s.vmmList pid).map fun a =>
      if a.vmaId = k then { a with vmaObj := some (mapTop file flags s) } else a := by
  cases file with
  | none =>
    obtain ⟨s1,h,he⟩ := map_eq_some_iff.mp h
    cases he
    obtain ⟨hed,hn,hl⟩ := mapAttach_areas h
    exact ⟨((clears_newObj s .anon).edits pid).trans hed,hn,hl⟩
  | some f =>
    simp only [mapObject] at h
    split at h
    · cases h
    · obtain ⟨s1,h,he⟩ := map_eq_some_iff.mp h
      cases he
      obtain ⟨s2,hs2,h⟩ := bind_eq_some_iff.mp h
      have hcl := ref_clears hs2
      obtain ⟨hed,hn,hl⟩ := mapAttach_areas h
      rw [nextObj_ref hs2,hcl.vmmList pid] at hl
      exact ⟨(hcl.edits pid).trans hed,hn.trans hcl.nextArea,hl⟩

theorem ListInv.addArea (h : ListInv U s pid) (hlive : s.live pid) (ha : a.vmaStart < a.vmaEnd)
    (hb : U.low ≤ a.vmaStart ∧ a.vmaEnd ≤ U.high) (hid : a.vmaId = s.nextArea)
    (hf : Free Vmarea.vmaStart Vmarea.vmaEnd a.vmaStart a.vmaEnd (s.vmmList pid)) :
    ∃ l1 l2, s.vmmList pid = l1 ++ l2 ∧
      (s.addArea pid (insertArea a (s.vmmList pid))).vmmList pid = l1 ++ a :: l2 ∧
      ListInv U (s.addArea pid (insertArea a (s.vmmList pid))) pid := by
  obtain ⟨l1,l2,hs,hins,hok⟩ := h.ok.insert ha hb hf
  have hl : (s.addArea pid (insertArea a (s.vmmList pid))).vmmList pid = l1 ++ a :: l2 := by
    rw [← hins]
    exact (vmmList_setList hlive).trans (if_pos rfl)
  have hp : (l1 ++ a :: l2).Perm (a :: s.vmmList pid) := by
    rw [hs]
    exact perm_middle
  refine ⟨l1,l2,hs,hl,by rw [hl]; exact hok,by rw [areaIds,hl]; exact h.ids_addArea hid hp,
    fun x hx => ?_⟩
  rw [hl,hp.mem_iff,mem_cons] at hx
  change x.vmaId < s.nextArea+1
  rcases hx with rfl | hx
  · omega
  · have := h.fresh x hx
    omega

/-- The end of `vmmap_map`, in a free range. -/
theorem mapInsert_areas (h : ListInv U s pid) (hlive : s.live pid) (hhi : lo+n ≤ U.high)
    (hf : Free Vmarea.vmaStart Vmarea.vmaEnd lo (lo+n) (s.vmmList pid))
    (ht : mapInsert U env pid file lo n prot flags off s = some (t, .ok ())) :
    ∃ l1 l2, s.vmmList pid = l1 ++ l2 ∧ t.vmmList pid = l1 ++
        { mapArea s.nextArea lo n prot flags off with vmaObj := some (mapTop file flags s) } :: l2 ∧
      ListInv U t pid ∧ Edits pid s t := by
  have hH := U.high_lt
  have hend : (mapArea s.nextArea lo n prot flags off).vmaEnd = lo+n := u32_add (by omega)
  obtain ⟨l,hl,ht⟩ := bind_eq_some_iff.mp ht
  unfold vmmapInsert at hl
  split at hl
  next hb =>
    cases hl
    obtain ⟨l1,l2,hs,hadd,hinv⟩ := h.addArea hlive hb.1 hb.2 rfl (by rw [hend]; exact hf)
    obtain ⟨hed,hn,hlist⟩ := mapObject_areas ht
    have hids := hinv.ids
    rw [areaIds,hadd] at hids
    rw [hadd] at hlist
    have hlist := hlist.trans (map_key hids fun a => { a with vmaObj := some (mapTop file flags s) })
    exact ⟨l1,l2,hs,hlist,hinv.replace hadd hlist rfl ⟨rfl,rfl⟩ hed.nextArea,
      (edits_addArea s pid _).trans hed⟩
  · cases hl

/-- What `vmmap_map` has done: the new area at `lo`, over the map with its range removed. -/
structure Mapped (U : UserMem) (pid lo n : ℕ) (prot : Prot) (flags : MapFlags) (off : ℕ)
    (s t : Memory D) (o : ℕ) : Prop where
  low_le : U.low ≤ lo
  le_high : lo+n ≤ U.high
  list : ListInv U t pid
  edits : Edits pid s t
  trans_eq : ∀ v, trans (t.vmmList pid) v =
    if lo ≤ v ∧ v < lo+n then some (some o, u32 off / pageSize+(v - lo), prot, flags)
    else trans (s.vmmList pid) v
  area : ∀ a ∈ t.vmmList pid, (∃ b ∈ s.vmmList pid, Piece a b) ∨
    a.vmaStart = lo ∧ a.vmaEnd = lo+n ∧ a.vmaOff = u32 off / pageSize ∧ a.vmaProt = prot ∧
      a.vmaFlags = flags ∧ a.vmaObj = some o

/-- The two parts of `vmmap_map`: a range is made free, and an area put there. -/
theorem Mapped.of_parts {s1 : Memory D} (hn : 0 < n) (hlive : s.live pid)
    (hrem : Removed U pid lo (lo+n) s s1) (hlo : U.low ≤ lo) (hhi : lo+n ≤ U.high)
    (hins : mapInsert U env pid file lo n prot flags off s1 = some (t, .ok ())) :
    Mapped U pid lo n prot flags off s t (mapTop file flags s1) := by
  have hH := U.high_lt
  have hfree := free_of_trans hrem.list.ok hn fun v hv => by rw [hrem.trans_eq,if_pos hv]
  obtain ⟨l1,l2,hl1,hl2,hinv,hed⟩ :=
    mapInsert_areas hrem.list ((hrem.edits.live pid).mpr hlive) hhi hfree hins
  have hend : (mapArea s1.nextArea lo n prot flags off).vmaEnd = lo+n := u32_add (by omega)
  refine ⟨hlo,hhi,hinv,hrem.edits.trans hed,fun v => ?_,fun a ha => ?_⟩
  · rw [hl2,trans_insert (by rw [← hl1]; exact hend ▸ hfree),← hl1,hrem.trans_eq]
    rw [show ∀ o, ({ mapArea s1.nextArea lo n prot flags off with vmaObj := some o } :
      Vmarea).vmaEnd = lo+n from fun _ => hend]
    split
    next hv =>
      change lo ≤ v ∧ v < lo+n at hv
      rw [if_pos hv]
      have hoff : u32 (off : ℤ) / pageSize < 2 ^ 20 := by
        unfold u32 pageSize
        omega
      have hpage : u32 ((u32 (off : ℤ) / pageSize : ℕ)+(v : ℤ) - lo) =
          u32 off / pageSize+(v - lo) := by
        generalize u32 (off : ℤ) / pageSize = y at hoff ⊢
        unfold u32
        omega
      exact congrArg some (Prod.ext rfl (Prod.ext hpage rfl))
    next hv =>
      change ¬ (lo ≤ v ∧ v < lo+n) at hv
      rw [if_neg hv,if_neg hv]
  · have hold : ∀ b ∈ s1.vmmList pid, ∃ c ∈ s.vmmList pid, Piece b c := fun b hb =>
      (hrem.piece b hb).imp fun c hc => ⟨hc.1,hc.2.1⟩
    rw [hl1] at hold
    rw [hl2,mem_append,mem_cons] at ha
    rcases ha with ha | rfl | ha
    · exact .inl (hold a (by simp [ha]))
    · exact .inr ⟨rfl,hend,rfl,rfl,rfl,rfl⟩
    · exact .inl (hold a (by simp [ha]))

variable {r : Except Errno ℕ}

/-- What a call of `vmmap_map` that returns has done: its arguments pass the assertions, and it
has found no range or has put an area at one. -/
theorem vmmapMap_cases (ht : vmmapMap U env pid file lopage n prot flags off dir s = some (t, r)) :
    (0 < n ∧ (flags.shared ∨ flags.priv) ∧ (lopage = 0 ∨ U.low ≤ lopage) ∧
      (lopage = 0 ∨ u32 (lopage+n) ≤ U.high) ∧ off % pageSize = 0) ∧
    (mapPlace U env pid lopage n dir s = some (t, none) ∧ r = .error .noRange ∨
      ∃ s1 lo r', mapPlace U env pid lopage n dir s = some (s1, some lo) ∧
        mapInsert U env pid file lo n prot flags off s1 = some (t, r') ∧ r = r'.map fun _ => lo) := by
  unfold vmmapMap at ht
  split at ht
  next hargs =>
    refine ⟨hargs,?_⟩
    obtain ⟨⟨s1,place⟩,hpl,ht⟩ := bind_eq_some_iff.mp ht
    cases place with
    | none =>
      cases ht
      exact .inl ⟨hpl,rfl⟩
    | some lo =>
      obtain ⟨⟨s2,r'⟩,hins,ht⟩ := bind_eq_some_iff.mp ht
      cases ht
      exact .inr ⟨s1,lo,r',hpl,hins,rfl⟩
  · cases ht

/-- `vmmap_map` that succeeds: a place is found and an area put there. -/
theorem vmmapMap_parts (h : ListInv U s pid) (hn : n < 2 ^ 32)
    (ht : vmmapMap U env pid file lopage n prot flags off dir s = some (t, .ok lo)) :
    ∃ s1, mapPlace U env pid lopage n dir s = some (s1, some lo) ∧ 0 < n ∧ Removed U pid lo (lo+n) s s1 ∧
      U.low ≤ lo ∧ lo+n ≤ U.high ∧ (lopage ≠ 0 → lo = lopage) ∧
      mapInsert U env pid file lo n prot flags off s1 = some (t, .ok ()) := by
  obtain ⟨hargs,⟨-,hr⟩ | ⟨s1,x,r,hpl,hins,hr⟩⟩ := vmmapMap_cases ht
  · cases hr
  · cases r with
    | error e => cases hr
    | ok =>
      cases hr
      obtain ⟨hrem,h1,h2,h3⟩ := mapPlace_areas h hargs.1 hn hpl
      exact ⟨s1,hpl,hargs.1,hrem,h1,h2,h3,hins⟩

theorem vmmapMap_areas (h : ListInv U s pid) (hlive : s.live pid) (hn' : n < 2 ^ 32)
    (ht : vmmapMap U env pid file lopage n prot flags off dir s = some (t, .ok lo)) :
    ∃ o, Mapped U pid lo n prot flags off s t o ∧ (lopage ≠ 0 → lo = lopage) ∧
      (flags.priv = false → ∀ f, file = some f → o = f) := by
  obtain ⟨s1,-,hn,hrem,h1,h2,h3,hins⟩ := vmmapMap_parts h hn' ht
  refine ⟨_,Mapped.of_parts hn hlive hrem h1 h2 hins,h3,?_⟩
  rintro hp f rfl
  simp [mapTop,hp]

/-! ### `do_brk` -/

/-- The area of the heap grows at its end, into a free range. -/
theorem ListInv.grow {done rest : List Vmarea} (h : ListInv U s pid)
    (hl : s.vmmList pid = done ++ a :: rest) (ha : a.vmaEnd ≤ hi) (hhi : hi ≤ U.high)
    (hf : Free Vmarea.vmaStart Vmarea.vmaEnd a.vmaEnd hi (s.vmmList pid))
    (ht : t.vmmList pid = done ++ { a with vmaEnd := hi } :: rest) (hn : s.nextArea ≤ t.nextArea) :
    ListInv U t pid := by
  obtain ⟨hok,hids,hfresh⟩ := h
  rw [hl] at hok hfresh hf
  obtain ⟨h1,h2,h12⟩ := pairwise_append.mp hok.spaced.sorted
  obtain ⟨har,h2⟩ := pairwise_cons.mp h2
  have hne := hok.spaced.nonempty a (by simp)
  refine ⟨⟨⟨?_,?_⟩,?_⟩,?_,?_⟩
  · intro b hb
    rw [ht,mem_append,mem_cons] at hb
    rcases hb with hb | rfl | hb
    · exact hok.spaced.nonempty b (by simp [hb])
    · exact Nat.lt_of_lt_of_le hne ha
    · exact hok.spaced.nonempty b (by simp [hb])
  · rw [ht]
    refine pairwise_append.mpr ⟨h1,pairwise_cons.mpr ⟨fun b hb => ?_,h2⟩,fun b hb c hc => ?_⟩
    · -- an area after the heap ends after it, so it starts after the free range
      have := har b hb
      have := hok.spaced.nonempty b (by simp [hb])
      have := hf b (by simp [hb])
      change hi ≤ b.vmaStart
      omega
    · rcases mem_cons.mp hc with rfl | hc
      · exact h12 b hb a (by simp)
      · exact h12 b hb c (by simp [hc])
  · intro b hb
    rw [ht,mem_append,mem_cons] at hb
    rcases hb with hb | rfl | hb
    · exact hok.bounds b (by simp [hb])
    · exact ⟨(hok.bounds a (by simp)).1,hhi⟩
    · exact hok.bounds b (by simp [hb])
  · rw [areaIds,hl] at hids
    rw [areaIds,ht]
    simpa using hids
  · intro b hb
    rw [ht,mem_append,mem_cons] at hb
    refine Nat.lt_of_lt_of_le ?_ hn
    rcases hb with hb | rfl | hb
    · exact hfresh b (by simp [hb])
    · exact hfresh a (by simp)
    · exact hfresh b (by simp [hb])

/-- The map after the heap has grown. -/
theorem trans_grow {done rest : List Vmarea} (h : AreasOk U (done ++ a :: rest))
    (hf : Free Vmarea.vmaStart Vmarea.vmaEnd a.vmaEnd hi (done ++ a :: rest)) (ha : a.vmaEnd ≤ hi) :
    trans (done ++ { a with vmaEnd := hi } :: rest) v =
      if a.vmaEnd ≤ v ∧ v < hi then some (a.target v) else trans (done ++ a :: rest) v := by
  have hne := h.spaced.nonempty a (by simp)
  have hnone : a.vmaEnd ≤ v ∧ v < hi → trans done v = none := fun hv =>
    trans_eq_none.mpr fun x hx => by
      have := hf x (by simp [hx])
      omega
  simp only [trans_append,trans_cons]
  by_cases hv : a.vmaEnd ≤ v ∧ v < hi
  · rw [if_pos hv,hnone hv,if_pos (by omega)]
    rfl
  · rw [if_neg hv]
    split_ifs <;> first | rfl | omega

/-- What `do_brk` does to the map of its process: nothing, or the heap now ends at `e`. -/
def HeapEndsAt (s t : Memory D) (pid e : ℕ) : Prop :=
  ∃ p heap, s.procs pid = some p ∧ vmmapLookup p.vmmList (p.pStartBrk / pageSize) = some heap ∧
    (∀ v, heap.vmaEnd ≤ v ∧ v < e → trans (s.vmmList pid) v = none) ∧
    ∀ v, trans (t.vmmList pid) v =
      if heap.vmaEnd ≤ v ∧ v < e then some (heap.target v)
      else if e ≤ v ∧ v < heap.vmaEnd then none
      else trans (s.vmmList pid) v

variable {addr : ℕ}

theorem vmmList_setBrk : (s.setBrk pid addr).vmmList pid' = s.vmmList pid' :=
  vmmList_modProc fun _ => rfl

/-- What `do_brk` does besides: only the areas of its process change. -/
structure BrkMoved (U : UserMem) (pid : ℕ) (s t : Memory D) : Prop where
  list : ListInv U t pid
  vmmList : ∀ q, q ≠ pid → t.vmmList q = s.vmmList q
  live : ∀ q, t.live q ↔ s.live q
  nextArea : s.nextArea ≤ t.nextArea

theorem BrkMoved.refl (h : ListInv U s pid) : BrkMoved U pid s s :=
  ⟨h,fun _ _ => rfl,fun _ => Iff.rfl,Nat.le_refl _⟩

theorem Edits.brkMoved (h : Edits pid s t) (hl : ListInv U (t.setBrk pid addr) pid) :
    BrkMoved U pid s (t.setBrk pid addr) where
  list := hl
  vmmList q hq := vmmList_setBrk.trans (h.vmmList q hq)
  live q := live_modProc.trans (h.live q)
  nextArea := h.nextArea

theorem moveBrk_areas {p : Proc} (h : ListInv U s pid) (hp : s.procs pid = some p) (haddr : addr ≤ U.high*pageSize)
    (ha : vmmapLookup p.vmmList (p.pStartBrk / pageSize) = some a) (ht : moveBrk U env pid addr a s = some (t, r)) :
    BrkMoved U pid s t ∧ ((∃ e, r = .error e) ∧ t = s ∨ HeapEndsAt s t pid (pagesOf addr)) := by
  have hH := U.high_lt
  have hal := vmmapLookup_mem ha
  rw [show p.vmmList = s.vmmList pid by simp [vmmList,hp]] at hal
  have hab := h.ok.bounds a hal.1
  have he : pagesOf addr ≤ U.high := by
    unfold pagesOf
    unfold pageSize at haddr ⊢
    split <;> omega
  unfold moveBrk at ht
  split at ht
  · -- the heap gets smaller
    rename_i hlt
    obtain ⟨s1,hs1,ht⟩ := bind_eq_some_iff.mp ht
    cases ht
    have hsum : pagesOf addr+(a.vmaEnd - pagesOf addr) = a.vmaEnd := by omega
    have hrem := vmmapRemove_areas h (by omega) hs1
    rw [hsum] at hrem
    refine ⟨hrem.edits.brkMoved (hrem.list.congr vmmList_setBrk (Nat.le_refl _)),
      .inr ⟨p,a,hp,ha,fun v hv => by omega,fun v => ?_⟩⟩
    rw [vmmList_setBrk,hrem.trans_eq]
    split_ifs <;> first | rfl | omega
  split at ht
  next hge hlt =>
    obtain ⟨e,hemp,ht⟩ := bind_eq_some_iff.mp ht
    obtain ⟨-,-,-,hf⟩ := vmmapIsRangeEmpty_spec h.ok (by omega) hemp
    split at ht
    · -- the heap grows
      rename_i he'
      cases ht
      have hf := hf.mp he'
      rw [Nat.add_sub_cancel' (Nat.le_of_lt hlt)] at hf
      obtain ⟨done,rest,hl⟩ := append_of_mem hal.1
      have hl' : ((s.modArea pid a.vmaId fun a => { a with vmaEnd := pagesOf addr }).setBrk
          pid addr).vmmList pid = done ++ { a with vmaEnd := pagesOf addr } :: rest :=
        vmmList_setBrk.trans (vmmList_modArea_eq hl h.ids _)
      refine ⟨(edits_modArea s pid _ _).brkMoved (h.grow hl (Nat.le_of_lt hlt) he hf hl' (Nat.le_refl _)),
        .inr ⟨p,a,hp,ha,fun v hv => trans_eq_none.mpr fun x hx => ?_,fun v => ?_⟩⟩
      · have := hf x hx
        have := h.ok.spaced.nonempty x hx
        omega
      · have hok := h.ok
        rw [hl] at hok hf
        rw [hl',trans_grow hok hf (Nat.le_of_lt hlt),hl]
        split_ifs <;> first | rfl | omega
    · cases ht
      exact ⟨.refl h,.inl ⟨⟨_,rfl⟩,rfl⟩⟩
  next hge hle =>
    cases ht
    refine ⟨((Clears.refl s).edits pid).brkMoved (h.congr vmmList_setBrk (Nat.le_refl _)),
      .inr ⟨p,a,hp,ha,fun v hv => by omega,fun v => ?_⟩⟩
    rw [vmmList_setBrk,if_neg (by omega),if_neg (by omega)]

theorem doBrk_areas (h : ListInv U s pid) (ht : doBrk U env pid addr s = some (t, r)) : BrkMoved U pid s t ∧
      ((addr = 0 ∨ ∃ e, r = .error e) ∧ t = s ∨ HeapEndsAt s t pid (pagesOf addr)) := by
  obtain ⟨p,hp,ht⟩ := bind_eq_some_iff.mp ht
  split at ht
  · cases ht
    exact ⟨.refl h,.inl ⟨.inl ‹_›,rfl⟩⟩
  split at ht
  · cases ht
    exact ⟨.refl h,.inl ⟨.inr ⟨_,rfl⟩,rfl⟩⟩
  · obtain ⟨a,ha,ht⟩ := bind_eq_some_iff.mp ht
    obtain ⟨hm,hcase⟩ := moveBrk_areas h hp (by omega) ha ht
    exact ⟨hm,hcase.imp_left fun he => ⟨.inr he.1,he.2⟩⟩

end Memory

end Csci402.Vm
