import Csci402.Vm.FirstFit
import Csci402.Vm.System

/-! The calls that change an address space: over whole runs they keep the list of areas a
map from page numbers, `do_mmap` and `do_munmap` keep the assertions below them as long as
the range they are given does not wrap and does not start below user memory, and a call of
`vmmap_map` that finds no range changes nothing. -/

namespace Csci402.Vm

namespace Memory

open Lib Option

variable {D : Type} {U : UserMem} {s s0 t : Memory D} {env : Env D} {pid lo n addr len : ℕ}
  {file : Option ℕ} {flags : MapFlags} {prot : Prot} {off : ℕ} {dir : Dir}

/-! ### Runs over one address space -/

/-- The calls that change the areas of a process: mappings that succeed, ranges that do not
wrap, and the break. -/
def MapCall (U : UserMem) (pid : ℕ) (s : Memory D) : Env D × Call D → Prop
  | (env, .map p file lopage npages prot flags off dir) => p = pid ∧ npages < 2 ^ 32 ∧
      ∃ t lo, vmmapMap U env p file lopage npages prot flags off dir s = some (t, .ok lo)
  | (_, .remove p lopage npages) => p = pid ∧ lopage+npages < 2 ^ 32
  | (_, .brk p _) => p = pid
  | _ => False

theorem MapCall.step [Zero D] {c : Env D × Call D} (hc : MapCall U pid s c) (h : ListInv U s pid) (hlive : s.live pid)
    (hst : step U s c = some t) : ListInv U t pid ∧ t.live pid := by
  obtain ⟨env,c⟩ := c
  cases c with
  | map p file lopage npages prot flags off dir =>
    obtain ⟨rfl,hn,t',lo,ht⟩ := hc
    have he : t' = t := some.inj ((congrArg (Option.map Prod.fst) ht).symm.trans hst)
    subst he
    obtain ⟨o,hm,-⟩ := vmmapMap_areas h hlive hn ht
    exact ⟨hm.list,(hm.edits.live p).mpr hlive⟩
  | remove p lopage npages =>
    obtain ⟨rfl,hn⟩ := hc
    have hr := vmmapRemove_areas h hn hst
    exact ⟨hr.list,(hr.edits.live p).mpr hlive⟩
  | brk p addr =>
    obtain rfl := hc
    obtain ⟨⟨t',r⟩,ht,rfl⟩ := map_eq_some_iff.mp hst
    have hm := (doBrk_areas h ht).1
    exact ⟨hm.list,(hm.live p).mpr hlive⟩
  | _ => exact hc.elim

theorem listInv_of_exec [Zero D] {cs : List (Env D × Call D)} (h₀ : ListInv U s0 pid) (hlive : s0.live pid)
    (h : Exec (step U) (MapCall U pid) s0 cs s) : ListInv U s pid ∧ s.live pid := by
  induction h with
  | nil => exact ⟨h₀,hlive⟩
  | snoc _ hc hst ih => exact hc.step ih.1 ih.2 hst

/-- The list of areas stays a map from page numbers: removing a range restricts it, mapping
an area overrides it on the pages of the area, and moving the break extends or cuts the area
of the heap. Where the objects of the areas are counted right, removing a range returns. -/
theorem areas_refine_map [Zero D] {cs : List (Env D × Call D)} (h₀ : ListInv U s0 pid) (hlive : s0.live pid)
    (h : Exec (step U) (MapCall U pid) s0 cs s) : AreasOk U (s.vmmList pid) ∧
    (∀ env lo n t, lo+n < 2 ^ 32 → vmmapRemove U env pid lo n s = some t → ∀ v,
      trans (t.vmmList pid) v = if lo ≤ v ∧ v < lo+n then none else trans (s.vmmList pid) v) ∧
    (∀ env file lopage n prot flags off dir t lo, n < 2 ^ 32 →
      vmmapMap U env pid file lopage n prot flags off dir s = some (t, .ok lo) →
      (lopage ≠ 0 → lo = lopage) ∧ ∃ o, (flags.priv = false → ∀ f, file = some f → o = f) ∧ ∀ v,
        trans (t.vmmList pid) v =
          if lo ≤ v ∧ v < lo+n then some (some o, u32 off / pageSize+(v - lo), prot, flags)
          else trans (s.vmmList pid) v) ∧
    (∀ env addr t b, addr ≠ 0 → doBrk U env pid addr s = some (t, .ok b) → HeapEndsAt s t pid (pagesOf addr)) ∧
    (Sys U s → ∀ env lo n, lo+n < 2 ^ 32 → ∃ t, vmmapRemove U env pid lo n s = some t) := by
  obtain ⟨hl,hlive⟩ := listInv_of_exec h₀ hlive h
  refine ⟨hl.ok,fun env lo n t hn ht => (vmmapRemove_areas hl hn ht).trans_eq,
    fun env file lopage n prot flags off dir t lo hn ht => ?_,fun env addr t b haddr ht => ?_,fun hs env lo n hn => ?_⟩
  · obtain ⟨o,hm,hlo,ho⟩ := vmmapMap_areas hl hlive hn ht
    exact ⟨hlo,o,ho,hm.trans_eq⟩
  · rcases (doBrk_areas hl ht).2 with ⟨h0 | ⟨e,he⟩,-⟩ | he
    · exact absurd h0 haddr
    · cases he
    · exact he
  · obtain ⟨t,ht,-⟩ := hs.remove env pid hn
    exact ⟨t,ht⟩

/-- A process maps four pages and takes two of them away from the middle. -/
theorem areas_refine_map_split : ∃ (cs : List (Env ℕ × Call ℕ)) (s : Memory ℕ),
    Exec (step sampleUser) (MapCall sampleUser 0) emptyMemory.procCreate cs s ∧
      (s.vmmList 0).map Vmarea.vmaStart = [0x500,0x503] ∧ AreasOk sampleUser (s.vmmList 0) := by
  obtain ⟨cs,s,h,hl⟩ : ∃ (cs : List (Env ℕ × Call ℕ)) (s : Memory ℕ),
      Exec (step sampleUser) (MapCall sampleUser 0) emptyMemory.procCreate cs s ∧
        (s.vmmList 0).map Vmarea.vmaStart = [0x500,0x503] := by
    have h1 : Exec (step sampleUser) (MapCall sampleUser 0) emptyMemory.procCreate
        ([] ++ [(calmEnv, .map 0 none 0x500 4 readWrite privateAnon 0 .hilo)]) _ :=
      .snoc (.nil _) ⟨rfl,by decide,_,_,rfl⟩ rfl
    have hc : ∀ s, MapCall (D := ℕ) sampleUser 0 s (calmEnv, .remove 0 0x501 2) := fun _ => ⟨rfl,by decide⟩
    exact ⟨_,_,h1.snoc (hc _) rfl,rfl⟩
  have hlive : (emptyMemory.procCreate.procs 0).isSome := rfl
  exact ⟨cs,s,h,hl,(areas_refine_map (listInv_nil rfl) hlive h).1⟩

/-! ### Failed mappings -/

/-- No range is found where one is looked for, and then nothing has changed. -/
theorem mapPlace_none (h : mapPlace U env pid lo n dir s = some (t, none)) :
    t = s ∧ lo = 0 ∧ ∃ range < 0, vmmapFindRange U (s.vmmList pid) n dir = some range := by
  unfold mapPlace at h
  split at h
  next h0 =>
    obtain ⟨range,hr,h⟩ := bind_eq_some_iff.mp h
    simp only [pure_def,some.injEq,Prod.mk.injEq,ite_eq_left_iff,reduceCtorEq,imp_false,not_not] at h
    exact ⟨h.1.symm,h0,range,h.2,hr⟩
  · obtain ⟨e,-,h⟩ := bind_eq_some_iff.mp h
    split at h
    · cases h
    · obtain ⟨s1,-,h⟩ := bind_eq_some_iff.mp h
      cases h

/-- A new area gets its object, unless the `mmap` operation of the file fails. -/
theorem mapInsert_ok {r : Except Errno Unit} (hf : ∀ f, file = some f → env.mmapErr f = none)
    (h : mapInsert U env pid file lo n prot flags off s = some (t, r)) : r = .ok () := by
  obtain ⟨l,-,h⟩ := bind_eq_some_iff.mp h
  cases file with
  | none =>
    obtain ⟨u,-,h⟩ := map_eq_some_iff.mp h
    cases h
    rfl
  | some f =>
    simp only [mapObject,hf f rfl] at h
    obtain ⟨u,-,h⟩ := map_eq_some_iff.mp h
    cases h
    rfl

/-- Where it fails, the area stays on the list without an object. -/
theorem mapInsert_fails {r : Except Errno Unit} {f : ℕ} {err : ℤ} (hlive : s.live pid) (hf : env.mmapErr f = some err)
    (h : mapInsert U env pid (some f) lo n prot flags off s = some (t, r)) :
    r = .error (.mmapOp err) ∧ mapArea s.nextArea lo n prot flags off ∈ t.vmmList pid := by
  obtain ⟨l,hl,h⟩ := bind_eq_some_iff.mp h
  simp only [mapObject,hf] at h
  cases h
  obtain ⟨-,he⟩ := ite_none_right_eq_some.mp hl
  cases he
  refine ⟨rfl,?_⟩
  rw [show (s.addArea pid _).vmmList pid = _ from (vmmList_setList hlive).trans (if_pos rfl)]
  exact (insertArea_perm _ _).mem_iff.mpr (List.mem_cons_self ..)

/-- A call of `vmmap_map` that fails has changed nothing, unless it fails because the `mmap` operation
of the file does. That is not called where no range is found. -/
theorem vmmapMap_error {lopage : ℕ} {r : Except Errno ℕ} (h : ListInv U s pid) (hb : Backed s pid) (hlive : s.live pid)
    (hn : n < 2 ^ 32) (ht : vmmapMap U env pid file lopage n prot flags off dir s = some (t, r)) :
    ((∃ e, r = .error e) → t = s) ↔ (∀ f, file = some f → env.mmapErr f = none) ∨
      lopage = 0 ∧ ∃ range < 0, vmmapFindRange U (s.vmmList pid) n dir = some range := by
  obtain ⟨⟨hpos,-⟩,⟨hpl,rfl⟩ | ⟨s1,lo,r',hpl,hins,rfl⟩⟩ := vmmapMap_cases ht
  · exact iff_of_true (fun _ => (mapPlace_none hpl).1) (.inr (mapPlace_none hpl).2)
  by_cases hf : ∀ f, file = some f → env.mmapErr f = none
  · obtain rfl := mapInsert_ok hf hins
    exact iff_of_true (by rintro ⟨e,⟨⟩⟩) (.inl hf)
  -- the area that was freed is on the list
  have hbad : ¬((∃ e, (r'.map fun _ => lo) = .error e) → t = s) := by
    push Not at hf
    obtain ⟨f,rfl,hne⟩ := hf
    obtain ⟨err,herr⟩ := ne_none_iff_exists'.mp hne
    have hlive1 := ((mapPlace_areas h hpos hn hpl).1.edits.live pid).mpr hlive
    obtain ⟨rfl,hmem⟩ := mapInsert_fails hlive1 herr hins
    intro hts
    rw [hts ⟨_,rfl⟩] at hmem
    cases hb _ hmem
  refine iff_of_false hbad ?_
  rintro (hf' | ⟨rfl,range,hneg,hr⟩)
  · exact hf hf'
  · simp only [mapPlace,if_true,hr,bind_eq_bind,bind_some,if_pos hneg] at hpl
    cases hpl

/-- A process has a file open and has mapped four pages. -/
def mappedCalls : List (Env ℕ × Call ℕ) :=
  [.procCreate,.vget,.map 0 none 0x500 4 readWrite privateAnon 0 .hilo].map fun c => (calmEnv, c)

/-- No range of so many pages is free, and the `mmap` operation of the file is not called. -/
theorem vmmapMap_error_noRange : ∃ s t, Exec (step sampleUser) Allowed emptyMemory mappedCalls s ∧
    vmmapMap sampleUser { calmEnv with mmapErr := fun _ => some (-19) } 0 (some 0) 0 0xc0000 readWrite privateAnon 0 .hilo s =
      some (t, .error .noRange) ∧ t = s := by
  obtain ⟨s,t,h,hlive,hr,ht⟩ : ∃ s t, Exec (step sampleUser) Allowed emptyMemory mappedCalls s ∧ s.live 0 ∧
      vmmapFindRange sampleUser (s.vmmList 0) 0xc0000 .hilo = some (-1) ∧
      vmmapMap sampleUser { calmEnv with mmapErr := fun _ => some (-19) } 0 (some 0) 0 0xc0000 readWrite privateAnon 0 .hilo s =
        some (t, .error .noRange) := by
    have h : Exec (step sampleUser) Allowed emptyMemory mappedCalls _ := Exec.ofRun rfl
    exact ⟨_,_,h,rfl,rfl,rfl⟩
  have hs : Sys sampleUser s := sys_of_exec emptyMemory_initial.sys h
  have herr := vmmapMap_error (hs.list 0) (hs.backed 0) hlive (by decide) ht
  exact ⟨s,t,h,ht,herr.mpr (.inr ⟨rfl,-1,by decide,hr⟩) ⟨_,rfl⟩⟩

/-- The `mmap` operation of the file fails after the old mapping of the range is gone; the
area that was freed is still on the list. -/
theorem mapping_lost_on_mmap_error : ∃ s t, Exec (step sampleUser) Allowed emptyMemory mappedCalls s ∧
    vmmapMap sampleUser { calmEnv with mmapErr := fun _ => some (-19) } 0 (some 0) 0x500 4 readWrite
      ⟨true,false,true,false⟩ 0 .hilo s = some (t, .error (.mmapOp (-19))) ∧
    trans (s.vmmList 0) 0x501 = some (some 2, 1, readWrite, privateAnon) ∧
    trans (t.vmmList 0) 0x501 = some (none, 1, readWrite, ⟨true,false,true,false⟩) ∧
    s.objs 2 ≠ none ∧ t.objs 2 = none := by
  have h : Exec (step sampleUser) Allowed emptyMemory mappedCalls _ := Exec.ofRun rfl
  exact ⟨_,_,h,rfl,rfl,rfl,by decide,rfl⟩

/-! ### Validation -/

/-- `vmmap_map` returns, whether or not the `mmap` operation of the file fails. -/
theorem Sys.map_returns (h : Sys U s) (env : Env D) (dir : Dir) (prot : Prot) {lopage : ℕ} (hlive : s.live pid)
    (hf : ∀ f, file = some f → 0 < s.held f) (hn : n < 2 ^ 32) (hargs : MapArgs U s pid lopage n flags off) :
    ∃ t r, Memory.vmmapMap U env pid file lopage n prot flags off dir s = some (t, r) := by
  by_cases hm : ∀ f, file = some f → env.mmapErr f = none
  · obtain ⟨t,r,ht,-⟩ := h.map env dir prot hlive (fun f hff => ⟨hm f hff,hf f hff,h.held f (hf f hff)⟩) hn hargs
    exact ⟨t,r,ht⟩
  · obtain ⟨f,rfl,err,herr⟩ : ∃ f, file = some f ∧ ∃ err, env.mmapErr f = some err := by
      by_contra hc
      refine hm fun f hff => ?_
      by_contra hne
      exact hc ⟨f,hff,ne_none_iff_exists'.mp hne⟩
    have hH := U.high_lt
    obtain ⟨s1,place,hpl,-⟩ := mapPlace_heap env dir (h.list pid) h.heap (fun _ => Int.le_refl _) (h.backed pid)
      hargs.npages_pos hargs.range
    simp only [Memory.vmmapMap,if_pos hargs.asserted,hpl,bind_eq_bind,bind_some]
    cases place with
    | none => exact ⟨s1,_,rfl⟩
    | some lo =>
      obtain ⟨-,hlo,hhi,-⟩ := mapPlace_areas (h.list pid) hargs.npages_pos hn hpl
      have hpos := hargs.npages_pos
      have hins : vmmapInsert U (mapArea s1.nextArea lo n prot flags off) (s1.vmmList pid) =
          some (insertArea (mapArea s1.nextArea lo n prot flags off) (s1.vmmList pid)) := by
        refine if_pos ?_
        change lo < u32 ((lo : ℤ)+n) ∧ U.low ≤ lo ∧ u32 ((lo : ℤ)+n) ≤ U.high
        rw [u32_add (by omega)]
        omega
      simp only [mapInsert,hins,mapObject,herr,bind_eq_bind,bind_some]
      exact ⟨_,_,rfl⟩

/-- A range of pages in user memory, as `pt_unmap_range` is given it: not empty, and its
bounds are addresses. -/
structure UserRange (U : UserMem) (lo n : ℕ) : Prop where
  low_le : U.low ≤ lo
  le_high : lo+n ≤ U.high
  nonempty : addrPage lo < addrPage (u32 (lo+n))

theorem userRange (hlo : U.low ≤ lo) (hhi : lo+n ≤ U.high) (hn : 0 < n) : UserRange U lo n where
  low_le := hlo
  le_high := hhi
  nonempty := by
    have hH := U.high_lt
    rw [u32_add (by omega),addrPage,addrPage,Nat.mod_eq_of_lt (by omega),Nat.mod_eq_of_lt (by omega)]
    omega

/-- The pages of an aligned range of bytes in user memory. -/
theorem userRange_pages (ha : addr % pageSize = 0) (hlen : len ≠ 0) (hlo : U.low*pageSize ≤ addr)
    (hhi : addr+len ≤ U.high*pageSize) : UserRange U (addr / pageSize) (pagesOf len) := by
  unfold pageSize at ha hlo hhi
  refine userRange ?_ ?_ ?_
  · unfold pageSize
    omega
  · unfold pagesOf pageSize
    split <;> omega
  · unfold pagesOf pageSize
    split <;> omega

/-- The bytes do not start below user memory and do not wrap. -/
def FromUser (U : UserMem) (addr len : ℕ) : Prop := U.low*pageSize ≤ addr ∧ addr+len < 2 ^ 32

/-- A range of bytes that wraps has pages beyond all addresses. -/
theorem pages_wrap (ha : addr % pageSize = 0) (h : 2 ^ 32 ≤ addr+len) : 2 ^ 20 ≤ addr / pageSize+pagesOf len := by
  unfold pageSize at ha
  unfold pagesOf pageSize
  split <;> omega

theorem pages_lt (haddr : addr < 2 ^ 32) (hlen : len < 2 ^ 32) : addr / pageSize+pagesOf len < 2 ^ 32 := by
  have := pagesOf_lt hlen
  unfold pageSize
  omega

/-- The arguments that `do_mmap` does not refuse itself. -/
def MmapPasses (U : UserMem) (addr len : ℕ) (prot : Prot) (flags : MapFlags) (file : Option (ℕ × Bool)) (off : ℕ) : Prop :=
  off % pageSize = 0 ∧ addr % pageSize = 0 ∧ u32 (addr+len) ≤ U.high*pageSize ∧ len ≠ 0 ∧
    (flags.priv ∨ flags.shared) ∧ ¬(flags.fixed ∧ addr = 0) ∧
    (flags.anon ∨ ∃ f w, file = some (f, w) ∧ (w ∨ ¬prot.write ∨ flags.priv))

/-- `do_mmap` refuses its arguments or hands them on to `vmmap_map`. -/
theorem doMmap_checks (U : UserMem) (env : Env D) (addr len : ℕ) (prot : Prot) (flags : MapFlags) (file : Option (ℕ × Bool))
    (off : ℕ) (s : Memory D) (pid : ℕ) :
    ¬MmapPasses U addr len prot flags file off ∧ (∃ e, doMmap U env pid addr len prot flags file off s = some (s, .error e)) ∨
    MmapPasses U addr len prot flags file off ∧ ∃ o, (∀ f, o = some f → ∃ w, file = some (f, w)) ∧
      doMmap U env pid addr len prot flags file off s =
        vmmapMap U env pid o (addr / pageSize) (pagesOf len) prot flags off .hilo s := by
  unfold doMmap MmapPasses
  split
  · refine .inl ⟨fun hp => ?_,_,rfl⟩
    obtain ⟨hoff,haddr,-⟩ := hp
    omega
  rename_i h1
  split
  · refine .inl ⟨fun hp => ?_,_,rfl⟩
    obtain ⟨-,-,hend,hlen,-⟩ := hp
    omega
  rename_i h2
  split
  next h3 =>
    exact .inl ⟨fun hp => hp.2.2.2.2.1.elim h3.1 h3.2,_,rfl⟩
  rename_i h3
  split
  next h4 =>
    exact .inl ⟨fun hp => hp.2.2.2.2.2.1 h4,_,rfl⟩
  rename_i h4
  have haddr : addr % pageSize = 0 := by
    by_cases h0 : addr = 0
    · rw [h0,Nat.zero_mod]
    · omega
  have hpass : ∀ {q : Prop}, q → off % pageSize = 0 ∧ addr % pageSize = 0 ∧ u32 (addr+len) ≤ U.high*pageSize ∧ len ≠ 0 ∧
      (flags.priv ∨ flags.shared) ∧ ¬(flags.fixed ∧ addr = 0) ∧ q :=
    fun hq => ⟨by omega,haddr,by omega,by omega,by tauto,h4,hq⟩
  split
  next hanon =>
    exact .inr ⟨hpass (.inl hanon),none,by rintro _ ⟨⟩,rfl⟩
  rename_i hanon
  split
  · refine .inl ⟨fun hp => ?_,_,rfl⟩
    obtain ha | ⟨_,_,⟨⟩,-⟩ := hp.2.2.2.2.2.2
    exact hanon ha
  rename_i f w
  split
  next h5 =>
    refine .inl ⟨fun hp => ?_,_,rfl⟩
    obtain ha | ⟨_,_,⟨⟩,hw⟩ := hp.2.2.2.2.2.2
    · exact hanon ha
    · tauto
  next h5 =>
    refine .inr ⟨hpass (.inr ⟨f,w,rfl,by tauto⟩),some f,fun g hg => ?_,rfl⟩
    cases hg
    exact ⟨w,rfl⟩

/-- `vmmap_map` asserts that the range it is given begins and ends in user memory. -/
theorem vmmapMap_outside {o : Option ℕ} (ha : addr % pageSize = 0) (haddr : addr < 2 ^ 32) (hlen : len < 2 ^ 32) (h0 : addr ≠ 0)
    (h : ¬FromUser U addr len) : vmmapMap U env pid o (addr / pageSize) (pagesOf len) prot flags off dir s = none := by
  refine if_neg fun hargs => h ?_
  obtain ⟨-,-,hlo,hhi,-⟩ := hargs
  have hne : addr / pageSize ≠ 0 := by
    unfold pageSize at ha ⊢
    omega
  have hlo := hlo.resolve_left hne
  have hhi := hhi.resolve_left hne
  rw [u32_add (pages_lt haddr hlen)] at hhi
  refine ⟨(Nat.le_div_iff_mul_le (by decide)).mp hlo,?_⟩
  by_contra hwrap
  have := pages_wrap ha (Nat.not_lt.mp hwrap)
  have := U.high_lt
  omega

/-- The arguments that `do_munmap` does not refuse. -/
def MunmapPasses (U : UserMem) (addr len : ℕ) : Prop :=
  addr % pageSize = 0 ∧ U.low*pageSize ≤ u32 (addr+len) ∧ u32 (addr+len) ≤ U.high*pageSize ∧ len ≠ 0 ∧
    len ≤ U.high*pageSize

theorem doMunmap_checks (U : UserMem) (env : Env D) (addr len : ℕ) (s : Memory D) (pid : ℕ) :
    ¬MunmapPasses U addr len ∧ (∃ e, doMunmap U env pid addr len s = some (s, .error e)) ∨
    MunmapPasses U addr len ∧ doMunmap U env pid addr len s =
      (vmmapRemove U env pid (addr / pageSize) (pagesOf len) s).map fun t => (t, .ok ()) := by
  unfold doMunmap MunmapPasses
  split
  · exact .inl ⟨by tauto,_,rfl⟩
  split
  · exact .inl ⟨by omega,_,rfl⟩
  · exact .inr ⟨by omega,rfl⟩

/-- `do_mmap` and `do_munmap` return an error and change nothing, or they hand on a range in user memory
and no assertion below them fails, just as long as arguments that pass their checks do not start below
user memory and do not wrap. -/
theorem mmap_munmap_validate (h : Sys U s) (env : Env D) (hlive : s.live pid) (hne : s.vmmList pid ≠ [])
    (haddr : addr < 2 ^ 32) (hlen : len < 2 ^ 32) :
    (∀ prot flags file off, (∀ f w, file = some (f, w) → 0 < s.held f) →
      ((∃ e, doMmap U env pid addr len prot flags file off s = some (s, .error e)) ∨
        (addr / pageSize = 0 ∨ UserRange U (addr / pageSize) (pagesOf len)) ∧
          (∃ o t r, doMmap U env pid addr len prot flags file off s =
              vmmapMap U env pid o (addr / pageSize) (pagesOf len) prot flags off .hilo s ∧
            vmmapMap U env pid o (addr / pageSize) (pagesOf len) prot flags off .hilo s = some (t, r)) ↔
        (MmapPasses U addr len prot flags file off → addr = 0 ∨ FromUser U addr len))) ∧
    ((∃ e, doMunmap U env pid addr len s = some (s, .error e)) ∨
      UserRange U (addr / pageSize) (pagesOf len) ∧ (∃ t, vmmapRemove U env pid (addr / pageSize) (pagesOf len) s = some t ∧
        doMunmap U env pid addr len s = some (t, .ok ())) ↔
      (MunmapPasses U addr len → FromUser U addr len)) := by
  have hH := U.high_lt
  refine ⟨fun prot flags file off hf => ?_,?_⟩
  · obtain ⟨hno,he⟩ | ⟨hpass,o,ho,heq⟩ := doMmap_checks U env addr len prot flags file off s pid
    · exact iff_of_true (.inl he) fun hp => absurd hp hno
    obtain ⟨hoff,ha,hend,hlen0,hflags,-⟩ := id hpass
    by_cases huser : addr = 0 ∨ FromUser U addr len
    · have hrange : addr / pageSize = 0 ∨ UserRange U (addr / pageSize) (pagesOf len) := by
        rcases huser with rfl | ⟨hlo,hwrap⟩
        · exact .inl (Nat.zero_div _)
        · exact .inr (userRange_pages ha hlen0 hlo (by rwa [u32_add hwrap] at hend))
      have hpos : 0 < pagesOf len := by
        unfold pagesOf pageSize
        split <;> omega
      have hargs : MapArgs U s pid (addr / pageSize) (pagesOf len) flags off :=
        ⟨hpos,hflags.symm,hoff,hrange.imp (fun h0 => ⟨h0,hne⟩) fun hr => ⟨hr.low_le,hr.le_high⟩⟩
      have hheld : ∀ f, o = some f → 0 < s.held f := by
        intro f hfo
        obtain ⟨w,hw⟩ := ho f hfo
        exact hf f w hw
      obtain ⟨t,r,ht⟩ := h.map_returns env .hilo prot hlive hheld (by have := pagesOf_lt hlen; omega) hargs
      exact iff_of_true (.inr ⟨hrange,o,t,r,heq,ht⟩) fun _ => huser
    · rw [not_or] at huser
      have hnone := heq.trans (vmmapMap_outside ha haddr hlen huser.1 huser.2)
      refine iff_of_false ?_ fun hp => (hp hpass).elim huser.1 huser.2
      rintro (⟨e,he⟩ | ⟨-,o',t,r,he,ht⟩)
      · rw [hnone] at he
        cases he
      · rw [← he,hnone] at ht
        cases ht
  · obtain ⟨hno,he⟩ | ⟨hpass,heq⟩ := doMunmap_checks U env addr len s pid
    · exact iff_of_true (.inl he) fun hp => absurd hp hno
    obtain ⟨ha,-,hend,hlen0,-⟩ := id hpass
    obtain ⟨t,ht,-⟩ := h.remove env pid (pages_lt haddr hlen)
    rw [ht] at heq
    constructor
    · rintro (⟨e,he⟩ | ⟨hr,-⟩) -
      · rw [heq] at he
        cases he
      · refine ⟨(Nat.le_div_iff_mul_le (by decide)).mp hr.low_le,?_⟩
        by_contra hwrap
        have := pages_wrap ha (Nat.not_lt.mp hwrap)
        have := hr.le_high
        omega
    · intro hu
      obtain ⟨hlo,hwrap⟩ := hu hpass
      rw [u32_add hwrap] at hend
      exact .inr ⟨userRange_pages ha hlen0 hlo hend,t,ht,heq⟩

/-- Both ways, where the arguments pass and where they are refused. -/
theorem mmap_munmap_validate_mappedCalls : ∃ s, Exec (step sampleUser) Allowed emptyMemory mappedCalls s ∧
    (UserRange sampleUser 0x502 1 ∧ ∃ t, doMunmap sampleUser calmEnv 0 0x502000 0x800 s = some (t, .ok ())) ∧
    ∃ e, doMunmap sampleUser calmEnv 0 0x1000 0x1000 s = some (s, .error e) := by
  obtain ⟨s,h,hlive,hone⟩ : ∃ s, Exec (step sampleUser) Allowed emptyMemory mappedCalls s ∧ (s.procs 0).isSome ∧
      (s.vmmList 0).length = 1 := by
    have h : Exec (step sampleUser) Allowed emptyMemory mappedCalls _ := Exec.ofRun rfl
    exact ⟨_,h,rfl,rfl⟩
  have hne : s.vmmList 0 ≠ [] := List.ne_nil_of_length_pos (by omega)
  have hs := sys_of_exec emptyMemory_initial.sys h
  have hin := (mmap_munmap_validate hs calmEnv hlive hne (show 0x502000 < 2 ^ 32 by decide) (show 0x800 < 2 ^ 32 by decide)).2.mpr
    fun _ => by unfold FromUser; decide +kernel
  have hout := (mmap_munmap_validate hs calmEnv hlive hne (show 0x1000 < 2 ^ 32 by decide) (show 0x1000 < 2 ^ 32 by decide)).2.mpr
    fun hp => absurd hp.2.1 (by decide +kernel)
  refine ⟨s,h,?_,?_⟩
  · rcases hin with ⟨e,he⟩ | ⟨hr,t,-,ht⟩
    · obtain ⟨hno,-⟩ | ⟨-,heq⟩ := doMunmap_checks sampleUser calmEnv 0x502000 0x800 s 0
      · exact absurd (by unfold MunmapPasses; decide +kernel) hno
      · rw [heq] at he
        obtain ⟨u,-,hu⟩ := map_eq_some_iff.mp he
        cases hu
    · exact ⟨hr,t,ht⟩
  · rcases hout with he | ⟨hr,-⟩
    · exact he
    · exact absurd hr.low_le (by decide)

/-- A mapping below user memory fails an assertion of `vmmap_map`, and unmapping a range
that wraps gives `pt_unmap_range` an empty one. -/
theorem mmap_below_user_memory : ∃ s, Exec (step sampleUser) Allowed emptyMemory mappedCalls s ∧
    (s.vmmList 0).length = 1 ∧ doMmap sampleUser calmEnv 0 0x1000 0x1000 readWrite privateAnon none 0 s = none ∧
    (∃ t, vmmapRemove sampleUser calmEnv 0 0xfffff 0x401 s = some t ∧
      doMunmap sampleUser calmEnv 0 0xfffff000 0x401000 s = some (t, .ok ())) ∧
    ¬ addrPage 0xfffff < addrPage (u32 ((0xfffff : ℕ)+(0x401 : ℕ))) := by
  obtain ⟨s,t,h,hone,ht⟩ : ∃ s t, Exec (step sampleUser) Allowed emptyMemory mappedCalls s ∧
      (s.vmmList 0).length = 1 ∧ vmmapRemove sampleUser calmEnv 0 0xfffff 0x401 s = some t := by
    have h : Exec (step sampleUser) Allowed emptyMemory mappedCalls _ := Exec.ofRun rfl
    exact ⟨_,_,h,rfl,rfl⟩
  refine ⟨s,h,hone,?_,⟨t,ht,?_⟩,by decide⟩
  · unfold doMmap
    rw [if_neg (by decide +kernel),if_neg (by decide +kernel),if_neg (by decide),if_neg (by decide),if_pos (by decide)]
    exact if_neg (by decide)
  · unfold doMunmap
    rw [if_neg (by decide +kernel),if_neg (by decide +kernel)]
    change (vmmapRemove sampleUser calmEnv 0 0xfffff 0x401 s).map _ = _
    rw [ht]
    rfl

end Memory

end Csci402.Vm
