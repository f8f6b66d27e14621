import Csci402.Vm.MapCalls

/-! The heap of a process. `do_brk` finds the heap again at every call, as the area at the
page of `p_start_brk`. Where there is one, it returns, the heap stays one area, and the
other areas stay as they are. -/

namespace Csci402.Vm

namespace Memory

open Lib Option List

variable {D : Type} {U : UserMem} {env : Env D} {s t u : Memory D} {pid lo hi n k v addr : ℕ}
  {a b heap : Vmarea} {p : Proc}

/-! ### Areas that a removal leaves alone -/

theorem mem_pieces_below (hlh : lo ≤ hi) (ha : a.vmaStart < lo) :
    { a with vmaEnd := min a.vmaEnd lo } ∈ pieces lo hi k a := by
  unfold pieces
  by_cases he : lo < a.vmaEnd
  · rw [Nat.min_eq_right (Nat.le_of_lt he)]
    by_cases hh : hi < a.vmaEnd
    · rw [if_pos ⟨hh,ha⟩]
      exact mem_cons_self
    · rw [if_neg (by omega),if_pos (by omega)]
      exact mem_singleton_self _
  · rw [Nat.min_eq_left (by omega),if_neg (by omega),if_neg (by omega),if_neg (by omega),if_neg (by omega)]
    exact mem_singleton_self _

theorem mem_pieces_above (hlh : lo ≤ hi) (ha : hi ≤ a.vmaStart) (hne : a.vmaStart < a.vmaEnd) :
    a ∈ pieces lo hi k a := by
  unfold pieces
  rw [if_neg (by omega),if_neg (by omega),if_neg (by omega),if_neg (by omega)]
  exact mem_singleton_self _

/-- A round puts the pieces of one area in its place. -/
theorem mem_removeArea (h : ListInv U t pid) (hb : b ∈ t.vmmList pid)
    (hu : removeArea U env pid lo hi b.vmaId t = some u) :
    (∀ a ∈ t.vmmList pid, a ≠ b → a ∈ u.vmmList pid) ∧ ∀ x ∈ pieces lo hi t.nextArea b, x ∈ u.vmmList pid := by
  obtain ⟨done,todo,hl⟩ := append_of_mem hb
  obtain ⟨hl',-⟩ := removeArea_areas h hl hu
  rw [hl,hl']
  refine ⟨fun a ha hab => ?_,fun x hx => by simp [hx]⟩
  rcases mem_append.mp ha with ha | ha
  · simp [ha]
  · rcases mem_cons.mp ha with rfl | ha
    · exact absurd rfl hab
    · simp [ha]

/-- The loop of `vmmap_remove` with the areas numbered `rest` ahead: what is below or above
the range is still there. -/
structure Keeping (U : UserMem) (pid lo hi : ℕ) (s : Memory D) (rest : List ℕ) (t : Memory D) : Prop where
  cutting : Cutting U pid lo hi s rest t
  below : ∀ a ∈ s.vmmList pid, a.vmaStart < lo →
    { a with vmaEnd := min a.vmaEnd lo } ∈ t.vmmList pid ∨ a ∈ t.vmmList pid ∧ a.vmaId ∈ rest
  above : ∀ a ∈ s.vmmList pid, hi ≤ a.vmaStart → a ∈ t.vmmList pid

theorem Keeping.round {rest : List ℕ} (hlh : lo ≤ hi) (hs : ListInv U s pid)
    (h : Keeping U pid lo hi s (k :: rest) t) (hu : removeArea U env pid lo hi k t = some u) :
    Keeping U pid lo hi s rest u := by
  obtain ⟨hcut,hbelow,habove⟩ := h
  obtain ⟨b,hb,rfl,hinv⟩ : ∃ b ∈ t.vmmList pid, b.vmaId = k ∧ ListInv U t pid := by
    obtain ⟨before,done,todo,-,hk,hl,hinv,-⟩ := hcut
    cases todo with
    | nil => cases hk
    | cons b todo => exact ⟨b,by simp [hl],(List.cons.inj hk).1,hinv⟩
  obtain ⟨hmem,hpieces⟩ := mem_removeArea hinv hb hu
  refine ⟨hcut.round hlh hu,fun a ha hlo => ?_,fun a ha hhi => ?_⟩
  · rcases hbelow a ha hlo with hc | ⟨hat,hid⟩
    · by_cases hab : { a with vmaEnd := min a.vmaEnd lo } = b
      · -- it has been cut before, and this cut changes nothing
        subst hab
        have hself := hpieces _ (mem_pieces_below hlh hlo)
        rw [show min (min a.vmaEnd lo) lo = min a.vmaEnd lo by omega] at hself
        exact .inl hself
      · exact .inl (hmem _ hc hab)
    · by_cases hab : a = b
      · subst hab
        exact .inl (hpieces _ (mem_pieces_below hlh hlo))
      · refine .inr ⟨hmem a hat hab,(mem_cons.mp hid).resolve_left fun hk => ?_⟩
        exact hab (inj_on_of_nodup_map hinv.ids hat hb hk)
  · by_cases hab : a = b
    · subst hab
      exact hpieces a (mem_pieces_above hlh hhi (hs.ok.spaced.nonempty a ha))
    · exact hmem a (habove a ha hhi) hab

/-- `vmmap_remove` cuts the areas that start below the range at its start, and leaves the
areas above the range as they are. -/
theorem vmmapRemove_keeps (h : ListInv U s pid) (hn : lo+n < 2 ^ 32)
    (ht : vmmapRemove U env pid lo n s = some t) (ha : a ∈ s.vmmList pid) :
    (a.vmaStart < lo → { a with vmaEnd := min a.vmaEnd lo } ∈ t.vmmList pid) ∧
    (lo+n ≤ a.vmaStart → a ∈ t.vmmList pid) := by
  unfold vmmapRemove at ht
  simp only [u32_add hn] at ht
  obtain ⟨s1,hs1,ht⟩ := bind_eq_some_iff.mp ht
  cases ht
  have hstart : Keeping U pid lo (lo+n) s (s.areaIds pid) s :=
    ⟨Cutting.start h,fun a ha _ => .inr ⟨ha,List.mem_map_of_mem ha⟩,fun _ ha _ => ha⟩
  have hkeep := listIterate_inv (Keeping U pid lo (lo+n) s) (fun _ _ _ hk => hk.cutting.next)
    (fun _ _ _ _ hk => hk.round (Nat.le_add_right lo n) h) hstart hs1
  rw [(clears_ptUnmapRange s1 pid _ _).vmmList pid]
  refine ⟨fun hlo => ?_,hkeep.above a ha⟩
  rcases hkeep.below a ha hlo with hc | ⟨-,hid⟩
  · exact hc
  · cases hid

/-! ### One call -/

/-- The break is at `addr` and the areas are the old ones, but that the heap ends at the
page after the break. -/
structure HeapMoved (pid addr : ℕ) (p : Proc) (s t : Memory D) : Prop where
  brkOf : t.brkOf pid = some (addr, p.pStartBrk)
  start_le : p.pStartBrk ≤ addr
  one_area : ∃ b, ∀ v, p.pStartBrk / pageSize ≤ v → v < pagesOf addr → vmmapLookup (t.vmmList pid) v = some b
  others : ∀ a v, vmmapLookup (s.vmmList pid) v = some a →
    vmmapLookup (s.vmmList pid) (p.pStartBrk / pageSize) ≠ some a → vmmapLookup (t.vmmList pid) v = some a
  processes : ∀ q, q ≠ pid → t.vmmList q = s.vmmList q

theorem brkOf_setBrk {x y : ℕ} (h : s.brkOf pid = some (x, y)) : (s.setBrk pid addr).brkOf pid = some (addr, y) := by
  obtain ⟨q,hq,he⟩ := map_eq_some_iff.mp h
  cases he
  simp [brkOf,setBrk,modProc,hq]

/-- With the heap found, `do_brk` returns. -/
theorem moveBrk_moves (h : Sys U s) (env : Env D) (hp : s.procs pid = some p) (hlo : p.pStartBrk ≤ addr)
    (hhi : addr ≤ U.high*pageSize) (ha : vmmapLookup p.vmmList (p.pStartBrk / pageSize) = some heap) :
    ∃ t r, moveBrk U env pid addr heap s = some (t, r) ∧ ((∃ e, r = .error e) ∧ t = s ∨
      r = .ok addr ∧ t.brkOf pid = some (addr, p.pStartBrk) ∧
        (p.pStartBrk / pageSize < pagesOf addr → { heap with vmaEnd := pagesOf addr } ∈ t.vmmList pid) ∧
        ∀ a ∈ s.vmmList pid, a ≠ heap → a ∈ t.vmmList pid) := by
  have hH := U.high_lt
  have hbrk : s.brkOf pid = some (p.pBrk, p.pStartBrk) := by simp [brkOf,hp]
  obtain ⟨hmem,hal⟩ := vmmapLookup_mem ha
  rw [show p.vmmList = s.vmmList pid by simp [vmmList,hp]] at hmem
  have hok := (h.list pid).ok
  have hab := hok.bounds heap hmem
  have hapart := fun a hm hne => hok.spaced.apart (a := a) hm hmem hne
  have he : p.pStartBrk / pageSize ≤ pagesOf addr ∧ pagesOf addr ≤ U.high := by
    unfold pagesOf pageSize at *
    split <;> omega
  unfold moveBrk
  split
  · -- the heap gets smaller
    rename_i hlt
    have hn : pagesOf addr+(heap.vmaEnd - pagesOf addr) < 2 ^ 32 := by omega
    obtain ⟨u,hu,-,-,hrem⟩ := h.remove env pid hn
    have hkeep := fun a hm => vmmapRemove_keeps (a := a) (h.list pid) hn hu hm
    simp only [hu,bind_eq_bind,bind_some]
    refine ⟨_,_,rfl,.inr ⟨rfl,brkOf_setBrk ((hrem.edits.brkOf pid).trans hbrk),fun hse => ?_,fun a hm hne => ?_⟩⟩
    · rw [vmmList_setBrk]
      have hcut := (hkeep heap hmem).1 (by omega)
      rwa [Nat.min_eq_right (by omega)] at hcut
    · rw [vmmList_setBrk]
      have hpos := hok.spaced.nonempty a hm
      rcases hapart a hm hne with hbelow | habove
      · have hcut := (hkeep a hm).1 (by omega)
        rwa [Nat.min_eq_left (by omega)] at hcut
      · exact (hkeep a hm).2 (by omega)
  split
  · -- the heap gets larger
    rename_i hge hlt
    have hemp : vmmapIsRangeEmpty U (s.vmmList pid) heap.vmaEnd (pagesOf addr - heap.vmaEnd) =
        some (isRangeEmpty heap.vmaEnd (pagesOf addr) (s.vmmList pid)) := by
      have hadd : u32 ((heap.vmaEnd : ℤ)+(pagesOf addr - heap.vmaEnd : ℕ)) = pagesOf addr := by
        rw [u32_add (by omega)]
        omega
      simp only [vmmapIsRangeEmpty,hadd]
      exact if_pos (by omega)
    simp only [hemp,bind_eq_bind,bind_some]
    split
    · obtain ⟨done,rest,hl⟩ := append_of_mem hmem
      have hl' := vmmList_modArea_eq hl (h.list pid).ids fun a => { a with vmaEnd := pagesOf addr }
      refine ⟨_,_,rfl,.inr ⟨rfl,brkOf_setBrk (((edits_modArea s pid _ _).brkOf pid).trans hbrk),fun _ => ?_,
        fun a hm hne => ?_⟩⟩
      · rw [vmmList_setBrk,hl']
        simp
      · rw [hl,mem_append,mem_cons] at hm
        rw [vmmList_setBrk,hl',mem_append,mem_cons]
        exact hm.imp_right fun hm => .inr (hm.resolve_left hne)
    · exact ⟨_,_,rfl,.inl ⟨⟨_,rfl⟩,rfl⟩⟩
  · refine ⟨_,_,rfl,.inr ⟨rfl,brkOf_setBrk hbrk,fun _ => ?_,fun a hm _ => ?_⟩⟩
    · rw [vmmList_setBrk,show pagesOf addr = heap.vmaEnd by omega]
      exact hmem
    · rwa [vmmList_setBrk]

theorem doBrk_moves (h : Sys U s) (env : Env D) (hp : s.procs pid = some p) (haddr : addr ≠ 0)
    (hheap : p.pStartBrk ≤ addr → addr ≤ U.high*pageSize →
      (vmmapLookup p.vmmList (p.pStartBrk / pageSize)).isSome) :
    ∃ t r, doBrk U env pid addr s = some (t, r) ∧
      ((∃ e, r = .error e) ∧ t = s ∨ r = .ok addr ∧ HeapMoved pid addr p s t) := by
  have hps : p.vmmList = s.vmmList pid := by simp [vmmList,hp]
  unfold doBrk
  simp only [hp,bind_eq_bind,bind_some,if_neg haddr]
  split
  · exact ⟨_,_,rfl,.inl ⟨⟨_,rfl⟩,rfl⟩⟩
  rename_i hin
  rw [not_or,Nat.not_lt,Nat.not_lt] at hin
  obtain ⟨hlo,hhi⟩ := hin
  obtain ⟨heap,ha⟩ := isSome_iff_exists.mp (hheap hlo hhi)
  obtain ⟨t,r,ht,hcase⟩ := moveBrk_moves h env hp hlo hhi ha
  simp only [ha,bind_some]
  refine ⟨t,r,ht,?_⟩
  rcases hcase with herr | ⟨hr,hbrk,hone,hothers⟩
  · exact .inl herr
  obtain ⟨⟨hlist,hprocs,-,-⟩,-⟩ := moveBrk_areas (h.list pid) hp hhi ha ht
  obtain ⟨-,hstart,-⟩ := vmmapLookup_mem ha
  refine .inr ⟨hr,hbrk,hlo,⟨{ heap with vmaEnd := pagesOf addr },fun v hv hve => ?_⟩,fun a v hv hne => ?_,hprocs⟩
  · have hb := hone (by omega)
    exact (vmmapLookup_eq_some hlist.ok).mpr ⟨hb,Nat.le_trans hstart hv,hve⟩
  · obtain ⟨hm,hav⟩ := vmmapLookup_mem hv
    refine (vmmapLookup_eq_some hlist.ok).mpr ⟨hothers a hm fun he => hne ?_,hav⟩
    rw [he,← hps]
    exact ha

/-! ### Runs -/

/-- The break that the loader sets. -/
def setStartBrk (pid start : ℕ) : Memory D → Memory D :=
  modProc pid fun p => { p with pBrk := start, pStartBrk := start }

/-- A process has been loaded. Its break need not be at the start of a page, but then the
page is mapped. -/
structure Image (U : UserMem) (pid : ℕ) (s : Memory D) : Prop where
  sys : Sys U s
  loaded : ∃ p, s.procs pid = some p ∧ p.pBrk = p.pStartBrk ∧
    (p.pStartBrk % pageSize ≠ 0 → (vmmapLookup p.vmmList (p.pStartBrk / pageSize)).isSome)

theorem Sys.setStartBrk (h : Sys U s) (pid start : ℕ) : Sys U (s.setStartBrk pid start) := by
  have hl : ∀ q, (s.setStartBrk pid start).vmmList q = s.vmmList q := fun q => vmmList_modProc fun _ => rfl
  exact h.same_lists hl (Nat.le_refl _)
    (h.heap.same_lists ⟨rfl,rfl,rfl,rfl,rfl,rfl⟩ hl (fun _ => live_modProc.mp) rfl) (fun _ => rfl) rfl

/-- The calls that move breaks and change mappings, with ranges in user memory. -/
def UserCall (U : UserMem) : Call D → Prop
  | .brk _ _ => True
  | .mmap _ addr len _ _ _ _ => (addr = 0 ∨ U.low*pageSize ≤ addr) ∧ addr+len ≤ U.high*pageSize
  | .munmap _ addr len => U.low*pageSize ≤ addr ∧ addr+len ≤ U.high*pageSize
  | _ => False

def HeapCall (U : UserMem) (s : Memory D) (c : Env D × Call D) : Prop := Allowed s c ∧ UserCall U c.2

instance (U : UserMem) : ∀ c : Call D, Decidable (UserCall U c) := by
  rintro ⟨⟩ <;> unfold UserCall <;> infer_instance

instance (U : UserMem) (s : Memory D) (c : Env D × Call D) : Decidable (HeapCall U s c) :=
  inferInstanceAs (Decidable (Allowed s c ∧ UserCall U c.2))

variable [Zero D] {s0 : Memory D} {cs : List (Env D × Call D)}

theorem Image.sys_of_exec (h0 : Image U pid s0) (h : Exec (step U) (HeapCall U) s0 cs s) : Sys U s := by
  induction h with
  | nil => exact h0.sys
  | snoc _ hc hst ih => exact (ih.step hc.1 hst).sys

/-- Whatever a process did with its heap and its mappings, as long as the first page of
the heap is mapped: `do_brk` returns, and it either fails and changes nothing or moves the
end of the heap. -/
theorem brk_heap_contiguous (h0 : Image U pid s0) (hrun : Exec (step U) (HeapCall U) s0 cs s) (env : Env D)
    (hp : s.procs pid = some p) (haddr : addr ≠ 0) (hheap : p.pStartBrk ≤ addr → addr ≤ U.high*pageSize →
      (vmmapLookup p.vmmList (p.pStartBrk / pageSize)).isSome) :
    ∃ t r, doBrk U env pid addr s = some (t, r) ∧
      ((∃ e, r = .error e) ∧ t = s ∨ r = .ok addr ∧ HeapMoved pid addr p s t) :=
  doBrk_moves (h0.sys_of_exec hrun) env hp haddr hheap

/-- The process that has mapped four pages, as if the loader had done it. -/
def sampleImage (start : ℕ) : Memory ℕ :=
  setStartBrk 0 start ((run (step sampleUser) Allowed emptyMemory mappedCalls).getD emptyMemory)

theorem sampleImage_sys (start : ℕ) : Sys sampleUser (sampleImage start) := by
  have h : Exec (step sampleUser) Allowed emptyMemory mappedCalls _ := Exec.ofRun rfl
  exact (sys_of_exec emptyMemory_initial.sys h).setStartBrk 0 start

/-- The heap grows and is unmapped but for its first page. -/
def heapCalls : List (Env ℕ × Call ℕ) := [.brk 0 0x506800,.munmap 0 0x504000 0x3000].map fun c => (calmEnv, c)

theorem brk_heap_contiguous_heapCalls : ∃ s p t, Image sampleUser 0 (sampleImage 0x503800) ∧
    Exec (step sampleUser) (HeapCall sampleUser) (sampleImage 0x503800) heapCalls s ∧
    doBrk sampleUser calmEnv 0 0x505400 s = some (t, .ok 0x505400) ∧ HeapMoved 0 0x505400 p s t := by
  have h0 : Image sampleUser 0 (sampleImage 0x503800) := ⟨sampleImage_sys _,_,rfl,rfl,fun _ => rfl⟩
  obtain ⟨s,hs,hany⟩ := (any_eq_true _ _).mp (show (run (step sampleUser) (HeapCall sampleUser) (sampleImage 0x503800)
      heapCalls).any (fun s => (s.procs 0).any fun p => (vmmapLookup p.vmmList (p.pStartBrk / pageSize)).isSome &&
        (doBrk sampleUser calmEnv 0 0x505400 s).any fun x => x.2.isOk) by decide +kernel)
  obtain ⟨p,hp,hl⟩ := (any_eq_true _ _).mp hany
  rw [Bool.and_eq_true] at hl
  obtain ⟨t,ht,hok⟩ := (any_eq_true _ _).mp hl.2
  obtain ⟨t',r,ht',hcase⟩ := brk_heap_contiguous h0 (Exec.ofRun hs) calmEnv hp (show 0x505400 ≠ 0 by decide) fun _ _ => hl.1
  cases ht.symm.trans ht'
  rcases hcase with ⟨⟨e,rfl⟩,-⟩ | ⟨rfl,hmoved⟩
  · cases hok
  · exact ⟨s,p,t',h0,Exec.ofRun hs,ht,hmoved⟩

/-- The break of the image is at the start of a page, and no page of the heap is mapped
yet: there is no area to extend. -/
theorem brk_without_heap_area : Image sampleUser 0 (sampleImage 0x504000) ∧
    (sampleImage 0x504000).brkOf 0 = some (0x504000, 0x504000) ∧
    doBrk sampleUser calmEnv 0 0x505000 (sampleImage 0x504000) = none := by
  refine ⟨⟨sampleImage_sys _,_,rfl,rfl,fun hc => absurd rfl hc⟩,rfl,isNone_iff_eq_none.mp ?_⟩
  decide +kernel

end Memory

end Csci402.Vm
