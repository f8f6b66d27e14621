import Csci402.Vm.Isolation

/-! Page-table entries. An entry is made by a page fault only; the other calls clear entries
and change what pages stand for. They clear the entry of every page that stands for something
else afterwards, so what holds of an entry when it is made goes on to hold as long as the
frame and the chain of objects are kept. -/

namespace Csci402.Vm

namespace Memory

open Lib Option

variable {D : Type} {U : UserMem} {s t u : Memory D} {ext ext' : ℕ → ℤ} {env : Env D} {pid q v lo hi n f o : ℕ}

/-! ### Which entries are left -/

/-- The entries of `t` are entries of `s`, for pages that stand for what they stood for. -/
def Retains (s t : Memory D) : Prop :=
  ∀ q v e, t.entry q v = some e → s.entry q v = some e ∧
    ∀ x, trans (s.vmmList q) v = some x → trans (t.vmmList q) v = some x

theorem Retains.trans (h : Retains s t) (h' : Retains t u) : Retains s u := by
  intro q v e he
  obtain ⟨ht,hx⟩ := h' q v e he
  obtain ⟨hs,hy⟩ := h q v e ht
  exact ⟨hs,fun x h => hx x (hy x h)⟩

theorem entry_or {e : ℕ × Bool} (h : t.entry q v = none ∨ t.entry q v = s.entry q v) (he : t.entry q v = some e) :
    s.entry q v = some e := by
  rcases h with hn | hs
  · rw [hn] at he
    cases he
  · rw [← hs]
    exact he

theorem Clears.retains (h : Clears s t) : Retains s t := by
  intro q v e he
  refine ⟨entry_or (h.entry q v) he,fun x hx => ?_⟩
  rw [h.vmmList]
  exact hx

/-- The map of one process changes. -/
theorem Edits.retains (h : Edits pid s t)
    (hmap : ∀ v x, Vm.trans (s.vmmList pid) v = some x → t.entry pid v = none ∨ Vm.trans (t.vmmList pid) v = some x) :
    Retains s t := by
  intro q v e he
  refine ⟨entry_or (h.entry q v) he,fun x hx => ?_⟩
  by_cases hq : q = pid
  · subst hq
    rcases hmap v x hx with hn | hx
    · rw [hn] at he
      cases he
    · exact hx
  · rw [h.vmmList q hq]
    exact hx

theorem vmmapRemove_retains (h : ListInv U s pid) (hn : lo+n < 2 ^ 20) (ht : vmmapRemove U env pid lo n s = some t) :
    Retains s t := by
  have hrem := vmmapRemove_areas h (Nat.lt_trans hn (by decide)) ht
  refine hrem.edits.retains fun v x hx => ?_
  by_cases hv : lo ≤ v ∧ v < lo+n
  · exact .inl (vmmapRemove_entry hn ht hv)
  · rw [hrem.trans_eq,if_neg hv]
    exact .inr hx

theorem Exited.retains (h : Exited pid s t) : Retains s t := by
  intro q v e he
  rcases h.entry q v with hn | ⟨hq,hs⟩
  · rw [hn] at he
    cases he
  · refine ⟨by rw [← hs]; exact he,fun x hx => ?_⟩
    rw [h.vmmList,if_neg hq]
    exact hx

theorem Exited.entry_self (h : Exited pid s t) (v : ℕ) : t.entry pid v = none := by
  rcases h.entry pid v with hn | ⟨hq,-⟩
  · exact hn
  · exact absurd rfl hq

/-- Only pages of user memory stand for something, and those of the parent are cleared. -/
theorem Forked.retains (h : Forked U pid s t) (hok : AreasOk U (s.vmmList pid)) : Retains s t := by
  intro q v e he
  rcases h.entry q v with hn | ⟨hq,hv,hs⟩
  · rw [hn] at he
    cases he
  · refine ⟨by rw [← hs]; exact he,fun x hx => ?_⟩
    by_cases hp : q = pid
    · subst hp
      obtain ⟨a,ha,hav,hve,-⟩ := (trans_eq_some hok).mp hx
      have hb := hok.bounds a ha
      exact absurd ⟨rfl,Nat.le_trans hb.1 hav,Nat.lt_of_lt_of_le hve hb.2⟩ hv
    · rw [h.other q hp hq]
      exact hx

theorem entry_procCreate (s : Memory D) (q v : ℕ) :
    s.procCreate.entry q v = none ∨ s.procCreate.entry q v = s.entry q v := by
  unfold entry procCreate
  by_cases hq : q = s.nextPid
  · subst hq
    simp
  · simp [hq]

variable {prot : Prot} {flags : MapFlags} {off : ℕ}

/-- Where `vmmap_map` puts its area no entry of an older one is left. -/
theorem vmmapMap_entry {file : Option ℕ} {lopage : ℕ} {dir : Dir}
    (h : ListInv U s pid) (hlive : s.live pid) (hn : n < 2 ^ 32)
    (ht : vmmapMap U env pid file lopage n prot flags off dir s = some (t, .ok lo)) (hv : lo ≤ v ∧ v < lo+n)
    (hs : Vm.trans (s.vmmList pid) v ≠ none) : t.entry pid v = none := by
  have hH := U.high_lt
  obtain ⟨s1,hpl,hpos,hrem,hlo,hhi,-,hins⟩ := vmmapMap_parts h hn ht
  have hfree := free_of_trans hrem.list.ok hpos fun w hw => by rw [hrem.trans_eq,if_pos hw]
  obtain ⟨-,-,-,-,-,hed⟩ := mapInsert_areas hrem.list ((hrem.edits.live pid).mpr hlive) hhi hfree hins
  have hclear : s1.entry pid v = none := by
    rcases mapPlace_state hpl with rfl | ⟨-,hs1⟩
    · rw [hrem.trans_eq,if_pos hv] at hs
      exact absurd rfl hs
    · exact vmmapRemove_entry (by omega) hs1 hv
  rcases hed.entry pid v with hnone | hsame
  · exact hnone
  · rw [hsame]
    exact hclear

theorem Mapped.retains (h : Mapped U pid lo n prot flags off s t o)
    (hclear : ∀ v, lo ≤ v ∧ v < lo+n → Vm.trans (s.vmmList pid) v ≠ none → t.entry pid v = none) : Retains s t := by
  refine h.edits.retains fun v x hx => ?_
  by_cases hv : lo ≤ v ∧ v < lo+n
  · exact .inl (hclear v hv (by rw [hx]; exact some_ne_none x))
  · rw [h.trans_eq,if_neg hv]
    exact .inr hx

variable {addr : ℕ}

theorem entry_setBrk : (s.setBrk pid addr).entry q v = s.entry q v := entry_modProc fun _ => rfl

theorem entry_modArea {k : ℕ} {g : Vmarea → Vmarea} : (s.modArea pid k g).entry q v = s.entry q v :=
  entry_modProc fun _ => rfl

theorem retains_setBrk (s : Memory D) (pid addr : ℕ) : Retains s (s.setBrk pid addr) := by
  intro q v e he
  refine ⟨?_,fun x hx => ?_⟩
  · rwa [entry_setBrk] at he
  · rw [vmmList_setBrk]
    exact hx

variable {r : Except Errno ℕ}

theorem doBrk_retains (h : ListInv U s pid) (ht : doBrk U env pid addr s = some (t, r)) : Retains s t := by
  have hH := U.high_lt
  have hareas := (doBrk_areas h ht)
  obtain ⟨p,hp,ht⟩ := bind_eq_some_iff.mp ht
  split at ht
  · cases ht
    exact (Clears.refl s).retains
  split at ht
  · cases ht
    exact (Clears.refl s).retains
  obtain ⟨vma,hvma,ht⟩ := bind_eq_some_iff.mp ht
  have hlist : p.vmmList = s.vmmList pid := by simp [vmmList,hp]
  have hend : vma.vmaEnd ≤ U.high := (h.ok.bounds vma (hlist ▸ (vmmapLookup_mem hvma).1)).2
  unfold moveBrk at ht
  split at ht
  next hshrink =>
    obtain ⟨s1,hs1,ht⟩ := bind_eq_some_iff.mp ht
    cases ht
    exact (vmmapRemove_retains h (by omega) hs1).trans (retains_setBrk s1 pid addr)
  split at ht
  next hgrow =>
    obtain ⟨empty,-,ht⟩ := bind_eq_some_iff.mp ht
    split at ht
    · -- the heap grows: entries stay, and pages that stood for something still do
      cases ht
      rcases hareas.2 with ⟨-,he⟩ | ⟨p',heap,hp',hheap,hfree,htr⟩
      · rw [he]
        exact (Clears.refl s).retains
      · obtain rfl : p = p' := some.inj (hp.symm.trans hp')
        obtain rfl : vma = heap := some.inj (hvma.symm.trans hheap)
        intro q v e he
        rw [entry_setBrk,entry_modArea] at he
        refine ⟨he,fun x hx => ?_⟩
        by_cases hq : q = pid
        · subst hq
          rw [htr,if_neg fun hv => ?_,if_neg (by omega)]
          · exact hx
          · rw [hfree v hv] at hx
            cases hx
        · rw [hareas.1.vmmList q hq]
          exact hx
    · cases ht
      exact (Clears.refl s).retains
  · cases ht
    exact retains_setBrk s pid addr

/-! ### Which frames are kept -/

/-- The objects that are left keep their frames and what is found for a page from them on. -/
structure Survives (s t : Memory D) : Prop where
  frame : ∀ f pf, s.frames f = some pf → (t.objs pf.pfObj).isSome → t.frames f = some pf
  nearest : ∀ o n, (s.objs o).isSome → (t.objs o).isSome → t.nearest o n = s.nearest o n

theorem Keeps.survives (hk : Keeps s t) (h : Heap s ∅ ext) (h' : Heap t ∅ ext') : Survives s t where
  frame f pf hf ht := by
    obtain ⟨ob,hob,-⟩ := h.pages.owner hf
    exact hk.frame_kept f pf hf (h.shape.obj_lt _ ob hob) ht
  nearest o n ho ht := by
    obtain ⟨ob,hob⟩ := isSome_iff_exists.mp ho
    exact hk.nearest h h' (h.shape.obj_lt o ob hob) ht

theorem DropsOff.survives (hd : DropsOff ∅ s t) (h : Heap s ∅ ext) (h' : Heap t ∅ ext') : Survives s t := by
  -- who holds objects from outside does not matter here
  have hk : Keeps { s with held := fun _ => 0 } { t with held := fun _ => 0 } :=
    { nextObj := Nat.le_of_eq hd.nextObj.symm
      nextFrame := hd.nextFrame
      obj := fun x ob _ hx => (hd.obj x ob (Finset.notMem_empty x) hx).elim fun _ hr => ⟨_,hr,rfl⟩
      frame_of := fun f pf hf => hd.frame_of f pf (Finset.notMem_empty _) hf
      frame_kept := fun f pf hf _ hx => hd.frame_kept f pf (Finset.notMem_empty _) hf hx
      kept := fun x hx => absurd hx (Nat.lt_irrefl 0)
      disk := hd.disk
      held := rfl }
  have hsurv := hk.survives (h.setHeld _) (h'.setHeld _)
  exact ⟨hsurv.frame,hsurv.nearest⟩

theorem ref_keeps (h : ref o s = some t) : Keeps s t := by
  obtain ⟨ob,-,h⟩ := bind_eq_some_iff.mp h
  split at h
  · cases h
    exact keeps_modObj fun _ => rfl
  · cases h

/-! ### The calls -/

/-- The calls that look up no page and free no page of their own. -/
def Quiet : Call D → Prop
  | .remove _ lopage npages => lopage+npages < 2 ^ 20
  | .pagefault .. | .lookup .. | .read .. | .write .. | .vmmapRead .. | .vmmapWrite .. | .reclaim _ => False
  | _ => True

theorem Sys.quiet_map (h : Sys U s) {file : Option ℕ} {lopage : ℕ} {dir : Dir}
    (hlive : s.live pid) (hf : Mappable env s file) (hn : n < 2 ^ 32)
    (ht : Memory.vmmapMap U env pid file lopage n prot flags off dir s = some (t, r)) : Retains s t ∧ Survives s t := by
  obtain ⟨t',r',ht',hsys,hk,hcase⟩ := h.map env dir prot hlive hf hn (vmmapMap_args hn (h.list pid) ht)
  cases ht'.symm.trans ht
  refine ⟨?_,hk.survives h.heap hsys.heap⟩
  rcases hcase with ⟨-,rfl⟩ | ⟨lo,o,rfl,hm,-⟩
  · exact (Clears.refl t).retains
  · exact hm.retains fun v hv hs => vmmapMap_entry (h.list pid) hlive hn ht hv hs

theorem Sys.quiet_refl (h : Sys U s) : Retains s s ∧ Survives s s :=
  ⟨(Clears.refl s).retains,(SameHeap.refl s).keeps.survives h.heap h.heap⟩

theorem Sys.quiet_mmap (h : Sys U s) {len : ℕ} {file : Option (ℕ × Bool)} (hlive : s.live pid) (hlen : len < 2 ^ 32)
    (hf : flags.anon = false → Mappable env s (file.map Prod.fst))
    (ht : Memory.doMmap U env pid addr len prot flags file off s = some (t, r)) : Retains s t ∧ Survives s t := by
  rcases doMmap_cases ht with rfl | ⟨f,hfile,ht⟩
  · exact h.quiet_refl
  · exact h.quiet_map hlive (hfile hf) (Nat.lt_of_le_of_lt (pagesOf_lt hlen) (by decide)) ht

theorem Sys.quiet_munmap (h : Sys U s) {len : ℕ} {r : Except Errno Unit} (hlen : addr+len < 2 ^ 32)
    (ht : Memory.doMunmap U env pid addr len s = some (t, r)) : Retains s t ∧ Survives s t := by
  rcases doMunmap_cases ht with rfl | ⟨hn,hrem⟩
  · exact h.quiet_refl
  · obtain ⟨hsys,hs,-⟩ := of_returns (h.remove env pid (Nat.lt_trans (hn hlen) (by decide))) hrem
    exact ⟨vmmapRemove_retains (h.list pid) (hn hlen) hrem,hs.toKeeps.survives h.heap hsys.heap⟩

theorem Sys.quiet [Zero D] {c : Env D × Call D} (h : Sys U s) (hc : Allowed s c) (hq : Quiet c.2)
    (hst : Memory.step U s c = some t) : Retains s t ∧ Survives s t := by
  have hsys := (h.step hc hst).sys
  obtain ⟨env,c⟩ := c
  cases c with
  | procCreate =>
    cases hst
    have hsame : SameHeap s s.procCreate := ⟨rfl,rfl,rfl,rfl,rfl,rfl⟩
    refine ⟨fun q v e he => ⟨entry_or (entry_procCreate s q v) he,fun x hx => ?_⟩,
      hsame.keeps.survives h.heap hsys.heap⟩
    rw [vmmList_procCreate h.heap]
    exact hx
  | map pid file lopage npages prot flags off dir =>
    obtain ⟨⟨t',r⟩,ht,rfl⟩ := map_eq_some_iff.mp hst
    exact h.quiet_map hc.1 hc.2.2 hc.2.1 ht
  | remove pid lopage npages =>
    obtain ⟨-,hs,-⟩ := of_returns (h.remove env pid hc) hst
    exact ⟨vmmapRemove_retains (h.list pid) hq hst,hs.toKeeps.survives h.heap hsys.heap⟩
  | mmap pid addr len prot flags file off =>
    obtain ⟨⟨t',r⟩,ht,rfl⟩ := map_eq_some_iff.mp hst
    exact h.quiet_mmap hc.1 hc.2.1 hc.2.2 ht
  | munmap pid addr len =>
    obtain ⟨⟨t',r⟩,ht,rfl⟩ := map_eq_some_iff.mp hst
    exact h.quiet_munmap hc ht
  | brk pid addr =>
    obtain ⟨⟨t',r⟩,ht,rfl⟩ := map_eq_some_iff.mp hst
    exact ⟨doBrk_retains (h.list pid) ht,(h.brk ht).2.toKeeps.survives h.heap hsys.heap⟩
  | fork pid =>
    obtain ⟨-,hf⟩ := of_returns (h.fork hc) hst
    exact ⟨hf.retains (h.list pid).ok,hf.grows.keeps.survives h.heap hsys.heap⟩
  | exit pid =>
    obtain ⟨-,hs,hex⟩ := of_returns (h.exit env pid) hst
    exact ⟨hex.retains,hs.toKeeps.survives h.heap hsys.heap⟩
  | vget =>
    cases hst
    have hsurv := (keeps_create s _).survives h.heap (hsys.heap.setHeld s.held)
    exact ⟨Clears.retains (Clears.of_procs rfl rfl rfl),hsurv.frame,hsurv.nearest⟩
  | vref o =>
    obtain ⟨s1,hs1,rfl⟩ := map_eq_some_iff.mp hst
    have hsurv := (ref_keeps hs1).survives h.heap (hsys.heap.setHeld s1.held)
    exact ⟨((ref_clears hs1).trans (Clears.of_procs rfl rfl rfl)).retains,hsurv.frame,hsurv.nearest⟩
  | vput o =>
    obtain ⟨s1,hs1,rfl⟩ := map_eq_some_iff.mp hst
    have hheld : 0 < s.held o := hc
    obtain ⟨ob,hob,-⟩ := h.held o hheld
    have hput := h.heap.put env (fun x => Int.natCast_nonneg _) (by simp [hob]) (Finset.notMem_empty o) (by omega)
    have hsurv := (of_returns hput hs1).drops.survives h.heap (hsys.heap.setHeld s1.held)
    exact ⟨((put_clears hs1).trans (Clears.of_procs rfl rfl rfl)).retains,hsurv.frame,hsurv.nearest⟩
  | _ => exact absurd hq id

/-! ### What holds of all entries -/

/-- The object of a page that stands for something is there. -/
theorem Sys.trans_obj (h : Sys U s) {x : Option ℕ × ℕ × Prot × MapFlags} (hx : Vm.trans (s.vmmList q) v = some x)
    (ho : x.1 = some o) : (s.objs o).isSome := by
  obtain ⟨a,ha,-,-,rfl⟩ := (trans_eq_some (h.list q).ok).mp hx
  exact (h.heap.holders.area q a ha o ho).2

/-- Every entry is for a page that stands for something, and what is in the entry fits. -/
def Entries (P : Memory D → Option ℕ × ℕ × Prot × MapFlags → ℕ × Bool → Prop) (s : Memory D) : Prop :=
  ∀ q v e, s.entry q v = some e → ∃ x, Vm.trans (s.vmmList q) v = some x ∧ P s x e

theorem Initial.entries (h : Initial s) (P : Memory D → Option ℕ × ℕ × Prot × MapFlags → ℕ × Bool → Prop) :
    Entries P s := by
  intro q v e he
  simp [entry,h.procs] at he

section Entries

variable {P : Memory D → Option ℕ × ℕ × Prot × MapFlags → ℕ × Bool → Prop}

theorem Entries.retain (h : Entries P s) (hr : Retains s t)
    (hP : ∀ q v x e, t.entry q v = some e → Vm.trans (s.vmmList q) v = some x → Vm.trans (t.vmmList q) v = some x →
      P s x e → P t x e) : Entries P t := by
  intro q v e he
  obtain ⟨hs,hx⟩ := hr q v e he
  obtain ⟨x,htr,hp⟩ := h q v e hs
  exact ⟨x,hx x htr,hP q v x e he htr (hx x htr) hp⟩

theorem entry_ptMap {w : Bool} {q u : ℕ} : (s.ptMap pid v f w).entry q u =
    if q = pid ∧ u = v then (s.procs pid).map fun _ => (f, w) else s.entry q u := by
  unfold ptMap modProc entry
  by_cases hq : q = pid
  · subst hq
    by_cases hu : u = v
    · subst hu
      cases s.procs q <;> simp
    · cases s.procs q <;> simp [hu]
  · simp [hq]

/-- A page fault makes one entry. -/
theorem Entries.ptMap {w : Bool} (hs : ∀ q u e, ¬ (q = pid ∧ u = v) → s.entry q u = some e →
      ∃ x, Vm.trans (s.vmmList q) u = some x ∧ P (s.ptMap pid v f w) x e)
    (hnew : ∃ x, Vm.trans (s.vmmList pid) v = some x ∧ P (s.ptMap pid v f w) x (f, w)) :
    Entries P (s.ptMap pid v f w) := by
  intro q u e he
  rw [entry_ptMap] at he
  have hl : (s.ptMap pid v f w).vmmList q = s.vmmList q := vmmList_modProc fun _ => rfl
  rw [hl]
  split at he
  next hqu =>
    obtain ⟨rfl,rfl⟩ := hqu
    obtain ⟨_,-,rfl⟩ := map_eq_some_iff.mp he
    exact hnew
  · exact hs q u e ‹_› he

end Entries

/-- What a page fault can do. -/
theorem Sys.pagefault_cases [Zero D] (h : Sys U s) {vaddr : ℕ} {cause : Cause}
    (ht : handlePagefault env pid vaddr cause s = some t) :
    (∃ s1, Sys U s1 ∧ Retains s1 t ∧ Survives s1 t ∧ (∀ v, t.entry pid v = none) ∧
      (s1 = s ∨ ∃ a o, vmmapLookup (s.vmmList pid) (vaddr / pageSize) = some a ∧ a.vmaObj = some o ∧
        Looked s s1 o (a.page (vaddr / pageSize)) cause.write none)) ∨
    ∃ a o s1 f, vmmapLookup (s.vmmList pid) (vaddr / pageSize) = some a ∧ permitted cause a.vmaProt = true ∧
      a.vmaObj = some o ∧ Sys U s1 ∧ Looked s s1 o (a.page (vaddr / pageSize)) cause.write (some f) ∧
      t = s1.ptMap pid (vaddr / pageSize) f cause.write := by
  refine (h.pagefault_lookup ht).imp_left fun hend => ?_
  obtain ⟨s1,h1,he,hs1⟩ := hend
  obtain ⟨hsys,hs,hex⟩ := of_returns (h1.exit env pid) he
  exact ⟨s1,h1,hex.retains,hs.toKeeps.survives h1.heap hsys.heap,hex.entry_self,hs1⟩

end Memory

end Csci402.Vm
