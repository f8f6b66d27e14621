import Csci402.Vm.Calls

/-! What the updates of the state do to the areas and page-table entries of the
processes. Dropping references never changes an area: along `put` page-table
entries may be cleared, and that is all that happens to a process. -/

namespace Csci402.Vm

namespace Memory

open Lib Option

variable {D : Type} {s t u : Memory D} {pid pid' v : ℕ}

/-- The process has not exited. -/
def live (s : Memory D) (pid : ℕ) : Prop := (s.procs pid).isSome

/-- The page-table entry of a page: frame and write flag. -/
def entry (s : Memory D) (pid v : ℕ) : Option (ℕ × Bool) := (s.procs pid).bind fun p => p.pPagedir v

def brkOf (s : Memory D) (pid : ℕ) : Option (ℕ × ℕ) :=
  (s.procs pid).map fun p => (p.pBrk, p.pStartBrk)

theorem live_of_mem {a : Vmarea} (h : a ∈ s.vmmList pid) : s.live pid := by
  unfold live
  unfold vmmList at h
  cases hp : s.procs pid with
  | none => simp [hp] at h
  | some p => rfl

/-! ### Changing one process -/

variable {f : Proc → Proc}

theorem vmmList_modProc (h : ∀ p, (f p).vmmList = p.vmmList) : (s.modProc pid f).vmmList pid' = s.vmmList pid' := by
  unfold vmmList modProc
  by_cases hp : pid' = pid
  · subst hp
    cases s.procs pid' <;> simp [h]
  · simp [hp]

theorem live_modProc : (s.modProc pid f).live pid' ↔ s.live pid' := by
  unfold live modProc
  by_cases hp : pid' = pid
  · subst hp
    simp
  · simp [hp]

theorem entry_modProc (h : ∀ p, (f p).pPagedir = p.pPagedir) : (s.modProc pid f).entry pid' v = s.entry pid' v := by
  unfold entry modProc
  by_cases hp : pid' = pid
  · subst hp
    cases s.procs pid' <;> simp [h]
  · simp [hp]

theorem brkOf_modProc (h : ∀ p, (f p).pBrk = p.pBrk ∧ (f p).pStartBrk = p.pStartBrk) :
    (s.modProc pid f).brkOf pid' = s.brkOf pid' := by
  unfold brkOf modProc
  by_cases hp : pid' = pid
  · subst hp
    cases s.procs pid' <;> simp [h]
  · simp [hp]

theorem vmmList_setList {l : List Vmarea} (h : s.live pid) :
    (s.setList pid l).vmmList pid' = if pid' = pid then l else s.vmmList pid' := by
  obtain ⟨p,hp⟩ := isSome_iff_exists.mp h
  unfold setList vmmList modProc
  split
  next he =>
    subst he
    simp [hp]
  next he =>
    simp [he]

theorem vmmList_modArea {k : ℕ} {f : Vmarea → Vmarea} : (s.modArea pid k f).vmmList pid' =
      if pid' = pid then (s.vmmList pid).map fun a => if a.vmaId = k then f a else a
      else s.vmmList pid' := by
  unfold modArea
  by_cases h : s.live pid
  · exact vmmList_setList h
  · have hp : s.procs pid = none := by simpa [live] using h
    have hl : ∀ l, (s.setList pid l).vmmList pid' = s.vmmList pid' := by
      intro l
      unfold setList vmmList modProc
      by_cases he : pid' = pid
      · subst he
        simp [hp]
      · simp [he]
    rw [hl]
    split
    next he =>
      subst he
      simp [vmmList,hp]
    · rfl

theorem vmmList_unlinkArea {k : ℕ} : (s.unlinkArea pid k).vmmList pid' =
      if pid' = pid then (s.vmmList pid).filter fun a => a.vmaId ≠ k else s.vmmList pid' := by
  by_cases h : s.live pid
  · exact vmmList_setList h
  · have hp : s.procs pid = none := by simpa [live] using h
    unfold unlinkArea setList vmmList modProc
    by_cases he : pid' = pid
    · subst he
      simp [hp]
    · simp [he]

/-! ### Clearing page-table entries -/

/-- From `s` to `t` nothing happens to the processes but that entries are cleared. -/
structure Clears (s t : Memory D) : Prop where
  vmmList : ∀ pid, t.vmmList pid = s.vmmList pid
  live : ∀ pid, t.live pid ↔ s.live pid
  brkOf : ∀ pid, t.brkOf pid = s.brkOf pid
  entry : ∀ pid v, t.entry pid v = none ∨ t.entry pid v = s.entry pid v
  nextArea : t.nextArea = s.nextArea
  nextPid : t.nextPid = s.nextPid

theorem Clears.refl (s : Memory D) : Clears s s :=
  ⟨fun _ => rfl,fun _ => Iff.rfl,fun _ => rfl,fun _ _ => .inr rfl,rfl,rfl⟩

theorem Clears.trans (h : Clears s t) (h' : Clears t u) : Clears s u where
  vmmList pid := (h'.vmmList pid).trans (h.vmmList pid)
  live pid := (h'.live pid).trans (h.live pid)
  brkOf pid := (h'.brkOf pid).trans (h.brkOf pid)
  entry pid v := by
    rcases h'.entry pid v with he | he
    · exact .inl he
    · rw [he]
      exact h.entry pid v
  nextArea := h'.nextArea.trans h.nextArea
  nextPid := h'.nextPid.trans h.nextPid

/-- Objects and frames do not matter. -/
theorem Clears.of_procs (hp : t.procs = s.procs) (ha : t.nextArea = s.nextArea)
    (hn : t.nextPid = s.nextPid) : Clears s t := by
  refine ⟨fun pid => ?_,fun pid => ?_,fun pid => ?_,fun pid v => .inr ?_,ha,hn⟩
  · rw [Memory.vmmList,Memory.vmmList,hp]
  · rw [Memory.live,Memory.live,hp]
  · rw [Memory.brkOf,Memory.brkOf,hp]
  · rw [Memory.entry,Memory.entry,hp]

theorem clears_modObj (s : Memory D) (o : ℕ) (f : Mmobj → Mmobj) : Clears s (s.modObj o f) :=
  Clears.of_procs rfl rfl rfl

theorem clears_newObj (s : Memory D) (kind : ObjKind) : Clears s (s.newObj kind) :=
  Clears.of_procs rfl rfl rfl

theorem clears_newShadow (s : Memory D) (o b : ℕ) : Clears s (s.newShadow o b) :=
  Clears.of_procs rfl rfl rfl

theorem entry_ptUnmapRange {lo hi : ℕ} : (s.ptUnmapRange pid lo hi).entry pid' v =
      if pid' = pid ∧ lo ≤ v ∧ v < hi then none else s.entry pid' v := by
  unfold ptUnmapRange modProc entry
  by_cases hp : pid' = pid
  · subst hp
    cases s.procs pid' <;> simp
  · simp [hp]

theorem clears_ptUnmapRange (s : Memory D) (pid lo hi : ℕ) : Clears s (s.ptUnmapRange pid lo hi) where
  vmmList _ := vmmList_modProc fun _ => rfl
  live _ := live_modProc
  brkOf _ := brkOf_modProc fun _ => ⟨rfl,rfl⟩
  entry pid' v := by
    rw [entry_ptUnmapRange]
    split
    · exact .inl rfl
    · exact .inr rfl
  nextArea := rfl
  nextPid := rfl

variable {n : ℕ}

theorem removeFromPt_clears {link : ℕ × ℕ} (h : removeFromPt n s link = some t) : Clears s t := by
  obtain ⟨vma,_,h⟩ := bind_eq_some_iff.mp h
  split at h
  · cases h
    exact clears_ptUnmapRange s _ _ _
  · cases h
    exact Clears.refl _

theorem foldlM_removeFromPt_clears {links : List (ℕ × ℕ)}
    (h : links.foldlM (removeFromPt n) s = some t) : Clears s t := by
  induction links generalizing s with
  | nil =>
    cases h
    exact Clears.refl _
  | cons link links ih =>
    rw [List.foldlM_cons] at h
    obtain ⟨s1,h1,h⟩ := bind_eq_some_iff.mp h
    exact (removeFromPt_clears h1).trans (ih h)

theorem pframeRemoveFromPts_clears {pf : Pframe D} (h : pframeRemoveFromPts pf s = some t) : Clears s t := by
  obtain ⟨b,_,h⟩ := bind_eq_some_iff.mp h
  obtain ⟨ob,_,h⟩ := bind_eq_some_iff.mp h
  exact foldlM_removeFromPt_clears h

theorem pframeUncache_clears {f : ℕ} {pf : Pframe D} (h : pframeUncache f pf s = some t) : Clears s t := by
  unfold pframeUncache at h
  split at h
  · obtain ⟨s1,h1,rfl⟩ := map_eq_some_iff.mp h
    exact (pframeRemoveFromPts_clears h1).trans (Clears.of_procs rfl rfl rfl)
  · cases h

variable {o : ℕ}

theorem ref_clears (h : ref o s = some t) : Clears s t := by
  obtain ⟨ob,_,h⟩ := bind_eq_some_iff.mp h
  split at h
  · cases h
    exact Clears.of_procs rfl rfl rfl
  · cases h

theorem nextObj_ref (h : ref o s = some t) : t.nextObj = s.nextObj := by
  obtain ⟨ob,_,h⟩ := bind_eq_some_iff.mp h
  split at h
  · cases h
    rfl
  · cases h

/-! ### `put` -/

section Put

variable {put : ℕ → Memory D → Option (Memory D)} (hput : ∀ o s t, put o s = some t → Clears s t)

include hput

theorem pframeFree_clears {f : ℕ} (h : pframeFree put f s = some t) : Clears s t := by
  obtain ⟨pf,_,h⟩ := bind_eq_some_iff.mp h
  obtain ⟨s1,h1,h⟩ := bind_eq_some_iff.mp h
  exact (pframeUncache_clears h1).trans (hput _ _ _ h)

variable {o : ℕ}

theorem freePages_clears {unpin : Bool} (h : freePages put unpin o s = some t) : Clears s t := by
  refine listIterate_rel Clears.refl (fun _ _ _ => Clears.trans) (fun f s1 s2 h2 => ?_) h
  refine Clears.trans ?_ (pframeFree_clears hput h2)
  split
  · exact Clears.of_procs rfl rfl rfl
  · exact Clears.refl s1

variable {ob : Mmobj}

theorem anonPut_clears (h : anonPut put o ob s = some t) : Clears s t := by
  unfold anonPut at h
  split at h
  · split at h
    · obtain ⟨s1,h1,h⟩ := bind_eq_some_iff.mp h
      cases h
      exact (freePages_clears hput h1).trans (Clears.of_procs rfl rfl rfl)
    · cases h
      exact Clears.of_procs rfl rfl rfl
  · cases h

theorem shadowPut_clears (h : shadowPut put o ob s = some t) : Clears s t := by
  unfold shadowPut at h
  split at h
  · split at h
    · obtain ⟨s1,h1,h⟩ := bind_eq_some_iff.mp h
      obtain ⟨b,_,h⟩ := bind_eq_some_iff.mp h
      obtain ⟨s2,h2,h⟩ := bind_eq_some_iff.mp h
      obtain ⟨sh,_,h⟩ := bind_eq_some_iff.mp h
      obtain ⟨s3,h3,h⟩ := bind_eq_some_iff.mp h
      cases h
      exact (((freePages_clears hput h1).trans (hput _ _ _ h2)).trans (hput _ _ _ h3)).trans
        (Clears.of_procs rfl rfl rfl)
    · cases h
      exact Clears.of_procs rfl rfl rfl
  · cases h

omit hput in
theorem vputDrop_clears (h : vputDrop o s = some t) : Clears s t := by
  obtain ⟨ob,_,h⟩ := bind_eq_some_iff.mp h
  split at h
  · cases h
    exact Clears.of_procs rfl rfl rfl
  · split at h
    · cases h
      exact Clears.of_procs rfl rfl rfl
    · cases h

theorem vput_clears {linked : Bool} (h : vput linked put o ob s = some t) : Clears s t := by
  unfold vput at h
  split at h
  · split at h
    · obtain ⟨s1,h1,h⟩ := bind_eq_some_iff.mp h
      obtain ⟨ob',_,h⟩ := bind_eq_some_iff.mp h
      split at h
      · exact (freePages_clears hput h1).trans (vputDrop_clears h)
      · cases h
    · exact vputDrop_clears h
  · cases h

end Put

theorem putFuel_clears {linked : ℕ → Bool} (h : putFuel linked n o s = some t) : Clears s t := by
  induction n generalizing o s t with
  | zero => cases h
  | succ n ih =>
    obtain ⟨ob,_,h⟩ := bind_eq_some_iff.mp h
    have ih' : ∀ o s t, putFuel linked n o s = some t → Clears s t := fun _ _ _ => ih
    split at h
    · exact anonPut_clears ih' h
    · exact shadowPut_clears ih' h
    · exact vput_clears ih' h

theorem put_clears {env : Env D} (h : put env o s = some t) : Clears s t :=
  putFuel_clears h

end Memory

end Csci402.Vm
