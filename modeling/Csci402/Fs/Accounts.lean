import Csci402.Fs.PathCalls

/-! Accounts of references. A file counts the descriptors that hold it, a vnode the files
and the working directories; in the middle of a call both counts are off by what the call
holds or has already given up, and `Account` says by how much. -/

namespace Csci402.Fs

open Lib Lib.Prog Function Option

variable {F E : Type} {ops : Ops F E} {base ef ev : ℕ → ℤ} {s0 s t : Vfs F} {f v pid fd : ℕ} {file : File}

/-! ### What holds references -/

/-- The files in the descriptor table of a process. -/
def slots (ops : Ops F E) (x : Option Process) : ℕ → ℤ :=
  ∑ fd ∈ Finset.range ops.nfiles, tally (x.bind fun p => p.pFiles fd)

def slotTally (ops : Ops F E) (s : Vfs F) : ℕ → ℤ := ∑ pid ∈ Finset.range s.nextPid, slots ops (s.procs pid)

def fileTally (s : Vfs F) : ℕ → ℤ := ∑ f ∈ Finset.range s.nextFile, tally ((s.files f).bind File.fVnode)

def cwdTally (s : Vfs F) : ℕ → ℤ := ∑ pid ∈ Finset.range s.nextPid, tally ((s.procs pid).map Process.pCwd)

/-- The count in a file; a file that is not there counts nothing. -/
def refcount (x : Option File) : ℤ := x.elim 0 fun file => file.fRefcount

/-- Files count their descriptors and `ef`, vnodes their files, working directories and
`ev`, over the references `base` that they had from the beginning. -/
structure Account (ops : Ops F E) (base : ℕ → ℤ) (s : Vfs F) (ef ev : ℕ → ℤ) : Prop where
  freshFile : ∀ f, s.nextFile ≤ f → s.files f = none
  freshPid : ∀ pid, s.nextPid ≤ pid → s.procs pid = none
  files : ∀ f, refcount (s.files f) = slotTally ops s f+ef f
  vnodes : ∀ v, (s.refs v : ℤ) = base v+fileTally s v+cwdTally s v+ev v

namespace Account

variable (h : Account ops base s ef ev)

include h

theorem file_lt (hf : s.files f = some file) : f < s.nextFile := by
  by_contra hlt
  rw [h.freshFile f (Nat.not_lt.mp hlt)] at hf
  cases hf

theorem pid_lt {p : Process} (hp : s.procs pid = some p) : pid < s.nextPid := by
  by_contra hlt
  rw [h.freshPid pid (Nat.not_lt.mp hlt)] at hp
  cases hp

theorem of_eq {ef' ev' : ℕ → ℤ} (hf : ef = ef') (hv : ev = ev') : Account ops base s ef' ev' := by
  subst hf hv
  exact h

theorem setFile (hf : f < s.nextFile) (x : Option File) : Account ops base { s with files := update s.files f x }
      (ef+Pi.single f (refcount x - refcount (s.files f)))
      (ev+tally ((s.files f).bind File.fVnode) - tally (x.bind File.fVnode)) where
  freshFile g hg := by
    have hne : g ≠ f := fun he => by subst he; exact absurd hf (Nat.not_lt.mpr hg)
    exact (update_of_ne hne _ _).trans (h.freshFile g hg)
  freshPid := h.freshPid
  files g := by
    have hg := h.files g
    change refcount (update s.files f x g) = slotTally ops s g+_
    rw [Pi.add_apply]
    by_cases hne : g = f
    · subst hne
      rw [update_self,Pi.single_eq_same]
      omega
    · rw [update_of_ne hne,Pi.single_eq_of_ne hne,hg,add_zero]
  vnodes v := by
    have hsum : fileTally { s with files := update s.files f x } = fileTally s +
        (tally (x.bind File.fVnode) - tally ((s.files f).bind File.fVnode)) :=
      sum_range_update (fun y : Option File => tally (y.bind File.fVnode)) x hf
    have hv := h.vnodes v
    rw [hsum]
    change (s.refs v : ℤ) = _+_+cwdTally s v+_
    simp only [Pi.add_apply,Pi.sub_apply]
    omega

theorem setProc (hp : pid < s.nextPid) (x : Option Process) :
    Account ops base { s with procs := update s.procs pid x }
      (ef+slots ops (s.procs pid) - slots ops x)
      (ev+tally ((s.procs pid).map Process.pCwd) - tally (x.map Process.pCwd)) where
  freshFile := h.freshFile
  freshPid q hq := by
    have hne : q ≠ pid := fun he => by subst he; exact absurd hp (Nat.not_lt.mpr hq)
    exact (update_of_ne hne _ _).trans (h.freshPid q hq)
  files g := by
    have hsum : slotTally ops { s with procs := update s.procs pid x } = slotTally ops s +
        (slots ops x - slots ops (s.procs pid)) := sum_range_update (slots ops) x hp
    have hg := h.files g
    rw [hsum]
    simp only [Pi.add_apply,Pi.sub_apply]
    omega
  vnodes v := by
    have hsum : cwdTally { s with procs := update s.procs pid x } = cwdTally s +
        (tally (x.map Process.pCwd) - tally ((s.procs pid).map Process.pCwd)) :=
      sum_range_update (fun y : Option Process => tally (y.map Process.pCwd)) x hp
    have hv := h.vnodes v
    rw [hsum]
    change (s.refs v : ℤ) = _+fileTally s v+_+_
    simp only [Pi.add_apply,Pi.sub_apply]
    omega

theorem newFile {new : File} (hv : new.fVnode = none) :
    Account ops base { s with files := update s.files s.nextFile (some new), nextFile := s.nextFile+1 }
      (ef+Pi.single s.nextFile (new.fRefcount : ℤ)) ev where
  freshFile g hg := by
    change s.nextFile+1 ≤ g at hg
    exact (update_of_ne (by omega) _ _).trans (h.freshFile g (by omega))
  freshPid := h.freshPid
  files g := by
    have hg := h.files g
    change refcount (update s.files s.nextFile (some new) g) = slotTally ops s g+_
    rw [Pi.add_apply]
    by_cases hne : g = s.nextFile
    · subst hne
      rw [h.freshFile _ le_rfl] at hg
      rw [update_self,Pi.single_eq_same]
      simp only [refcount,Option.elim] at hg ⊢
      omega
    · rw [update_of_ne hne,Pi.single_eq_of_ne hne,hg,add_zero]
  vnodes v := by
    have hsum : fileTally { s with
        files := update s.files s.nextFile (some new), nextFile := s.nextFile+1 } = fileTally s := by
      unfold fileTally
      dsimp only
      rw [Finset.sum_range_succ,update_self,bind_some,hv,tally_none,add_zero]
      refine Finset.sum_congr rfl fun i hi => ?_
      rw [update_of_ne (Nat.ne_of_lt (Finset.mem_range.mp hi))]
    rw [hsum]
    exact h.vnodes v

theorem newProc (new : Process) :
    Account ops base { s with procs := update s.procs s.nextPid (some new), nextPid := s.nextPid+1 }
      (ef - slots ops (some new)) (ev - Pi.single new.pCwd 1) := by
  -- the old processes are summed as before
  have hold : ∀ c : Option Process → ℕ → ℤ, ∑ pid ∈ Finset.range (s.nextPid+1),
      c (update s.procs s.nextPid (some new) pid) = ∑ pid ∈ Finset.range s.nextPid, c (s.procs pid)+c (some new) := by
    intro c
    rw [Finset.sum_range_succ,update_self]
    congr 1
    refine Finset.sum_congr rfl fun i hi => ?_
    rw [update_of_ne (Nat.ne_of_lt (Finset.mem_range.mp hi))]
  refine ⟨h.freshFile,fun q hq => ?_,fun g => ?_,fun v => ?_⟩
  · change s.nextPid+1 ≤ q at hq
    exact (update_of_ne (by omega) _ _).trans (h.freshPid q (by omega))
  · have hg := h.files g
    unfold slotTally at hg ⊢
    dsimp only
    rw [hold]
    simp only [Pi.add_apply,Pi.sub_apply]
    omega
  · have hv := h.vnodes v
    change (s.refs v : ℤ) = _+fileTally s v+_+_
    unfold cwdTally at hv ⊢
    dsimp only
    rw [hold fun y => tally (y.map Process.pCwd)]
    simp only [Pi.add_apply,Pi.sub_apply,map_some,tally_some]
    omega

theorem setRefs {refs : ℕ → ℕ} {d : ℕ → ℤ} (hr : ∀ x, (refs x : ℤ) = s.refs x+d x) :
    Account ops base { s with refs := refs } ef (ev+d) where
  freshFile := h.freshFile
  freshPid := h.freshPid
  files := h.files
  vnodes v := by
    have hv := h.vnodes v
    change (refs v : ℤ) = _+fileTally s v+cwdTally s v+_
    rw [hr,Pi.add_apply]
    omega

/-- Path resolution adds what it holds. -/
theorem carries {l : List ℕ} (hc : Carries s t l) : Account ops base t ef (ev+tallyList some l) := by
  have hslot : slotTally ops t = slotTally ops s := by rw [slotTally,slotTally,hc.procs,hc.next.2]
  have hfile : fileTally t = fileTally s := by rw [fileTally,fileTally,hc.files,hc.next.1]
  have hcwd : cwdTally t = cwdTally s := by rw [cwdTally,cwdTally,hc.procs,hc.next.2]
  refine ⟨fun g hg => ?_,fun q hq => ?_,fun g => ?_,fun v => ?_⟩
  · rw [hc.files]
    exact h.freshFile g (hc.next.1 ▸ hg)
  · rw [hc.procs]
    exact h.freshPid q (hc.next.2 ▸ hq)
  · rw [hc.files,hslot]
    exact h.files g
  · have hv := h.vnodes v
    rw [hc.refs,hfile,hcwd,Pi.add_apply]
    omega

end Account

/-! ### Files stay what they are -/

/-- Mode and vnode, once there is one, are the same. -/
def Like (file file0 : File) : Prop := file.fMode = file0.fMode ∧ (file0.fVnode ≠ none → file.fVnode = file0.fVnode)

theorem Like.trans {a b c : File} (h : Like a b) (h' : Like b c) : Like a c := by
  refine ⟨h.1.trans h'.1,fun hc => ?_⟩
  have hb := h'.2 hc
  rw [h.2 (by rw [hb]; exact hc),hb]

/-- A file that was there at the beginning is still the same file, or it is gone. -/
structure Stable (s0 s : Vfs F) : Prop where
  next : s0.nextFile ≤ s.nextFile
  like : ∀ f < s0.nextFile, ∀ file, s.files f = some file → ∃ file0, s0.files f = some file0 ∧ Like file file0

theorem Stable.refl (s : Vfs F) : Stable s s := ⟨le_rfl,fun _ _ file hf => ⟨file,hf,rfl,fun _ => rfl⟩⟩

theorem Stable.trans {u : Vfs F} (h : Stable s t) (h' : Stable t u) : Stable s u where
  next := h.next.trans h'.next
  like f hf file hu := by
    obtain ⟨file1,h1,hl1⟩ := h'.like f (Nat.lt_of_lt_of_le hf h.next) file hu
    obtain ⟨file0,h0,hl0⟩ := h.like f hf file1 h1
    exact ⟨file0,h0,hl1.trans hl0⟩

theorem Stable.of_files (h : Stable s0 s) (hf : t.files = s.files) (hn : t.nextFile = s.nextFile) : Stable s0 t :=
  ⟨hn ▸ h.next,fun f hlt file hfile => h.like f hlt file (hf ▸ hfile)⟩

theorem Stable.setFile (h : Stable s0 s) {x : Option File}
    (hx : f < s0.nextFile → ∀ file, x = some file → ∃ file', s.files f = some file' ∧ Like file file') :
    Stable s0 { s with files := update s.files f x } where
  next := h.next
  like g hg file hfile := by
    dsimp only at hfile
    by_cases hne : g = f
    · subst hne
      rw [update_self] at hfile
      obtain ⟨file',hf',hl⟩ := hx hg file hfile
      obtain ⟨file0,h0,hl0⟩ := h.like g hg file' hf'
      exact ⟨file0,h0,hl.trans hl0⟩
    · rw [update_of_ne hne] at hfile
      exact h.like g hg file hfile

/-! ### In the middle of a call -/

structure Mid (ops : Ops F E) (base : ℕ → ℤ) (s0 s : Vfs F) (ef ev : ℕ → ℤ) : Prop where
  account : Account ops base s ef ev
  stable : Stable s0 s

namespace Mid

variable (h : Mid ops base s0 s ef ev)

include h

theorem of_eq {ef' ev' : ℕ → ℤ} (hf : ef = ef') (hv : ev = ev') : Mid ops base s0 s ef' ev' :=
  ⟨h.account.of_eq hf hv,h.stable⟩

theorem carries {l : List ℕ} (hc : Carries s t l) : Mid ops base s0 t ef (ev+tallyList some l) :=
  ⟨h.account.carries hc,h.stable.of_files hc.files hc.next.1⟩

theorem withFs (x : F) : Mid ops base s0 { s with fs := x } ef ev :=
  ⟨⟨h.account.freshFile,h.account.freshPid,h.account.files,h.account.vnodes⟩,h.stable.next,h.stable.like⟩

theorem runs_modFile {g : File → File}
    (hg : ∀ file, (g file).fRefcount = file.fRefcount ∧ (g file).fVnode = file.fVnode ∧ (g file).fMode = file.fMode) :
    Runs (fun _ t => Mid ops base s0 t ef ev ∧ t.procs = s.procs) (fun _ => True) (modFile f g) s := by
  refine ⟨?_,rfl⟩
  dsimp only
  cases hf : s.files f with
  | none =>
    rw [map_none,← hf,update_eq_self]
    exact h
  | some file =>
    obtain ⟨hr,hv,hm⟩ := hg file
    refine ⟨(h.account.setFile (h.account.file_lt hf) _).of_eq ?_ ?_,h.stable.setFile fun _ x hx => ?_⟩
    · simp [refcount,hf,hr]
    · simp [hf,hv]
    · rw [map_some] at hx
      cases hx
      exact ⟨file,hf,hm,fun _ => hv⟩

/-- A file that is new in this call may still be given its mode and its vnode. -/
theorem runs_modNew {g : File → File} (hnew : s0.nextFile ≤ f) (hf : s.files f = some file)
    (hr : (g file).fRefcount = file.fRefcount) :
    Runs (fun _ t => Mid ops base s0 t ef (ev+tally file.fVnode - tally (g file).fVnode) ∧ t.procs = s.procs ∧
      t.trace = s.trace ∧ t.files f = some (g file)) (fun _ => True) (modFile f g) s := by
  refine ⟨⟨(h.account.setFile (h.account.file_lt hf) _).of_eq ?_ ?_,h.stable.setFile fun hlt => ?_⟩,rfl,rfl,?_⟩
  · simp [refcount,hf,hr]
  · simp [hf]
  · exact absurd hlt (Nat.not_lt.mpr hnew)
  · dsimp only
    rw [update_self,hf,map_some]

theorem runs_fref : Runs (fun _ t => Mid ops base s0 t (ef+Pi.single f 1) ev ∧ t.procs = s.procs) (fun _ => True)
    (fref f) s := by
  unfold fref
  rw [runs_bind,runs_get,runs_bind]
  refine runs_of_need fun file hf => ⟨?_,rfl⟩
  refine ⟨(h.account.setFile (h.account.file_lt hf) _).of_eq ?_ ?_,h.stable.setFile fun _ x hx => ?_⟩
  · simp [refcount,hf]
  · simp [hf]
  · rw [hf] at hx
    cases hx
    exact ⟨file,hf,rfl,fun _ => rfl⟩

theorem runs_dropRef : Runs (fun _ t => Mid ops base s0 t ef (ev - Pi.single v 1) ∧ t.procs = s.procs ∧ t.files = s.files)
    (fun _ => True) (dropRef v) s := by
  unfold dropRef
  rw [runs_bind,runs_get,runs_bind]
  refine runs_of_assert fun hpos => ⟨⟨?_,h.stable.of_files rfl rfl⟩,rfl,rfl⟩
  rw [sub_eq_add_neg]
  refine h.account.setRefs fun x => ?_
  by_cases hx : x = v
  · subst hx
    rw [update_self,Pi.neg_apply,Pi.single_eq_same]
    omega
  · simp [hx]

theorem runs_keepRef : Runs (fun _ t => Mid ops base s0 t ef (ev+Pi.single v 1) ∧ t.procs = s.procs ∧
    t.nextPid = s.nextPid) (fun _ => True) (keepRef v) s := by
  unfold keepRef addRef
  rw [runs_bind,runs_get,runs_bind]
  refine runs_of_assert fun _ => ⟨⟨?_,h.stable.of_files rfl rfl⟩,rfl,rfl⟩
  refine h.account.setRefs fun x => ?_
  by_cases hx : x = v
  · subst hx
    rw [update_self,Pi.single_eq_same]
    omega
  · simp [hx]

/-- The last `fput` of a file puts its vnode. -/
theorem runs_fput : Runs (fun _ t => Mid ops base s0 t (ef - Pi.single f 1) ev ∧ t.procs = s.procs) (fun _ => True)
    (fput f) s := by
  unfold fput
  rw [runs_bind,runs_get,runs_bind]
  refine runs_of_need fun file hf => ?_
  rw [runs_bind]
  refine runs_of_assert fun hpos => ?_
  have hlt := h.account.file_lt hf
  split
  next hone =>
    rw [runs_bind,runs_modify]
    have hgone : Mid ops base s0 { s with files := update s.files f none } (ef - Pi.single f 1)
        (ev+tally file.fVnode) := by
      refine ⟨(h.account.setFile hlt none).of_eq ?_ ?_,h.stable.setFile fun _ x hx => by cases hx⟩
      · simp [refcount,hf,hone,sub_eq_add_neg,Pi.single_neg]
      · simp [hf]
    cases hv : file.fVnode with
    | none =>
      rw [hv,tally_none,add_zero] at hgone
      exact ⟨hgone,rfl⟩
    | some v =>
      refine hgone.runs_dropRef.mono ?_ fun _ ht => ht
      rintro - t ⟨ht,hp,-⟩
      exact ⟨ht.of_eq rfl (by rw [hv,tally_some,add_sub_cancel_right]),hp⟩
  · refine ⟨⟨(h.account.setFile hlt _).of_eq ?_ ?_,h.stable.setFile fun _ x hx => ?_⟩,rfl⟩
    · have hcast : ((file.fRefcount - 1 : ℕ) : ℤ) - file.fRefcount = -1 := by omega
      simp [refcount,hf,hcast,sub_eq_add_neg,Pi.single_neg]
    · simp [hf]
    · rw [hf] at hx
      cases hx
      exact ⟨file,hf,rfl,fun _ => rfl⟩

theorem runs_setSlot {p : Process} (hp : s.procs pid = some p) (hfd : fd < ops.nfiles) (x : Option ℕ) :
    Runs (fun _ t => Mid ops base s0 t (ef+tally (p.pFiles fd) - tally x) ev ∧ t.files = s.files ∧ t.trace = s.trace ∧
      t.procs = update s.procs pid (some { p with pFiles := update p.pFiles fd x }))
      (fun _ => True) (setSlot pid fd x) s := by
  have hset : slots ops (some { p with pFiles := update p.pFiles fd x }) = slots ops (some p) +
      (tally x - tally (p.pFiles fd)) := sum_range_update tally x hfd
  refine ⟨⟨?_,h.stable.of_files rfl rfl⟩,rfl,rfl,?_⟩
  · dsimp only
    rw [hp,map_some]
    refine (h.account.setProc (h.account.pid_lt hp) _).of_eq ?_ ?_
    · rw [hp,hset]
      abel
    · rw [hp,map_some,map_some,add_sub_cancel_right]
  · dsimp only
    rw [hp,map_some]

end Mid

end Csci402.Fs
