import Csci402.Fs.Balance

/-! What `do_read`, `do_write`, `do_lseek` and `do_getdent` do on an open descriptor. -/

namespace Csci402.Fs

open Lib Lib.Prog Function

variable {F E : Type} {ops : Ops F E} {s : Vfs F} {f v pid nbytes : ℕ} {fd : ℤ} {file : File}

/-- The state with another file under a number. -/
def withFile (s : Vfs F) (f : ℕ) (file : File) : Vfs F := { s with files := update s.files f (some file) }

@[simp] theorem withFile_self (s : Vfs F) (f : ℕ) (file : File) : (withFile s f file).files f = some file :=
  update_self _ _ _

@[simp] theorem withFile_fs (s : Vfs F) (f : ℕ) (file : File) : (withFile s f file).fs = s.fs := rfl

@[simp] theorem withFile_withFile (s : Vfs F) (f : ℕ) (file file' : File) :
    withFile (withFile s f file) f file' = withFile s f file' := by
  unfold withFile
  dsimp only
  rw [update_idem]

theorem withFile_of_ne {g : ℕ} (h : g ≠ f) : (withFile s f file).files g = s.files g :=
  update_of_ne h _ _

theorem withFile_eq_self (h : s.files f = some file) : withFile s f file = s := by
  unfold withFile
  rw [← h,update_eq_self]

/-- The descriptor holds a file with a vnode. -/
structure IsOpen (ops : Ops F E) (s : Vfs F) (pid : ℕ) (fd : ℤ) (f : ℕ) (file : File) (v : ℕ) : Prop where
  holds : Holds ops s pid fd f
  isFile : s.files f = some file
  vnode : file.fVnode = some v
  refs : 1 ≤ file.fRefcount

/-- The file while a call has it from `fget`. -/
def got (file : File) : File := { file with fRefcount := file.fRefcount+1 }

section Rules

variable {X : Vfs F → Prop}

theorem runs_slot_holds {α : Type} {Q : α → Vfs F → Prop} {m : Option ℕ → Prog (Vfs F) α} (h : Holds ops s pid fd f)
    (k : Runs Q X (m (some f)) s) : Runs Q X (slot ops pid fd >>= m) s := by
  obtain ⟨h0,hlt,p,hp,hf⟩ := h
  unfold slot
  rw [runs_bind,runs_bind,runs_get,runs_bind,hp,runs_need_some,if_neg (by omega),hf]
  exact k

/-- The descriptor of a live process that holds nothing. -/
theorem runs_slot_none {Q : Option ℕ → Vfs F → Prop} {p : Process} (hp : s.procs pid = some p) (h : ∀ f, ¬ Holds ops s pid fd f)
    (k : Q none s) : Runs Q X (slot ops pid fd) s := by
  have hnone : (if fd < 0 ∨ ops.nfiles ≤ fd then none else p.pFiles fd.toNat) = none := by
    split
    · rfl
    next hrange =>
      cases hf : p.pFiles fd.toNat with
      | none => rfl
      | some f => exact absurd ⟨by omega,by omega,p,hp,hf⟩ (h f)
  unfold slot
  rw [runs_bind,runs_get,runs_bind,hp,runs_need_some,hnone]
  exact k

theorem runs_fref_file {Q : Unit → Vfs F → Prop} (h : s.files f = some file) (k : Q () (withFile s f (got file))) :
    Runs Q X (fref f) s := by
  unfold fref modFile
  rw [runs_bind,runs_get,runs_bind,h,runs_need_some,runs_modify,h]
  exact k

theorem runs_modFile_file {Q : Unit → Vfs F → Prop} {g : File → File} (h : s.files f = some file)
    (k : Q () (withFile s f (g file))) : Runs Q X (modFile f g) s := by
  unfold modFile
  rw [runs_modify,h]
  exact k

theorem runs_openFile_file {Q : File × ℕ → Vfs F → Prop} (h : s.files f = some file) (hv : file.fVnode = some v)
    (k : Q (file, v) s) : Runs Q X (openFile f) s := by
  unfold openFile
  rw [runs_bind,runs_get,runs_bind,h,runs_need_some,runs_bind,hv,runs_need_some]
  exact k

/-- The `fput` at the end of a call does not free the file. -/
theorem runs_fput_file {α : Type} {a : α} {Q : α → Vfs F → Prop} (h : s.files f = some file) (hr : 2 ≤ file.fRefcount)
    (k : Q a (withFile s f { file with fRefcount := file.fRefcount - 1 })) : Runs Q X (do fput f; return a) s := by
  unfold fput
  rw [runs_bind,runs_bind,runs_get,runs_bind,h,runs_need_some,runs_bind,runs_assert,if_pos (by omega),if_neg (by omega)]
  exact runs_modFile_file h k

/-- The end of a call that has moved the position. -/
theorem runs_fput_got {α : Type} {a : α} {Q : α → Vfs F → Prop} (h : IsOpen ops s pid fd f file v) (t : Vfs F) (pos : ℤ)
    (k : Q a (withFile t f { file with fPos := pos })) :
    Runs Q X (do fput f; return a) (withFile t f { got file with fPos := pos }) := by
  refine runs_fput_file (withFile_self _ _ _) (Nat.succ_le_succ h.refs) ?_
  rw [withFile_withFile]
  exact k

/-- The end of a call that is refused. -/
theorem runs_fput_back {α : Type} {a : α} {Q : α → Vfs F → Prop} (h : IsOpen ops s pid fd f file v) (k : Q a s) :
    Runs Q X (do fput f; return a) (withFile s f (got file)) := by
  refine runs_fput_got h s file.fPos ?_
  rwa [show ({ file with fPos := file.fPos } : File) = file from rfl,withFile_eq_self h.isFile]

/-- The beginning of each of the calls. -/
theorem runs_fget_open {α : Type} {Q : α → Vfs F → Prop} {m : File × ℕ → Prog (Vfs F) α} (h : IsOpen ops s pid fd f file v)
    (k : Runs Q X (m (got file, v)) (withFile s f (got file))) : Runs Q X (do fref f; let x ← openFile f; m x) s := by
  rw [runs_bind]
  refine runs_fref_file h.isFile ?_
  rw [runs_bind]
  exact runs_openFile_file (withFile_self _ _ _) h.vnode k

end Rules

/-! ### `do_read` -/

theorem doRead_null (h : IsOpen ops s pid fd f file v) (hd : (ops.type v).NoTransfer) :
    doRead ops pid fd nbytes s = (some (.error .eisdir), s) := by
  refine runs_eq ?_
  unfold doRead
  refine runs_slot_holds h.holds (runs_fget_open h ?_)
  dsimp only
  rw [if_pos hd]
  exact runs_fput_back h ⟨rfl,rfl⟩

theorem doRead_mode (h : IsOpen ops s pid fd f file v) (hd : ¬ (ops.type v).NoTransfer) (hm : file.fMode.read = false) :
    doRead ops pid fd nbytes s = (some (.error .ebadf), s) := by
  refine runs_eq ?_
  unfold doRead
  refine runs_slot_holds h.holds (runs_fget_open h ?_)
  dsimp only
  rw [if_neg hd,if_pos (by simp [got,hm])]
  exact runs_fput_back h ⟨rfl,rfl⟩

/-- The position after `n` more bytes. -/
def File.advance (file : File) (n : ℤ) : File := { file with fPos := int32 (file.fPos+n) }

section Reads

variable {fs : F} {r : ℤ} (h : IsOpen ops s pid fd f file v) (hd : ¬ (ops.type v).NoTransfer) (hm : file.fMode.read = true)
  (hr : ops.read s.fs v file.fPos nbytes = (fs, r))

include h hd hm hr

theorem doRead_fails (hneg : r < 0) : doRead ops pid fd nbytes s = (some (.ofInt r), { s with fs := fs }) := by
  refine runs_eq ?_
  unfold doRead
  refine runs_slot_holds h.holds (runs_fget_open h ?_)
  dsimp only
  rw [if_neg hd,if_neg (show ¬ ¬ (got file).fMode.read = true from not_not.mpr hm),runs_bind,runs_get]
  change Runs _ _ (do
    modify fun t : Vfs F => { t with fs := (ops.read s.fs v file.fPos nbytes).1 }
    if (ops.read s.fs v file.fPos nbytes).2 < 0 then do
      fput f
      return Ret.ofInt (ops.read s.fs v file.fPos nbytes).2
    else _) _
  rw [hr,runs_bind,runs_modify,if_pos hneg]
  refine runs_fput_got h { s with fs := fs } file.fPos ⟨rfl,?_⟩
  exact withFile_eq_self h.isFile

theorem doRead_moves (hpos : 0 ≤ r) :
    doRead ops pid fd nbytes s = (some (.ok r), withFile { s with fs := fs } f (file.advance r)) := by
  refine runs_eq ?_
  unfold doRead
  refine runs_slot_holds h.holds (runs_fget_open h ?_)
  dsimp only
  rw [if_neg hd,if_neg (show ¬ ¬ (got file).fMode.read = true from not_not.mpr hm),runs_bind,runs_get]
  change Runs _ _ (do
    modify fun t : Vfs F => { t with fs := (ops.read s.fs v file.fPos nbytes).1 }
    if (ops.read s.fs v file.fPos nbytes).2 < 0 then _ else do
      modFile f fun file' => { file' with fPos := int32 (file'.fPos+(ops.read s.fs v file.fPos nbytes).2) }
      fput f
      return Ret.ofInt (ops.read s.fs v file.fPos nbytes).2) _
  rw [hr,runs_bind,runs_modify,if_neg (Int.not_lt.mpr hpos),runs_bind]
  refine runs_modFile_file (withFile_self _ _ _) (runs_fput_got h _ _ ⟨?_,?_⟩)
  · rw [Ret.ofInt,if_neg (Int.not_lt.mpr hpos)]
  · exact withFile_withFile { s with fs := fs } f _ _

end Reads

/-! ### `do_lseek` -/

theorem doLseek_open {offset : ℤ} {whence : Whence} (h : IsOpen ops s pid fd f file v) :
    doLseek ops pid fd offset whence s = match seekTo file.fPos (ops.vnLen s.fs v) offset whence with
      | none => (some (.error .einval), s)
      | some pos => (some (.ok pos), withFile s f { file with fPos := pos }) := by
  have hrun : Runs (fun r t => (some r, t) = match seekTo file.fPos (ops.vnLen s.fs v) offset whence with
      | none => (some (.error .einval), s)
      | some pos => (some (.ok pos), withFile s f { file with fPos := pos })) (fun _ => False)
      (doLseek ops pid fd offset whence) s := by
    unfold doLseek
    refine runs_slot_holds h.holds (runs_fget_open h ?_)
    dsimp only
    rw [runs_bind,runs_get]
    change Runs _ _ (match seekTo file.fPos (ops.vnLen s.fs v) offset whence with | none => _ | some pos => _) _
    cases seekTo file.fPos (ops.vnLen s.fs v) offset whence with
    | none =>
      exact runs_fput_back h rfl
    | some pos =>
      dsimp only
      rw [runs_bind]
      refine runs_modFile_file (withFile_self _ _ _) (runs_fput_got h _ pos ?_)
      rw [withFile_withFile]
  obtain ⟨r,t,hm,heq⟩ := hrun.returns
  rw [hm,heq]

/-! ### `do_write` -/

theorem doWrite_mode (h : IsOpen ops s pid fd f file v) (hm : ¬ (file.fMode.write ∨ file.fMode.append)) :
    doWrite ops pid fd nbytes s = (some (.error .ebadf), s) := by
  refine runs_eq ?_
  unfold doWrite
  refine runs_slot_holds h.holds (runs_fget_open h ?_)
  dsimp only
  rw [if_pos (show ¬ ((got file).fMode.write = true ∨ (got file).fMode.append = true) from hm)]
  exact runs_fput_back h ⟨rfl,rfl⟩

/-- Where `do_write` writes: in append mode at the end of the file, unless the seek fails. -/
def writePos (ops : Ops F E) (f : F) (file : File) (v : ℕ) : ℤ :=
  if file.fMode.append then (seekTo file.fPos (ops.vnLen f v) 0 .fromEnd).getD file.fPos else file.fPos

theorem runs_seekToEnd {Q : Ret → Vfs F → Prop} {X : Vfs F → Prop} (h : IsOpen ops s pid fd f file v)
    (k : ∀ r, Q r (withFile s f { file with fPos := writePos ops s.fs file v })) : Runs Q X (seekToEnd ops pid fd file) s := by
  unfold seekToEnd
  split
  next ha =>
    unfold Runs
    rw [doLseek_open h]
    simp only [writePos,if_pos ha] at k
    cases hseek : seekTo file.fPos (ops.vnLen s.fs v) 0 .fromEnd with
    | none =>
      have hk := k (.error .einval)
      rw [hseek,Option.getD_none,withFile_eq_self h.isFile] at hk
      exact hk
    | some pos =>
      have hk := k (.ok pos)
      rw [hseek,Option.getD_some] at hk
      exact hk
  next ha =>
    have hk := k (.ok 0)
    rw [writePos,if_neg ha,withFile_eq_self h.isFile] at hk
    exact hk

/-- The assertion of `do_write`, for a write at `pos` that has returned `r`. -/
def WriteAsserts (ops : Ops F E) (f : F) (v : ℕ) (pos : ℤ) : Prop :=
  ops.type v = .chr ∨ ops.type v = .blk ∨ (ops.type v = .reg ∧ pos ≤ ops.vnLen f v)

instance (f : F) (pos : ℤ) : Decidable (WriteAsserts ops f v pos) := inferInstanceAs (Decidable (_ ∨ _ ∨ _ ∧ _))

theorem runs_doWrite {Q : Ret → Vfs F → Prop} {X : Vfs F → Prop} (h : IsOpen ops s pid fd f file v)
    (hm : file.fMode.write ∨ file.fMode.append) (hnull : (ops.type v).NoTransfer → ∀ t, X t)
    (k : ∀ r fs, ops.write s.fs v (writePos ops s.fs file v) nbytes = (fs, r) →
      if WriteAsserts ops fs v (int32 (writePos ops s.fs file v+r)) then
        Q (.ofInt r) (withFile { s with fs := fs } f { file with fPos := int32 (writePos ops s.fs file v+r) })
      else ∀ t, X t) : Runs Q X (doWrite ops pid fd nbytes) s := by
  unfold doWrite
  refine runs_slot_holds h.holds (runs_fget_open h ?_)
  dsimp only
  rw [if_neg (not_not.mpr (show (got file).fMode.write = true ∨ (got file).fMode.append = true from hm)),runs_bind]
  have hopen : IsOpen ops (withFile s f (got file)) pid fd f (got file) v :=
    ⟨h.holds,withFile_self _ _ _,h.vnode,Nat.succ_pos _⟩
  refine runs_seekToEnd hopen fun _ => ?_
  rw [withFile_withFile,runs_bind]
  refine runs_openFile_file (withFile_self _ _ _) h.vnode ?_
  rw [runs_bind,runs_assert]
  by_cases hd : (ops.type v).NoTransfer
  · rw [if_neg (not_not.mpr hd)]
    exact hnull hd _
  rw [if_pos hd,runs_bind,runs_get,runs_bind,runs_modify,runs_bind]
  change Runs _ _ _ { withFile s f { got file with fPos := writePos ops s.fs file v } with
    fs := (ops.write s.fs v (writePos ops s.fs file v) nbytes).1 }
  refine runs_modFile_file (withFile_self _ _ _) ?_
  have hk := k _ _ rfl
  rw [runs_bind,runs_assert]
  change if WriteAsserts ops (ops.write s.fs v (writePos ops s.fs file v) nbytes).1 v
    (int32 (writePos ops s.fs file v+(ops.write s.fs v (writePos ops s.fs file v) nbytes).2)) then _ else _
  split
  next ha =>
    rw [if_pos ha] at hk
    refine runs_fput_got h _ _ ?_
    exact (withFile_withFile { s with fs := (ops.write s.fs v (writePos ops s.fs file v) nbytes).1 } f _ _).symm ▸ hk
  next ha =>
    rw [if_neg ha] at hk
    exact hk _

/-! ### `do_getdent` -/

theorem doGetdent_notdir (h : IsOpen ops s pid fd f file v) (hd : ops.type v ≠ .dir) :
    doGetdent ops pid fd s = (some (.error .enotdir, none), s) := by
  refine runs_eq ?_
  unfold doGetdent
  refine runs_slot_holds h.holds (runs_fget_open h ?_)
  dsimp only
  rw [if_pos hd]
  exact runs_fput_back h ⟨rfl,rfl⟩

theorem doGetdent_dir {fs : F} {r : ℤ} {dirent : E} (h : IsOpen ops s pid fd f file v) (hd : ops.type v = .dir)
    (hr : ops.readdir s.fs v file.fPos = (fs, r, dirent)) :
    doGetdent ops pid fd s = (some (.ok (if r = 0 then 0 else ops.direntSize), some dirent),
      withFile { s with fs := fs } f (file.advance r)) := by
  refine runs_eq ?_
  unfold doGetdent
  refine runs_slot_holds h.holds (runs_fget_open h ?_)
  dsimp only
  rw [if_neg (not_not.mpr hd),runs_bind,runs_get]
  change Runs _ _ (show Prog (Vfs F) (Ret × Option E) from do
    modify fun t : Vfs F => { t with fs := (ops.readdir s.fs v file.fPos).1 }
    modFile f fun file' => { file' with fPos := int32 (file'.fPos+(ops.readdir s.fs v file.fPos).2.1) }
    fput f
    if (ops.readdir s.fs v file.fPos).2.1 = 0 then return (.ok 0, some (ops.readdir s.fs v file.fPos).2.2)
    else return (.ok ops.direntSize, some (ops.readdir s.fs v file.fPos).2.2)) _
  rw [hr,runs_bind,runs_modify,runs_bind]
  refine runs_modFile_file (withFile_self _ _ _) ?_
  have hend : withFile { withFile s f (got file) with fs := fs } f (file.advance r) =
      withFile { s with fs := fs } f (file.advance r) := withFile_withFile { s with fs := fs } f _ _
  split
  · exact runs_fput_got h _ _ ⟨rfl,hend⟩
  · exact runs_fput_got h _ _ ⟨rfl,hend⟩

end Csci402.Fs
