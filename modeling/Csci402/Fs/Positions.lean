import Csci402.Fs.FileRuns

/-! File positions. `ideal` says what `do_read`, `do_write`, `do_lseek` and `do_getdent` should
return and do to the position of the file, with numbers that do not wrap; the calls do just
that as long as no write and no directory read fails and no position gets out of range. -/

namespace Csci402.Fs

open Lib Lib.Prog Option

variable {F E : Type} {ops : Ops F E} {s0 s t : Vfs F} {f v pid : ℕ} {fd : ℤ} {file : File} {as : List (ℕ × Call)}

/-- A position, or a length, in 32 bits. -/
def InRange (n : ℤ) : Prop := 0 ≤ n ∧ n < 2 ^ 31

theorem int32_of_inRange {n : ℤ} (h : InRange n) : int32 n = n := by
  obtain ⟨h1,h2⟩ := h
  unfold int32
  omega

/-! ### What the calls should do -/

/-- The file that a descriptor holds, with its number and vnode. -/
def fileAt (ops : Ops F E) (s : Vfs F) (pid : ℕ) (fd : ℤ) : Option (ℕ × File × ℕ) :=
  (if fd < 0 ∨ ops.nfiles ≤ fd then none else (s.procs pid).bind fun p => p.pFiles fd.toNat).bind fun f =>
  (s.files f).bind fun file => file.fVnode.map fun v => (f, file, v)

/-- The files with a file at another position. -/
def moveTo (s : Vfs F) (f : ℕ) (file : File) (pos : ℤ) : ℕ → Option File :=
  Function.update s.files f (some { file with fPos := pos })

/-- After an operation at `pos` that has returned `k`: an error, or `k` and a move. -/
def transfer (s : Vfs F) (f : ℕ) (file : File) (pos k n : ℤ) : Ret × (ℕ → Option File) :=
  if k < 0 then (.ofInt k, s.files) else (.ok n, moveTo s f file (pos+k))

/-- Where a seek goes. -/
def idealSeek (pos len offset : ℤ) (whence : Whence) : Option ℤ :=
  (match whence with
    | .set => some 0
    | .cur => some pos
    | .fromEnd => some len
    | .other => none).bind fun start =>
  if 0 ≤ start+offset ∧ start+offset < 2 ^ 31 then some (start+offset) else none

/-- Where a write goes. -/
def idealWritePos (ops : Ops F E) (s : Vfs F) (file : File) (v : ℕ) : ℤ :=
  if file.fMode.append then ops.vnLen s.fs v else file.fPos

/-- The result of a call and the files after it. -/
def ideal (ops : Ops F E) (s : Vfs F) (pid : ℕ) : Call → Ret × (ℕ → Option File)
  | .read fd nbytes => match fileAt ops s pid fd with
    | none => (.error .ebadf, s.files)
    | some (f, file, v) =>
      if (ops.type v).NoTransfer then (.error .eisdir, s.files)
      else if file.fMode.read = false then (.error .ebadf, s.files)
      else transfer s f file file.fPos (ops.read s.fs v file.fPos nbytes).2 (ops.read s.fs v file.fPos nbytes).2
  | .write fd nbytes => match fileAt ops s pid fd with
    | none => (.error .ebadf, s.files)
    | some (f, file, v) =>
      if ¬ (file.fMode.write ∨ file.fMode.append) then (.error .ebadf, s.files)
      else transfer s f file (idealWritePos ops s file v) (ops.write s.fs v (idealWritePos ops s file v) nbytes).2
        (ops.write s.fs v (idealWritePos ops s file v) nbytes).2
  | .lseek fd offset whence => match fileAt ops s pid fd with
    | none => (.error .ebadf, s.files)
    | some (f, file, v) => match idealSeek file.fPos (ops.vnLen s.fs v) offset whence with
      | none => (.error .einval, s.files)
      | some pos => (.ok pos, moveTo s f file pos)
  | .getdent fd => match fileAt ops s pid fd with
    | none => (.error .ebadf, s.files)
    | some (f, file, v) =>
      if ops.type v ≠ .dir then (.error .enotdir, s.files)
      else transfer s f file file.fPos (ops.readdir s.fs v file.fPos).2.1
        (if (ops.readdir s.fs v file.fPos).2.1 = 0 then 0 else ops.direntSize)
  | _ => (.error .einval, s.files)

/-! ### Conditions -/

/-- Lengths fit, and a write to a regular file that succeeds reaches at most to its end. -/
structure Sized (ops : Ops F E) : Prop where
  len : ∀ f v, InRange (ops.vnLen f v)
  write : ∀ f v pos n, ops.type v = .reg → if 0 < (ops.write f v pos n).2 then
    pos+(ops.write f v pos n).2 ≤ ops.vnLen (ops.write f v pos n).1 v
    else ops.vnLen (ops.write f v pos n).1 v = ops.vnLen f v

/-- What is asked of a call: its process is there, the write or the directory read it makes does
not fail, no position gets out of range, and a regular file that is past its end is not
written without success. -/
def Tame (ops : Ops F E) (s : Vfs F) (pid : ℕ) (c : Call) : Prop := s.procs pid ≠ none ∧ match c with
  | .read fd nbytes => ∀ f file v, fileAt ops s pid fd = some (f, file, v) →
      file.fPos+(ops.read s.fs v file.fPos nbytes).2 < 2 ^ 31
  | .write fd nbytes => ∀ f file v, fileAt ops s pid fd = some (f, file, v) → file.fMode.write ∨ file.fMode.append →
      (ops.type v = .reg ∨ ops.type v = .chr) ∧
      0 ≤ (ops.write s.fs v (idealWritePos ops s file v) nbytes).2 ∧
      idealWritePos ops s file v+(ops.write s.fs v (idealWritePos ops s file v) nbytes).2 < 2 ^ 31 ∧
      (ops.type v = .reg → 0 < (ops.write s.fs v (idealWritePos ops s file v) nbytes).2 ∨
        idealWritePos ops s file v ≤ ops.vnLen s.fs v)
  | .lseek _ offset _ => -2 ^ 31 ≤ offset ∧ offset < 2 ^ 31
  | .getdent fd => ∀ f file v, fileAt ops s pid fd = some (f, file, v) → ops.type v = .dir →
      0 ≤ (ops.readdir s.fs v file.fPos).2.1 ∧ file.fPos+(ops.readdir s.fs v file.fPos).2.1 < 2 ^ 31
  | _ => False

/-- Descriptors hold open files, and positions are in range. -/
structure Positioned (ops : Ops F E) (s : Vfs F) : Prop where
  opened : ∀ pid fd f, Holds ops s pid fd f → ∃ file v, IsOpen ops s pid fd f file v
  pos : ∀ f file, s.files f = some file → InRange file.fPos

/-! ### Descriptors -/

theorem IsOpen.fileAt (h : IsOpen ops s pid fd f file v) : fileAt ops s pid fd = some (f, file, v) := by
  obtain ⟨⟨h0,hlt,p,hp,hf⟩,hfile,hv,-⟩ := h
  rw [Fs.fileAt,if_neg (by omega),hp,bind_some,hf,bind_some,hfile,bind_some,hv,map_some]

theorem fileAt_none (h : ∀ f, ¬ Holds ops s pid fd f) : fileAt ops s pid fd = none := by
  cases hx : fileAt ops s pid fd with
  | none => rfl
  | some x =>
    obtain ⟨f,hf,-⟩ := bind_eq_some_iff.mp hx
    split at hf
    · cases hf
    · obtain ⟨p,hp,hf⟩ := bind_eq_some_iff.mp hf
      exact absurd ⟨by omega,by omega,p,hp,hf⟩ (h f)

/-- A descriptor is open, or it holds nothing. -/
theorem Positioned.cases (h : Positioned ops s) (pid : ℕ) (fd : ℤ) :
    (∃ f file v, IsOpen ops s pid fd f file v ∧ InRange file.fPos) ∨ ∀ f, ¬ Holds ops s pid fd f := by
  by_cases hf : ∃ f, Holds ops s pid fd f
  · obtain ⟨f,hf⟩ := hf
    obtain ⟨file,v,ho⟩ := h.opened pid fd f hf
    exact .inl ⟨f,file,v,ho,h.pos f file ho.isFile⟩
  · exact .inr fun f hh => hf ⟨f,hh⟩

/-- A call that moves one file, within the range. -/
theorem Positioned.withFile (h : Positioned ops s) (ho : IsOpen ops s pid fd f file v) {pos : ℤ} (hp : InRange pos) (fs : F) :
    Positioned ops (withFile { s with fs := fs } f { file with fPos := pos }) where
  opened pid' fd' g hg := by
    obtain ⟨file',v',ho'⟩ := h.opened pid' fd' g hg
    by_cases hne : g = f
    · subst hne
      exact ⟨_,v,hg,withFile_self _ _ _,ho.vnode,ho.refs⟩
    · exact ⟨file',v',hg,(withFile_of_ne hne).trans ho'.isFile,ho'.vnode,ho'.refs⟩
  pos g file' hg := by
    by_cases hne : g = f
    · subst hne
      rw [withFile_self] at hg
      cases hg
      exact hp
    · rw [withFile_of_ne hne] at hg
      exact h.pos g file' hg

theorem Positioned.withFs (h : Positioned ops s) (fs : F) : Positioned ops { s with fs := fs } :=
  ⟨fun pid fd f hf => by
    obtain ⟨file,v,ho⟩ := h.opened pid fd f hf
    exact ⟨file,v,ho.holds,ho.isFile,ho.vnode,ho.refs⟩,h.pos⟩

/-! ### The calls -/

theorem seekTo_eq_idealSeek {pos len offset : ℤ} {whence : Whence} (hp : InRange pos) (hl : InRange len)
    (ho : -2 ^ 31 ≤ offset ∧ offset < 2 ^ 31) : seekTo pos len offset whence = idealSeek pos len offset whence := by
  obtain ⟨hp1,hp2⟩ := hp
  obtain ⟨hl1,hl2⟩ := hl
  obtain ⟨ho1,ho2⟩ := ho
  -- a sum that is out of range wraps to a negative number
  have hwrap : ∀ start, 0 ≤ start → start < 2 ^ 31 → (if int32 (start+offset) < 0 then none else some (int32 (start+offset))) =
      if 0 ≤ start+offset ∧ start+offset < 2 ^ 31 then some (start+offset) else none := by
    intro start h1 h2
    by_cases hr : 0 ≤ start+offset ∧ start+offset < 2 ^ 31
    · rw [int32_of_inRange hr,if_neg (by omega),if_pos hr]
    · rw [if_pos (by unfold int32; omega),if_neg hr]
  cases whence with
  | set =>
    change (if offset < 0 then none else some offset) = if 0 ≤ 0+offset ∧ 0+offset < 2 ^ 31 then some (0+offset) else none
    rw [zero_add]
    by_cases hneg : offset < 0
    · rw [if_pos hneg,if_neg (by omega)]
    · rw [if_neg hneg,if_pos (by omega)]
  | cur => exact hwrap pos hp1 hp2
  | fromEnd =>
    have h := hwrap len hl1 hl2
    unfold seekTo
    rw [add_comm offset len]
    exact h
  | other => rfl

theorem writePos_eq_ideal (hs : Sized ops) (hp : InRange file.fPos) : writePos ops s.fs file v = idealWritePos ops s file v := by
  unfold writePos idealWritePos
  split
  · have hlen := hs.len s.fs v
    rw [seekTo_eq_idealSeek hp hlen (by omega),idealSeek,bind_some,add_zero,if_pos ⟨hlen.1,hlen.2⟩,getD_some]
  · rfl

/-- The call does what it should, and positions stay in range. -/
def Ideally (ops : Ops F E) (s : Vfs F) (pid : ℕ) (c : Call) : Prop :=
  ∃ t, body ops pid c s = (some (ideal ops s pid c).1, t) ∧ t.files = (ideal ops s pid c).2 ∧ Positioned ops t

section Calls

variable {c : Call} {p : Process}

theorem ideally_of_eq {x : Ret × (ℕ → Option File)} (hx : ideal ops s pid c = x) (hb : body ops pid c s = (some x.1, t))
    (hf : t.files = x.2) (ht : Positioned ops t) : Ideally ops s pid c := by
  subst hx
  exact ⟨t,hb,hf,ht⟩

/-- A call that is refused. -/
theorem Positioned.refuses {e : Errno} (h : Positioned ops s) (hx : ideal ops s pid c = (.error e, s.files))
    (hb : body ops pid c s = (some (.error e), s)) : Ideally ops s pid c := ideally_of_eq hx hb rfl h

/-- An operation has returned `k`, which is not an error. -/
theorem transfer_eq {f : ℕ} {file : File} {pos k n : ℤ} (hk : 0 ≤ k) :
    transfer s f file pos k n = (.ok n, moveTo s f file (pos+k)) := if_neg (Int.not_lt.mpr hk)

/-- The assertion holds: a write that succeeds has made the file long enough, and one that
writes nothing has been made within the file. -/
theorem writeAsserts_of_tame {fs : F} {pos k : ℤ} {nbytes : ℕ} (hs : Sized ops)
    (ht : ops.type v = .reg ∨ ops.type v = .chr) (hw : ops.write s.fs v pos nbytes = (fs, k)) (hk : 0 ≤ k)
    (hpast : ops.type v = .reg → 0 < k ∨ pos ≤ ops.vnLen s.fs v) : WriteAsserts ops fs v (pos+k) := by
  rcases ht with hreg | hchr
  · have hgrow := hs.write s.fs v pos nbytes hreg
    rw [hw] at hgrow
    refine .inr (.inr ⟨hreg,?_⟩)
    rcases hpast hreg with hpos | hle
    · rwa [if_pos hpos] at hgrow
    · by_cases hpos : 0 < k
      · rwa [if_pos hpos] at hgrow
      · rw [if_neg hpos] at hgrow
        dsimp only at hgrow
        omega
  · exact .inl hchr

variable (h : Positioned ops s)

include h

theorem Positioned.read {nbytes : ℕ} (hc : Tame ops s pid (.read fd nbytes)) : Ideally ops s pid (.read fd nbytes) := by
  obtain ⟨hpid,hroom⟩ := hc
  obtain ⟨p,hp⟩ := ne_none_iff_exists'.mp hpid
  rcases h.cases pid fd with ⟨f,file,v,ho,hpos⟩ | hnone
  · have hat := ho.fileAt
    by_cases hd : (ops.type v).NoTransfer
    · exact h.refuses (by simp only [ideal,hat,if_pos hd]) (doRead_null ho hd)
    cases hm : file.fMode.read with
    | false =>
      exact h.refuses (by simp only [ideal,hat,if_neg hd,hm,if_true]) (doRead_mode ho hd hm)
    | true =>
      rcases hr : ops.read s.fs v file.fPos nbytes with ⟨fs,k⟩
      have hroom' := hroom f file v hat
      rw [hr] at hroom'
      have hx : ideal ops s pid (.read fd nbytes) = transfer s f file file.fPos k k := by
        simp only [ideal,hat,if_neg hd,hm,hr,Bool.true_eq_false,if_false]
      by_cases hneg : k < 0
      · rw [transfer,if_pos hneg] at hx
        exact ideally_of_eq hx (doRead_fails ho hd hm hr hneg) rfl (h.withFs fs)
      · have hk := Int.not_lt.mp hneg
        have hin : InRange (file.fPos+k) := ⟨Int.add_nonneg hpos.1 hk,hroom'⟩
        rw [transfer_eq hk] at hx
        refine ideally_of_eq hx (doRead_moves ho hd hm hr hk) ?_ ?_
        · rw [File.advance,int32_of_inRange hin]
          rfl
        · rw [File.advance,int32_of_inRange hin]
          exact h.withFile ho hin fs
  · refine h.refuses (e := .ebadf) (by simp only [ideal,fileAt_none hnone]) (runs_eq ?_)
    change Runs _ _ (doRead ops pid fd nbytes) s
    unfold doRead
    rw [runs_bind]
    exact runs_slot_none hp hnone ⟨rfl,rfl⟩

theorem Positioned.lseek {offset : ℤ} {whence : Whence} (hs : Sized ops) (hc : Tame ops s pid (.lseek fd offset whence)) :
    Ideally ops s pid (.lseek fd offset whence) := by
  obtain ⟨hpid,hoff⟩ := hc
  obtain ⟨p,hp⟩ := ne_none_iff_exists'.mp hpid
  rcases h.cases pid fd with ⟨f,file,v,ho,hpos⟩ | hnone
  · have hb : body ops pid (.lseek fd offset whence) s = _ := doLseek_open ho
    rw [seekTo_eq_idealSeek hpos (hs.len s.fs v) hoff] at hb
    cases hseek : idealSeek file.fPos (ops.vnLen s.fs v) offset whence with
    | none =>
      rw [hseek] at hb
      exact h.refuses (by simp only [ideal,ho.fileAt,hseek]) hb
    | some pos =>
      rw [hseek] at hb
      have hin : InRange pos := by
        obtain ⟨start,-,hst⟩ := bind_eq_some_iff.mp hseek
        split at hst
        · cases hst
          assumption
        · cases hst
      have hx : ideal ops s pid (.lseek fd offset whence) = (.ok pos, moveTo s f file pos) := by
        simp only [ideal,ho.fileAt,hseek]
      exact ideally_of_eq hx hb rfl (h.withFile ho hin s.fs)
  · refine h.refuses (e := .ebadf) (by simp only [ideal,fileAt_none hnone]) (runs_eq ?_)
    change Runs _ _ (doLseek ops pid fd offset whence) s
    unfold doLseek
    rw [runs_bind]
    exact runs_slot_none hp hnone ⟨rfl,rfl⟩

theorem Positioned.getdent (hc : Tame ops s pid (.getdent fd)) : Ideally ops s pid (.getdent fd) := by
  obtain ⟨hpid,hroom⟩ := hc
  obtain ⟨p,hp⟩ := ne_none_iff_exists'.mp hpid
  have hbody : ∀ {r : Ret} {d : Option E} {t : Vfs F}, doGetdent ops pid fd s = (some (r, d), t) →
      body ops pid (.getdent fd) s = (some r, t) := by
    intro r d t hg
    change Prog.bind (doGetdent ops pid fd) (fun x => Prog.pure x.1) s = _
    unfold Prog.bind
    rw [hg]
    rfl
  rcases h.cases pid fd with ⟨f,file,v,ho,hpos⟩ | hnone
  · have hat := ho.fileAt
    by_cases hd : ops.type v = .dir
    · rcases hr : ops.readdir s.fs v file.fPos with ⟨fs,k,dirent⟩
      obtain ⟨hk,hlt⟩ := hroom f file v hat hd
      rw [hr] at hk hlt
      have hin : InRange (file.fPos+k) := ⟨Int.add_nonneg hpos.1 hk,hlt⟩
      refine ideally_of_eq (x := (.ok (if k = 0 then 0 else ops.direntSize), moveTo s f file (file.fPos+k))) ?_
        (hbody (doGetdent_dir ho hd hr)) ?_ ?_
      · simp only [ideal,hat,hd,ne_eq,not_true_eq_false,if_false,hr,transfer_eq hk]
      · rw [File.advance,int32_of_inRange hin]
        rfl
      · rw [File.advance,int32_of_inRange hin]
        exact h.withFile ho hin fs
    · exact h.refuses (by simp only [ideal,hat,ne_eq,hd,not_false_eq_true,if_true]) (hbody (doGetdent_notdir ho hd))
  · refine h.refuses (e := .ebadf) (by simp only [ideal,fileAt_none hnone]) (hbody (d := none) (runs_eq ?_))
    unfold doGetdent
    rw [runs_bind]
    exact runs_slot_none hp hnone ⟨rfl,rfl⟩

theorem Positioned.write {nbytes : ℕ} (hs : Sized ops) (hc : Tame ops s pid (.write fd nbytes)) :
    Ideally ops s pid (.write fd nbytes) := by
  obtain ⟨hpid,hroom⟩ := hc
  obtain ⟨p,hp⟩ := ne_none_iff_exists'.mp hpid
  rcases h.cases pid fd with ⟨f,file,v,ho,hpos⟩ | hnone
  · have hat := ho.fileAt
    by_cases hm : file.fMode.write ∨ file.fMode.append
    · obtain ⟨htype,hk,hlt,hpast⟩ := hroom f file v hat hm
      have hwp : writePos ops s.fs file v = idealWritePos ops s file v := writePos_eq_ideal hs hpos
      have hx : ideal ops s pid (.write fd nbytes) = transfer s f file (idealWritePos ops s file v)
          (ops.write s.fs v (idealWritePos ops s file v) nbytes).2 (ops.write s.fs v (idealWritePos ops s file v) nbytes).2 := by
        simp only [ideal,hat,hm,not_true_eq_false,if_false]
      rcases hw : ops.write s.fs v (idealWritePos ops s file v) nbytes with ⟨fs,k⟩
      rw [hw] at hk hlt hpast hx
      have hbase : 0 ≤ idealWritePos ops s file v := by
        unfold idealWritePos
        split
        · exact (hs.len s.fs v).1
        · exact hpos.1
      have hin : InRange (idealWritePos ops s file v+k) := ⟨Int.add_nonneg hbase hk,hlt⟩
      rw [transfer_eq hk] at hx
      refine ideally_of_eq hx (t := Fs.withFile { s with fs := fs } f { file with fPos := idealWritePos ops s file v+k })
        (runs_eq ?_) rfl (h.withFile ho hin fs)
      refine runs_doWrite ho hm (fun hd => ?_) fun r fs' hw' => ?_
      · rcases hd with hd | hd
        all_goals
          rw [hd] at htype
          exact absurd htype (by decide)
      · rw [hwp,hw] at hw'
        cases hw'
        rw [hwp,int32_of_inRange hin,if_pos (writeAsserts_of_tame hs htype hw hk hpast)]
        exact ⟨if_neg (Int.not_lt.mpr hk),rfl⟩
    · exact h.refuses (by simp only [ideal,hat,hm,not_false_eq_true,if_true]) (doWrite_mode ho hm)
  · refine h.refuses (e := .ebadf) (by simp only [ideal,fileAt_none hnone]) (runs_eq ?_)
    change Runs _ _ (doWrite ops pid fd nbytes) s
    unfold doWrite
    rw [runs_bind]
    exact runs_slot_none hp hnone ⟨rfl,rfl⟩

theorem Positioned.ideally (hs : Sized ops) (hc : Tame ops s pid c) : Ideally ops s pid c := by
  cases c with
  | read fd nbytes => exact h.read hc
  | write fd nbytes => exact h.write hs hc
  | lseek fd offset whence => exact h.lseek hs hc
  | getdent fd => exact h.getdent hc
  | _ => exact hc.2.elim

end Calls

/-! ### Runs -/

/-- In every run of these calls the positions of all files stay in range, and each call
returns and does exactly what it should. -/
theorem positions_exact (hs : Sized ops) (h₀ : Positioned ops s0)
    (hrun : Exec (step ops) (fun s a => Tame ops s a.1 a.2) s0 as s) :
    (∀ f file, s.files f = some file → 0 ≤ file.fPos) ∧ ∀ pid c, Tame ops s pid c →
      ∃ t, syscall ops pid c s = (some (ideal ops s pid c).1, t) ∧ t.files = (ideal ops s pid c).2 := by
  have hcall : ∀ {s : Vfs F} {pid : ℕ} {c : Call}, Positioned ops s → Tame ops s pid c →
      ∃ t, syscall ops pid c s = (some (ideal ops s pid c).1, t) ∧ t.files = (ideal ops s pid c).2 ∧ Positioned ops t := by
    intro s pid c h hc
    have h' : Positioned ops { s with trace := [] } :=
      ⟨fun pid fd f hf => by
        obtain ⟨file,v,ho⟩ := h.opened pid fd f hf
        exact ⟨file,v,ho.holds,ho.isFile,ho.vnode,ho.refs⟩,h.pos⟩
    exact h'.ideally hs hc
  have hpos : Positioned ops s := by
    refine hrun.invariant h₀ fun s a t hs hc hst => ?_
    obtain ⟨u,hu,-,hup⟩ := hcall hs hc
    obtain ⟨r,hr⟩ := step_eq_some hst
    cases hu.symm.trans hr
    exact hup
  refine ⟨fun f file hf => (hpos.pos f file hf).1,fun pid c hc => ?_⟩
  obtain ⟨t,ht,hf,-⟩ := hcall hpos hc
  exact ⟨t,ht,hf⟩

/-! ### A file system that writes nothing -/

/-- A write of no bytes returns 0, and any other fails. -/
def faultyOps : Ops Unit ℕ := { sampleOps with write := fun _ _ _ n => ((), if n = 0 then 0 else -5) }

/-- The file is open for reading and writing in the first descriptor. -/
def openVfs : Vfs Unit where
  fs := ()
  refs v := if v = 0 then 2 else if v = 2 then 1 else 0
  files f := if f = 0 then some ⟨some 2,0,⟨true,true,false⟩,1⟩ else none
  procs pid := if pid = 0 then some ⟨fun fd => if fd = 0 then some 0 else none,0⟩ else none
  nextFile := 1
  nextPid := 1
  trace := []

theorem faultyOps_sized : Sized faultyOps where
  len _ _ := ⟨le_rfl,show (0 : ℤ) < 2 ^ 31 by decide⟩
  write _ _ _ n _ := by
    have hle : ¬ 0 < (if n = 0 then 0 else -5 : ℤ) := by
      split
      · exact lt_irrefl 0
      · decide
    exact (if_neg hle).symm ▸ rfl

theorem openVfs_positioned : Positioned faultyOps openVfs where
  opened pid fd f hf := by
    have hf' := hf
    obtain ⟨-,-,p,hp,hslot⟩ := hf'
    obtain rfl : pid = 0 := by
      by_contra hne
      dsimp only [openVfs] at hp
      rw [if_neg hne] at hp
      cases hp
    cases hp
    obtain rfl : f = 0 := by
      dsimp only at hslot
      split at hslot
      · exact (some.inj hslot).symm
      · cases hslot
    exact ⟨_,2,hf,rfl,rfl,le_rfl⟩
  pos f file hf := by
    dsimp only [openVfs] at hf
    split at hf
    · cases hf
      exact ⟨le_rfl,by decide⟩
    · cases hf

theorem positions_exact_openVfs : ∃ s t, Exec (step faultyOps) (fun s a => Tame faultyOps s a.1 a.2) openVfs [(0, .lseek 0 5 .set)] s ∧
    syscall faultyOps 0 (.read 0 3) s = (some (.ok 3), t) ∧ (t.files 0).map File.fPos = some 8 := by
  obtain ⟨s,hrun,hat⟩ : ∃ s, Exec (step faultyOps) (fun s a => Tame faultyOps s a.1 a.2) openVfs [(0, .lseek 0 5 .set)] s ∧
      ideal faultyOps s 0 (.read 0 3) = (.ok 3, moveTo s 0 ⟨some 2,5,⟨true,true,false⟩,1⟩ 8) ∧
      Tame faultyOps s 0 (.read 0 3) := by
    refine ⟨_,Exec.one ⟨some_ne_none _,by decide,by decide⟩ rfl,rfl,some_ne_none _,?_⟩
    intro f file v hat
    cases hat
    decide
  obtain ⟨t,ht,hf⟩ := (positions_exact faultyOps_sized openVfs_positioned hrun).2 0 _ hat.2
  rw [hat.1] at ht hf
  refine ⟨s,t,hrun,ht,?_⟩
  rw [hf]
  rfl

/-- A write that fails moves the position before the file; a write of no bytes past the end of
the file fails the assertion. -/
theorem failed_write_moves_position :
    (∃ t, syscall faultyOps 0 (.write 0 1) openVfs = (some (.error (.other 5)), t) ∧ (t.files 0).map File.fPos = some (-5)) ∧
    ∃ t, syscall faultyOps 0 (.lseek 0 5 .set) openVfs = (some (.ok 5), t) ∧ (syscall faultyOps 0 (.write 0 0) t).1 = none :=
  ⟨⟨_,rfl,rfl⟩,_,rfl,rfl⟩

end Csci402.Fs
