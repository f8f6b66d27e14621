import Csci402.Fs.Descriptors
import Csci402.Lib.Run
import Mathlib.Algebra.BigOperators.Ring.Finset

/-! Runs of system calls by any processes: references are balanced after every call, and
what a descriptor can be used for was decided when its file was opened. -/

namespace Csci402.Fs

open Lib Lib.Prog

variable {F E : Type} {ops : Ops F E} {s0 s t u : Vfs F} {f v pid pid' : ℕ} {fd fd' : ℤ} {as bs : List (ℕ × Call)}

/-! ### Counts -/

/-- The number of descriptors that hold the file. -/
def slotCount (ops : Ops F E) (s : Vfs F) (f : ℕ) : ℕ := ∑ pid ∈ Finset.range s.nextPid,
  ((Finset.range ops.nfiles).filter fun fd => (s.procs pid).bind (fun p => p.pFiles fd) = some f).card

/-- The number of files that have the vnode. -/
def fileCount (s : Vfs F) (v : ℕ) : ℕ :=
  ((Finset.range s.nextFile).filter fun f => (s.files f).bind File.fVnode = some v).card

/-- The number of processes that work in the directory. -/
def cwdCount (s : Vfs F) (v : ℕ) : ℕ :=
  ((Finset.range s.nextPid).filter fun pid => (s.procs pid).map Process.pCwd = some v).card

theorem sum_tally_apply {α : Type} (l : Finset α) (target : α → Option ℕ) (x : ℕ) :
    (∑ a ∈ l, tally (target a)) x = ((l.filter fun a => target a = some x).card : ℕ) := by
  rw [Finset.sum_apply,Finset.card_filter,Nat.cast_sum]
  refine Finset.sum_congr rfl fun a _ => ?_
  rw [tally_apply]
  split <;> rfl

theorem slotTally_apply (s : Vfs F) (f : ℕ) : slotTally ops s f = slotCount ops s f := by
  rw [slotTally,slotCount,Finset.sum_apply,Nat.cast_sum]
  exact Finset.sum_congr rfl fun pid _ => sum_tally_apply _ _ _

theorem fileTally_apply (s : Vfs F) (v : ℕ) : fileTally s v = fileCount s v := sum_tally_apply _ _ _

theorem cwdTally_apply (s : Vfs F) (v : ℕ) : cwdTally s v = cwdCount s v := sum_tally_apply _ _ _

/-- A file counts the descriptors that hold it, and a vnode, over the references it had from
the beginning, the files that have it and the processes that work in it. -/
structure Balanced (ops : Ops F E) (base : ℕ → ℕ) (s : Vfs F) : Prop where
  files : ∀ f file, s.files f = some file → file.fRefcount = slotCount ops s f
  vnodes : ∀ v, s.refs v = base v+fileCount s v+cwdCount s v

/-- A state to begin with: files and processes have numbers below the next ones, and no
descriptor holds a file that is not there. -/
structure Started (ops : Ops F E) (base : ℕ → ℕ) (s : Vfs F) : Prop extends Balanced ops base s where
  numbers : (∀ f, s.nextFile ≤ f → s.files f = none) ∧ ∀ pid, s.nextPid ≤ pid → s.procs pid = none
  held : ∀ f, s.files f = none → slotCount ops s f = 0

variable {base : ℕ → ℕ}

theorem started_iff : Started ops base s ↔ Account ops (fun v => base v) s 0 0 := by
  constructor
  · intro h
    refine ⟨h.numbers.1,h.numbers.2,fun f => ?_,fun v => ?_⟩
    · rw [slotTally_apply,Pi.zero_apply,add_zero]
      cases hf : s.files f with
      | none => rw [h.held f hf]; rfl
      | some file => exact congrArg Nat.cast (h.files f file hf)
    · rw [fileTally_apply,cwdTally_apply,Pi.zero_apply,add_zero,h.vnodes v]
      push_cast
      rfl
  · intro h
    have hfile : ∀ f, refcount (s.files f) = slotCount ops s f := fun f => by
      rw [h.files f,slotTally_apply,Pi.zero_apply,add_zero]
    refine ⟨⟨fun f file hf => ?_,fun v => ?_⟩,⟨h.freshFile,h.freshPid⟩,fun f hf => ?_⟩
    · have := hfile f
      rw [hf] at this
      exact Int.natCast_inj.mp this
    · have := h.vnodes v
      rw [fileTally_apply,cwdTally_apply,Pi.zero_apply,add_zero] at this
      exact_mod_cast this
    · have := hfile f
      rw [hf] at this
      exact (Int.natCast_inj.mp this).symm

/-! ### Runs -/

theorem Started.run (h : Started ops base s) (hrun : Exec (step ops) (fun _ _ => True) s as t) :
    Started ops base t ∧ Stable s t := by
  induction hrun with
  | nil => exact ⟨h,Stable.refl _⟩
  | snoc _ _ hstep ih =>
    obtain ⟨ht,hst⟩ := ih
    obtain ⟨r,hr⟩ := step_eq_some hstep
    obtain ⟨hacc,hstable,-⟩ := syscall_done (started_iff.mp ht) hr
    exact ⟨started_iff.mpr hacc,hst.trans hstable⟩

/-- The root has the reference of the mount. -/
def sampleBase (v : ℕ) : ℕ := if v = 0 then 1 else 0

theorem sampleVfs_started : Started sampleOps sampleBase sampleVfs where
  files f file hf := by cases hf
  vnodes v := by
    by_cases hv : v = 0
    · subst hv
      decide
    · have hcwd : cwdCount sampleVfs v = 0 := by
        rw [cwdCount,Finset.card_eq_zero,Finset.filter_eq_empty_iff]
        intro pid hpid
        obtain rfl : pid = 0 := Nat.lt_one_iff.mp (Finset.mem_range.mp hpid)
        simpa [sampleVfs] using fun h => hv h.symm
      rw [hcwd]
      simp [sampleVfs,sampleBase,fileCount,hv]
  numbers := ⟨fun _ _ => rfl,fun pid hpid => if_neg (Nat.ne_of_gt hpid)⟩
  held f _ := by
    rw [slotCount,Finset.sum_eq_zero]
    intro pid hpid
    obtain rfl : pid = 0 := Nat.lt_one_iff.mp (Finset.mem_range.mp hpid)
    rw [Finset.card_eq_zero,Finset.filter_eq_empty_iff]
    intro fd _ hfd
    cases hfd

/-! ### Modes -/

theorem Started.isOpen (h : Started ops base s) (hf : Holds ops s pid fd f) :
    ∃ file, s.files f = some file ∧ 1 ≤ file.fRefcount := by
  obtain ⟨h0,hlt,p,hp,hslot⟩ := hf
  have hpos : 0 < slotCount ops s f := by
    have hpid : pid ∈ Finset.range s.nextPid := Finset.mem_range.mpr ((started_iff.mp h).pid_lt hp)
    refine Nat.lt_of_lt_of_le ?_ (Finset.single_le_sum
      (f := fun pid => ((Finset.range ops.nfiles).filter fun fd => (s.procs pid).bind (fun p => p.pFiles fd) = some f).card)
      (fun _ _ => Nat.zero_le _) hpid)
    refine Finset.card_pos.mpr ⟨fd.toNat,Finset.mem_filter.mpr ⟨Finset.mem_range.mpr (by omega),?_⟩⟩
    rw [hp]
    exact hslot
  cases hfile : s.files f with
  | none =>
    rw [h.held f hfile] at hpos
    exact absurd hpos (Nat.lt_irrefl 0)
  | some file => exact ⟨file,rfl,by rw [h.files f file hfile]; exact hpos⟩

/-- `do_write` on the descriptor gets as far as the call of the operation of the vnode. -/
def CallsWrite (ops : Ops F E) (s : Vfs F) (pid : ℕ) (fd : ℤ) (v : ℕ) : Prop :=
  ∃ f file, Holds ops s pid fd f ∧ s.files f = some file ∧ file.fVnode = some v ∧ (file.fMode.write ∨ file.fMode.append)

variable {oflags : OFlags}

/-- The file that a `do_open` made, wherever it is still held later. -/
theorem Opens.later (ho : Opens ops s pid oflags fd t) (ht : Started ops base t)
    (hf : Holds ops t pid fd f) (hrun : Exec (step ops) (fun _ _ => True) t bs u) (hu : Holds ops u pid' fd' f) :
    ∃ file v, IsOpen ops u pid' fd' f file v ∧ file.fMode = modeOf oflags ∧
      (ops.type v = .dir → ¬ (oflags.wronly ∨ oflags.rdwr)) := by
  obtain ⟨-,⟨-,-,p,hp,hslot⟩,v,hfile,hdir⟩ := ho
  obtain rfl : f = s.nextFile := by
    obtain ⟨-,-,p',hp',hslot'⟩ := hf
    cases hp.symm.trans hp'
    exact Option.some.inj (hslot'.symm.trans hslot)
  obtain ⟨hsu,hstable⟩ := ht.run hrun
  obtain ⟨file,hfu,href⟩ := hsu.isOpen hu
  obtain ⟨file0,hf0,hmode,hvnode⟩ := hstable.like _ ((started_iff.mp ht).file_lt hfile) file hfu
  cases hf0.symm.trans hfile
  exact ⟨file,v,⟨hu,hfu,hvnode (Option.some_ne_none v),href⟩,hmode,hdir⟩

/-- The flags and the type of a file with which its mode decides: with `O_RDONLY` no `O_APPEND`, and no
other flag if the file has a `read`; with `O_WRONLY` no block special file. -/
def Decides (oflags : OFlags) (ty : FileType) : Prop :=
  (¬ (oflags.wronly ∨ oflags.rdwr) → oflags.append = false ∧ (ty.NoTransfer ∨ oflags = rdonly)) ∧
    (oflags.wronly → ty ≠ .blk)

theorem modeOf_read (hacc : ¬ (oflags.wronly ∧ oflags.rdwr)) :
    (modeOf oflags).read = false ↔ oflags.wronly ∨ ¬ (oflags.wronly ∨ oflags.rdwr) ∧ oflags ≠ rdonly := by
  rcases oflags with ⟨w,rw,c,tr,a⟩
  revert hacc
  revert w rw c tr a
  decide

theorem modeOf_write :
    (modeOf oflags).write ∨ (modeOf oflags).append ↔ (oflags.wronly ∨ oflags.rdwr) ∨ oflags.append := by
  simp [modeOf]

theorem ofInt_ne_ebadf (n : ℤ) : Ret.ofInt n ≠ .error .ebadf := by
  unfold Ret.ofInt
  split
  · intro h
    cases h
  · intro h
    cases h

variable {file : File}

/-- A file with a `read` can be read if its mode says so, and only then. -/
theorem doRead_ebadf_iff {nbytes : ℕ} (h : IsOpen ops s pid fd f file v) :
    (doRead ops pid fd nbytes s).1 = some (.error .ebadf) ↔ ¬ (ops.type v).NoTransfer ∧ file.fMode.read = false := by
  by_cases hd : (ops.type v).NoTransfer
  · rw [doRead_null h hd]
    simp [hd]
  cases hm : file.fMode.read with
  | false =>
    rw [doRead_mode h hd hm]
    simp [hd]
  | true =>
    rcases hr : ops.read s.fs v file.fPos nbytes with ⟨fs,r⟩
    by_cases hneg : r < 0
    · rw [doRead_fails h hd hm hr hneg]
      simp [ofInt_ne_ebadf]
    · rw [doRead_moves h hd hm hr (Int.not_lt.mp hneg)]
      simp

theorem doWrite_ebadf_iff {nbytes : ℕ} (h : IsOpen ops s pid fd f file v) :
    (doWrite ops pid fd nbytes s).1 = some (.error .ebadf) ↔ ¬ (file.fMode.write ∨ file.fMode.append) := by
  by_cases hm : file.fMode.write ∨ file.fMode.append
  · have hrun : Runs (fun r _ => r ≠ .error .ebadf) (fun _ => True) (doWrite ops pid fd nbytes) s := by
      refine runs_doWrite h hm (fun _ _ => trivial) fun r fs _ => ?_
      split
      · exact ofInt_ne_ebadf r
      · exact fun _ => trivial
    refine iff_of_false (fun hbad => ?_) (not_not.mpr hm)
    unfold Runs at hrun
    rcases hw : doWrite ops pid fd nbytes s with ⟨_ | r,t⟩
    · rw [hw] at hbad
      cases hbad
    · rw [hw] at hbad hrun
      exact hrun (Option.some.inj hbad)
  · rw [doWrite_mode h hm]
    exact iff_of_true rfl hm

/-- The mode decides what can be done with the descriptor: it is refused to `do_read` exactly if it was
opened `O_WRONLY`, and to `do_write` exactly if it was opened `O_RDONLY`, and no directory is written. -/
structure Governs (ops : Ops F E) (oflags : OFlags) (s : Vfs F) (pid : ℕ) (fd : ℤ) : Prop where
  read : ∀ n, (syscall ops pid (.read fd n) s).1 = some (.error .ebadf) ↔ oflags.wronly
  write : ∀ n, (syscall ops pid (.write fd n) s).1 = some (.error .ebadf) ↔ ¬ (oflags.wronly ∨ oflags.rdwr)
  dir : ∀ v, CallsWrite ops s pid fd v → ops.type v ≠ .dir

theorem governs_iff (h : IsOpen ops s pid fd f file v) (hmode : file.fMode = modeOf oflags)
    (hacc : ¬ (oflags.wronly ∧ oflags.rdwr)) (hdir : ops.type v = .dir → ¬ (oflags.wronly ∨ oflags.rdwr)) :
    Governs ops oflags s pid fd ↔ Decides oflags (ops.type v) := by
  have h' : IsOpen ops { s with trace := [] } pid fd f file v := ⟨h.holds,h.isFile,h.vnode,h.refs⟩
  have hread : ∀ n, (syscall ops pid (.read fd n) s).1 = some (.error .ebadf) ↔
      ¬ (ops.type v).NoTransfer ∧ (oflags.wronly ∨ ¬ (oflags.wronly ∨ oflags.rdwr) ∧ oflags ≠ rdonly) := by
    intro n
    change (doRead ops pid fd n { s with trace := [] }).1 = _ ↔ _
    rw [doRead_ebadf_iff h',hmode,modeOf_read hacc]
  have hwrite : ∀ n, (syscall ops pid (.write fd n) s).1 = some (.error .ebadf) ↔
      ¬ ((oflags.wronly ∨ oflags.rdwr) ∨ oflags.append) := by
    intro n
    change (doWrite ops pid fd n { s with trace := [] }).1 = _ ↔ _
    rw [doWrite_ebadf_iff h',hmode,modeOf_write]
  constructor
  · rintro ⟨hr,hw,-⟩
    refine ⟨fun hro => ?_,fun hwo hblk => ?_⟩
    · have hwr := ((hwrite 0).symm.trans (hw 0)).mpr hro
      have hrd := mt ((hread 0).symm.trans (hr 0)).mp fun hwo => hro (.inl hwo)
      refine ⟨?_,?_⟩
      · simpa using fun ha => hwr (.inr ha)
      · by_contra hno
        rw [not_or] at hno
        exact hrd ⟨hno.1,.inr ⟨hro,hno.2⟩⟩
    · exact (((hread 0).symm.trans (hr 0)).mpr hwo).1 (.inr hblk)
  · rintro ⟨hro,hwo⟩
    refine ⟨fun n => ?_,fun n => ?_,?_⟩
    · rw [hread]
      constructor
      · rintro ⟨hty,hw | ⟨hno,hne⟩⟩
        · exact hw
        · exact absurd (hro hno).2 (not_or.mpr ⟨hty,hne⟩)
      · intro hw
        refine ⟨?_,.inl hw⟩
        rintro (hd | hb)
        · exact hdir hd (.inl hw)
        · exact hwo hw hb
    · rw [hwrite]
      refine not_congr ⟨?_,.inl⟩
      rintro (hw | ha)
      · exact hw
      · by_contra hno
        exact absurd ha (by rw [(hro hno).1]; decide)
    · rintro w ⟨g,file',hg,hfg,hvg,hw⟩ hd
      obtain ⟨-,-,q,hq,hqs⟩ := hg
      obtain ⟨-,-,q',hq',hqs'⟩ := h.holds
      cases hq.symm.trans hq'
      cases hqs.symm.trans hqs'
      cases hfg.symm.trans h.isFile
      cases hvg.symm.trans h.vnode
      rw [hmode,modeOf_write] at hw
      rcases hw with hw | ha
      · exact hdir hd hw
      · exact absurd ha (by rw [(hro (hdir hd)).1]; decide)

/-- A file that `do_open` has made has a vnode, through whatever descriptor it is used and whatever
happens in between, and the mode decides just if flags and type allow it. -/
theorem open_mode_decides {base : ℕ → ℕ} {p : List Char} {oflags : OFlags} (hs : Started ops base s)
    (hopen : syscall ops pid (.openFile p oflags) s = (some (.ok fd), t)) (hf : Holds ops t pid fd f)
    (hrun : Exec (step ops) (fun _ _ => True) t bs u) (hu : Holds ops u pid' fd' f) :
    ∃ file v, u.files f = some file ∧ file.fVnode = some v ∧
      (Governs ops oflags u pid' fd' ↔ Decides oflags (ops.type v)) := by
  have hacc := started_iff.mp hs
  have hspec : Runs _ _ (doOpen ops pid p oflags) { s with trace := [] } := doOpen_spec (Mid.reset hacc) rfl
  unfold Runs at hspec
  rw [show doOpen ops pid p oflags { s with trace := [] } = (some (.ok fd), t) from hopen] at hspec
  have ho := hspec.2 fd rfl
  have ht : Started ops base t := started_iff.mpr hspec.1.1.account
  obtain ⟨file,v,hio,hmode,hdir⟩ := ho.later ht hf hrun hu
  exact ⟨file,v,hio.isFile,hio.vnode,governs_iff hio hmode ho.1 hdir⟩

/-- The child writes through the second descriptor of its parent. -/
theorem open_mode_decides_sampleVfs : ∃ t u, syscall sampleOps 0 (.openFile ['f'] rdonly) sampleVfs = (some (.ok 0), t) ∧
    Exec (step sampleOps) (fun _ _ => True) t [(0, .dup 0),(0, .fork)] u ∧
    ∀ n, (syscall sampleOps 1 (.write 1 n) u).1 = some (.error .ebadf) := by
  obtain ⟨t,u,hopen,ht,hrun,hu⟩ : ∃ t u, syscall sampleOps 0 (.openFile ['f'] rdonly) sampleVfs = (some (.ok 0), t) ∧
      Holds sampleOps t 0 0 0 ∧ Exec (step sampleOps) (fun _ _ => True) t [(0, .dup 0),(0, .fork)] u ∧
      Holds sampleOps u 1 1 0 := by
    refine ⟨_,_,rfl,⟨le_rfl,by decide,_,rfl,rfl⟩,Exec.ofRun rfl,⟨by decide,by decide,_,rfl,rfl⟩⟩
  obtain ⟨file,v,-,-,hiff⟩ := open_mode_decides sampleVfs_started hopen ht hrun hu
  have hdec : Decides rdonly (sampleOps.type v) := ⟨fun _ => ⟨rfl,.inr rfl⟩,fun h => by cases h⟩
  exact ⟨t,u,hopen,hrun,fun n => ((hiff.mpr hdec).write n).mpr (by decide)⟩

/-- With `O_CREAT`, a file opened `O_RDONLY` cannot be read; with `O_APPEND` it can be written. -/
theorem rdonly_with_flags_fails :
    (∃ t, syscall sampleOps 0 (.openFile ['f'] { rdonly with creat := true }) sampleVfs = (some (.ok 0), t) ∧
      (syscall sampleOps 0 (.read 0 1) t).1 = some (.error .ebadf)) ∧
    ∃ t, syscall sampleOps 0 (.openFile ['f'] { rdonly with append := true }) sampleVfs = (some (.ok 0), t) ∧
      (syscall sampleOps 0 (.write 0 0) t).1 = some (.ok 0) :=
  ⟨⟨_,rfl,rfl⟩,_,rfl,rfl⟩

end Csci402.Fs
