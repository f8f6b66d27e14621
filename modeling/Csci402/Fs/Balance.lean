import Csci402.Fs.Accounts

/-! The system calls keep the accounts. Each call is followed once, from any state in which
the accounts are right; if it returns they are right again, files that were there are still
the same files, and if it returns an error the processes are as before. -/

namespace Csci402.Fs

open Lib Lib.Prog Function Option

variable {F E : Type} {ops : Ops F E} {base ef ev : ℕ → ℤ} {s0 s t : Vfs F} {f v pid : ℕ} {fd : ℤ}

/-! ### Descriptors -/

/-- The descriptor holds the file. -/
def Holds (ops : Ops F E) (s : Vfs F) (pid : ℕ) (fd : ℤ) (f : ℕ) : Prop :=
  0 ≤ fd ∧ fd < ops.nfiles ∧ ∃ p, s.procs pid = some p ∧ p.pFiles fd.toNat = some f

theorem runs_slot {Q : Option ℕ → Vfs F → Prop} (k : ∀ x, (∀ f, x = some f ↔ Holds ops s pid fd f) → Q x s) :
    Runs Q (fun _ => True) (slot ops pid fd) s := by
  unfold slot
  rw [runs_bind,runs_get,runs_bind]
  refine runs_of_need fun p hp => k _ fun f => ?_
  split
  next hr =>
    constructor
    · intro hf
      cases hf
    · rintro ⟨h0,hlt,-⟩
      omega
  next hr =>
    constructor
    · exact fun hf => ⟨by omega,by omega,p,hp,hf⟩
    · rintro ⟨-,-,p',hp',hf⟩
      cases hp.symm.trans hp'
      exact hf

theorem runs_openFile {Q : File × ℕ → Vfs F → Prop} (k : ∀ x, Q x s) : Runs Q (fun _ => True) (openFile f) s := by
  unfold openFile
  rw [runs_bind,runs_get,runs_bind]
  refine runs_of_need fun file _ => ?_
  rw [runs_bind]
  exact runs_of_need fun v _ => k (file, v)

variable {p : Process}

theorem emptyFd_spec {n k fd : ℕ} (h : emptyFd p n k = some fd) : k ≤ fd ∧ fd < k+n ∧ p.pFiles fd = none := by
  induction n generalizing k with
  | zero => cases h
  | succ n ih =>
    rw [emptyFd] at h
    split at h
    next hnone =>
      cases h
      exact ⟨le_rfl,by omega,isNone_iff_eq_none.mp hnone⟩
    · obtain ⟨h1,h2,h3⟩ := ih h
      exact ⟨by omega,by omega,h3⟩

theorem runs_getEmptyFd {Q : Option ℕ → Vfs F → Prop}
    (k : ∀ x, (∀ fd, x = some fd → ∃ p, s.procs pid = some p ∧ fd < ops.nfiles ∧ p.pFiles fd = none) → Q x s) :
    Runs Q (fun _ => True) (getEmptyFd ops pid) s := by
  unfold getEmptyFd
  rw [runs_bind,runs_get,runs_bind]
  refine runs_of_need fun p hp => k _ fun fd hfd => ?_
  obtain ⟨-,hlt,hnone⟩ := emptyFd_spec hfd
  exact ⟨p,hp,by omega,hnone⟩

theorem eachFd_spec {I : ℕ → Vfs F → Prop} {X : Vfs F → Prop} {loopBody : ℕ → Prog (Vfs F) Unit} {n k : ℕ} (h : I k s)
    (hbody : ∀ fd s, k ≤ fd → fd < k+n → I fd s → Runs (fun _ t => I (fd+1) t) X (loopBody fd) s) :
    Runs (fun _ t => I (k+n) t) X (eachFd loopBody n k) s := by
  induction n generalizing k s with
  | zero => exact h
  | succ n ih =>
    refine (hbody k s le_rfl (by omega) h).seq fun _ t ht => ?_
    have hrest := ih ht fun fd s hk hlt hI => hbody fd s (by omega) (by omega) hI
    rwa [show k+1+n = k+(n+1) by omega] at hrest

/-! ### Calls on descriptors -/

/-- The accounts are as they were, and so are the processes. -/
structure Back (ops : Ops F E) (base : ℕ → ℤ) (s0 s : Vfs F) (ef ev : ℕ → ℤ) (t : Vfs F) : Prop where
  mid : Mid ops base s0 t ef ev
  procs : t.procs = s.procs

theorem Back.refl (h : Mid ops base s0 s ef ev) : Back ops base s0 s ef ev s := ⟨h,rfl⟩

theorem Back.fput {α : Type} {a : α} (h : Back ops base s0 s (ef+Pi.single f 1) ev t) :
    Runs (fun _ u => Back ops base s0 s ef ev u) (fun _ => True) (do fput f; return a) t := by
  refine h.mid.runs_fput.seq ?_
  rintro - u ⟨hu,hp⟩
  exact ⟨hu.of_eq (add_sub_cancel_right _ _) rfl,hp.trans h.procs⟩

theorem Back.movePos {pos : File → ℤ} (h : Back ops base s0 s ef ev t) :
    Runs (fun _ u => Back ops base s0 s ef ev u) (fun _ => True)
      (modFile f fun file => { file with fPos := pos file }) t := by
  refine (h.mid.runs_modFile (g := fun file => { file with fPos := pos file }) fun _ => ⟨rfl,rfl,rfl⟩).mono ?_ fun _ hu => hu
  rintro - u ⟨hu,hp⟩
  exact ⟨hu,hp.trans h.procs⟩

theorem Back.withFs (h : Back ops base s0 s ef ev t) (x : F) : Back ops base s0 s ef ev { t with fs := x } :=
  ⟨h.mid.withFs x,h.procs⟩

/-- `fget` and a look at the file. -/
theorem Mid.runs_fget (h : Mid ops base s0 s ef ev) {α : Type} {Q : α → Vfs F → Prop} {m : File × ℕ → Prog (Vfs F) α}
    (k : ∀ x t, Back ops base s0 s (ef+Pi.single f 1) ev t → Runs Q (fun _ => True) (m x) t) :
    Runs Q (fun _ => True) (do fref f; let x ← openFile f; m x) s := by
  refine h.runs_fref.seq ?_
  rintro - t ⟨ht,hp⟩
  rw [runs_bind]
  exact runs_openFile fun x => k x t ⟨ht,hp⟩

theorem Mid.doRead {nbytes : ℕ} (h : Mid ops base s0 s ef ev) :
    Runs (fun _ t => Back ops base s0 s ef ev t) (fun _ => True) (doRead ops pid fd nbytes) s := by
  unfold Fs.doRead
  rw [runs_bind]
  refine runs_slot fun x _ => ?_
  cases x with
  | none => exact Back.refl h
  | some f =>
    refine h.runs_fget fun x t ht => ?_
    dsimp only
    split
    · exact ht.fput
    split
    · exact ht.fput
    rw [runs_bind,runs_get,runs_bind,runs_modify]
    split
    · exact (ht.withFs _).fput
    · exact (ht.withFs _).movePos.seq fun _ u hu => hu.fput

theorem Mid.doLseek {offset : ℤ} {whence : Whence} (h : Mid ops base s0 s ef ev) :
    Runs (fun _ t => Back ops base s0 s ef ev t) (fun _ => True) (doLseek ops pid fd offset whence) s := by
  unfold Fs.doLseek
  rw [runs_bind]
  refine runs_slot fun x _ => ?_
  cases x with
  | none => exact Back.refl h
  | some f =>
    refine h.runs_fget fun x t ht => ?_
    dsimp only
    rw [runs_bind,runs_get]
    split
    · exact ht.fput
    · exact ht.movePos.seq fun _ u hu => hu.fput

theorem Mid.doWrite {nbytes : ℕ} (h : Mid ops base s0 s ef ev) :
    Runs (fun _ t => Back ops base s0 s ef ev t) (fun _ => True) (doWrite ops pid fd nbytes) s := by
  unfold Fs.doWrite
  rw [runs_bind]
  refine runs_slot fun x _ => ?_
  cases x with
  | none => exact Back.refl h
  | some f =>
    refine h.runs_fget fun x t ht => ?_
    dsimp only
    split
    · exact ht.fput
    have hseek : Runs (fun _ u => Back ops base s0 s (ef+Pi.single f 1) ev u) (fun _ => True)
        (seekToEnd ops pid fd x.1) t := by
      unfold seekToEnd
      split
      · exact ht.mid.doLseek.mono (fun _ u hu => ⟨hu.mid,hu.procs.trans ht.procs⟩) fun _ hu => hu
      · exact ht
    refine hseek.seq fun _ t1 ht1 => ?_
    rw [runs_bind]
    refine runs_openFile fun y => ?_
    rw [runs_bind]
    refine runs_of_assert fun _ => ?_
    rw [runs_bind,runs_get,runs_bind,runs_modify]
    refine (ht1.withFs _).movePos.seq fun _ u hu => ?_
    rw [runs_bind]
    exact runs_of_assert fun _ => hu.fput

theorem Mid.doGetdent (h : Mid ops base s0 s ef ev) :
    Runs (fun _ t => Back ops base s0 s ef ev t) (fun _ => True) (doGetdent ops pid fd) s := by
  unfold Fs.doGetdent
  rw [runs_bind]
  refine runs_slot fun x _ => ?_
  cases x with
  | none => exact Back.refl h
  | some f =>
    refine h.runs_fget fun x t ht => ?_
    dsimp only
    split
    · exact ht.fput
    rw [runs_bind,runs_get,runs_bind,runs_modify]
    refine (ht.withFs _).movePos.seq fun _ u hu => ?_
    refine hu.mid.runs_fput.seq ?_
    rintro - w ⟨hw,hp⟩
    have hback : Back ops base s0 s ef ev w := ⟨hw.of_eq (add_sub_cancel_right _ _) rfl,hp.trans hu.procs⟩
    split
    · exact hback
    · exact hback

/-- The process with another file, or none, in a descriptor. -/
def withSlot (p : Process) (fd : ℕ) (x : Option ℕ) : Process := { p with pFiles := update p.pFiles fd x }

@[simp] theorem withSlot_self (p : Process) (fd : ℕ) (x : Option ℕ) : (withSlot p fd x).pFiles fd = x :=
  update_self _ _ _

theorem withSlot_of_ne {fd g : ℕ} (h : g ≠ fd) (x : Option ℕ) : (withSlot p fd x).pFiles g = p.pFiles g :=
  update_of_ne h _ _

/-- The descriptor is emptied, or it is not one. -/
theorem Mid.doClose (h : Mid ops base s0 s ef ev) : Runs (fun r t => Mid ops base s0 t ef ev ∧ match r with
      | .ok _ => ∃ p, s.procs pid = some p ∧ t.procs = update s.procs pid (some (withSlot p fd.toNat none))
      | .error _ => t = s ∧ ∀ f, ¬ Holds ops s pid fd f) (fun _ => True) (doClose ops pid fd) s := by
  unfold Fs.doClose
  rw [runs_bind]
  refine runs_slot fun x hslot => ?_
  cases x with
  | none => exact ⟨h,rfl,fun f hf => by cases (hslot f).mpr hf⟩
  | some f =>
    obtain ⟨h0,hlt,p,hp,hf⟩ := (hslot f).mp rfl
    refine h.runs_fput.seq ?_
    rintro - t1 ⟨ht1,hp1⟩
    refine (ht1.runs_setSlot (by rw [hp1,hp]) (show fd.toNat < ops.nfiles by omega) none).seq ?_
    rintro - t2 ⟨ht2,-,-,hp2⟩
    refine ⟨ht2.of_eq ?_ rfl,p,hp,by rw [hp2,hp1]; rfl⟩
    rw [hf,tally_some,tally_none,sub_add_cancel,sub_zero]

/-- What every call does: the accounts are right again, and an error leaves the processes alone. -/
def Done (ops : Ops F E) (base : ℕ → ℤ) (s : Vfs F) (r : Ret) (t : Vfs F) : Prop :=
  Mid ops base s t 0 0 ∧ ∀ e, r = .error e → t.procs = s.procs

theorem Back.done {r : Ret} (h : Back ops base s s 0 0 t) : Done ops base s r t := ⟨h.mid,fun _ _ => h.procs⟩

theorem doClose_done (h : Mid ops base s s 0 0) : Runs (Done ops base s) (fun _ => True) (doClose ops pid fd) s := by
  refine h.doClose.mono ?_ fun _ hu => hu
  rintro (e | n) t ⟨ht,hr⟩
  · exact ⟨ht,fun _ _ => by rw [hr.1]⟩
  · exact ⟨ht,fun e he => by cases he⟩

theorem doDup_done (h : Mid ops base s s 0 0) : Runs (Done ops base s) (fun _ => True) (doDup ops pid fd) s := by
  unfold doDup
  rw [runs_bind]
  refine runs_slot fun x _ => ?_
  cases x with
  | none => exact (Back.refl h).done
  | some f =>
    refine h.runs_fref.seq ?_
    rintro - t ⟨ht,hpt⟩
    rw [runs_bind]
    refine runs_getEmptyFd fun y hempty => ?_
    cases y with
    | none =>
      have hback : Back ops base s s (0+Pi.single f 1) 0 t := ⟨ht,hpt⟩
      exact hback.fput.mono (fun _ _ hu => hu.done) fun _ hu => hu
    | some nfd =>
      obtain ⟨p,hp,hlt,hnone⟩ := hempty nfd rfl
      refine (ht.runs_setSlot hp hlt (some f)).seq ?_
      rintro - u ⟨hu,-,-⟩
      refine ⟨hu.of_eq ?_ rfl,fun e he => by cases he⟩
      rw [hnone,tally_none,tally_some,zero_add,add_zero,sub_self]

/-- What `do_dup2` finds in the descriptor when it sets it: the file itself where the two
descriptors are one, and nothing otherwise. -/
theorem Mid.closeOther {nfd : ℤ} {old : Option ℕ} (h : Mid ops base s0 s ef ev) (hf : Holds ops s pid fd f)
    (h0 : 0 ≤ nfd) (hlt : nfd < ops.nfiles) (hold : ∀ g, old = some g ↔ Holds ops s pid nfd g) :
    Runs (fun _ t => Mid ops base s0 t ef ev ∧ ∃ p, t.procs pid = some p ∧ p.pFiles nfd.toNat = if nfd = fd then some f else none)
      (fun _ => True) (closeOther ops pid fd nfd old) s := by
  obtain ⟨-,-,p,hp,hpf⟩ := hf
  unfold Fs.closeOther
  by_cases hsame : nfd = fd
  · subst hsame
    simp only [ne_eq,not_true_eq_false,and_false,if_false,if_true]
    exact ⟨h,p,hp,hpf⟩
  simp only [if_neg hsame]
  cases old with
  | none =>
    simp only [isSome_none,Bool.false_eq_true,false_and,if_false]
    refine ⟨h,p,hp,?_⟩
    cases hg : p.pFiles nfd.toNat with
    | none => rfl
    | some g => cases (hold g).mpr ⟨h0,hlt,p,hp,hg⟩
  | some g =>
    simp only [isSome_some,true_and,ne_eq,hsame,not_false_eq_true,if_true]
    refine h.doClose.mono ?_ fun _ hu => hu
    rintro (e | n) t ⟨ht,hr⟩
    · exact absurd ((hold g).mp rfl) (hr.2 g)
    · obtain ⟨p',hp',ht'⟩ := hr
      exact ⟨ht,withSlot p' nfd.toNat none,by rw [ht',update_self],withSlot_self _ _ _⟩

theorem doDup2_done {nfd : ℤ} (h : Mid ops base s s 0 0) : Runs (Done ops base s) (fun _ => True) (doDup2 ops pid fd nfd) s := by
  unfold doDup2
  rw [runs_bind]
  refine runs_slot fun x hx => ?_
  cases x with
  | none => exact (Back.refl h).done
  | some f =>
    have hf := (hx f).mp rfl
    dsimp only
    split
    · exact (Back.refl h).done
    rename_i hrange
    refine h.runs_fref.seq ?_
    rintro - t ⟨ht,hpt⟩
    rw [runs_bind]
    refine runs_slot fun old hold => ?_
    have hft : Holds ops t pid fd f := by
      unfold Holds
      rw [hpt]
      exact hf
    refine (ht.closeOther hft (by omega) (by omega) hold).seq ?_
    rintro - t1 ⟨ht1,p,hp,hslot⟩
    refine (ht1.runs_setSlot hp (show nfd.toNat < ops.nfiles by omega) (some f)).seq ?_
    rintro - t2 ⟨ht2,-,-⟩
    rw [hslot] at ht2
    unfold fputSame
    rw [runs_bind]
    by_cases hsame : nfd = fd
    · rw [if_pos hsame] at ht2 ⊢
      refine ht2.runs_fput.mono ?_ fun _ hu => hu
      rintro - u ⟨hu,-⟩
      refine ⟨hu.of_eq ?_ rfl,fun e he => by cases he⟩
      rw [tally_some,zero_add,add_sub_cancel_right,sub_self]
    · rw [if_neg hsame] at ht2 ⊢
      refine ⟨ht2.of_eq ?_ rfl,fun e he => by cases he⟩
      rw [tally_some,tally_none,zero_add,add_zero,sub_self]

/-! ### Calls on paths -/

variable {c : Call}

/-- The calls that only resolve paths and work on directories. -/
theorem pathCall_done (h : Mid ops base s s 0 0) (htr : s.trace = []) (hc : match c with
    | .mknod _ _ _ | .mkdir _ | .rmdir _ | .unlink _ | .link _ _ | .rename _ _ | .stat _ => True
    | _ => False) : Runs (Done ops base s) (fun _ => True) (body ops pid c) s := by
  have hf : (following ops pid False s).holds s [] := Follows.refl htr
  have free : ∀ {s' : Vfs F} {l : List ℕ} {v : ℕ}, (following ops pid False s).holds s' l →
      Runs (fun _ t => (following ops pid False s).holds t l) (following ops pid False s).stops (useVnode v) s' :=
    fun hs => Follows.used hs fun hb => hb.elim
  have hdone : ∀ (r : Ret) t, Follows False s t [] → Done ops base s r t := by
    intro r t ht
    refine ⟨(h.carries ht.carries).of_eq rfl ?_,fun _ _ => ht.carries.procs⟩
    rw [tallyList_nil,add_zero]
  cases c with
  | mknod p mode devid => exact (Ledger.doMknod hf (fun _ _ _ => trivial) fun _ => trivial).mono hdone fun _ _ => trivial
  | mkdir p => exact (Ledger.doMkdir hf (fun _ _ _ _ => trivial) fun _ => trivial).mono hdone fun _ _ => trivial
  | rmdir p => exact (Ledger.doRmdir hf (fun _ _ _ => trivial) fun _ => trivial).mono hdone fun _ _ => trivial
  | unlink p => exact (Ledger.doUnlink hf (fun _ _ _ => trivial) fun _ => trivial).mono hdone fun _ _ => trivial
  | link p q =>
    refine (Ledger.doLink free hf (fun _ _ _ => trivial) (fun _ => trivial) fun _ => trivial).mono ?_ fun _ _ => trivial
    exact fun r t ht => hdone r t ht.1
  | rename p q =>
    exact (Ledger.doRename free hf (fun _ _ _ _ => trivial) (fun _ _ _ => trivial) (fun _ => trivial) fun _ => trivial).mono
      hdone fun _ _ => trivial
  | stat p => exact (Ledger.doStat hf fun _ => trivial).mono hdone fun _ _ => trivial
  | _ => exact hc.elim

theorem Mid.openNamev {p : List Char} {creat : Bool} (h : Mid ops base s0 s ef ev) (htr : s.trace = []) :
    Runs (fun r t => Mid ops base s0 t ef (ev+tallyList some (held id r)) ∧ Carries s t (held id r)) (fun _ => True)
      (openNamev ops pid p creat none) s := by
  refine (Follows.refl (b := False) htr).openNamev.mono (fun r t ht => ?_) fun _ _ => trivial
  have hc := ht.carries
  rw [List.append_nil] at hc
  exact ⟨h.carries hc,hc⟩

theorem Mid.used (h : Mid ops base s0 s ef ev) (v : ℕ) : Mid ops base s0 { s with trace := .use v :: s.trace } ef ev :=
  ⟨⟨h.account.freshFile,h.account.freshPid,h.account.files,h.account.vnodes⟩,h.stable.next,h.stable.like⟩

theorem Mid.runs_vput (h : Mid ops base s0 s ef ev) :
    Runs (fun _ t => Mid ops base s0 t ef (ev - Pi.single v 1) ∧ t.procs = s.procs ∧ t.files = s.files) (fun _ => True)
      (vput (some v)) s := by
  unfold vput note
  rw [runs_bind,runs_need_some]
  refine h.runs_dropRef.seq ?_
  rintro - t ⟨ht,hp,hf⟩
  exact ⟨⟨⟨ht.account.freshFile,ht.account.freshPid,ht.account.files,ht.account.vnodes⟩,ht.stable.next,ht.stable.like⟩,
    hp,hf⟩

theorem doChdir_done {p : List Char} (h : Mid ops base s s 0 0) (htr : s.trace = []) :
    Runs (Done ops base s) (fun _ => True) (doChdir ops pid p) s := by
  unfold doChdir
  refine (h.openNamev htr).seq ?_
  rintro (e | v) t ⟨ht,hc⟩
  · exact ⟨ht.of_eq rfl (by simp [held]),fun _ _ => hc.procs⟩
  have hev : (0 : ℕ → ℤ)+tallyList some (held id (.ok v)) = Pi.single v 1 := by simp [held]
  rw [hev] at ht
  rw [runs_bind]
  change Runs _ _ _ { t with trace := .use v :: t.trace }
  have hu := ht.used v
  split
  · refine hu.runs_vput.seq ?_
    rintro - u ⟨hu',hp,-⟩
    exact ⟨hu'.of_eq rfl (sub_self _),fun _ _ => hp.trans hc.procs⟩
  · rw [runs_bind,runs_get,runs_bind]
    refine runs_of_need fun pr hpr => ?_
    refine hu.runs_dropRef.seq ?_
    rintro - u ⟨hu',hp,-⟩
    have hpu : u.procs pid = some pr := by rw [hp]; exact hpr
    refine ⟨⟨(hu'.account.setProc (hu'.account.pid_lt hpu) _).of_eq ?_ ?_,hu'.stable.of_files rfl rfl⟩,fun e he => by cases he⟩
    · rw [hpu]
      exact add_sub_cancel_right _ _
    · rw [hpu,map_some,map_some,tally_some,tally_some,sub_add_cancel,sub_self]

/-- The end of a `do_open` that fails: the new file is put and its descriptor emptied. -/
theorem openFail_done {newfd : ℕ} {e : Errno} (ht : Mid ops base s t 0 0) (hp : s.procs pid = some p)
    (hlt : newfd < ops.nfiles) (hnone : p.pFiles newfd = none)
    (hpt : t.procs = update s.procs pid (some (withSlot p newfd (some f)))) :
    Runs (fun r u => r = .error e ∧ Done ops base s r u) (fun _ => True)
      (do fput f; setSlot pid newfd none; return .error e) t := by
  refine ht.runs_fput.seq ?_
  rintro - t1 ⟨ht1,hp1⟩
  have hslot : t1.procs pid = some (withSlot p newfd (some f)) := by rw [hp1,hpt,update_self]
  refine (ht1.runs_setSlot hslot hlt none).seq ?_
  rintro - t2 ⟨ht2,-,-,hp2⟩
  refine ⟨rfl,ht2.of_eq ?_ rfl,fun _ _ => ?_⟩
  · rw [withSlot_self,tally_some,tally_none,sub_add_cancel,sub_zero]
  · rw [hp2,hp1,hpt,update_idem]
    have hback : { withSlot p newfd (some f) with
        pFiles := update (withSlot p newfd (some f)).pFiles newfd none } = p := by
      unfold withSlot
      rw [update_idem,← hnone,update_eq_self]
    rw [hback,← hp,update_eq_self]

/-- What a `do_open` that succeeds leaves: the descriptor holds a new file with the mode of
the flags, and a vnode that is a directory only if the flags do not ask for writing. -/
def Opens (ops : Ops F E) (s : Vfs F) (pid : ℕ) (oflags : OFlags) (fd : ℤ) (t : Vfs F) : Prop :=
  ¬ (oflags.wronly ∧ oflags.rdwr) ∧ Holds ops t pid fd s.nextFile ∧ ∃ v, t.files s.nextFile = some ⟨some v,0,modeOf oflags,1⟩ ∧
    (ops.type v = .dir → ¬ (oflags.wronly ∨ oflags.rdwr))

theorem doOpen_spec {p : List Char} {oflags : OFlags} (h : Mid ops base s s 0 0) (htr : s.trace = []) :
    Runs (fun r t => Done ops base s r t ∧ ∀ fd, r = .ok fd → Opens ops s pid oflags fd t) (fun _ => True)
      (doOpen ops pid p oflags) s := by
  have hfail : ∀ (e : Errno) (r : Ret) (t : Vfs F), r = .error e ∧ Done ops base s r t →
      Done ops base s r t ∧ ∀ fd, r = .ok fd → Opens ops s pid oflags fd t := by
    rintro e r t ⟨rfl,hd⟩
    exact ⟨hd,fun fd hfd => by cases hfd⟩
  unfold doOpen
  split
  · exact hfail _ _ _ ⟨rfl,(Back.refl h).done⟩
  rename_i hflags
  rw [runs_bind]
  refine runs_getEmptyFd fun x hempty => ?_
  cases x with
  | none => exact hfail _ _ _ ⟨rfl,(Back.refl h).done⟩
  | some newfd =>
    obtain ⟨pr,hpr,hlt,hnone⟩ := hempty newfd rfl
    dsimp only
    -- the new file, in its descriptor, with its mode
    have hnew : Runs (fun f t => f = s.nextFile ∧ Mid ops base s t (0+Pi.single s.nextFile 1) 0 ∧ t.procs = s.procs ∧
        t.trace = [] ∧ t.files f = some ⟨none,0,⟨false,false,false⟩,1⟩) (fun _ => True) newFile s := by
      refine ⟨rfl,⟨h.account.newFile rfl,Nat.le_succ _,fun g hg file hfile => ?_⟩,rfl,htr,?_⟩
      · change g < s.nextFile at hg
        change update s.files s.nextFile _ g = some file at hfile
        rw [update_of_ne (Nat.ne_of_lt hg)] at hfile
        exact ⟨file,hfile,rfl,fun _ => rfl⟩
      · exact update_self _ _ _
    refine hnew.seq ?_
    rintro f t ⟨hf,ht,hp,htt,hft⟩
    subst hf
    refine (ht.runs_setSlot (by rw [hp,hpr]) hlt (some s.nextFile)).seq ?_
    rintro - t1 ⟨ht1,hf1,htr1,hp1⟩
    rw [hnone,tally_none,tally_some,add_zero,zero_add,sub_self] at ht1
    refine (ht1.runs_modNew le_rfl (hf1 ▸ hft) rfl).seq ?_
    rintro - t2 ⟨ht2,hp2,htr2,hf2⟩
    rw [add_sub_cancel_right] at ht2
    have hprocs : t2.procs = update s.procs pid (some (withSlot pr newfd (some s.nextFile))) := by
      rw [hp2,hp1,hp]
      rfl
    refine (ht2.openNamev (by rw [htr2,htr1,htt])).seq ?_
    rintro (e | v) t3 ⟨ht3,hc⟩
    · have ht3' := ht3.of_eq rfl (show (0 : ℕ → ℤ)+tallyList some (held id (.error e)) = 0 by simp [held])
      exact (openFail_done ht3' hpr hlt hnone (hc.procs.trans hprocs)).mono (hfail e) fun _ hu => hu
    have ht3' := ht3.of_eq rfl (show (0 : ℕ → ℤ)+tallyList some (held id (.ok v)) = Pi.single v 1 by simp [held])
    rw [runs_bind]
    change Runs _ _ _ { t3 with trace := .use v :: t3.trace }
    have hu := ht3'.used v
    split
    · refine hu.runs_vput.seq ?_
      rintro - t4 ⟨ht4,hp4,-⟩
      refine (openFail_done (ht4.of_eq rfl (sub_self _)) hpr hlt hnone ?_).mono (hfail .eisdir) fun _ hu => hu
      exact hp4.trans (hc.procs.trans hprocs)
    next hdir =>
      have hf3 : t3.files s.nextFile = some ⟨none,0,modeOf oflags,1⟩ := by rw [hc.files,hf2]
      refine (hu.runs_modNew le_rfl hf3 rfl).seq ?_
      rintro - t4 ⟨ht4,hp4,-,hf4⟩
      refine ⟨⟨ht4.of_eq rfl ?_,fun e he => by cases he⟩,fun fd hfd => ?_⟩
      · rw [tally_none,add_zero,tally_some,sub_self]
      · cases hfd
        refine ⟨hflags,⟨Int.natCast_nonneg _,by exact_mod_cast hlt,withSlot pr newfd (some s.nextFile),?_,?_⟩,v,hf4,?_⟩
        · rw [hp4]
          change t3.procs pid = _
          rw [hc.procs,hprocs,update_self]
        · rw [Int.toNat_natCast,withSlot_self]
        · exact fun hd hw => hdir ⟨hd,hw⟩

/-! ### Processes -/

/-- The loop of `do_fork` gives the child the files of the parent. -/
theorem copyFds_spec {child : ℕ} (h : Mid ops base s0 s 0 ev) (hne : pid ≠ child) (hp : s.procs pid = some p)
    {c : Process} (hc : s.procs child = some c) (hnone : ∀ fd, c.pFiles fd = none) :
    Runs (fun _ t => Mid ops base s0 t 0 ev ∧ t.procs pid = some p ∧ ∃ c', t.procs child = some c' ∧ c'.pCwd = c.pCwd)
      (fun _ => True) (eachFd (copyFd pid child) ops.nfiles 0) s := by
  let I : ℕ → Vfs F → Prop := fun k t => Mid ops base s0 t 0 ev ∧ t.procs pid = some p ∧
    ∃ c', t.procs child = some c' ∧ c'.pCwd = c.pCwd ∧ ∀ fd, k ≤ fd → c'.pFiles fd = none
  have h0 : I 0 s := ⟨h,hp,c,hc,rfl,fun fd _ => hnone fd⟩
  refine (eachFd_spec h0 fun fd t _ hlt hI => ?_).mono ?_ fun _ hu => hu
  · obtain ⟨ht,hpt,c',hc',hcwd,hrest⟩ := hI
    unfold copyFd
    rw [runs_bind,runs_get,runs_bind,hpt,runs_need_some]
    refine (ht.runs_setSlot hc' (show fd < ops.nfiles by omega) (p.pFiles fd)).seq ?_
    rintro - t1 ⟨ht1,-,-,hp1⟩
    rw [hrest fd le_rfl,tally_none,add_zero,zero_sub] at ht1
    have hpid : t1.procs pid = some p := by rw [hp1,update_of_ne hne,hpt]
    have hchild : t1.procs child = some (withSlot c' fd (p.pFiles fd)) := by rw [hp1,update_self]; rfl
    have hafter : ∀ g, fd+1 ≤ g → (withSlot c' fd (p.pFiles fd)).pFiles g = none := fun g hg => by
      rw [withSlot_of_ne (by omega),hrest g (by omega)]
    have hend : ∀ u : Vfs F, Mid ops base s0 u 0 ev → u.procs = t1.procs → I (fd+1) u := fun u hu hpu =>
      ⟨hu,by rw [hpu,hpid],withSlot c' fd (p.pFiles fd),by rw [hpu,hchild],hcwd,hafter⟩
    cases hf : p.pFiles fd with
    | none =>
      rw [hf,tally_none,neg_zero] at ht1
      exact hend t1 ht1 rfl
    | some f =>
      rw [hf,tally_some] at ht1
      refine ht1.runs_fref.mono ?_ fun _ hu => hu
      rintro - u ⟨hu,hpu⟩
      exact hend u (hu.of_eq (neg_add_cancel _) rfl) hpu
  · rintro - t ⟨ht,hpt,c',hc',hcwd,-⟩
    exact ⟨ht,hpt,c',hc',hcwd⟩

theorem doFork_done (h : Mid ops base s s 0 0) : Runs (Done ops base s) (fun _ => True) (doFork ops pid) s := by
  unfold doFork
  rw [runs_bind,runs_get,runs_bind]
  refine runs_of_need fun p hp => ?_
  refine h.runs_keepRef.seq ?_
  rintro - t ⟨ht,hpt,hnt⟩
  have hne : pid ≠ t.nextPid := by
    have := h.account.pid_lt hp
    omega
  rw [← hnt,runs_bind,runs_modify]
  have hchild : Mid ops base s { t with
      procs := update t.procs t.nextPid (some ⟨fun _ => none,ops.root⟩), nextPid := t.nextPid+1 } 0 0 := by
    refine ⟨(ht.account.newProc ⟨fun _ => none,ops.root⟩).of_eq ?_ ?_,ht.stable.of_files rfl rfl⟩
    · have hnone : slots ops (some ⟨fun _ => none,ops.root⟩) = 0 := Finset.sum_eq_zero fun _ _ => rfl
      rw [hnone,sub_zero]
    · rw [zero_add,sub_self]
  have hparent : (update t.procs t.nextPid (some ⟨fun _ => none,ops.root⟩)) pid = some p := by
    rw [update_of_ne hne,hpt,hp]
  refine (copyFds_spec hchild hne hparent (update_self _ _ _) fun _ => rfl).seq ?_
  rintro - t1 ⟨ht1,hp1,c,hc,hcwd⟩
  refine ht1.runs_dropRef.seq ?_
  rintro - t2 ⟨ht2,hp2,-⟩
  rw [runs_bind,runs_get,runs_bind,hp2,hp1,runs_need_some,runs_bind,runs_modify]
  have hc2 : t2.procs t.nextPid = some c := by rw [hp2,hc]
  have ht3 : Mid ops base s { t2 with
      procs := update t2.procs t.nextPid (some { c with pCwd := p.pCwd }) } 0 (-Pi.single p.pCwd 1) := by
    refine ⟨(ht2.account.setProc (ht2.account.pid_lt hc2) _).of_eq ?_ ?_,ht2.stable.of_files rfl rfl⟩
    · rw [hc2]
      exact add_sub_cancel_right _ _
    · rw [hc2,map_some,map_some,tally_some,tally_some,hcwd,zero_sub,neg_add_cancel,zero_sub]
  rw [hc2,map_some]
  refine ht3.runs_keepRef.seq ?_
  rintro - u ⟨hu,-,-⟩
  exact ⟨hu.of_eq rfl (neg_add_cancel _),fun e he => by cases he⟩

/-- The loop of `proc_cleanup` puts the files of the process. -/
theorem cleanFds_spec (h : Mid ops base s0 s 0 ev) (hp : s.procs pid = some p) :
    Runs (fun _ t => Mid ops base s0 t 0 ev ∧ ∃ p', t.procs pid = some p' ∧ p'.pCwd = p.pCwd ∧ slots ops (some p') = 0)
      (fun _ => True) (eachFd (cleanFd pid) ops.nfiles 0) s := by
  let I : ℕ → Vfs F → Prop := fun k t => Mid ops base s0 t 0 ev ∧
    ∃ p', t.procs pid = some p' ∧ p'.pCwd = p.pCwd ∧ ∀ fd < k, p'.pFiles fd = none
  have h0 : I 0 s := ⟨h,p,hp,rfl,fun fd hfd => absurd hfd (Nat.not_lt_zero _)⟩
  refine (eachFd_spec h0 fun fd t _ hlt hI => ?_).mono ?_ fun _ hu => hu
  · obtain ⟨ht,p',hp',hcwd,hdone⟩ := hI
    unfold cleanFd
    rw [runs_bind,runs_get,runs_bind,hp',runs_need_some]
    have hput : Runs (fun _ u => Mid ops base s0 u (0 - tally (p'.pFiles fd)) ev ∧ u.procs = t.procs) (fun _ => True)
        (fputIf (p'.pFiles fd)) t := by
      cases p'.pFiles fd with
      | none => exact ⟨ht.of_eq (by rw [tally_none,sub_zero]) rfl,rfl⟩
      | some f => exact ht.runs_fput
    refine hput.seq ?_
    rintro - t1 ⟨ht1,hp1⟩
    refine (ht1.runs_setSlot (by rw [hp1,hp']) (show fd < ops.nfiles by omega) none).mono ?_ fun _ hu => hu
    rintro - t2 ⟨ht2,-,-,hp2⟩
    refine ⟨ht2.of_eq (by rw [sub_add_cancel,tally_none,sub_zero]) rfl,withSlot p' fd none,?_,hcwd,fun g hg => ?_⟩
    · rw [hp2,update_self]
      rfl
    · by_cases hne : g = fd
      · rw [hne,withSlot_self]
      · rw [withSlot_of_ne hne,hdone g (by omega)]
  · rintro - t ⟨ht,p',hp',hcwd,hdone⟩
    refine ⟨ht,p',hp',hcwd,Finset.sum_eq_zero fun fd hfd => ?_⟩
    have hlt := Finset.mem_range.mp hfd
    rw [bind_some,hdone fd (by omega),tally_none]

theorem doExit_done (h : Mid ops base s s 0 0) : Runs (Done ops base s) (fun _ => True) (doExit ops pid) s := by
  unfold doExit
  rw [runs_bind,runs_get,runs_bind]
  refine runs_of_need fun p hp => ?_
  refine h.runs_dropRef.seq ?_
  rintro - t ⟨ht,hpt,-⟩
  refine (cleanFds_spec ht (show t.procs pid = some p by rw [hpt,hp])).seq ?_
  rintro - u ⟨hu,p',hp',hcwd,hslots⟩
  refine ⟨⟨(hu.account.setProc (hu.account.pid_lt hp') none).of_eq ?_ ?_,hu.stable.of_files rfl rfl⟩,fun e he => by cases he⟩
  · have hnone : slots ops none = 0 := Finset.sum_eq_zero fun _ _ => rfl
    rw [hp',hslots,hnone,add_zero,sub_zero]
  · rw [hp',map_some,map_none,tally_some,tally_none,hcwd,zero_sub,neg_add_cancel,sub_zero]

/-! ### Every call -/

theorem body_done (h : Mid ops base s s 0 0) (htr : s.trace = []) :
    Runs (Done ops base s) (fun _ => True) (body ops pid c) s := by
  cases c with
  | read fd nbytes => exact h.doRead.mono (fun _ _ ht => ht.done) fun _ ht => ht
  | write fd nbytes => exact h.doWrite.mono (fun _ _ ht => ht.done) fun _ ht => ht
  | lseek fd offset whence => exact h.doLseek.mono (fun _ _ ht => ht.done) fun _ ht => ht
  | getdent fd =>
    change Runs _ _ (doGetdent ops pid fd >>= fun x => pure x.1) s
    exact h.doGetdent.seq fun _ _ ht => ht.done
  | close fd => exact doClose_done h
  | dup fd => exact doDup_done h
  | dup2 ofd nfd => exact doDup2_done h
  | chdir p => exact doChdir_done h htr
  | openFile p oflags => exact (doOpen_spec h htr).mono (fun _ _ ht => ht.1) fun _ ht => ht
  | fork => exact doFork_done h
  | exit => exact doExit_done h
  | mknod p mode devid => exact pathCall_done h htr trivial
  | mkdir p => exact pathCall_done h htr trivial
  | rmdir p => exact pathCall_done h htr trivial
  | unlink p => exact pathCall_done h htr trivial
  | link p q => exact pathCall_done h htr trivial
  | rename p q => exact pathCall_done h htr trivial
  | stat p => exact pathCall_done h htr trivial

/-- A system call by a process, if it returns. -/
def step (ops : Ops F E) (s : Vfs F) (a : ℕ × Call) : Option (Vfs F) :=
  match syscall ops a.1 a.2 s with
  | (some _, t) => some t
  | (none, _) => none

theorem step_eq_some {a : ℕ × Call} (h : step ops s a = some t) : ∃ r, syscall ops a.1 a.2 s = (some r, t) := by
  unfold step at h
  split at h
  next r u hr =>
    cases h
    exact ⟨r,hr⟩
  · cases h

/-- The history plays no part in the accounts. -/
theorem Mid.reset (h : Account ops base s 0 0) : Mid ops base { s with trace := [] } { s with trace := [] } 0 0 :=
  ⟨⟨h.freshFile,h.freshPid,h.files,h.vnodes⟩,Stable.refl _⟩

theorem syscall_done {r : Ret} (h : Account ops base s 0 0) (hr : syscall ops pid c s = (some r, t)) :
    Account ops base t 0 0 ∧ Stable s t ∧ ∀ e, r = .error e → t.procs = s.procs := by
  have hbody : Runs _ _ (body ops pid c) { s with trace := [] } := body_done (Mid.reset h) rfl
  unfold Runs at hbody
  rw [show body ops pid c { s with trace := [] } = (some r, t) from hr] at hbody
  exact ⟨hbody.1.account,⟨hbody.1.stable.next,hbody.1.stable.like⟩,hbody.2⟩

end Csci402.Fs
