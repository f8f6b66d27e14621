import Csci402.Proc.Reaping

/-! The two parts of `proc_cleanup`. A process is marked as dead before the calls that close
its files and destroy its mappings, which may block, so its parent can find it dead while
its thread is still on the way. When no process that `do_waitpid` comes to is in
`proc_cleanup`, the thread that is destroyed with a child has left it. -/

namespace Csci402.Proc.Kernel

open Lib Function Option

variable {P : Type} {max : ℤ} {s t : Kernel P} {p q new : P} {a : Act P}

/-- What holds of every process between the parts of an exit. -/
structure CInv (s : Kernel P) : Prop where
  sched : s.sched.Inv
  dead : ∀ p, IsDead s p → s.pc p = .cleanup ∨ s.pc p = .exited
  done : ∀ p, s.pc p = .exited → s.sched.exited p = true

theorem Initial.cinv (h : Initial max s) : CInv s := by
  refine ⟨h.sched.inv,fun p ⟨r,hr,hd⟩ => ?_,fun p hp => ?_⟩
  · by_cases hp : p = s.curproc
    · subst hp
      cases h.idle.symm.trans hr
      cases hd
    · rw [h.others p hp] at hr
      cases hr
  · rw [h.pc p] at hp
    cases hp

theorem isDead_iff : IsDead s q ↔ (s.proc q).map ProcT.pState = some .dead := by
  cases h : s.proc q <;> simp [IsDead,h]

variable [DecidableEq P]

/-- The processes that a loop over a list comes to. -/
def scanned (h : PLink P) (k : Links (PLink P)) : ℕ → PLink P → List P
  | 0, _ => []
  | n+1, link =>
    if link = h then [] else match link with
      | .children _ => []
      | .child q => q :: ((k.next (.child q)).map (scanned h k n)).getD []

/-- No process that `do_waitpid` can come to is in `proc_cleanup`. -/
def NoneInCleanup (s : Kernel P) : Act P → Prop
  | .waitpid _ => ∀ first ∈ s.links.next (.children s.curproc),
      ∀ q ∈ scanned (.children s.curproc) s.links (s.procList.length+1) first, s.pc q ≠ .cleanup
  | _ => True

def CleanRun (max : ℤ) (s : Kernel P) (a : Act P) : Prop := Enabled max s a ∧ NoneInCleanup s a

/-! ### The loops -/

/-- The reparenting loop changes parents only. -/
theorem reparent_keeps {init : P} {h link : PLink P} {n : ℕ} (he : reparent init h n link s = some t) :
    t.sched = s.sched ∧ t.pc = s.pc ∧ ∀ p, (t.proc p).map ProcT.pState = (s.proc p).map ProcT.pState := by
  induction n generalizing link s with
  | zero => cases he
  | succ n ih =>
    simp only [reparent] at he
    split at he
    · cases he
      exact ⟨rfl,rfl,fun _ => rfl⟩
    · cases link with
      | children p => cases he
      | child x =>
        simp only [bind_eq_bind,bind_eq_some_iff,modProc,map_eq_some_iff] at he
        obtain ⟨next,-,_,-,k,-,s1,⟨r,hr,rfl⟩,he⟩ := he
        obtain ⟨hsched,hpc,hstate⟩ := ih he
        refine ⟨hsched,hpc,fun p => (hstate p).trans ?_⟩
        by_cases hp : p = x
        · subst hp
          simp [show s.proc p = some r from hr]
        · simp [hp]

/-- What the loop of `do_waitpid` can end with. -/
theorem waitFrom_cases {pid : ℤ} {h link : PLink P} {n : ℕ} {w : Waited P × Kernel P}
    (he : waitFrom pid h n link s = some w) : w = (.echild, { s with pc := update s.pc s.curproc .user }) ∨
      ∃ q r, q ∈ scanned h s.links n link ∧ s.proc q = some r ∧ visit pid q r s = some w := by
  induction n generalizing link with
  | zero => cases he
  | succ n ih =>
    simp only [waitFrom] at he
    split at he
    · exact .inl (some.inj he).symm
    next hlink =>
      cases link with
      | children p => cases he
      | child x =>
        simp only [bind_eq_bind,bind_eq_some_iff] at he
        obtain ⟨next,hnext,r,hr,he⟩ := he
        have hscan : scanned h s.links (n+1) (.child x) = x :: scanned h s.links n next := by
          simp [scanned,hlink,hnext]
        rw [hscan]
        split at he
        · exact .inr ⟨x,r,List.mem_cons_self,hr,he⟩
        · refine (ih he).imp_right ?_
          rintro ⟨q,r',hq,hr',hv⟩
          exact ⟨q,r',List.mem_cons_of_mem x hq,hr',hv⟩

/-! ### Steps -/

omit [DecidableEq P] in
theorem CInv.moves {ok : P → Prop} {sched : Sched P (WaitQ P)} (h : CInv s) (hm : Moves ok s.sched sched) :
    CInv { s with sched } :=
  ⟨hm.inv,h.dead,fun p hp => by rw [hm.exited]; exact h.done p hp⟩

theorem CInv.created {pid nextPid : ℤ} {k : Links (PLink P)} {sched : Sched P (WaitQ P)} {ok : P → Prop} (h : CInv s)
    (hm : Moves ok s.sched sched) : CInv { created new pid nextPid k s with sched } := by
  refine ⟨hm.inv,fun p ⟨r,hr,hd⟩ => ?_,fun p hp => ?_⟩
  · by_cases hpn : p = new
    · have hr : some ⟨pid,some s.curproc,.running,0⟩ = some r := by simpa [Kernel.created,hpn] using hr
      cases hr
      cases hd
    · have := h.dead p ⟨r,by simpa [Kernel.created,hpn] using hr,hd⟩
      simpa [Kernel.created,hpn] using this
  · rw [hm.exited]
    by_cases hpn : p = new
    · simp [Kernel.created,hpn] at hp
    · exact h.done p (by simpa [Kernel.created,hpn] using hp)

/-- A process in its own code or in `do_waitpid` goes on there. -/
theorem CInv.setPc {pc : Pc} (h : CInv s) (hcur : s.pc s.curproc = .user ∨ ∃ pid, s.pc s.curproc = .waitpid pid)
    (hpc : pc ≠ .exited) : CInv { s with pc := update s.pc s.curproc pc } := by
  refine ⟨h.sched,fun p hd => ?_,fun p hp => ?_⟩
  · have hne : p ≠ s.curproc := by
      rintro rfl
      rcases hcur with hcur | ⟨pid,hcur⟩ <;> simpa [hcur] using h.dead _ hd
    simpa [hne] using h.dead p hd
  · by_cases hne : p = s.curproc
    · simp [hne,hpc] at hp
    · exact h.done p (by simpa [hne] using hp)

theorem CInv.disposed (k : Links (PLink P)) (h : CInv s) : CInv (disposed q k s) := by
  refine ⟨h.sched,fun p ⟨r,hr,hd⟩ => h.dead p ⟨r,?_,hd⟩,h.done⟩
  by_cases hpq : p = q
  · simp [Kernel.disposed,hpq] at hr
  · simpa [Kernel.disposed,hpq] using hr

theorem CInv.waitpid {pid : ℤ} {w : Waited P × Kernel P} (h : CInv s) (hs : s.sched.switching = false)
    (hcur : s.pc s.curproc = .user ∨ s.pc s.curproc = .waitpid pid) (he : doWaitpid pid s = some w) : CInv w.2 := by
  have hcur' : s.pc s.curproc = .user ∨ ∃ pid, s.pc s.curproc = .waitpid pid := hcur.imp_right fun hc => ⟨pid,hc⟩
  obtain ⟨first,-,he⟩ := bind_eq_some_iff.mp he
  rcases waitFrom_cases he with rfl | ⟨q,r,-,-,hv⟩
  · exact h.setPc hcur' (by rintro ⟨⟩)
  · rw [visit] at hv
    split at hv
    · simp only [dispose,bind_eq_bind,bind_eq_some_iff] at hv
      obtain ⟨s1,⟨k,-,hs1⟩,hv⟩ := hv
      cases hs1
      cases hv
      exact (h.disposed k).setPc hcur' (by rintro ⟨⟩)
    · rw [h.sched.sleepOn _ hs] at hv
      cases hv
      have hsleep : CInv { s with sched := s.sched.slept (.pWait s.curproc) .sleep } :=
        ⟨(h.sched.sleep _ hs (.inl rfl)).1,h.dead,h.done⟩
      exact hsleep.setPc hcur' (by rintro ⟨⟩)

theorem CInv.exitBegin {status : ℤ} (h : CInv s) (hs : s.sched.switching = false) (hx : MayExit s)
    (he : exitBegin status s = some t) : CInv t ∧ t.sched.switching = false := by
  obtain ⟨init,hi⟩ := ne_none_iff_exists'.mp hx.2.1
  obtain ⟨hcancel,hinv⟩ := h.sched.leaving hs hx.1
  obtain ⟨r,hr⟩ : ∃ r, s.proc s.curproc = some r := by
    cases hr : s.proc s.sched.curthr with
    | some r => exact ⟨r,hr⟩
    | none =>
      have hcur : s.sched.leaving.curthr = s.sched.curthr := rfl
      simp [Kernel.exitBegin,curproc,hcancel,hi,hcur,hr] at he
  rw [exitBegin_eq status h.sched hs hx hr hi] at he
  obtain ⟨first,-,he⟩ := bind_eq_some_iff.mp he
  obtain ⟨s1,hs1,rfl⟩ := map_eq_some_iff.mp he
  obtain ⟨hsched,hpc,hstate⟩ := reparent_keeps hs1
  have hcur : s1.curproc = s.curproc := by rw [curproc,hsched]; rfl
  refine ⟨⟨by rw [hsched]; exact hinv,fun p hd => ?_,fun p hp => ?_⟩,by rw [hsched]; exact hs⟩
  · simp only [hcur,hpc]
    by_cases hpn : p = s.curproc
    · exact .inl (by rw [hpn,update_self])
    · have hd : IsDead s p := by
        rw [isDead_iff] at hd ⊢
        simpa [killed,hpn] using (hstate p).symm.trans hd
      rw [update_of_ne hpn]
      exact h.dead p hd
  · simp only [hcur,hpc] at hp
    rw [hsched]
    by_cases hpn : p = s.curproc
    · simp [hpn] at hp
    · exact h.done p (by simpa [hpn,killed] using hp)

theorem CInv.exitEnd (h : CInv s) (hs : s.sched.switching = false) (he : exitEnd s = some t) : CInv t := by
  simp only [Kernel.exitEnd,bind_eq_bind,bind_eq_some_iff] at he
  obtain ⟨r,-,w,-,_,-,sched,hsched,he⟩ := he
  cases he
  obtain ⟨sched',hsched',hinv,-⟩ := h.sched.threadExited (.pWait w) hs
  cases hsched.symm.trans hsched'
  have hexited := (h.sched.quiet_threadExited hsched).2
  refine ⟨hinv,fun p hd => ?_,fun p hp => ?_⟩
  · by_cases hpn : p = s.curproc
    · exact .inr (by simp [hpn])
    · simpa [hpn] using h.dead p hd
  · rw [hexited]
    by_cases hpn : p = s.sched.curthr
    · rw [hpn,update_self]
    · rw [update_of_ne hpn]
      exact h.done p (by simpa [curproc,hpn] using hp)

theorem CInv.step (h : CInv s) (ha : Enabled max s a) (he : step max s a = some t) : CInv t := by
  cases a with
  | create new =>
    obtain ⟨pid,nextPid,k,-,-,rfl⟩ := procCreate_eq_some he
    have hm : Moves (fun _ => False) s.sched s.sched := ⟨h.sched,fun _ hp => .inl hp,rfl,fun _ => rfl⟩
    exact h.created hm
  | start p =>
    obtain ⟨sched,-,hm,rfl⟩ := startThread_eq_some h.sched ha.1.1 ha.2.1 he
    exact h.moves hm
  | fork new =>
    obtain ⟨pid,nextPid,k,sched,-,hm,rfl⟩ := doFork_eq_some h.sched ha.1.1 ha.2.1.2 he
    exact h.created hm
  | waitpid pid =>
    obtain ⟨w,hw,rfl⟩ := map_eq_some_iff.mp he
    exact h.waitpid ha.1 ha.2 hw
  | exit status =>
    obtain ⟨s1,hs1,hend⟩ := bind_eq_some_iff.mp he
    obtain ⟨h1,hsw⟩ := h.exitBegin ha.1.1 ha.2 hs1
    exact h1.exitEnd hsw hend
  | exitBegin status => exact (h.exitBegin ha.1.1 ha.2 he).1
  | exitEnd => exact h.exitEnd ha.1 he
  | yield =>
    obtain ⟨sched,hsched,rfl⟩ := map_eq_some_iff.mp he
    exact h.moves (.yield (fun _ => False) h.sched ha.1 hsched)
  | block w =>
    obtain ⟨sched,hsched,rfl⟩ := map_eq_some_iff.mp he
    exact h.moves (.block (fun _ => False) h.sched ha.1 hsched)
  | wakeup w =>
    obtain ⟨sched,hsched,rfl⟩ := map_eq_some_iff.mp he
    exact h.moves (.wakeup (fun _ => False) h.sched ha hsched)
  | resume =>
    obtain ⟨u,hu,-,hm⟩ := Moves.resume (fun _ => False) h.sched ha.1 ha.2
    rw [Kernel.step,schedule,hu,map_some,bind_some] at he
    split at he
    · cases he
      exact h.moves hm
    · cases he

/-! ### Runs -/

theorem cinv_of_exec {s0 : Kernel P} {as : List (Act P)} (h0 : Initial max s0)
    (h : Exec (step max) (CleanRun max) s0 as s) : CInv s := by
  induction h with
  | nil => exact h0.cinv
  | snoc _ ha hst ih => exact ih.step ha.1 hst

/-- The thread that `do_waitpid` destroys with a child has left `proc_cleanup`, is in state
`KT_EXITED` and is on no queue. -/
theorem reaped_finished {s0 : Kernel P} {as : List (Act P)} (pid : ℤ) {n status : ℤ} (h0 : Initial max s0)
    (h : Exec (step max) (CleanRun max) s0 as s)
    (ha : CleanRun max s (.waitpid pid)) (hw : doWaitpid pid s = some (.reaped q n status, t)) :
    s.pc q = .exited ∧ (s.sched.thr q).ktState = .exited ∧ (s.sched.thr q).ktWchan = none ∧
      ∀ w, q ∉ (s.sched.queue w).tqList := by
  have hinv := cinv_of_exec h0 h
  obtain ⟨first,hfirst,he⟩ := bind_eq_some_iff.mp hw
  rcases waitFrom_cases he with he | ⟨x,r,hx,hr,hv⟩
  · cases he
  · rw [visit] at hv
    split at hv
    next hd =>
      obtain ⟨s1,-,hv⟩ := bind_eq_some_iff.mp hv
      cases hv
      have hex : s.pc q = .exited := (hinv.dead q ⟨r,hr,hd⟩).resolve_left (ha.2 first hfirst q hx)
      obtain ⟨hstate,hwchan⟩ := (hinv.sched.threads q).gone (hinv.done q hex)
      refine ⟨hex,hstate,hwchan,fun w hm => ?_⟩
      rw [hinv.sched.queues.mem,hwchan] at hm
      cases hm
    · obtain ⟨s1,-,hv⟩ := bind_eq_some_iff.mp hv
      cases hv

instance (s : Kernel P) : ∀ a : Act P, Decidable (NoneInCleanup s a) := by
  rintro ⟨⟩ <;> unfold NoneInCleanup <;> infer_instance

instance (max : ℤ) (s : Kernel P) (a : Act P) : Decidable (CleanRun max s a) := inferInstanceAs (Decidable (_ ∧ _))

/-- Process `q` blocks in `proc_cleanup` while its parent `p` waits, and then completes it. -/
def blockingActs (p q : P) : List (Act P) :=
  [.create p,.start p,.waitpid (-1),.resume,.fork q,.waitpid (-1),.resume,.exitBegin 5,.block 0,.wakeup 0,
    .resume,.exitEnd,.resume]

theorem reaped_finished_blockingActs : ∃ s t, Exec (step 64) (CleanRun 64) bootKernel (blockingActs 1 2) s ∧
    doWaitpid (-1) s = some (.reaped 2 2 5, t) ∧ s.pc 2 = .exited ∧ (s.sched.thr 2).ktState = .exited ∧
    ∀ w, 2 ∉ (s.sched.queue w).tqList := by
  -- the state reached is closed off here, so that applying the theorem does not evaluate it again
  obtain ⟨s,t,h,ha,hw⟩ : ∃ s t, Exec (step 64) (CleanRun 64) bootKernel (blockingActs 1 2) s ∧
      CleanRun 64 s (.waitpid (-1)) ∧ doWaitpid (-1) s = some (.reaped 2 2 5, t) := by
    have h : Exec (step 64) (CleanRun 64) bootKernel (blockingActs 1 2) _ := Exec.ofRun rfl
    exact ⟨_,_,h,by decide,rfl⟩
  obtain ⟨hpc,hstate,-,hq⟩ := reaped_finished (-1) bootKernel_initial h ha hw
  exact ⟨s,t,h,hw,hpc,hstate,hq⟩

/-- Process `q` blocks in `proc_cleanup` while its parent `p` has not looked yet. -/
def unfinishedActs (p q : P) : List (Act P) :=
  [.create p,.start p,.waitpid (-1),.resume,.fork q,.yield,.resume,.exitBegin 5,.block 0,.resume]

/-- The parent disposes of process 2 while its thread sleeps in `proc_cleanup`. -/
theorem reaped_unfinished : ∃ s t, Exec (step 64) (Enabled 64) bootKernel (unfinishedActs 1 2) s ∧
    Enabled 64 s (.waitpid (-1)) ∧ doWaitpid (-1) s = some (.reaped 2 2 5, t) ∧ s.pc 2 = .cleanup ∧
    (s.sched.thr 2).ktState = .sleep ∧ (s.sched.queue (.wait (.other 0))).tqList = [2] := by
  have h : Exec (step 64) (Enabled 64) bootKernel (unfinishedActs 1 2) _ := Exec.ofRun rfl
  exact ⟨_,_,h,by decide,rfl,rfl,rfl,rfl⟩

end Csci402.Proc.Kernel
