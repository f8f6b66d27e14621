import Mathlib.Data.Fintype.Basic
import Csci402.Proc.ProcRun

/-! Who hears of a dead child. An exit wakes the parent of the process that exits, and hands
its children to the init process, some of which may be dead; so the parent of a dead child
has been woken as long as no dead child is handed to an init process that is not woken.
`do_waitpid` with pid -1 looks at the first child only: it sleeps past a dead child that
stands behind a running one. -/

namespace Csci402.Proc.Kernel

open Lib Function List

variable {P : Type} {max : ℤ} {left : P → Prop} {s t : Kernel P} {p q : P} {xs : List P} {a : Act P}

def IsRunning (s : Kernel P) (q : P) : Prop := ∃ r ∈ s.proc q, r.pState = .running

/-- The threads that slept on `p_wait` of `p` have been woken. -/
def Notified (p : P) (s t : Kernel P) : Prop :=
  (t.sched.queue (.wait (.pWait p))).tqList = [] ∧
    ∀ u ∈ (s.sched.queue (.wait (.pWait p))).tqList, u ∈ (t.sched.queue .runq).tqList

/-- A process that has a dead child exits only as a child of the init process. -/
def NoZombieHandover (s : Kernel P) : Act P → Prop
  | .exit _ => ∀ q, s.parent q = some s.curproc → IsDead s q → s.parent s.curproc = s.procInitproc
  | _ => True

variable [DecidableEq P]

/-- `q` is dead and on the list of children of `p`. -/
def DeadChild (s : Kernel P) (p q : P) : Prop := (∃ xs ∈ children p s, q ∈ xs) ∧ IsDead s q

/-- Exits are whole, the init process exits without children, and no dead child is handed on. -/
def OrderlyRun (max : ℤ) (s : Kernel P) (a : Act P) : Prop :=
  WholeRun max s a ∧ InitAlone s a ∧ NoZombieHandover s a

theorem inv_of_exec {ok : Kernel P → Act P → Prop} {s0 : Kernel P} {as : List (Act P)} (h0 : Initial max s0)
    (hok : ∀ s a, ok s a → OrderlyRun max s a) (h : Exec (step max) ok s0 as s) : ∃ left, KInv left s := by
  induction h with
  | nil => exact ⟨_,h0.inv⟩
  | snoc _ ha hst ih =>
    obtain ⟨left,hinv⟩ := ih
    obtain ⟨⟨hw,he⟩,hi,-⟩ := hok _ _ ha
    obtain ⟨left',hinv',-⟩ := (hinv.effect hw he hi hst).inv hinv
    exact ⟨left',hinv'⟩

/-- The list of a running process holds its children. -/
theorem KInv.children_running (h : KInv left s) (hp : IsRunning s p) :
    ∃ xs, children p s = some xs ∧ ∀ q, q ∈ xs ↔ s.parent q = some p := by
  obtain ⟨r,hr,hrun⟩ := hp
  have hmem : p ∈ s.procList := (h.tree.mem p).mpr (by rw [hr]; rfl)
  obtain ⟨xs,hx,-,hm⟩ := h.tree.children_eq hmem (h.tree.not_left hr hrun)
  exact ⟨xs,hx,hm⟩

theorem KInv.deadChild_iff (h : KInv left s) (hp : IsRunning s p) :
    DeadChild s p q ↔ s.parent q = some p ∧ IsDead s q := by
  obtain ⟨xs,hx,hm⟩ := h.children_running hp
  simp [DeadChild,hx,hm]

/-! ### The effect of a step on dead children -/

theorem isDead_exited {init : P} {k : Links (PLink P)} {status : ℤ} :
    IsDead (handed init xs k (killed status s)) q → q = s.curproc ∨ IsDead s q := by
  rintro ⟨r,hr,hd⟩
  obtain ⟨r0,hr0,hstate⟩ := pState_exited hr
  by_cases hq : q = s.curproc
  · exact .inl hq
  · rw [if_neg hq] at hstate
    exact .inr ⟨r0,hr0,hstate.symm.trans hd⟩

theorem parent_exited {init : P} (k : Links (PLink P)) (status : ℤ)
    (hx : ∀ q, q ∈ xs ↔ s.parent q = some s.curproc) (q : P) :
    (handed init xs k (killed status s)).parent q = if q ∈ xs then some init else s.parent q := by
  rw [parent_handed,parent_killed]
  intro q hq
  rw [proc_killed_isSome]
  exact isSome_of_parent ((hx q).mp hq)

/-- Only an exit gives a process a dead child that it did not have, and then it is the parent
of the process that exits and has been woken. -/
theorem Effect.new_dead (he : Effect max left s a t) (hz : NoZombieHandover s a)
    (hq : t.parent q = some p) (hd : IsDead t q) (hnew : ¬ (s.parent q = some p ∧ IsDead s q)) : Notified p s t := by
  cases he with
  | scheduled moves => exact absurd ⟨hq,hd⟩ hnew
  | @created new pid nextPid k _ awake unused number tree fresh moves =>
    have hq : (Kernel.created new pid nextPid k s).parent q = some p := hq
    have hd : IsDead (Kernel.created new pid nextPid k s) q := hd
    by_cases hqn : q = new
    · -- the new process is running
      simp [IsDead,Kernel.created,hqn] at hd
    · rw [parent_created,if_neg hqn] at hq
      exact absurd ⟨hq,by simpa [IsDead,Kernel.created,hqn] using hd⟩ hnew
  | @reaped _ z k label child dead tree =>
    have hq : (disposed z k s).parent q = some p := hq
    have hd : IsDead (disposed z k s) q := hd
    by_cases hqz : q = z
    · simp [IsDead,disposed,hqz] at hd
    · rw [parent_disposed,if_neg hqz] at hq
      exact absurd ⟨hq,by simpa [IsDead,disposed,hqz] using hd⟩ hnew
  | asleep label list found running awake => exact absurd ⟨hq,hd⟩ hnew
  | echild label => exact absurd ⟨hq,hd⟩ hnew
  | @exited status init w xs k _ _ label awake initproc hx leaves hpar tree grows =>
    subst label
    have hq : (handed init xs k (killed status s)).parent q = some p := hq
    have hd : IsDead (handed init xs k (killed status s)) q := hd
    have hw : p = w := by
      rcases isDead_exited hd with rfl | hds
      · exact Option.some.inj (hq.symm.trans hpar)
      · rw [parent_exited k status hx] at hq hpar
        split at hq
        · -- a dead child is handed to the init process, which is the parent that is woken
          rename_i hqx
          cases hq
          rw [hz q ((hx q).mp hqx) hds,initproc,ite_self] at hpar
          exact Option.some.inj hpar
        · exact absurd ⟨hq,hds⟩ hnew
    subst hw
    exact ⟨leaves.empty,leaves.woken⟩

/-- A running process was running before, or is new. -/
theorem Effect.running (he : Effect max left s a t) (hp : IsRunning t p) : IsRunning s p ∨ s.used p = false := by
  cases he with
  | scheduled moves => exact .inl hp
  | @created new pid nextPid k _ awake unused number tree fresh moves =>
    by_cases hpn : p = new
    · exact .inr (hpn ▸ unused)
    · exact .inl (by simpa [IsRunning,Kernel.created,hpn] using hp)
  | @reaped _ z k label child dead tree =>
    by_cases hpz : p = z
    · simp [IsRunning,disposed,hpz] at hp
    · exact .inl (by simpa [IsRunning,disposed,hpz] using hp)
  | asleep label list found running awake => exact .inl hp
  | echild label => exact .inl hp
  | @exited status init w xs k _ _ label awake initproc hx leaves hpar tree grows =>
    obtain ⟨r,hr,hrun⟩ := hp
    obtain ⟨r0,hr0,hstate⟩ := pState_exited (k := k) hr
    rw [hrun] at hstate
    split at hstate
    · cases hstate
    · exact .inl ⟨r0,hr0,hstate.symm⟩

/-- Each step after which a process has a dead child that it did not have before wakes all
that sleep on its `p_wait`. -/
theorem dead_child_notifies {s0 : Kernel P} {as : List (Act P)} (h0 : Initial max s0)
    (h : Exec (step max) (OrderlyRun max) s0 as s) (ha : OrderlyRun max s a) (hst : step max s a = some t) :
    (∀ p q, t.parent q = some p → IsDead t q → ¬ (s.parent q = some p ∧ IsDead s q) → Notified p s t) ∧
      ∀ p q, IsRunning t p → DeadChild t p q → ¬ DeadChild s p q → Notified p s t := by
  obtain ⟨left,hinv⟩ := inv_of_exec h0 (fun _ _ => id) h
  have heff := hinv.effect ha.1.1 ha.1.2 ha.2.1 hst
  obtain ⟨left',hinv',-⟩ := heff.inv hinv
  refine ⟨fun p q hq hd hnew => heff.new_dead ha.2.2 hq hd hnew,fun p q hp hd hnew => ?_⟩
  obtain ⟨hq,hd⟩ := (hinv'.deadChild_iff hp).mp hd
  refine heff.new_dead ha.2.2 hq hd fun hold => hnew ?_
  rcases heff.running hp with hp | hunused
  · exact (hinv.deadChild_iff hp).mpr hold
  · exact absurd (hinv.tree.used p (.inr ⟨q,hold.1⟩)) (by simp [hunused])

instance (s : Kernel P) (q : P) : Decidable (IsDead s q) :=
  decidable_of_iff ((s.proc q).any fun r => r.pState = .dead) (by
    cases h : s.proc q <;> simp [IsDead,h])

instance (s : Kernel P) : ∀ a : Act P, Decidable (InitAlone s a) := by
  rintro ⟨⟩ <;> unfold InitAlone <;> infer_instance

instance [Fintype P] (s : Kernel P) : ∀ a : Act P, Decidable (NoZombieHandover s a) := by
  rintro ⟨⟩ <;> unfold NoZombieHandover <;> infer_instance

instance [Fintype P] (max : ℤ) (s : Kernel P) (a : Act P) : Decidable (OrderlyRun max s a) :=
  inferInstanceAs (Decidable (_ ∧ _ ∧ _))

/-- The init process `p` waits, and its child `q` runs. -/
def waitingActs (p q : P) : List (Act P) :=
  [.create p,.start p,.waitpid (-1),.resume,.fork q,.waitpid (-1),.resume]

theorem dead_child_notifies_waitingActs : ∃ s t, Exec (step 64) (OrderlyRun 64) bootKernel (waitingActs 1 2) s ∧
    step 64 s (.exit 5) = some t ∧ 1 ∈ (s.sched.queue (.wait (.pWait 1))).tqList ∧ t.parent 2 = some 1 ∧
    IsDead t 2 ∧ Notified 1 s t := by
  have h : Exec (step 64) (OrderlyRun 64) bootKernel (waitingActs 1 2) _ := Exec.ofRun rfl
  refine ⟨_,_,h,rfl,by decide,by decide,by decide,?_⟩
  exact (dead_child_notifies (a := .exit 5) bootKernel_initial h (by decide) rfl).1 1 2 (by decide) (by decide) (by decide)

/-- Process `x` is dead and its parent, process `r`, runs; process `r` is a child of process
`q`, and the init process `p` waits for that one. -/
def zombieActs (p q r x : P) : List (Act P) :=
  [.create p,.start p,.waitpid (-1),.resume,.fork q,.waitpid (-1),.resume,.fork r,.waitpid (-1),.resume,
    .fork x,.yield,.resume,.exit 0,.resume]

/-- When process 3 exits, its dead child becomes one of the init process, which goes on
sleeping: the parent of process 3 is woken. -/
theorem zombie_handed_unheard : ∃ s t, Exec (step 64) (WholeRun 64) bootKernel (zombieActs 1 2 3 4) s ∧
    WholeRun 64 s (.exit 0) ∧ step 64 s (.exit 0) = some t ∧ DeadChild t 1 4 ∧ ¬ DeadChild s 1 4 ∧
    s.pc 1 = .waitpid (-1) ∧ (t.sched.queue (.wait (.pWait 1))).tqList = [1] ∧ ¬ Notified 1 s t := by
  have h : Exec (step 64) (WholeRun 64) bootKernel (zombieActs 1 2 3 4) _ := Exec.ofRun rfl
  refine ⟨_,_,h,by decide,rfl,⟨⟨[2,4],rfl,by decide⟩,by decide⟩,?_,by decide,rfl,?_⟩
  · rintro ⟨⟨xs,hx,hm⟩,-⟩
    cases hx
    exact absurd hm (by decide)
  · rintro ⟨hempty,-⟩
    cases hempty

/-! ### Waiting for any child -/

/-- When `do_waitpid` with pid -1 looks at the children and one of them is dead, the first is. -/
def FirstDead (s : Kernel P) : Act P → Prop
  | .waitpid pid => pid = -1 → ∀ xs ∈ children s.curproc s, (∃ q ∈ xs, IsDead s q) → ∃ q ∈ xs.head?, IsDead s q
  | _ => True

/-- Nobody sleeps in `do_waitpid` with pid -1 while it has a dead child. -/
def Settled (s : Kernel P) : Prop :=
  ∀ p q, s.pc p = .waitpid (-1) → p ∈ (s.sched.queue (.wait (.pWait p))).tqList → s.parent q = some p → ¬ IsDead s q

omit [DecidableEq P] in
/-- With pid -1 every child is asked for, so the first one decides. -/
theorem find?_wanted_any (hm : ∀ q, q ∈ xs ↔ s.parent q = some p) : xs.find? (wanted (-1) s) = xs.head? := by
  cases xs with
  | nil => rfl
  | cons x xs => exact find?_cons_of_pos (wanted_any (isSome_of_parent ((hm x).mp mem_cons_self)))

/-- A process that sleeps in `do_waitpid` did so before, or has just gone to sleep. -/
theorem Effect.settled (h : KInv left s) (he : Effect max left s a t) (hz : NoZombieHandover s a)
    (hf : FirstDead s a) (hs : Settled s) : Settled t := by
  intro p q hpc hmem hpar hdead
  have hold : s.parent q = some p ∧ IsDead s q := by
    by_contra hnew
    rw [(he.new_dead hz hpar hdead hnew).1] at hmem
    exact not_mem_nil hmem
  obtain ⟨hpar,hdead⟩ := hold
  have hkept : s.pc p = .waitpid (-1) → p ∉ (s.sched.queue (.wait (.pWait p))).tqList :=
    fun hpc hmem => hs p q hpc hmem hpar hdead
  cases he with
  | scheduled moves => exact hkept hpc (moves.waiting p ▸ hmem)
  | @created new pid nextPid k _ awake unused number tree fresh moves =>
    have hpc : update s.pc new .user p = .waitpid (-1) := hpc
    by_cases hpn : p = new
    · simp [hpn] at hpc
    · exact hkept (by simpa [hpn] using hpc) (moves.waiting p ▸ hmem)
  | reaped label child dead tree =>
    have hpc : update s.pc s.curproc .user p = .waitpid (-1) := hpc
    by_cases hpn : p = s.curproc
    · simp [hpn] at hpc
    · exact hkept (by simpa [hpn] using hpc) hmem
  | @asleep pid x xs label list found running awake =>
    have hpc : update s.pc s.curproc (.waitpid pid) p = .waitpid (-1) := hpc
    by_cases hpn : p = s.curproc
    · subst hpn
      have hpid : pid = -1 := by simpa using hpc
      subst label hpid
      obtain ⟨ys,hys,-,hm⟩ := h.children_eq awake
      cases list.symm.trans hys
      rw [find?_wanted_any hm] at found
      obtain ⟨z,hz',hzd⟩ := hf rfl xs list ⟨q,(hm q).mpr hpar,hdead⟩
      cases found.symm.trans hz'
      exact running hzd
    · have hq := ((h.sched.sleep (.pWait s.curproc) awake (k := .sleep) (.inl rfl)).2 (.pWait p)
        (by simpa using Ne.symm hpn)).queue
      exact hkept (by simpa [hpn] using hpc) (hq ▸ hmem)
  | echild label =>
    have hpc : update s.pc s.curproc .user p = .waitpid (-1) := hpc
    by_cases hpn : p = s.curproc
    · simp [hpn] at hpc
    · exact hkept (by simpa [hpn] using hpc) hmem
  | @exited status init w xs k sched _ label awake initproc hx leaves hpar' tree grows =>
    have hpc : update s.pc s.curproc .exited p = .waitpid (-1) := hpc
    have hmem : p ∈ (sched.queue (.wait (.pWait p))).tqList := hmem
    by_cases hpn : p = s.curproc
    · simp [hpn] at hpc
    · by_cases hpw : w = p
      · subst hpw
        rw [leaves.empty] at hmem
        exact not_mem_nil hmem
      · rw [leaves.others (.pWait p) (by simpa using hpw)] at hmem
        exact hkept (by simpa [hpn] using hpc) hmem

/-- The runs in which no dead child is handed on and none stands behind a running one when
its parent looks. -/
def WaitingRun (max : ℤ) (s : Kernel P) (a : Act P) : Prop := OrderlyRun max s a ∧ FirstDead s a

theorem settled_of_exec {s0 : Kernel P} {as : List (Act P)} (h0 : Initial max s0)
    (h : Exec (step max) (WaitingRun max) s0 as s) : Settled s := by
  induction h with
  | nil =>
    intro p q _ hmem
    simp [h0.sched.empty] at hmem
  | snoc hex ha hst ih =>
    obtain ⟨left,hinv⟩ := inv_of_exec h0 (fun _ _ => And.left) hex
    obtain ⟨⟨⟨hw,he⟩,hi,hz⟩,hf⟩ := ha
    exact (hinv.effect hw he hi hst).settled hinv hz hf ih

omit [DecidableEq P] in
/-- A process whose thread is on a queue is running. -/
theorem KInv.running_of_queued (h : KInv left s) {w : Queue (WaitQ P)} (hm : p ∈ (s.sched.queue w).tqList) :
    IsRunning s p := by
  have hw := (h.sched.queues.mem w p).mp hm
  have hst := h.sched.started_of_queued (t := p) (by simp [hw])
  have hx : s.sched.exited p = false := by
    by_contra hx
    simpa [hw] using (h.sched.threads p).gone (by simpa using hx)
  obtain ⟨r,hr⟩ := Option.isSome_iff_exists.mp (h.live p hst hx)
  refine ⟨r,hr,?_⟩
  have := h.dead p r hr
  cases hp : r.pState with
  | running => rfl
  | dead => simp [hp,hx] at this

omit [DecidableEq P] in
theorem isRunning_of_not_isDead (hq : (s.proc q).isSome) (hd : ¬ IsDead s q) : IsRunning s q := by
  obtain ⟨r,hr⟩ := Option.isSome_iff_exists.mp hq
  refine ⟨r,hr,?_⟩
  cases hp : r.pState with
  | running => rfl
  | dead => exact absurd ⟨r,hr,hp⟩ hd

/-- No process sleeps in `do_waitpid` with pid -1 while one of its children is dead. The call
disposes of a dead child if there is one, sleeps only when there are children and all of
them run, and fails only when there are none. -/
theorem waitpid_any {s0 : Kernel P} {as : List (Act P)} (h0 : Initial max s0)
    (h : Exec (step max) (WaitingRun max) s0 as s) :
    (∀ p, s.pc p = .waitpid (-1) → p ∈ (s.sched.queue (.wait (.pWait p))).tqList →
      ∃ xs, children p s = some xs ∧ ∀ q ∈ xs, ¬ IsDead s q) ∧
    (WaitingRun max s (.waitpid (-1)) → ∃ xs w, children s.curproc s = some xs ∧ doWaitpid (-1) s = some w ∧
      ((∃ q ∈ xs, IsDead s q) → ∃ q ∈ xs, IsDead s q ∧ ∃ pid status, w.1 = .reaped q pid status) ∧
      (w.1 = .asleep → xs ≠ [] ∧ ∀ q ∈ xs, IsRunning s q) ∧ (w.1 = .echild → xs = [])) := by
  obtain ⟨left,hinv⟩ := inv_of_exec h0 (fun _ _ => And.left) h
  have hset := settled_of_exec h0 h
  refine ⟨fun p hpc hmem => ?_,fun ha => ?_⟩
  · obtain ⟨xs,hx,hm⟩ := hinv.children_running (hinv.running_of_queued hmem)
    exact ⟨xs,hx,fun q hq => hset p q hpc hmem ((hm q).mp hq)⟩
  · obtain ⟨⟨⟨-,hawake,-⟩,-⟩,hf⟩ := ha
    obtain ⟨xs,w,hx,hm,hw,-,hout⟩ := hinv.waitpid max hawake (-1)
    refine ⟨xs,w,hx,hw,?_⟩
    rw [find?_wanted_any hm] at hout
    cases xs with
    | nil =>
      have hout : w.1 = .echild := hout
      exact ⟨fun ⟨q,hq,_⟩ => absurd hq not_mem_nil,fun he => by simp [hout] at he,fun _ => rfl⟩
    | cons x xs =>
      obtain ⟨r,hr,hout⟩ : ∃ r, s.proc x = some r ∧
        w.1 = if r.pState = .dead then .reaped x r.pPid r.pStatus else .asleep := hout
      refine ⟨fun hd => ?_,fun he => ⟨cons_ne_nil x xs,fun q hq => ?_⟩,fun he => ?_⟩
      · obtain ⟨z,hz,r',hr',hd⟩ := hf rfl _ hx hd
        cases hz
        cases hr.symm.trans hr'
        exact ⟨x,mem_cons_self,⟨r,hr,hd⟩,r.pPid,r.pStatus,by rw [hout,if_pos hd]⟩
      · refine isRunning_of_not_isDead (isSome_of_parent ((hm q).mp hq)) fun hd => ?_
        obtain ⟨z,hz,r',hr',hd⟩ := hf rfl _ hx ⟨q,hq,hd⟩
        cases hz
        cases hr.symm.trans hr'
        simp [hout,hd] at he
      · rw [hout] at he
        split at he <;> cases he

instance (s : Kernel P) : ∀ a : Act P, Decidable (FirstDead s a) := by
  rintro ⟨⟩ <;> unfold FirstDead <;> infer_instance

instance [Fintype P] (max : ℤ) (s : Kernel P) (a : Act P) : Decidable (WaitingRun max s a) :=
  inferInstanceAs (Decidable (_ ∧ _))

/-- Process 2 has exited, and its parent looks. -/
theorem waitpid_any_waitingActs : ∃ s w,
    Exec (step 64) (WaitingRun 64) bootKernel (waitingActs 1 2 ++ [.exit 5,.resume]) s ∧ s.curproc = 1 ∧
    children 1 s = some [2] ∧ IsDead s 2 ∧ doWaitpid (-1) s = some w ∧ ∃ pid status, w.1 = .reaped 2 pid status := by
  have h : Exec (step 64) (WaitingRun 64) bootKernel (waitingActs 1 2 ++ [.exit 5,.resume]) _ := Exec.ofRun rfl
  obtain ⟨xs,w,hx,hw,hreap,-⟩ := (waitpid_any bootKernel_initial h).2 (by decide)
  have hxs : some [2] = some xs := hx
  cases hxs
  obtain ⟨q,hq,-,hout⟩ := hreap ⟨2,by decide,by decide⟩
  rw [mem_singleton.mp hq] at hout
  exact ⟨_,w,h,rfl,rfl,by decide,hw,hout⟩

/-- The init process `p` waits for its children, processes `q` and `r`, and the second exits. -/
def secondExitsActs (p q r : P) : List (Act P) :=
  [.create p,.start p,.waitpid (-1),.resume,.fork q,.fork r,.waitpid (-1),.resume,.yield,.resume,.exit 0,
    .resume,.yield,.resume]

/-- The init process goes to sleep again while its second child is dead. -/
theorem second_child_unseen : ∃ s t, Exec (step 64) (WholeRun 64) bootKernel (secondExitsActs 1 2 3) s ∧
    WholeRun 64 s (.waitpid (-1)) ∧ s.curproc = 1 ∧ doWaitpid (-1) s = some (.asleep, t) ∧
    t.pc 1 = .waitpid (-1) ∧ 1 ∈ (t.sched.queue (.wait (.pWait 1))).tqList ∧
    children 1 t = some [2,3] ∧ IsDead t 3 := by
  have h : Exec (step 64) (WholeRun 64) bootKernel (secondExitsActs 1 2 3) _ := Exec.ofRun rfl
  exact ⟨_,_,h,by decide,rfl,rfl,rfl,by decide,rfl,by decide⟩

end Csci402.Proc.Kernel
