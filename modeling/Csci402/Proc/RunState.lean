import Csci402.Proc.SchedRun

/-! The states of threads. A thread should be in state `KT_RUN` whenever it is on the
run queue or running, and asleep only on a wait queue. `sched_wakeup_on` sets the state
before it moves a thread; `sched_cancel` moves a thread without setting it. So the
property holds along the runs in which no thread is cancelled out of a cancellable
sleep, and fails right after such a cancellation. -/

namespace Csci402.Proc.Sched

open Lib Function

variable {T W : Type*}

/-- The state of one thread fits the place where it is. -/
structure StateOk (active : Prop) (r : Kthread W) : Prop where
  running : active → r.ktState = .run
  runnable : r.ktWchan = some .runq → r.ktState = .run
  asleep : r.ktState = .sleep ∨ r.ktState = .sleepCancellable → ∃ w, r.ktWchan = some (.wait w)

def StatesOk (s : Sched T W) : Prop := ∀ t, StateOk (s.Active t) (s.thr t)

variable {s s' : Sched T W}

theorem StatesOk.update (h : StatesOk s) (t : T) (same : ∀ u, u ≠ t → (s'.Active u → s.Active u) ∧ s'.thr u = s.thr u)
    (ht : StateOk (s'.Active t) (s'.thr t)) : StatesOk s' := by
  intro u
  by_cases hu : u = t
  · exact hu ▸ ht
  · obtain ⟨ha,hr⟩ := same u hu
    rw [hr]
    exact ⟨fun hact => (h u).running (ha hact),(h u).runnable,(h u).asleep⟩

/-- A thread in state `KT_RUN` can be anywhere but on a wait queue. -/
theorem StateOk.of_run {active : Prop} {r : Kthread W} (h : r.ktState = .run) : StateOk active r where
  running _ := h
  runnable _ := h
  asleep hs := by
    rw [h] at hs
    exact absurd hs (by decide)

variable [DecidableEq T]

/-- `kthread_clone` of the thread `t`, whose copy gets the record of the new thread `u`. -/
def kthreadClone (t u : T) (s : Sched T W) : Option (Sched T W) :=
  if (s.thr t).ktState = .run then
    some (modify u (fun _ => { s.thr t with ktQlink := false }) s)
  else none

/-- Marking a thread as cancelled changes neither its state nor its place. -/
theorem StatesOk.cancelled (h : StatesOk s) (t : T) : StatesOk (modify t Kthread.cancelled s) := by
  refine h.update t (fun u hu => ⟨id,by simp [modify,hu]⟩) ?_
  have := h t
  simp only [modify,update_self]
  exact ⟨this.running,this.runnable,this.asleep⟩

variable [DecidableEq W]

theorem StatesOk.makeRunnable (h : StatesOk s) {t : T} (ht : (s.thr t).ktState = .run) :
    StatesOk { insertHead .runq t s with started := Function.update s.started t true } := by
  refine h.update t (fun u hu => ⟨id,by simp [insertHead,hu]⟩) (.of_run ?_)
  simpa [insertHead] using ht

omit [DecidableEq T] [DecidableEq W] in
theorem StatesOk.switch (h : StatesOk s) : StatesOk (schedSwitch s) := fun t =>
  ⟨fun ha => absurd ha.1 (by simp [schedSwitch]),(h t).runnable,(h t).asleep⟩

theorem StatesOk.slept (h : StatesOk s) (w : W) (k : KtState) : StatesOk (slept w k s) := by
  refine h.update s.curthr (fun u hu => ⟨fun ha => ?_,slept_thr_of_ne w k hu⟩) ?_
  · exact absurd ha.1 (by simp [Sched.slept,schedSwitch])
  · rw [slept_thr_curthr]
    exact ⟨fun ha => absurd ha.1 (by simp [Sched.slept,schedSwitch]),by rintro ⟨⟩,fun _ => ⟨w,rfl⟩⟩

/-- Waking a thread sets its state. -/
theorem StatesOk.woken (h : StatesOk s) (q : Queue W) (t : T) :
    StatesOk (Sched.moved q t (Kthread.withState .run) s) := by
  refine h.update t (fun u hu => ⟨id,moved_thr_of_ne q hu _ s⟩) (.of_run ?_)
  rw [moved_thr_self]
  rfl

theorem broadcastLoop_statesOk (hi : Inv s) (h : StatesOk s) (w : W) (n : ℕ)
    (hs : broadcastLoop w n s = some s') : StatesOk s' := by
  induction n generalizing s with
  | zero => cases hs; exact h
  | succ n ih =>
    unfold broadcastLoop at hs
    split at hs
    · cases hs
      exact h
    next hw =>
      obtain ⟨_,t,-,ht,he⟩ := hi.wakeup (w := w) (by simpa [schedQueueEmpty] using hw)
      rw [he] at hs
      exact ih (hi.moved ht (Kthread.withState .run) fun r => ⟨rfl,rfl⟩) (h.woken (.wait w) t) hs

theorem StatesOk.switched (h : StatesOk s) {t : T}
    (ht : (s.thr t).ktWchan = some .runq) : StatesOk (switched t s) := by
  refine h.update t (fun u hu => ⟨fun ha => absurd ha.2 hu,switched_thr_of_ne hu s⟩) (.of_run ?_)
  rw [switched_thr_self]
  exact (h t).runnable ht

/-! ### Runs -/

/-- The calls by which a thread exits, or may exit. -/
def Call.exits : Call T W → Bool
  | .exit | .threadExited _ | .kthreadCancel _ => true
  | _ => false

/-- A cancellation that finds the thread in a cancellable sleep. -/
def cancelsSleeper (s : Sched T W) : Call T W → Bool
  | .cancel t => decide ((s.thr t).ktState = .sleepCancellable)
  | _ => false

/-- The calls that move threads between queues while no thread exits. -/
def Scheduling (s : Sched T W) (a : Call T W) : Prop := a.exits = false ∧ Enabled s a

instance (s : Sched T W) (a : Call T W) : Decidable (Scheduling s a) :=
  inferInstanceAs (Decidable (_ ∧ _))

def NoWakingCancel (s : Sched T W) (a : Call T W) : Prop := Scheduling s a ∧ cancelsSleeper s a = false

instance (s : Sched T W) (a : Call T W) : Decidable (NoWakingCancel s a) :=
  inferInstanceAs (Decidable (_ ∧ _))

theorem StatesOk.step (hi : Inv s) (h : StatesOk s) {a : Call T W}
    (ha : NoWakingCancel s a) (hs : Sched.step s a = some s') : StatesOk s' := by
  obtain ⟨⟨hx,ha⟩,hc⟩ := ha
  cases a with
  | start t =>
    obtain ⟨-,hrun,hw⟩ := (hi.threads t).new (by simp [ha.2])
    rw [Sched.step,schedMakeRunnable_eq hw] at hs
    cases hs
    exact h.makeRunnable hrun
  | yield =>
    have hact : s.Active s.curthr := ⟨ha,rfl⟩
    rw [Sched.step,schedMakeRunnable_eq ((hi.threads s.curthr).running hact).2.2] at hs
    cases hs
    exact (h.makeRunnable ((h s.curthr).running hact)).switch
  | sleepOn w =>
    rw [Sched.step,hi.sleepOn w ha] at hs
    cases hs
    exact h.slept w .sleep
  | cancellableSleepOn w =>
    by_cases hd : (s.thr s.curthr).ktCancelled = true
    · simp only [Sched.step,schedCancellableSleepOn,hd,if_true] at hs
      cases hs
      exact h
    · rw [Sched.step,hi.cancellableSleepOn w ha (by simpa using hd)] at hs
      cases hs
      exact h.slept w .sleepCancellable
  | wakeupOn w =>
    obtain ⟨_,t,-,-,he⟩ := hi.wakeup ha
    rw [Sched.step,he] at hs
    cases hs
    exact h.woken (.wait w) t
  | broadcastOn w => exact broadcastLoop_statesOk hi h w _ hs
  | cancel t =>
    obtain ⟨s1,he,-,hcan⟩ := hi.cancel ha
    rw [Sched.step,he] at hs
    cases hs
    rcases hcan with ⟨-,rfl⟩ | ⟨hk,-⟩
    · exact h.cancelled t
    · exact absurd hk (of_decide_eq_false hc)
  | resume =>
    obtain ⟨t,he,ht,-⟩ := hi.resume ha.1 ha.2
    rw [Sched.step,he] at hs
    cases hs
    exact h.switched ht
  | kthreadCancel | exit | threadExited => cases hx

omit [DecidableEq T] [DecidableEq W] in
/-- At boot every thread is as `kthread_create` leaves it. -/
theorem Initial.statesOk (h : Initial s) (hrun : (s.thr s.curthr).ktState = .run) : StatesOk s := by
  intro t
  by_cases ht : t = s.curthr
  · exact ht ▸ .of_run hrun
  · exact .of_run (h.new t ht).2

theorem statesOk_of_exec {s0 : Sched T W} {as : List (Call T W)} (h0 : Initial s0)
    (hrun : (s0.thr s0.curthr).ktState = .run) (h : Exec step NoWakingCancel s0 as s) : Inv s ∧ StatesOk s := by
  induction h with
  | nil => exact ⟨h0.inv,h0.statesOk hrun⟩
  | snoc _ ha hs ih =>
    obtain ⟨v,hv,hi⟩ := ih.1.step ha.1.2
    rw [hs] at hv
    cases hv
    exact ⟨hi,ih.2.step ih.1 ha hs⟩

/-- Along a run in which `sched_cancel` finds no thread in a cancellable sleep, runnable
and running threads are in state `KT_RUN`, so that the running thread can be cloned, and
threads are asleep only on wait queues. -/
theorem runnable_state {s0 s : Sched T W} {as : List (Call T W)} (h0 : Initial s0)
    (hrun : (s0.thr s0.curthr).ktState = .run) (h : Exec step NoWakingCancel s0 as s) :
    (∀ t ∈ (s.queue .runq).tqList, (s.thr t).ktState = .run) ∧
    (s.switching = false → (s.thr s.curthr).ktState = .run ∧
      ∀ u, (kthreadClone s.curthr u s).isSome = true) ∧
    ∀ t, (s.thr t).ktState = .sleep ∨ (s.thr t).ktState = .sleepCancellable →
      ∃ w, t ∈ (s.queue (.wait w)).tqList := by
  obtain ⟨hi,hs⟩ := statesOk_of_exec h0 hrun h
  refine ⟨fun t ht => ?_,fun hsw => ?_,fun t ht => ?_⟩
  · exact (hs t).runnable ((hi.queues.mem _ t).mp ht)
  · have hk := (hs s.curthr).running ⟨hsw,rfl⟩
    exact ⟨hk,fun u => by simp [kthreadClone,hk]⟩
  · obtain ⟨w,hw⟩ := (hs t).asleep ht
    exact ⟨w,(hi.queues.mem _ t).mpr hw⟩

/-- Thread 0 sleeps, thread 1 wakes and cancels it and yields to it. -/
def wakingCalls (x y : T) : List (Call T Unit) :=
  [.start y,.sleepOn (),.resume,.wakeupOn (),.cancel x,.yield,.resume]

theorem runnable_state_wakingCalls : ∃ s, Exec step NoWakingCancel sampleBoot (wakingCalls 0 1) s ∧
    (s.queue .runq).tqList = [1] ∧ s.curthr = 0 ∧ (s.thr 0).ktCancelled = true ∧
    ∀ t ∈ (s.queue .runq).tqList, (s.thr t).ktState = .run := by
  have h0 : Initial sampleBoot := ⟨by decide,by decide,by decide,fun _ => rfl⟩
  have h : Exec step NoWakingCancel sampleBoot (wakingCalls 0 1) _ := Exec.ofRun rfl
  exact ⟨_,h,rfl,rfl,rfl,(runnable_state h0 rfl h).1⟩

/-- Thread 0 is in a cancellable sleep when thread 1 cancels it. -/
def cancellingCalls (x y : T) : List (Call T Unit) :=
  [.start y,.cancellableSleepOn (),.resume,.cancel x]

/-- The cancelled thread is on the run queue, and then runs, in state
`KT_SLEEP_CANCELLABLE`; the assertion of `kthread_clone` fails in it. -/
theorem cancelled_sleeper_state : (∃ s, Exec step Scheduling sampleBoot (cancellingCalls 0 1) s ∧
      (s.queue .runq).tqList = [0] ∧ (s.thr 0).ktState = .sleepCancellable) ∧
    ∃ s, Exec step Scheduling sampleBoot (cancellingCalls 0 1 ++ [.yield,.resume]) s ∧
      s.switching = false ∧ s.curthr = 0 ∧ (s.thr 0).ktState = .sleepCancellable ∧
      (∀ u, kthreadClone s.curthr u s = none) ∧ (s.queue (.wait ())).tqList = [] := by
  have h : Exec step Scheduling sampleBoot (cancellingCalls 0 1) _ := Exec.ofRun rfl
  have h' : Exec step Scheduling sampleBoot (cancellingCalls 0 1 ++ [.yield,.resume]) _ := Exec.ofRun rfl
  exact ⟨⟨_,h,rfl,rfl⟩,_,h',rfl,rfl,rfl,fun _ => rfl,rfl⟩

end Csci402.Proc.Sched
