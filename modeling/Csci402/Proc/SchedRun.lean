import Csci402.Lib.Run
import Csci402.Proc.SchedCalls

/-! Runs of the scheduler. Every call that the kernel's callers make succeeds and
keeps the invariants, so in every reachable state each live thread but the running
one is on exactly one queue, and the queues serve threads in the order in which
they came. -/

namespace Csci402.Proc.Sched

open Lib

variable {T W : Type*} [DecidableEq T] [DecidableEq W]

/-- Every call that the kernel may make succeeds and keeps the invariant. -/
theorem Inv.step {s : Sched T W} (h : Inv s) {a : Call T W} (ha : Enabled s a) :
    ∃ s', Sched.step s a = some s' ∧ Inv s' := by
  cases a with
  | start t => exact (h.start ha.1 ha.2).imp fun _ h => ⟨h.1,h.2.1⟩
  | yield => exact (h.yield ha).imp fun _ h => ⟨h.1,h.2.1⟩
  | sleepOn w => exact ⟨_,h.sleepOn w ha,(h.sleep w ha (.inl rfl)).1⟩
  | cancellableSleepOn w =>
    by_cases hc : (s.thr s.curthr).ktCancelled = true
    · exact ⟨s,by simp [Sched.step,schedCancellableSleepOn,hc],h⟩
    · have hc : (s.thr s.curthr).ktCancelled = false := by simpa using hc
      exact ⟨_,h.cancellableSleepOn w ha hc,(h.sleep w ha (.inr ⟨rfl,hc⟩)).1⟩
  | wakeupOn w =>
    obtain ⟨_,t,-,ht,he⟩ := h.wakeup ha
    exact ⟨_,by rw [Sched.step,he,Option.map_some],
      h.moved ht (Kthread.withState .run) fun r => ⟨rfl,rfl⟩⟩
  | broadcastOn w =>
    obtain ⟨s',he,hi,-⟩ := broadcastLoop_inv h w (s.queue (.wait w)).tqList.length
    exact ⟨s',he,hi⟩
  | cancel t => exact (h.cancel ha).imp fun _ h => ⟨h.1,h.2.1⟩
  | kthreadCancel t =>
    by_cases ht : t = s.curthr
    · obtain ⟨hs,hl⟩ := ha ht
      subst ht
      exact (h.cancelSelf hs hl).imp fun _ h => ⟨h.1,h.2.1⟩
    · obtain ⟨s',he,hi,-⟩ := h.cancel ht
      exact ⟨s',(kthreadCancel_eq ht).trans he,hi⟩
  | exit => exact (h.exit ha.1 ha.2).imp fun _ h => ⟨h.1,h.2.1⟩
  | threadExited w => exact (h.threadExited w ha).imp fun _ h => ⟨h.1,h.2.1⟩
  | resume =>
    obtain ⟨t,he,-,hi⟩ := h.resume ha.1 ha.2
    exact ⟨_,he,hi⟩

/-! ### Runs -/

/-- The kernel at boot: one thread runs, every other one is new, all queues are empty. -/
structure Initial (s : Sched T W) : Prop where
  running : s.switching = false ∧ s.started s.curthr = true
  new : ∀ t, t ≠ s.curthr → s.started t = false ∧ (s.thr t).ktState = .run
  free : ∀ t, s.exited t = false ∧ (s.thr t).ktWchan = none
  empty : ∀ q, s.queue q = ⟨[],0⟩

omit [DecidableEq T] [DecidableEq W] in
theorem Initial.inv {s : Sched T W} (h : Initial s) : Inv s := by
  refine ⟨⟨?_,?_,?_,?_,?_⟩,fun t => ?_⟩
  any_goals simp [h.empty,h.free]
  by_cases ht : t = s.curthr
  · have := h.free t
    constructor <;> simp_all [h.running,Active]
  · have := h.free t
    have := h.new t ht
    constructor <;> simp_all [Active]

theorem inv_of_exec {s0 s : Sched T W} {as : List (Call T W)} (h0 : Initial s0)
    (h : Exec step Enabled s0 as s) : Inv s :=
  h.invariant h0.inv fun _ _ _ hi ha hs => by
    obtain ⟨t,ht,hi'⟩ := hi.step ha
    exact Option.some.inj (hs.symm.trans ht) ▸ hi'

/-- Queue membership in every reachable state: where a live thread is, the back
pointers and sizes, that no assertion fails, the order of service, and that no
cancelled thread is left in a cancellable sleep. -/
theorem queue_membership {s0 s : Sched T W} {as : List (Call T W)} (h0 : Initial s0) (h : Exec step Enabled s0 as s) :
    (∀ t, s.started t = true → s.exited t = false → ¬ s.Active t →
      ∃ q, (s.thr t).ktWchan = some q ∧
        ∀ q', (s.queue q').tqList.count t = if q' = q then 1 else 0) ∧
    (∀ t, s.Active t ∨ s.exited t = true →
      (s.thr t).ktWchan = none ∧ ∀ q, t ∉ (s.queue q).tqList) ∧
    (∀ q, (s.queue q).tqSize = (s.queue q).tqList.length) ∧
    (∀ a, Enabled s a → (step s a).isSome = true) ∧
    (∀ q t s', ktqueueDequeue q s = some (t, s') →
      t ∈ (s.queue q).tqList ∧ ∀ u ∈ (s.queue q).tqList, u ≠ t → s.stamp t < s.stamp u) ∧
    (∀ w, ∀ t ∈ (s.queue (.wait w)).tqList, (s.thr t).ktState = .sleepCancellable →
      (s.thr t).ktCancelled = false) := by
  have hi := inv_of_exec h0 h
  refine ⟨fun t hs hx ha => ?_,fun t ht => ?_,hi.queues.size,fun a ha => ?_,
    fun q t s' hd => ?_,fun w t ht hk => ?_⟩
  · obtain ⟨q,hq⟩ := Option.ne_none_iff_exists'.mp
      ((hi.threads t).queued hs (by simp [hx]) ha)
    refine ⟨q,hq,fun q' => ?_⟩
    rw [List.Nodup.count (hi.queues.nodup q')]
    simp only [hi.queues.mem,hq,Option.some.injEq,eq_comm]
  · have hw : (s.thr t).ktWchan = none :=
      ht.elim (fun ha => ((hi.threads t).running ha).2.2) fun hx => ((hi.threads t).gone hx).2
    exact ⟨hw,fun q hm => by simp [hi.queues.mem,hw] at hm⟩
  · obtain ⟨s',hs,-⟩ := hi.step ha
    simp [hs]
  · have hne : (s.queue q).tqList ≠ [] := by
      rintro he
      simp [ktqueueDequeue,he] at hd
    obtain ⟨l,t',hl,hd',-⟩ := hi.queues.dequeue hne
    obtain rfl : t' = t := by
      rw [hd'] at hd
      exact congrArg Prod.fst (Option.some.inj hd)
    have hs := hi.queues.sorted q
    rw [hl,List.pairwise_append] at hs
    rw [hl]
    exact ⟨by simp,fun u hu hne => hs.2.2 u (by simpa [hne] using hu) t' (by simp)⟩
  · rcases (hi.threads t).asleep w ((hi.queues.mem _ t).mp ht) with hs | ⟨-,hc⟩
    · simp [hs] at hk
    · exact hc

/-- Three threads at boot. -/
def sampleBoot : Sched (Fin 3) Unit where
  thr _ := ⟨.run,false,none,true⟩
  queue _ := ⟨[],0⟩
  curthr := 0
  switching := false
  started t := t == 0
  exited _ := false
  stamp _ := 0
  clock := 0

/-- Threads 0 and 1 sleep, thread 2 cancels the one and wakes the other and exits. -/
def sampleCalls : List (Call (Fin 3) Unit) :=
  [.start 1,.start 2,.sleepOn (),.resume,.cancellableSleepOn (),.resume,.cancel 1,
    .wakeupOn (),.exit,.threadExited (),.resume]

theorem queue_membership_sampleCalls : ∃ s, Exec step Enabled sampleBoot sampleCalls s ∧
    s.curthr = 1 ∧ (s.queue .runq).tqList = [0] ∧ ∀ q, (s.queue q).tqSize = (s.queue q).tqList.length := by
  have h0 : Initial sampleBoot := ⟨by decide,by decide,by decide,fun _ => rfl⟩
  have h : Exec step Enabled sampleBoot sampleCalls _ := Exec.ofRun rfl
  exact ⟨_,h,rfl,rfl,(queue_membership h0 h).2.2.1⟩

end Csci402.Proc.Sched
