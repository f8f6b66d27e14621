import Csci402.Proc.SchedInv

/-! What each public function of the scheduler does in a state with the invariants:
it succeeds, keeps the invariants, and touches neither the sleepers of a wait queue
that it does not name nor the threads that are ready to run. Only a cancellation
reaches into any queue. -/

namespace Csci402.Proc.Sched

open Option

variable {T W : Type*}

/-- From `s` to `s'` the wait queue `w` and its sleepers have been left alone, and so
have the records of the threads on the run queue. -/
structure Apart (w : W) (s s' : Sched T W) : Prop where
  queue : s'.queue (.wait w) = s.queue (.wait w)
  kept : ∀ t, (s.thr t).ktWchan = some (.wait w) ∨ (s.thr t).ktWchan = some .runq →
    s'.thr t = s.thr t
  stamp : ∀ t, (s.thr t).ktWchan = some (.wait w) → s'.stamp t = s.stamp t
  clock : s.clock ≤ s'.clock

theorem Apart.refl (w : W) (s : Sched T W) : Apart w s s :=
  ⟨rfl,fun _ _ => rfl,fun _ _ => rfl,Nat.le_refl _⟩

variable {w : W}

theorem Apart.trans {s1 s2 s3 : Sched T W} (h : Apart w s1 s2) (h' : Apart w s2 s3) : Apart w s1 s3 where
  queue := h'.queue.trans h.queue
  kept t ht := by
    have hk := h.kept t ht
    exact (h'.kept t (by rwa [hk])).trans hk
  stamp t ht := (h'.stamp t (by rwa [h.kept t (.inl ht)])).trans (h.stamp t ht)
  clock := Nat.le_trans h.clock h'.clock

variable [DecidableEq T] {s : Sched T W} {t : T}

/-- Changing the record of a thread on no queue, and who runs. -/
theorem Apart.modify (ht : (s.thr t).ktWchan = none) (w : W)
    (f : Kthread W → Kthread W) (c : T) (sw : Bool) (st ex : T → Bool) : Apart w s { Sched.modify t f s with
      curthr := c, switching := sw, started := st, exited := ex } where
  queue := rfl
  kept u hu := by
    have : u ≠ t := by
      rintro rfl
      simp [ht] at hu
    simp [Sched.modify,this]
  stamp _ _ := rfl
  clock := Nat.le_refl _

theorem Inv.exit (h : Inv s) (hs : s.switching = false) (hl : (s.thr s.curthr).ktQlink = false) :
    ∃ s', kthreadExit s = some s' ∧ Inv s' ∧ ∀ w, Apart w s s' := by
  have hok := h.threads s.curthr
  obtain ⟨hst,hx,hw⟩ := hok.running ⟨hs,rfl⟩
  refine ⟨setState s.curthr .exited s,by simp [kthreadExit,setState,Sched.modify,hw,hl],
    h.modify s.curthr _ (fun r => ⟨rfl,rfl⟩) ?_,fun w => .modify hw w _ _ _ _ _⟩
  constructor <;> simp_all [Active]

variable [DecidableEq W]

/-- A thread on no queue goes to another queue than `w`. -/
theorem Apart.insertHead (ht : (s.thr t).ktWchan = none) {q : Queue W}
    (hq : q ≠ .wait w) (c : T) (sw : Bool) (st ex : T → Bool) : Apart w s { Sched.insertHead q t s with
      curthr := c, switching := sw, started := st, exited := ex } where
  queue := by simp [Sched.insertHead,hq.symm]
  kept u hu := by
    have : u ≠ t := by
      rintro rfl
      simp [ht] at hu
    simp [Sched.insertHead,this]
  stamp u hu := by
    have : u ≠ t := by
      rintro rfl
      simp [ht] at hu
    simp [Sched.insertHead,this]
  clock := Nat.le_succ _

/-- A sleeper of another queue than `w` is made runnable. -/
theorem Apart.moved (h : QueueInv s) {w' : W}
    (ht : (s.thr t).ktWchan = some (.wait w')) (hw : w' ≠ w) (f : Kthread W → Kthread W) :
    Apart w s (moved (.wait w') t f s) := by
  have hne : ∀ u, (s.thr u).ktWchan = some (.wait w) ∨ (s.thr u).ktWchan = some .runq → u ≠ t := by
    rintro u hu rfl
    simp [ht,hw] at hu
  have hm : t ∉ (s.queue (.wait w)).tqList := fun hm => hne t (.inl ((h.mem _ t).mp hm)) rfl
  refine ⟨?_,fun u hu => ?_,fun u hu => ?_,Nat.le_succ _⟩
  · simp [Sched.moved,Sched.insertHead,Sched.modify,unlink,List.erase_of_not_mem hm,hw.symm]
  · simp [Sched.moved,Sched.insertHead,Sched.modify,unlink,hne u hu]
  · simp [Sched.moved,Sched.insertHead,Sched.modify,unlink,hne u (.inl hu)]

/-! ### Calls -/

theorem Inv.start (h : Inv s) (hs : s.switching = false) (ht : s.started t = false) :
    ∃ s', schedMakeRunnable t s = some s' ∧ Inv s' ∧ ∀ w, Apart w s s' := by
  have hn := (h.threads t).new (by simp [ht])
  refine ⟨_,schedMakeRunnable_eq hn.2.2,
    ⟨h.queues.makeRunnable hn.2.2,h.threads.update t ?_ ?_⟩,
    fun w => .insertHead hn.2.2 (by simp) ..⟩
  · intro u hu
    simp [Active,insertHead,hu]
  · have : ¬ s.Active t := fun ha => by simpa [ht] using ((h.threads t).running ha).1
    constructor <;> simp_all [Active,insertHead]

theorem Inv.yield (h : Inv s) (hs : s.switching = false) :
    ∃ s', (schedMakeRunnable s.curthr s).map schedSwitch = some s' ∧ Inv s' ∧
      ∀ w, Apart w s s' := by
  obtain ⟨-,hx,hw⟩ := (h.threads s.curthr).running ⟨hs,rfl⟩
  rw [schedMakeRunnable_eq hw]
  refine ⟨_,rfl,⟨(h.queues.makeRunnable hw).control ..,h.threads.update s.curthr ?_ ?_⟩,
    fun w => .insertHead hw (by simp) ..⟩
  · intro u hu
    simp [Active,schedSwitch,insertHead,hu]
  · constructor <;> simp_all [Active,schedSwitch,insertHead]

/-- The running thread has gone to sleep on `w` in state `k`. -/
def slept (w : W) (k : KtState) (s : Sched T W) : Sched T W :=
  schedSwitch (insertHead (.wait w) s.curthr (setState s.curthr k s))

theorem slept_thr_curthr (w : W) (k : KtState) (s : Sched T W) : (slept w k s).thr s.curthr =
      { s.thr s.curthr with ktState := k, ktWchan := some (.wait w), ktQlink := true } := by
  simp [slept,schedSwitch,insertHead,setState,Sched.modify]

theorem slept_thr_of_ne (w : W) (k : KtState) (h : t ≠ s.curthr) : (slept w k s).thr t = s.thr t := by
  simp [slept,schedSwitch,insertHead,setState,Sched.modify,h]

theorem Inv.sleep (h : Inv s) (w : W) (hs : s.switching = false) {k : KtState}
    (hk : k = .sleep ∨ k = .sleepCancellable ∧ (s.thr s.curthr).ktCancelled = false) :
    Inv (slept w k s) ∧ ∀ w', w ≠ w' → Apart w' s (slept w k s) := by
  obtain ⟨hst,hx,hw⟩ := (h.threads s.curthr).running ⟨hs,rfl⟩
  have hset := h.queues.modify s.curthr (Kthread.withState k) fun r => ⟨rfl,rfl⟩
  have hw' : ((setState s.curthr k s).thr s.curthr).ktWchan = none := by
    simpa [setState,Sched.modify] using hw
  refine ⟨⟨(hset.insertHead (.wait w) hw').control ..,h.threads.update s.curthr ?_ ?_⟩,
    fun w' hne => ?_⟩
  · intro u hu
    simp [Active,slept,schedSwitch,insertHead,setState,Sched.modify,hu]
  · constructor <;> simp_all [Active,slept,schedSwitch,insertHead,setState,Sched.modify]
  · exact (Apart.modify hw w' (Kthread.withState k) s.curthr s.switching s.started s.exited).trans
      (.insertHead hw' (by simpa using hne) ..)

theorem Inv.sleepOn (h : Inv s) (w : W) (hs : s.switching = false) : schedSleepOn w s = some (slept w .sleep s) := by
  have hw := ((h.threads s.curthr).running ⟨hs,rfl⟩).2.2
  have he : ktqueueEnqueue (.wait w) s.curthr (setState s.curthr .sleep s) =
      some (insertHead (.wait w) s.curthr (setState s.curthr .sleep s)) := by
    simp [ktqueueEnqueue,setState,Sched.modify,hw]
  -- the second store to `kt_wchan` stores what is there
  rw [schedSleepOn,he,map_some,modify_eq_self,slept]
  simp [insertHead,setState,Sched.modify]

theorem Inv.cancellableSleepOn (h : Inv s) (w : W) (hs : s.switching = false)
    (hc : (s.thr s.curthr).ktCancelled = false) :
    schedCancellableSleepOn w s = some (slept w .sleepCancellable s) := by
  have hw := ((h.threads s.curthr).running ⟨hs,rfl⟩).2.2
  simp [schedCancellableSleepOn,hc,ktqueueEnqueue,setState,Sched.modify,hw,slept]

/-- Waking a non-empty queue takes its oldest thread to the run queue. -/
theorem Inv.wakeup (h : Inv s) (hw : (s.queue (.wait w)).tqList ≠ []) :
    ∃ l t, (s.queue (.wait w)).tqList = l ++ [t] ∧ (s.thr t).ktWchan = some (.wait w) ∧
      schedWakeupOn w s = some (t, Sched.moved (.wait w) t (Kthread.withState .run) s) := by
  obtain ⟨l,t,hl,hd,ht,-⟩ := h.queues.dequeue hw
  have hst : ((Sched.unlink (.wait w) t s).thr t).ktState = .sleep ∨
      ((Sched.unlink (.wait w) t s).thr t).ktState = .sleepCancellable := by
    simpa [Sched.unlink] using ((h.threads t).asleep w ht).imp_right And.left
  refine ⟨l,t,hl,ht,?_⟩
  simp only [schedWakeupOn,hd,if_pos hst]
  rw [schedMakeRunnable_eq (by simp [setState,Sched.modify,Sched.unlink])]
  rfl

theorem broadcastLoop_inv (h : Inv s) (w : W) (n : ℕ) :
    ∃ s', broadcastLoop w n s = some s' ∧ Inv s' ∧ s'.curthr = s.curthr ∧
      s'.switching = s.switching ∧ ∀ w', w ≠ w' → Apart w' s s' := by
  induction n generalizing s with
  | zero => exact ⟨s,rfl,h,rfl,rfl,fun w' _ => .refl w' s⟩
  | succ n ih =>
    by_cases hw : schedQueueEmpty (.wait w) s = true
    · exact ⟨s,by simp [broadcastLoop,hw],h,rfl,rfl,fun w' _ => .refl w' s⟩
    · obtain ⟨_,t,-,ht,he⟩ := h.wakeup (w := w) (by simpa [schedQueueEmpty] using hw)
      obtain ⟨s',hs',hi,hc,hsw,ha⟩ :=
        ih (h.moved ht (Kthread.withState .run) fun r => ⟨rfl,rfl⟩)
      exact ⟨s',by simpa [broadcastLoop,hw,he] using hs',hi,hc,hsw,
        fun w' hne => (Apart.moved h.queues ht hne _).trans (ha w' hne)⟩

theorem schedCancel_eq {q : Queue W} (hk : (s.thr t).ktState = .sleepCancellable) (hq : (s.thr t).ktWchan = some q)
    (hl : (s.thr t).ktQlink = true) : schedCancel t s = some (moved q t Kthread.cancelled s) := by
  have hm : unlink q t (modify t Kthread.cancelled s) =
      modify t Kthread.cancelled (unlink q t s) := by
    simp [unlink,Sched.modify,Kthread.cancelled]
  have hn : ((modify t Kthread.cancelled (unlink q t s)).thr t).ktWchan = none := by
    simp [unlink,Sched.modify]
  have hk' : ((modify t Kthread.cancelled s).thr t).ktState = .sleepCancellable := by
    simpa [Sched.modify] using hk
  have hq' : ((modify t Kthread.cancelled s).thr t).ktWchan = some q := by simpa [Sched.modify] using hq
  have hl' : ((modify t Kthread.cancelled s).thr t).ktQlink = true := by simpa [Sched.modify] using hl
  simp only [schedCancel,hk',hq',ktqueueRemove,hl',if_true,bind_some,hm]
  rw [schedMakeRunnable_eq hn]
  rfl

/-- A cancellation sets the flag and moves a thread in a cancellable sleep to the run
queue; one that is on the run queue in that state is moved to its end. -/
def Cancels (t : T) (s s' : Sched T W) : Prop :=
  (s.thr t).ktState ≠ .sleepCancellable ∧ s' = modify t Kthread.cancelled s ∨
    (s.thr t).ktState = .sleepCancellable ∧ ∃ q, (s.thr t).ktWchan = some q ∧
      s' = moved q t Kthread.cancelled s

theorem Inv.cancel (h : Inv s) (ht : t ≠ s.curthr) : ∃ s', schedCancel t s = some s' ∧ Inv s' ∧ Cancels t s s' := by
  have hok := h.threads t
  by_cases hk : (s.thr t).ktState = .sleepCancellable
  · have hst : s.started t = true := by
      by_contra hst
      simpa [hk] using hok.new hst
    have hq : (s.thr t).ktWchan ≠ none :=
      hok.queued hst (fun hx => by simpa [hk] using hok.gone hx) fun ha => ht ha.2
    obtain ⟨q,hq'⟩ := ne_none_iff_exists'.mp hq
    exact ⟨_,schedCancel_eq hk hq' (h.queues.link t hq),h.moved hq' _ fun r => ⟨rfl,rfl⟩,
      .inr ⟨hk,q,hq',rfl⟩⟩
  · refine ⟨_,by simp [schedCancel,Sched.modify,hk],
      h.modify t Kthread.cancelled (fun r => ⟨rfl,rfl⟩) ?_,.inl ⟨hk,rfl⟩⟩
    exact ⟨hok.running,hok.queued,
      fun w hw => .inl ((hok.asleep w hw).resolve_right fun hc => hk hc.1),hok.new,hok.gone⟩

theorem Inv.threadExited (h : Inv s) (w : W) (hs : s.switching = false) :
    ∃ s', procThreadExited w s = some s' ∧ Inv s' ∧ ∀ w', w ≠ w' → Apart w' s s' := by
  obtain ⟨r,hr,hi,hc,hsw,ha⟩ := broadcastLoop_inv h w (s.queue (.wait w)).tqList.length
  obtain ⟨hst,hx,hw⟩ := (hi.threads r.curthr).running ⟨hsw.trans hs,rfl⟩
  have hq := hi.queues.modify r.curthr (Kthread.withState .exited) fun r => ⟨rfl,rfl⟩
  have he : procThreadExited w s = some { Sched.modify r.curthr (Kthread.withState .exited) r with
      switching := true, exited := Function.update r.exited r.curthr true } := by
    rw [procThreadExited,schedBroadcastOn,hr]
    rfl
  refine ⟨_,he,⟨hq.control ..,hi.threads.update r.curthr ?_ ?_⟩,
    fun w' hne => (ha w' hne).trans (.modify hw w' _ _ _ _ _)⟩
  · intro u hu
    simp [Active,Sched.modify,hu]
  · constructor <;> simp_all [Active,Sched.modify]

/-- `sched_switch` has gone to thread `t`. -/
def switched (t : T) (s : Sched T W) : Sched T W :=
  { unlink .runq t s with curthr := t, switching := false }

theorem switched_thr_self (t : T) (s : Sched T W) :
    (switched t s).thr t = { s.thr t with ktWchan := none, ktQlink := false } := by
  simp [switched,unlink]

theorem switched_thr_of_ne {u : T} (h : u ≠ t) (s : Sched T W) : (switched t s).thr u = s.thr u := by
  simp [switched,unlink,h]

theorem Inv.resume (h : Inv s) (hs : s.switching = true) (hr : (s.queue .runq).tqList ≠ []) :
    ∃ t, Sched.resume s = some (switched t s) ∧ (s.thr t).ktWchan = some .runq ∧
      Inv (switched t s) := by
  obtain ⟨_,t,-,hd,ht,hq⟩ := h.queues.dequeue hr
  have hok := h.threads t
  refine ⟨t,by rw [Sched.resume,hd]; rfl,ht,hq.control ..,h.threads.update t ?_ ?_⟩
  · intro u hu
    simp [Active,switched,Sched.unlink,hu,hs]
  · have hst : s.started t = true := by
      by_contra hst
      simpa [ht] using hok.new hst
    have hx : s.exited t = false := by
      by_contra hx
      simpa [ht] using hok.gone (by simpa using hx)
    constructor <;> simp_all [Active,switched,Sched.unlink]

theorem kthreadCancel_eq (ht : t ≠ s.curthr) : kthreadCancel t s = schedCancel t s := by
  -- both functions set the flag
  have hm : Sched.modify t Kthread.cancelled (Sched.modify t Kthread.cancelled s) =
      Sched.modify t Kthread.cancelled s := by
    simp [Sched.modify,Kthread.cancelled]
  rw [kthreadCancel,if_neg (by simpa [Sched.modify] using ht)]
  simp only [schedCancel,hm]

theorem Inv.cancelSelf (h : Inv s) (hs : s.switching = false) (hl : (s.thr s.curthr).ktQlink = false) :
    ∃ s', kthreadCancel s.curthr s = some s' ∧ Inv s' ∧ ∀ w, Apart w s s' := by
  have hok := h.threads s.curthr
  have hw := (hok.running ⟨hs,rfl⟩).2.2
  have hm : Inv (Sched.modify s.curthr Kthread.cancelled s) :=
    h.modify s.curthr _ (fun r => ⟨rfl,rfl⟩)
      ⟨hok.running,hok.queued,fun w h' => by simp [hw] at h',hok.new,hok.gone⟩
  obtain ⟨s',he,hi,ha⟩ := hm.exit hs (by simpa [Sched.modify] using hl)
  exact ⟨s',by simpa [kthreadCancel,Sched.modify] using he,hi,
    fun w => (Apart.modify hw w _ _ _ _ _).trans (ha w)⟩

end Csci402.Proc.Sched
