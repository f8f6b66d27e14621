import Csci402.Proc.RunState

/-! What the calls of the scheduler do to the threads that have been started and to those
that have exited, for the callers that build processes on them. Only `start` starts a
thread and only an exit ends one. A broadcast leaves nobody on its queue: all that slept
on it are on the run queue. -/

namespace Csci402.Proc.Sched

open Function Option List

variable {T W : Type*}

/-- No thread has been started, and none has ended. -/
structure Quiet (s s' : Sched T W) : Prop where
  started : s'.started = s.started
  exited : s'.exited = s.exited

theorem Quiet.trans {s1 s2 s3 : Sched T W} (h : Quiet s1 s2) (h' : Quiet s2 s3) : Quiet s1 s3 :=
  ⟨h'.started.trans h.started,h'.exited.trans h.exited⟩

variable {s : Sched T W}

theorem Inv.started_of_queued (h : Inv s) {t : T} (ht : (s.thr t).ktWchan ≠ none) : s.started t = true := by
  by_contra hst
  exact ht ((h.threads t).new hst).2.2

variable [DecidableEq T] [DecidableEq W] {s' : Sched T W}

theorem Inv.quiet_yield (h : Inv s) (hs : s.switching = false)
    (he : (schedMakeRunnable s.curthr s).map schedSwitch = some s') : Quiet s s' := by
  obtain ⟨hst,-,hw⟩ := (h.threads s.curthr).running ⟨hs,rfl⟩
  rw [schedMakeRunnable_eq hw] at he
  cases he
  exact ⟨update_eq_self_iff.mpr hst.symm,rfl⟩

theorem Inv.quiet_moved (h : Inv s) {t : T} {q : Queue W}
    (ht : (s.thr t).ktWchan = some q) (f : Kthread W → Kthread W) : Quiet s (Sched.moved q t f s) := by
  have hst := h.started_of_queued (t := t) (by simp [ht])
  exact ⟨update_eq_self_iff.mpr hst.symm,rfl⟩

/-- A sleeper of `w` that is made runnable is not on `w` any more. -/
theorem moved_queue (w : W) (t : T) (f : Kthread W → Kthread W) :
    ((Sched.moved (.wait w) t f s).queue (.wait w)).tqList = (s.queue (.wait w)).tqList.erase t ∧
      ((Sched.moved (.wait w) t f s).queue .runq).tqList = t :: (s.queue .runq).tqList.erase t := by
  simp [Sched.moved,insertHead,Sched.modify,unlink]

theorem broadcastLoop_quiet (h : Inv s) (w : W) (n : ℕ) (he : broadcastLoop w n s = some s') : Quiet s s' := by
  induction n generalizing s with
  | zero =>
    cases he
    exact ⟨rfl,rfl⟩
  | succ n ih =>
    by_cases hw : schedQueueEmpty (.wait w) s = true
    · simp only [broadcastLoop,hw,if_true] at he
      cases he
      exact ⟨rfl,rfl⟩
    · obtain ⟨_,t,-,ht,hwake⟩ := h.wakeup (w := w) (by simpa [schedQueueEmpty] using hw)
      simp only [broadcastLoop,hw,hwake,bind_some] at he
      exact (h.quiet_moved ht _).trans (ih (h.moved ht (Kthread.withState .run) fun _ => ⟨rfl,rfl⟩) he)

/-- The loop takes the threads of the queue to the run queue one after another. -/
theorem broadcastLoop_empty (h : Inv s) (w : W) {n : ℕ}
    (hn : (s.queue (.wait w)).tqList.length ≤ n) (he : broadcastLoop w n s = some s') :
    (s'.queue (.wait w)).tqList = [] ∧
      ∀ u, u ∈ (s.queue (.wait w)).tqList ∨ u ∈ (s.queue .runq).tqList → u ∈ (s'.queue .runq).tqList := by
  induction n generalizing s with
  | zero =>
    have hnil := eq_nil_of_length_eq_zero (Nat.le_zero.mp hn)
    cases he
    rw [hnil]
    exact ⟨rfl,fun u hu => hu.resolve_left not_mem_nil⟩
  | succ n ih =>
    by_cases hw : schedQueueEmpty (.wait w) s = true
    · simp only [broadcastLoop,hw,if_true] at he
      have hnil : (s.queue (.wait w)).tqList = [] := by simpa [schedQueueEmpty] using hw
      cases he
      rw [hnil]
      exact ⟨rfl,fun u hu => hu.resolve_left not_mem_nil⟩
    · obtain ⟨l,t,hl,ht,hwake⟩ := h.wakeup (w := w) (by simpa [schedQueueEmpty] using hw)
      simp only [broadcastLoop,hw,hwake,bind_some] at he
      obtain ⟨hwait,hrun⟩ := moved_queue (s := s) w t (Kthread.withState .run)
      have hlen : ((Sched.moved (.wait w) t (Kthread.withState .run) s).queue (.wait w)).tqList.length ≤ n := by
        rw [hwait,length_erase_of_mem (by simp [hl])]
        omega
      obtain ⟨hempty,hall⟩ := ih (h.moved ht (Kthread.withState .run) fun _ => ⟨rfl,rfl⟩) hlen he
      refine ⟨hempty,fun u hu => hall u ?_⟩
      rw [hwait,hrun]
      by_cases hut : u = t
      · exact .inr (by simp [hut])
      · simpa [mem_erase_of_ne hut,hut] using hu

/-! ### Clone -/

omit [DecidableEq W] in
/-- The running thread is copied to a thread that has not been started. -/
theorem Inv.clone (h : Inv s) {u : T} (hs : s.switching = false)
    (hu : s.started u = false) (he : kthreadClone s.curthr u s = some s') :
    Inv s' ∧ Quiet s s' ∧ s'.queue = s.queue ∧ s'.switching = false := by
  obtain ⟨hst,-,hw⟩ := (h.threads s.curthr).running ⟨hs,rfl⟩
  have hnew := (h.threads u).new (by simp [hu])
  simp only [kthreadClone] at he
  split at he
  next hrun =>
    cases he
    -- the copy is on no queue, as the new thread was
    have hwchan : ∀ t, ((Sched.modify u (fun _ => { s.thr s.curthr with ktQlink := false }) s).thr t).ktWchan =
        (s.thr t).ktWchan := by
      intro t
      by_cases ht : t = u
      · subst ht
        simp [Sched.modify,hw,hnew.2.2]
      · simp [Sched.modify,ht]
    refine ⟨⟨⟨fun q t => ?_,h.queues.sorted,h.queues.size,fun t ht => ?_,fun t ht => ?_⟩,
      h.threads.update u ?_ ?_⟩,⟨rfl,rfl⟩,rfl,hs⟩
    · rw [hwchan]
      exact h.queues.mem q t
    · rw [hwchan] at ht
      have htu : t ≠ u := by
        rintro rfl
        exact ht hnew.2.2
      simpa [Sched.modify,htu] using h.queues.link t ht
    · rw [hwchan] at ht
      exact h.queues.fresh t ht
    · intro t ht
      simp [Active,Sched.modify,ht]
    · have hact : ¬ s.Active u := fun ha => by simpa [hu] using ((h.threads u).running ha).1
      constructor <;> simp_all [Active,Sched.modify]
  · cases he

/-! ### Exit -/

/-- The running thread has exited, and the queue `w` has been woken. -/
structure Leaves (w : W) (s s' : Sched T W) : Prop where
  inv : Inv s'
  started : s'.started = s.started
  exited : s'.exited = update s.exited s.curthr true
  others : ∀ w', w ≠ w' → s'.queue (.wait w') = s.queue (.wait w')
  empty : (s'.queue (.wait w)).tqList = []
  woken : ∀ u ∈ (s.queue (.wait w)).tqList, u ∈ (s'.queue .runq).tqList

/-- The state in which a thread that cancels itself calls `proc_cleanup`. -/
def leaving (s : Sched T W) : Sched T W := setState s.curthr .exited (Sched.modify s.curthr Kthread.cancelled s)

theorem Inv.leaving (h : Inv s) (hs : s.switching = false) (hl : (s.thr s.curthr).ktQlink = false) :
    kthreadCancel s.curthr s = some (leaving s) ∧ Inv (leaving s) := by
  obtain ⟨s',he,hi,-⟩ := h.cancelSelf hs hl
  have hw := ((h.threads s.curthr).running ⟨hs,rfl⟩).2.2
  have heq : kthreadCancel s.curthr s = some (Sched.leaving s) := by
    simp [kthreadCancel,kthreadExit,Sched.leaving,setState,Sched.modify,hw,hl]
  rw [heq] at he
  cases he
  exact ⟨heq,hi⟩

/-- The end of an exit marks the running thread, and only that. -/
theorem Inv.quiet_threadExited (h : Inv s) {w : W} (he : procThreadExited w s = some s') :
    s'.started = s.started ∧ s'.exited = update s.exited s.curthr true := by
  obtain ⟨b,hb,-,hc,-⟩ := broadcastLoop_inv h w (s.queue (.wait w)).tqList.length
  have hq := broadcastLoop_quiet h w _ hb
  rw [procThreadExited,schedBroadcastOn,hb,map_some] at he
  cases he
  refine ⟨hq.started,?_⟩
  show update b.exited b.curthr true = _
  rw [hq.exited,hc]

/-- The two parts of an exit, from the call to the switch. -/
theorem Inv.leaves (h : Inv s) (hs : s.switching = false)
    (hl : (s.thr s.curthr).ktQlink = false) {w : W} (he : procThreadExited w (Sched.leaving s) = some s') :
    Leaves w s s' := by
  have hi := (h.leaving hs hl).2
  obtain ⟨s1,he1,hi1,ha⟩ := hi.threadExited w hs
  cases he.symm.trans he1
  obtain ⟨hstarted,hexited⟩ := hi.quiet_threadExited he
  obtain ⟨b,hb,-⟩ := broadcastLoop_inv hi w ((Sched.leaving s).queue (.wait w)).tqList.length
  obtain ⟨hempty,hwoken⟩ := broadcastLoop_empty hi w (Nat.le_refl _) hb
  rw [procThreadExited,schedBroadcastOn,hb,map_some] at he
  cases he
  exact ⟨hi1,hstarted,hexited,fun w' hw' => (ha w' hw').queue,hempty,fun u hu => hwoken u (.inl hu)⟩

end Csci402.Proc.Sched
