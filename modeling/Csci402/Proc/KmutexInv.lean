import Csci402.Proc.Kmutex

/-! The mutex is handed over safely. The invariant says for each place in the lock
functions where the thread is and whether it holds the mutex; each step keeps it and
does one of four things to the wait queue. Order of service follows from the
second part alone. -/

namespace Csci402.Proc.Kmutex

open Lib

variable {T W : Type*}

/-- What is known of a thread at each place, with its record and whether it holds
the mutex. A thread woken inside a lock function holds the mutex, unless it was
cancelled in its sleep. -/
def PlaceOk (km : W) (holds : Prop) (r : Kthread W) : KmPc → Prop
  | .idle | .eintr => ¬ holds ∧ r.ktWchan ≠ some (.wait km)
  | .locked => holds ∧ r.ktWchan ≠ some (.wait km)
  | .inLock => r.ktWchan = some (.wait km) ∧ r.ktState = .sleep ∧ ¬ holds ∨
      r.ktWchan = some .runq ∧ holds
  | .inLockCancellable => r.ktWchan = some (.wait km) ∧ ¬ holds ∨
      r.ktWchan = some .runq ∧ (holds ∨ r.ktCancelled = true)

structure Inv (km : W) (m : Kmutex T W) : Prop where
  sched : m.sched.Inv
  place : ∀ t, PlaceOk km (m.kmHolder = some t) (m.sched.thr t) (m.pc t)
  free : m.kmHolder = none → (m.sched.queue (.wait km)).tqList = []

/-- The invariant for every thread but `t`, whose place is about to be set. -/
structure InvBut (km : W) (t : T) (m : Kmutex T W) : Prop where
  sched : m.sched.Inv
  place : ∀ u, u ≠ t → PlaceOk km (m.kmHolder = some u) (m.sched.thr u) (m.pc u)
  free : m.kmHolder = none → (m.sched.queue (.wait km)).tqList = []

/-- What a step may do to the waiters. -/
inductive Change [DecidableEq T] (km : W) (m m' : Kmutex T W) : Prop
  | keep (h : waiters km m' = waiters km m)
  | join (e : T × ℕ) (he : e.2 = m.sched.clock) (hc : e.2 < m'.sched.clock) (h : waiters km m' = waiters km m ++ [e])
  | grant (e : T × ℕ) (h : waiters km m = e :: waiters km m') (hh : m'.kmHolder = some e.1)
  | withdraw (e : T × ℕ) (he : e ∈ waiters km m) (h : waiters km m' = (waiters km m).filter (· ≠ e))
      (hh : m'.kmHolder ≠ some e.1) (hc : (m'.sched.thr e.1).ktCancelled = true)

variable {km : W} {m : Kmutex T W} {p : KmPc}

/-- Cancelling a thread never takes it from its place. -/
theorem PlaceOk.cancelled {holds : Prop} {r : Kthread W} (h : PlaceOk km holds r p) :
    PlaceOk km holds r.cancelled p := by
  cases p with
  | inLockCancellable => exact h.imp_right fun ⟨hw,_⟩ => ⟨hw,.inr rfl⟩
  | _ => exact h

theorem Inv.but (h : Inv km m) (t : T) : InvBut km t m :=
  ⟨h.sched,fun u _ => h.place u,h.free⟩

theorem Inv.curthr_wchan (h : Inv km m) (hs : m.sched.switching = false) : (m.sched.thr m.curthr).ktWchan = none :=
  ((h.sched.threads m.sched.curthr).running ⟨hs,rfl⟩).2.2

variable [DecidableEq T]

/-- The step is taken, keeps the invariant and has one of the four effects. -/
def Good (km : W) (m : Kmutex T W) (r : Option (Kmutex T W)) : Prop :=
  ∃ m', r = some m' ∧ Inv km m' ∧ Change km m m' ∧ m.sched.clock ≤ m'.sched.clock

theorem InvBut.put {t : T} (h : InvBut km t m)
    (hp : PlaceOk km (m.kmHolder = some t) (m.sched.thr t) p) : Inv km (setPc t p m) := by
  refine ⟨h.sched,fun u => ?_,h.free⟩
  by_cases hu : u = t
  · subst hu
    simpa [setPc] using hp
  · simpa [setPc,hu] using h.place u hu

/-- The running thread takes the free mutex. -/
theorem Inv.take (h : Inv km m) (hs : m.sched.switching = false) (hn : m.kmHolder = none) :
    Good km m (some (setPc m.curthr .locked { m with kmHolder := some m.curthr })) := by
  have hb : InvBut km m.curthr { m with kmHolder := some m.curthr } :=
    ⟨h.sched,fun u hu => by simpa [Ne.symm hu,hn] using h.place u,by simp⟩
  exact ⟨_,rfl,hb.put (by simp [PlaceOk,h.curthr_wchan hs]),.keep rfl,Nat.le_refl _⟩

variable {s : Sched T W}

/-- A step is judged from the state after the switch that began it. -/
theorem Good.of_switched {r : Option (Kmutex T W)}
    (hw : Sched.entries km s = waiters km m) (hc : m.sched.clock = s.clock)
    (h : Good km { m with sched := s } r) : Good km m r := by
  obtain ⟨m',hr,hi,hch,hcl⟩ := h
  have hw : waiters km { m with sched := s } = waiters km m := hw
  refine ⟨m',hr,hi,?_,hc ▸ hcl⟩
  cases hch with
  | keep h => exact .keep (h.trans hw)
  | join e he hlt h => exact .join e (he.trans hc.symm) hlt (hw ▸ h)
  | grant e h hh => exact .grant e (hw ▸ h) hh
  | withdraw e he h hh hf => exact .withdraw e (hw ▸ he) (hw ▸ h) hh hf

/-- A call that leaves the mutex's queue alone leaves every thread at its place. -/
theorem Inv.apart (h : Inv km m) (hi : s.Inv) (ha : Sched.Apart km m.sched s) :
    Good km m (some { m with sched := s }) := by
  refine ⟨_,rfl,⟨hi,fun t => ?_,fun hn => by simp [ha.queue,h.free hn]⟩,
    .keep (ha.entries h.sched.queues),ha.clock⟩
  have hp := h.place t
  have hwait : (s.thr t).ktWchan = some (.wait km) ↔ (m.sched.thr t).ktWchan = some (.wait km) := by
    rw [← hi.queues.mem,ha.queue,h.sched.queues.mem]
  have hkept := ha.kept t
  cases hpc : m.pc t <;> simp only [hpc,PlaceOk] at hp ⊢
  case inLock => rwa [hkept (hp.imp And.left And.left)]
  case inLockCancellable => rwa [hkept (hp.imp And.left And.left)]
  all_goals exact ⟨hp.1,fun hw => hp.2 (hwait.mp hw)⟩

variable [DecidableEq W]

/-- The running thread queues for the mutex. -/
theorem Inv.wait (h : Inv km m) (hs : m.sched.switching = false) (hn : m.kmHolder ≠ none)
    (hc : m.kmHolder ≠ some m.curthr) {k : KtState} (hk : k = .sleep ∧ p = .inLock ∨
      (k = .sleepCancellable ∧ m.cancelled = false) ∧ p = .inLockCancellable) :
    Good km m (some (setPc m.curthr p { m with sched := m.sched.slept km k })) := by
  have hr := Sched.slept_thr_curthr km k m.sched
  have hb : InvBut km m.curthr { m with sched := m.sched.slept km k } :=
    ⟨(h.sched.sleep km hs (hk.imp And.left And.left)).1,
      fun u hu => by simpa [Sched.slept_thr_of_ne km k (s := m.sched) hu] using h.place u,
      fun h' => absurd h' hn⟩
  refine ⟨_,rfl,hb.put ?_,.join (m.curthr, m.sched.clock) rfl (Nat.lt_succ_self _)
    (Sched.entries_slept h.sched.queues km k (h.curthr_wchan hs)),Nat.le_succ _⟩
  rcases hk with ⟨rfl,rfl⟩ | ⟨⟨rfl,-⟩,rfl⟩ <;> simp_all [PlaceOk,curthr]

/-- The running thread gives the mutex up and goes to a place outside. Nothing is
asked of its own place, so that this also serves inside a lock function. -/
theorem InvBut.unlock (h : InvBut km m.curthr m) (hs : m.sched.switching = false)
    (hh : m.kmHolder = some m.curthr) (hk : p = .idle ∨ p = .eintr) :
    Good km m ((kmutexUnlock km m).map (setPc m.curthr p)) := by
  have hw : (m.sched.thr m.curthr).ktWchan = none :=
    ((h.sched.threads m.sched.curthr).running ⟨hs,rfl⟩).2.2
  by_cases hq : (m.sched.queue (.wait km)).tqList = []
  · have he : kmutexUnlock km m = some { m with kmHolder := none } := by
      simp [kmutexUnlock,hh,Sched.schedQueueEmpty,hq]
    have hb : InvBut km m.curthr { m with kmHolder := none } :=
      ⟨h.sched,fun u hu => by simpa [hh,Ne.symm hu] using h.place u hu,fun _ => hq⟩
    rw [he]
    refine ⟨_,rfl,hb.put ?_,.keep rfl,Nat.le_refl _⟩
    rcases hk with rfl | rfl <;> simp [PlaceOk,hw]
  · obtain ⟨l,t,hl,ht,hwake⟩ := h.sched.wakeup hq
    have htc : t ≠ m.curthr := by
      rintro rfl
      simp [hw] at ht
    have he : kmutexUnlock km m = some { m with
        sched := Sched.moved (.wait km) t (Kthread.withState .run) m.sched
        kmHolder := some t } := by
      simp [kmutexUnlock,hh,Sched.schedQueueEmpty,hq,hwake,htc]
    rw [he]
    have hi := h.sched.moved ht (Kthread.withState .run) fun r => ⟨rfl,rfl⟩
    refine ⟨_,rfl,InvBut.put ⟨hi,fun u hu => ?_,by simp⟩ ?_,
      .grant (t, m.sched.stamp t) ?_ rfl,Nat.le_succ _⟩
    · have hpu := h.place u hu
      by_cases hut : u = t
      · -- the woken thread is inside one of the lock functions
        subst hut
        simp only [Sched.moved_thr_self]
        cases hpc : m.pc u <;> simp_all [PlaceOk]
      · simpa [Sched.moved_thr_of_ne _ hut,hh,Ne.symm hu,Ne.symm hut] using hpu
    · rcases hk with rfl | rfl <;> simp [PlaceOk,Sched.moved_thr_of_ne _ htc.symm,hw,htc]
    · have hent := (Sched.entries_moved h.sched.queues ht (Kthread.withState .run)).2
      have hcons := Sched.entries_eq_cons hl
      have hn := h.sched.queues.nodup_entries km
      rw [hcons,List.nodup_cons] at hn
      rw [hcons,List.filter_cons_of_neg (by simp),filter_ne_of_notMem hn.1] at hent
      exact hcons.trans (congrArg _ hent.symm)

theorem Inv.lock (h : Inv km m) (ha : Enabled km m .lock) : Good km m (kmutexLock km m) := by
  obtain ⟨hs,hc⟩ := ha
  rw [kmutexLock,if_neg hc]
  split
  · exact h.take hs ‹_›
  · rw [h.sched.sleepOn km hs]
    exact h.wait hs ‹_› hc (.inl ⟨rfl,rfl⟩)

theorem Inv.lockCancellable (h : Inv km m) (ha : Enabled km m .lockCancellable) :
    Good km m (kmutexLockCancellable km m) := by
  obtain ⟨hs,hc⟩ := ha
  rw [kmutexLockCancellable,if_neg hc]
  split
  · exact ⟨_,rfl,(h.but m.curthr).put (by simp [PlaceOk,hc,h.curthr_wchan hs]),.keep rfl,
      Nat.le_refl _⟩
  next hf =>
    have hf : m.cancelled = false := by simpa using hf
    split
    · exact h.take hs ‹_›
    · rw [h.sched.cancellableSleepOn km hs hf]
      exact h.wait hs ‹_› hc (.inr ⟨⟨rfl,hf⟩,rfl⟩)

theorem Inv.unlock (h : Inv km m) (ha : Enabled km m .unlock) :
    Good km m ((kmutexUnlock km m).map (setPc m.curthr .idle)) :=
  (h.but m.curthr).unlock ha.1 ha.2 (.inl rfl)

theorem Inv.switch (h : Inv km m) (ha : Enabled km m .switch) : Good km m (switch km m) := by
  obtain ⟨t,he,ht,hi⟩ := h.sched.resume ha.1 ha.2
  rw [Kmutex.switch,he,Option.bind_some]
  refine Good.of_switched (Sched.entries_switched h.sched.queues km ht) rfl ?_
  have hp := h.place t
  have hr := Sched.switched_thr_self t m.sched
  generalize hm : ({ m with sched := Sched.switched t m.sched } : Kmutex T W) = m1
  have hb : InvBut km t m1 := by
    subst hm
    refine ⟨hi,fun u hu => ?_,fun hn => ?_⟩
    · rw [Sched.switched_thr_of_ne hu]
      exact h.place u
    · simp [Sched.switched,Sched.unlink,h.free hn]
  have hpc : m1.pc = m.pc := by rw [← hm]
  have hh : m1.kmHolder = m.kmHolder := by rw [← hm]
  have hthr : m1.sched.thr t = (Sched.switched t m.sched).thr t := by rw [← hm]
  have hcur : m1.curthr = t := by rw [← hm]; rfl
  have hcanc : m1.cancelled = (m.sched.thr t).ktCancelled := by
    rw [cancelled,show m1.sched.curthr = t from hcur,hthr,hr]
  -- unless the thread has to unlock, it is given the place `p`
  have put : ∀ p, PlaceOk km (m.kmHolder = some t) ((Sched.switched t m.sched).thr t) p →
      Good km m1 (some (setPc t p m1)) := fun p hp =>
    ⟨_,rfl,hb.put (by rwa [hh,hthr]),.keep rfl,Nat.le_refl _⟩
  have stay : PlaceOk km (m.kmHolder = some t) ((Sched.switched t m.sched).thr t) (m.pc t) →
      Good km m1 (some m1) := fun hp => by
    have := put (m.pc t) hp
    rwa [setPc,← hpc,Function.update_eq_self] at this
  simp only [hcur,hpc]
  cases hpt : m.pc t with
  | inLock => exact put .locked (by simp_all [PlaceOk])
  | inLockCancellable =>
    simp only [lockCancellableWoken,hcanc,hcur,hh]
    by_cases hc : (m.sched.thr t).ktCancelled = true
    · by_cases hht : m.kmHolder = some t
      · subst hcur
        simpa only [hc,hht,if_true] using hb.unlock (by rw [← hm]; rfl) (hh.trans hht) (.inr rfl)
      · simpa [hc,hht] using put .eintr (by simp [PlaceOk,hht,hr])
    · simpa [hc] using put .locked (by simp_all [PlaceOk])
  | idle => exact stay (by simp_all [PlaceOk])
  | locked => exact stay (by simp_all [PlaceOk])
  | eintr => exact stay (by simp_all [PlaceOk])

/-- A cancelled waiter leaves the queue; for every other thread only the flag counts. -/
theorem Inv.cancels (h : Inv km m) (hi : s.Inv) {t : T}
    (hc : Sched.Cancels t m.sched s) : Good km m (some { m with sched := s }) := by
  have hp := h.place t
  rcases hc with ⟨hk,rfl⟩ | ⟨hk,q,hq,rfl⟩
  · refine ⟨_,rfl,⟨hi,fun u => ?_,h.free⟩,.keep rfl,Nat.le_refl _⟩
    by_cases hu : u = t
    · subst hu
      simpa [Sched.modify] using hp.cancelled
    · simpa [Sched.modify,hu] using h.place u
  · have place : ∀ u, PlaceOk km (m.kmHolder = some u)
        ((Sched.moved q t Kthread.cancelled m.sched).thr u) (m.pc u) := fun u => by
      by_cases hu : u = t
      · subst hu
        rw [Sched.moved_thr_self]
        cases hpc : m.pc u <;> simp_all [PlaceOk]
      · rw [Sched.moved_thr_of_ne q hu]
        exact h.place u
    have free : m.kmHolder = none →
        ((Sched.moved q t Kthread.cancelled m.sched).queue (.wait km)).tqList = [] := fun hn => by
      simp [Sched.moved,Sched.insertHead,Sched.modify,Sched.unlink,h.free hn]
    refine ⟨_,rfl,⟨hi,place,free⟩,?_,Nat.le_succ _⟩
    by_cases hqk : q = .wait km
    · subst hqk
      obtain ⟨hm,he⟩ := Sched.entries_moved h.sched.queues hq Kthread.cancelled
      refine .withdraw (t, m.sched.stamp t) hm he ?_ (by simp [Sched.moved_thr_self])
      cases hpc : m.pc t <;> simp_all [PlaceOk]
    · exact .keep (Sched.entries_moved_of_ne h.sched.queues hq hqk _)

end Csci402.Proc.Kmutex
