import Mathlib.Order.Fin.Basic
import Csci402.Proc.KmutexInv

/-! Runs of the mutex: every reachable state is safe, the mutex is never lost while
threads wait, and waiters that are not cancelled get it in the order in which they
queued. -/

namespace Csci402.Proc.Kmutex

open Lib Option List

variable {T W : Type*} [DecidableEq T] [DecidableEq W] {km : W} {m m' : Kmutex T W}

theorem Inv.other (h : Inv km m) {c : Sched.Call T W} (ha : Enabled km m (.other c)) :
    Good km m (step km m (.other c)) := by
  obtain ⟨ha,hv⟩ := ha
  have apart : ∀ {s}, Sched.step m.sched c = some s → s.Inv → Sched.Apart km m.sched s →
      Good km m (step km m (.other c)) := fun he hi hap => by
    rw [step,he]
    exact h.apart hi hap
  have cancels : ∀ {s t}, Sched.step m.sched c = some s → s.Inv → Sched.Cancels t m.sched s →
      Good km m (step km m (.other c)) := fun he hi hc => by
    rw [step,he]
    exact h.cancels hi hc
  cases c with
  | start t =>
    obtain ⟨s,he,hi,hap⟩ := h.sched.start ha.1 ha.2
    exact apart he hi (hap km)
  | yield =>
    obtain ⟨s,he,hi,hap⟩ := h.sched.yield ha
    exact apart he hi (hap km)
  | sleepOn w =>
    have hi := h.sched.sleep w ha (k := .sleep) (.inl rfl)
    exact apart (h.sched.sleepOn w ha) hi.1 (hi.2 km hv)
  | cancellableSleepOn w =>
    by_cases hc : (m.sched.thr m.sched.curthr).ktCancelled = true
    · exact apart (by simp [Sched.step,Sched.schedCancellableSleepOn,hc]) h.sched (.refl km _)
    · have hc : (m.sched.thr m.sched.curthr).ktCancelled = false := by simpa using hc
      have hi := h.sched.sleep w ha (k := .sleepCancellable) (.inr ⟨rfl,hc⟩)
      exact apart (h.sched.cancellableSleepOn w ha hc) hi.1 (hi.2 km hv)
  | wakeupOn w =>
    obtain ⟨_,t,-,ht,he⟩ := h.sched.wakeup ha
    exact apart (by rw [Sched.step,he,map_some]) (h.sched.moved ht (Kthread.withState .run) fun r => ⟨rfl,rfl⟩)
      (.moved h.sched.queues ht hv (Kthread.withState .run))
  | broadcastOn w =>
    obtain ⟨s,he,hi,-,-,hap⟩ :=
      Sched.broadcastLoop_inv h.sched w (m.sched.queue (.wait w)).tqList.length
    exact apart he hi (hap km hv)
  | cancel t =>
    obtain ⟨s,he,hi,hc⟩ := h.sched.cancel ha
    exact cancels he hi hc
  | kthreadCancel t =>
    by_cases ht : t = m.sched.curthr
    · obtain ⟨hs,hl⟩ := ha ht
      subst ht
      obtain ⟨s,he,hi,hap⟩ := h.sched.cancelSelf hs hl
      exact apart he hi (hap km)
    · obtain ⟨s,he,hi,hc⟩ := h.sched.cancel ht
      exact cancels ((Sched.kthreadCancel_eq ht).trans he) hi hc
  | exit =>
    obtain ⟨s,he,hi,hap⟩ := h.sched.exit ha.1 ha.2
    exact apart he hi (hap km)
  | threadExited w =>
    obtain ⟨s,he,hi,hap⟩ := h.sched.threadExited w ha
    exact apart he hi (hap km hv)
  | resume => exact hv.elim

/-- Every allowed step is taken, keeps the invariant and treats the waiters in order. -/
theorem Inv.step (h : Inv km m) {a : Op T W} (ha : Enabled km m a) : Good km m (Kmutex.step km m a) := by
  cases a with
  | lock => exact h.lock ha
  | lockCancellable => exact h.lockCancellable ha
  | unlock => exact h.unlock ha
  | switch => exact h.switch ha
  | other c => exact h.other ha

/-! ### Keeping the mutex -/

omit [DecidableEq W] in
theorem setPc_pc_of_ne {t u : T} (h : u ≠ t) (p : KmPc) (m : Kmutex T W) : (setPc t p m).pc u = m.pc u := by
  simp [setPc,h]

theorem kmutexUnlock_pc (h : kmutexUnlock km m = some m') : m'.pc = m.pc := by
  simp only [kmutexUnlock] at h
  split at h
  · cases h
  · split at h
    · cases h; rfl
    · obtain ⟨r,-,hr⟩ := bind_eq_some_iff.mp h
      split at hr
      · cases hr
      · cases hr; rfl

/-- `sched_switch` only moves a thread that is inside a lock function. -/
theorem switch_pc (h : switch km m = some m') {t : T} (ht : m.pc t = .locked) : m'.pc t = .locked := by
  obtain ⟨s,-,h⟩ := bind_eq_some_iff.mp h
  have hne : ∀ {u p}, m.pc u = p → p ≠ .locked → t ≠ u := by
    rintro u p rfl hp rfl
    exact hp ht
  simp only at h
  split at h
  next hp =>
    cases h
    exact (setPc_pc_of_ne (hne hp (by simp)) _ _).trans ht
  next hp =>
    have hc := hne hp (by simp)
    simp only [lockCancellableWoken] at h
    split at h
    · obtain ⟨m1,h1,rfl⟩ := map_eq_some_iff.mp h
      rw [setPc_pc_of_ne hc]
      split at h1
      · rw [kmutexUnlock_pc h1]
        exact ht
      · cases h1
        exact ht
    · cases h
      exact (setPc_pc_of_ne hc _ _).trans ht
  · cases h
    exact ht

/-- A thread that has the mutex stays at its place until it unlocks. -/
theorem step_pc (h : Inv km m) {a : Op T W} (ha : Enabled km m a)
    (hs : Kmutex.step km m a = some m') {t : T} (ht : m.pc t = .locked) :
    m'.pc t = .locked ∨ a = .unlock ∧ m.curthr = t := by
  have hh : m.kmHolder = some t := by
    have := h.place t
    rw [ht] at this
    exact this.1
  cases a with
  | lock =>
    have hne : t ≠ m.curthr := by
      rintro rfl
      exact ha.2 hh
    rw [Kmutex.step,kmutexLock,if_neg ha.2,if_neg (by simp [hh])] at hs
    obtain ⟨s,-,rfl⟩ := map_eq_some_iff.mp hs
    exact .inl ((setPc_pc_of_ne hne _ _).trans ht)
  | lockCancellable =>
    have hne : t ≠ m.curthr := by
      rintro rfl
      exact ha.2 hh
    rw [Kmutex.step,kmutexLockCancellable,if_neg ha.2] at hs
    split at hs
    · cases hs
      exact .inl ((setPc_pc_of_ne hne _ _).trans ht)
    · rw [if_neg (by simp [hh])] at hs
      obtain ⟨s,-,rfl⟩ := map_eq_some_iff.mp hs
      exact .inl ((setPc_pc_of_ne hne _ _).trans ht)
  | unlock => exact .inr ⟨rfl,some.inj (ha.2.symm.trans hh)⟩
  | switch => exact .inl (switch_pc hs ht)
  | other c =>
    obtain ⟨s,-,rfl⟩ := map_eq_some_iff.mp hs
    exact .inl ht

/-! ### Order of service -/

/-- The logs after one more step. -/
theorem Change.fifo {arrived served gone : List (T × ℕ)} {a : Op T W}
    (hs : Kmutex.step km m a = some m') (hc : Change km m m') (hn : (waiters km m).Nodup)
    (hf : Fifo arrived served gone (waiters km m)) (hb : ∀ e ∈ arrived, e.2 < m.sched.clock)
    (hle : m.sched.clock ≤ m'.sched.clock) :
    Fifo (arrived ++ queued km m a) (served ++ granted km m a) (gone ++ withdrawn km m a)
        (waiters km m') ∧
      ∀ e ∈ arrived ++ queued km m a, e.2 < m'.sched.clock := by
  have hb' : ∀ e ∈ arrived, e.2 < m'.sched.clock := fun e he => Nat.lt_of_lt_of_le (hb e he) hle
  simp only [queued,granted,withdrawn,hs]
  cases hc with
  | keep h => exact ⟨by simpa [h] using hf,by simpa [h] using fun t n => hb' (t, n)⟩
  | join e he hlt h =>
    have hfresh : e ∉ arrived := fun hm => absurd (hb e hm) (by omega)
    have hw : e ∉ waiters km m := fun hm => hfresh (by
      have : e ∈ served ++ waiters km m := mem_append_right _ hm
      rw [hf.order] at this
      exact mem_of_mem_filter this)
    rw [h,joined_concat hw,parted_concat]
    refine ⟨by simpa using hf.join hfresh,fun x hx => ?_⟩
    rcases mem_append.mp hx with hx | hx
    · exact hb' x hx
    · rwa [mem_singleton.mp hx]
  | grant e h hh =>
    have hne : e ∉ waiters km m' := by
      rw [h,nodup_cons] at hn
      exact hn.1
    have he : waiters km m' = (waiters km m).filter (· ≠ e) := by
      rw [h,filter_cons_of_neg (by simp),filter_ne_of_notMem hne]
    rw [he,joined_filter,parted_filter hn (by simp [h]),← he]
    exact ⟨by simpa [hh] using (h ▸ hf).serve,by simpa using fun t n => hb' (t, n)⟩
  | withdraw e he h hh hcan =>
    rw [h,joined_filter,parted_filter hn he]
    exact ⟨by simpa [hh,hcan] using hf.withdraw he,by simpa using fun t n => hb' (t, n)⟩

/-! ### Runs -/

/-- No thread has used the mutex yet. -/
structure Initial (m : Kmutex T W) : Prop where
  sched : m.sched.Initial
  holder : m.kmHolder = none
  pc : ∀ t, m.pc t = .idle

omit [DecidableEq T] [DecidableEq W] in
theorem Initial.inv (h : Initial m) : Inv km m := by
  refine ⟨h.sched.inv,fun t => ?_,fun _ => by simp [h.sched.empty]⟩
  simp [h.pc t,PlaceOk,h.holder,(h.sched.free t).2]

theorem inv_of_exec {m0 : Kmutex T W} {as : List (Op T W)} (h0 : Initial m0)
    (h : Exec (step km) (Enabled km) m0 as m) : Inv km m :=
  h.invariant h0.inv fun _ _ _ hi ha hs => by
    obtain ⟨m1,h1,hi',-⟩ := hi.step ha
    exact some.inj (hs.symm.trans h1) ▸ hi'

/-- The logs of a whole run. -/
theorem fifo_of_exec {m0 : Kmutex T W} {as : List (Op T W)} (h0 : Initial m0)
    (h : Exec (step km) (Enabled km) m0 as m) :
    Fifo (observe (step km) (queued km) m0 as) (observe (step km) (granted km) m0 as)
        (observe (step km) (withdrawn km) m0 as) (waiters km m) ∧
      ∀ e ∈ observe (step km) (queued km) m0 as, e.2 < m.sched.clock := by
  induction h with
  | nil => simpa [observe,waiters,Sched.entries,h0.sched.empty] using Fifo.nil
  | snoc hx ha hs ih =>
    have hi := inv_of_exec h0 hx
    obtain ⟨m1,h1,-,hc,hle⟩ := hi.step ha
    obtain rfl := some.inj (hs.symm.trans h1)
    rw [observe_snoc hx,observe_snoc hx,observe_snoc hx]
    exact hc.fifo hs (hi.sched.queues.nodup_entries km) ih.1 ih.2 hle

/-- Mutex safety in every reachable state: a thread whose lock call has succeeded is
the holder and stays so until it unlocks, one whose call was interrupted neither
holds the mutex nor waits for it, the mutex is not free while threads wait, no
assertion fails, and the waiters are served in the order in which they queued, but
for those that were cancelled. -/
theorem mutex_safety {m0 : Kmutex T W} {as : List (Op T W)} (h0 : Initial m0)
    (h : Exec (step km) (Enabled km) m0 as m) : (∀ t, m.pc t = .locked → m.kmHolder = some t ∧
      ∀ a m', Enabled km m a → step km m a = some m' →
        m'.kmHolder = some t ∧ m'.pc t = .locked ∨ a = .unlock ∧ m.curthr = t) ∧
    (∀ t, m.pc t = .eintr →
      m.kmHolder ≠ some t ∧ t ∉ (m.sched.queue (.wait km)).tqList) ∧
    (m.kmHolder = none → (m.sched.queue (.wait km)).tqList = []) ∧
    (∀ a, Enabled km m a → (step km m a).isSome = true) ∧
    observe (step km) (granted km) m0 as ++ waiters km m =
      (observe (step km) (queued km) m0 as).filter
        (· ∉ observe (step km) (withdrawn km) m0 as) := by
  have hi := inv_of_exec h0 h
  have holds : ∀ {m : Kmutex T W}, Inv km m → ∀ {t}, m.pc t = .locked → m.kmHolder = some t :=
    fun {m} hi {t} ht => by
      have := hi.place t
      rw [ht] at this
      exact this.1
  refine ⟨fun t ht => ⟨holds hi ht,fun a m' ha hs => ?_⟩,fun t ht => ?_,hi.free,fun a ha => ?_,
    (fifo_of_exec h0 h).1.order.trans
      (filter_congr fun _ _ => decide_eq_decide.mpr Iff.rfl)⟩
  · obtain ⟨m1,h1,hi',-⟩ := hi.step ha
    obtain rfl := some.inj (hs.symm.trans h1)
    exact (step_pc hi ha hs ht).imp_left fun hp => ⟨holds hi' hp,hp⟩
  · have := hi.place t
    rw [ht] at this
    exact ⟨this.1,fun hm => this.2 ((hi.sched.queues.mem _ t).mp hm)⟩
  · obtain ⟨m1,h1,-⟩ := hi.step ha
    simp [h1]

/-- Three threads at boot and a free mutex. -/
def sampleBoot : Kmutex (Fin 3) Unit := ⟨Sched.sampleBoot,none,fun _ => .idle⟩

/-- Thread 0 has the mutex, threads 1 and 2 queue for it, thread 1 is cancelled in its
sleep, and the unlock hands the mutex to thread 2. -/
def sampleOps (x y : T) : List (Op T Unit) :=
  [.other (.start x),.other (.start y),.lock,.other .yield,.switch,.lockCancellable,
    .switch,.lock,.switch,.other (.cancel x),.unlock,.other .yield,.switch,.other .yield,
    .switch]

theorem mutex_safety_sampleOps : ∃ m, Exec (step ()) (Enabled ()) sampleBoot (sampleOps 1 2) m ∧ m.pc 1 = .eintr ∧
      m.pc 2 = .locked ∧ m.kmHolder = some 2 ∧
      observe (step ()) (granted ()) sampleBoot (sampleOps 1 2) ++ waiters () m =
        (observe (step ()) (queued ()) sampleBoot (sampleOps 1 2)).filter
          (· ∉ observe (step ()) (withdrawn ()) sampleBoot (sampleOps 1 2)) := by
  have h0 : Initial sampleBoot :=
    ⟨⟨by decide,by decide,by decide,fun _ => rfl⟩,rfl,fun _ => rfl⟩
  have h : Exec (step ()) (Enabled ()) sampleBoot (sampleOps 1 2) _ := Exec.ofRun rfl
  exact ⟨_,h,rfl,rfl,((mutex_safety h0 h).1 2 rfl).1,(mutex_safety h0 h).2.2.2.2⟩

end Csci402.Proc.Kmutex
