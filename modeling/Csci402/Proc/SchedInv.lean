import Csci402.Proc.Sched

/-! The invariants of the scheduler. The queue invariant ties the lists, the back
pointers, the size counters and the order of enqueues together; the thread invariant
says, for one thread at a time, where it can be. The queue functions keep the first,
each under the condition that its assertion states. -/

namespace Csci402.Proc.Sched

open Function List

variable {T W : Type*}

/-- The lists, the back pointers and the sizes agree, and every list is in the
order of the enqueues, newest first. -/
structure QueueInv (s : Sched T W) : Prop where
  mem : ∀ q t, t ∈ (s.queue q).tqList ↔ (s.thr t).ktWchan = some q
  sorted : ∀ q, (s.queue q).tqList.Pairwise fun a b => s.stamp b < s.stamp a
  size : ∀ q, (s.queue q).tqSize = (s.queue q).tqList.length
  link : ∀ t, (s.thr t).ktWchan ≠ none → (s.thr t).ktQlink = true
  fresh : ∀ t, (s.thr t).ktWchan ≠ none → s.stamp t < s.clock

/-- What is known of one thread; `active` says that it is the running one. -/
structure ThreadOk (active started exited : Prop) (r : Kthread W) : Prop where
  running : active → started ∧ ¬ exited ∧ r.ktWchan = none
  queued : started → ¬ exited → ¬ active → r.ktWchan ≠ none
  asleep : ∀ w, r.ktWchan = some (.wait w) → r.ktState = .sleep ∨
    r.ktState = .sleepCancellable ∧ r.ktCancelled = false
  new : ¬ started → ¬ exited ∧ r.ktState = .run ∧ r.ktWchan = none
  gone : exited → r.ktState = .exited ∧ r.ktWchan = none

/-- The thread that control is in. -/
def Active (s : Sched T W) (t : T) : Prop := s.switching = false ∧ t = s.curthr

def ThreadInv (s : Sched T W) : Prop :=
  ∀ t, ThreadOk (s.Active t) (s.started t) (s.exited t) (s.thr t)

structure Inv (s : Sched T W) : Prop where
  queues : QueueInv s
  threads : ThreadInv s

/-! ### Queue operations -/

variable {s : Sched T W}

theorem QueueInv.nodup (h : QueueInv s) (q : Queue W) : (s.queue q).tqList.Nodup :=
  (h.sorted q).imp fun hab => by rintro rfl; exact Nat.lt_irrefl _ hab

/-- The queue invariant does not look at who runs. -/
theorem QueueInv.control (h : QueueInv s) (c : T) (sw : Bool) (st ex : T → Bool) :
    QueueInv { s with curthr := c, switching := sw, started := st, exited := ex } :=
  ⟨h.mem,h.sorted,h.size,h.link,h.fresh⟩

/-- Only `t` has been touched, so only `t` has to be looked at. -/
theorem ThreadInv.update {s' : Sched T W} (h : ThreadInv s) (t : T)
    (same : ∀ u, u ≠ t → (s'.Active u ↔ s.Active u) ∧ s'.started u = s.started u ∧
      s'.exited u = s.exited u ∧ s'.thr u = s.thr u)
    (ht : ThreadOk (s'.Active t) (s'.started t) (s'.exited t) (s'.thr t)) : ThreadInv s' := by
  intro u
  by_cases hu : u = t
  · exact hu ▸ ht
  · obtain ⟨ha,hs,he,hr⟩ := same u hu
    have := h u
    rwa [hs,he,hr,propext ha]

variable [DecidableEq T]

theorem QueueInv.modify (h : QueueInv s) (t : T) (f : Kthread W → Kthread W)
    (hf : ∀ r, (f r).ktWchan = r.ktWchan ∧ (f r).ktQlink = r.ktQlink) : QueueInv (modify t f s) := by
  have hw : ∀ u, ((Sched.modify t f s).thr u).ktWchan = (s.thr u).ktWchan ∧
      ((Sched.modify t f s).thr u).ktQlink = (s.thr u).ktQlink := by
    intro u
    by_cases hu : u = t
    · subst hu; simp [Sched.modify,hf]
    · simp [Sched.modify,hu]
  exact ⟨fun q u => by rw [(hw u).1]; exact h.mem q u,h.sorted,h.size,
    fun u hu => by rw [(hw u).2]; exact h.link u (by rwa [(hw u).1] at hu),
    fun u hu => h.fresh u (by rwa [(hw u).1] at hu)⟩

/-- A change of the record that no queue sees, made to a thread whose state allows it. -/
theorem Inv.modify (h : Inv s) (t : T) (f : Kthread W → Kthread W)
    (hf : ∀ r, (f r).ktWchan = r.ktWchan ∧ (f r).ktQlink = r.ktQlink)
    (hk : ThreadOk (s.Active t) (s.started t) (s.exited t) (f (s.thr t))) : Inv (Sched.modify t f s) := by
  refine ⟨h.queues.modify t f hf,h.threads.update t ?_ ?_⟩
  · intro u hu
    simp [Active,Sched.modify,hu]
  · simpa [Active,Sched.modify] using hk

variable {t : T}

theorem modify_eq_self {f : Kthread W → Kthread W} (h : f (s.thr t) = s.thr t) : Sched.modify t f s = s := by
  simp [Sched.modify,h]

variable [DecidableEq W]

theorem QueueInv.insertHead (h : QueueInv s) (q : Queue W)
    (ht : (s.thr t).ktWchan = none) : QueueInv (insertHead q t s) := by
  have hne : ∀ q', t ∉ (s.queue q').tqList := fun q' hm => by simp [h.mem,ht] at hm
  have old : ∀ {q' u}, u ∈ (s.queue q').tqList → u ≠ t ∧ s.stamp u < s.clock := fun {q' u} hm =>
    ⟨fun e => hne q' (e ▸ hm),h.fresh u (by simp [(h.mem q' u).mp hm])⟩
  -- stamps change only at `t`, which is on no list
  have keep : ∀ q', (s.queue q').tqList.Pairwise fun a b =>
      update s.stamp t s.clock b < update s.stamp t s.clock a := fun q' =>
    (h.sorted q').imp_of_mem fun ha hb hab => by simpa [(old ha).1,(old hb).1] using hab
  refine ⟨fun q' u => ?_,fun q' => ?_,fun q' => ?_,fun u hu => ?_,fun u hu => ?_⟩
  · by_cases hq : q' = q
    · subst hq
      by_cases hu : u = t
      · subst hu; simp [Sched.insertHead]
      · simp [Sched.insertHead,hu,h.mem]
    · by_cases hu : u = t
      · subst hu; simp [Sched.insertHead,hq,hne,Ne.symm hq]
      · simp [Sched.insertHead,hq,hu,h.mem]
  · by_cases hq : q' = q
    · subst hq
      simp only [Sched.insertHead,update_self,pairwise_cons]
      exact ⟨fun b hb => by simpa [(old hb).1] using (old hb).2,keep q'⟩
    · simpa [Sched.insertHead,hq] using keep q'
  · by_cases hq : q' = q
    · subst hq; simp [Sched.insertHead,h.size]
    · simp [Sched.insertHead,hq,h.size]
  · by_cases hut : u = t
    · subst hut; simp [Sched.insertHead]
    · simp only [Sched.insertHead,update_of_ne hut] at hu ⊢
      exact h.link u hu
  · by_cases hut : u = t
    · subst hut; simp [Sched.insertHead]
    · simp only [Sched.insertHead,update_of_ne hut] at hu ⊢
      exact Nat.lt_succ_of_lt (h.fresh u hu)

variable {q : Queue W}

theorem QueueInv.unlink (h : QueueInv s) (ht : (s.thr t).ktWchan = some q) : QueueInv (unlink q t s) := by
  refine ⟨fun q' u => ?_,fun q' => (h.sorted q').sublist erase_sublist,fun q' => ?_,
    fun u hu => ?_,fun u hu => ?_⟩
  · by_cases hu : u = t
    · subst hu; simp [Sched.unlink,(h.nodup q').mem_erase_iff]
    · simp [Sched.unlink,hu,h.mem]
  · have hm : t ∈ (s.queue q).tqList := (h.mem q t).mpr ht
    by_cases hq : q' = q
    · subst hq
      have := length_pos_of_mem hm
      simp [Sched.unlink,h.size,length_erase_of_mem hm]
      omega
    · have : t ∉ (s.queue q').tqList := fun hm' => hq (by simpa [ht] using ((h.mem q' t).mp hm').symm)
      simp [Sched.unlink,hq,h.size,erase_of_not_mem this]
  · by_cases hut : u = t
    · subst hut; simp [Sched.unlink] at hu
    · simp only [Sched.unlink,update_of_ne hut] at hu ⊢
      exact h.link u hu
  · by_cases hut : u = t
    · subst hut; simp [Sched.unlink] at hu
    · simp only [Sched.unlink,update_of_ne hut] at hu ⊢
      exact h.fresh u hu

/-- A non-empty queue gives up its oldest thread. -/
theorem QueueInv.dequeue (h : QueueInv s) (hq : (s.queue q).tqList ≠ []) :
    ∃ l t, (s.queue q).tqList = l ++ [t] ∧ ktqueueDequeue q s = some (t, Sched.unlink q t s) ∧
      (s.thr t).ktWchan = some q ∧ QueueInv (Sched.unlink q t s) := by
  obtain ⟨l,t,hl⟩ := (eq_nil_or_concat' _).resolve_left hq
  have ht : (s.thr t).ktWchan = some q := (h.mem q t).mp (by simp [hl])
  exact ⟨l,t,hl,by simp [ktqueueDequeue,hl],ht,h.unlink ht⟩

theorem schedMakeRunnable_eq (ht : (s.thr t).ktWchan = none) :
    schedMakeRunnable t s = some { insertHead .runq t s with
      started := update s.started t true } := by
  simp [schedMakeRunnable,ktqueueEnqueue,ht,insertHead]

theorem schedMakeRunnable_frame {s' : Sched T W} (he : schedMakeRunnable t s = some s') :
    s'.switching = s.switching ∧ s'.curthr = s.curthr ∧ ∀ u, u ≠ t → s'.thr u = s.thr u := by
  simp only [schedMakeRunnable,ktqueueEnqueue] at he
  split at he
  · cases he
  · split at he
    · cases he
    · cases he
      exact ⟨rfl,rfl,fun u hu => update_of_ne hu _ _⟩

/-- A thread on no queue becomes runnable. -/
theorem QueueInv.makeRunnable (h : QueueInv s) (ht : (s.thr t).ktWchan = none) :
    QueueInv { Sched.insertHead .runq t s with started := update s.started t true } :=
  (h.insertHead .runq ht).control ..

/-- The state after a thread has been moved from queue `q` to the run queue and its
record changed by `f`. -/
def moved (q : Queue W) (t : T) (f : Kthread W → Kthread W) (s : Sched T W) : Sched T W :=
  { insertHead .runq t (modify t f (unlink q t s)) with
    started := update s.started t true }

theorem moved_thr_self (q : Queue W) (t : T) (f : Kthread W → Kthread W) (s : Sched T W) :
    (moved q t f s).thr t = { f { s.thr t with ktWchan := none, ktQlink := false } with
      ktWchan := some .runq, ktQlink := true } := by
  simp [moved,insertHead,Sched.modify,unlink]

theorem moved_thr_of_ne (q : Queue W) {u : T} (h : u ≠ t) (f : Kthread W → Kthread W)
    (s : Sched T W) : (moved q t f s).thr u = s.thr u := by
  simp [moved,insertHead,Sched.modify,unlink,h]

theorem Inv.moved (h : Inv s) (ht : (s.thr t).ktWchan = some q) (f : Kthread W → Kthread W)
    (hf : ∀ r, (f r).ktWchan = r.ktWchan ∧ (f r).ktQlink = r.ktQlink) : Inv (moved q t f s) := by
  have hw : ((Sched.modify t f (Sched.unlink q t s)).thr t).ktWchan = none := by
    simp [Sched.modify,Sched.unlink,hf]
  refine ⟨((h.queues.unlink ht).modify t f hf).makeRunnable hw,h.threads.update t ?_ ?_⟩
  · intro u hu
    simp [Active,Sched.moved,insertHead,Sched.modify,unlink,hu]
  · have ha : ¬ s.Active t := fun ha => by simpa [ht] using ((h.threads t).running ha).2.2
    have hx : s.exited t = false := by
      have := (h.threads t).gone
      simp_all
    constructor <;> simp_all [Active,Sched.moved,insertHead,Sched.modify,unlink]

end Csci402.Proc.Sched
