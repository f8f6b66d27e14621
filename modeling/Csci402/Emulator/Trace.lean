import Csci402.Emulator.Statements

/-! The order of the trace lines. Every line carries the time of a clock reading
that the thread made some statements earlier. A thread inside `myLock` prints its
line before any other thread inside can read the clock, so the lines printed there
are in the order of their readings. The line of a departure is read and printed
without the lock, and there another thread can print in between. -/

namespace Csci402.Emulator.Threads

open Lib Function List

/-- The thread has read the clock for a line that it has not printed yet. -/
def Thread.pending (me : Thread) : Bool :=
  me.toPrint || match me.pc with
    | .testNeed | .markDropped | .appendDropped | .addToken => true
    | _ => false

/-- A line that is read or printed without the lock (a departure, the end of the
emulation) does not come between another thread's reading of the clock and the
line of that reading, and the other way round: when a line is printed while
another reading is pending, both threads are inside the lock. -/
def Undisturbed (s : System) (a : Tid × Input) : Prop :=
  (s.thread a.1).toPrint = true → ∀ t, t ≠ a.1 → (s.thread t).pending = true →
    (s.thread t).pc.inside = true ∧ (s.thread a.1).pc.inside = true

variable {cfg : Config} {th : Tid → Thread} {m m' : Shared} {a : Input} {me l : Thread}
  {op : LockOp} {t : Tid}

/-- A statement that leaves a reading pending has made it now, or it was pending
before. -/
theorem Stmt.pending_stamp (h : Stmt cfg th m a me t m' l op) (hp : me.toPrint = false)
    (hl : l.pending = true) : l.stamp = a.time - cfg.emulationStartTime ∨
      me.pending = true ∧ l.stamp = me.stamp := by
  cases h <;> simp_all [Thread.pending,Thread.goto,Thread.say]
  case lock he => rcases he with rfl | rfl | rfl | rfl <;> simp at hl

/-- The printed times are in order and past, and no pending one is before a
printed one. -/
structure TraceInv (cfg : Config) (s : System) : Prop where
  sorted : s.mem.trace.Pairwise (· ≤ ·)
  past : ∀ x ∈ s.mem.trace, x ≤ s.mem.now - cfg.emulationStartTime
  stamp : ∀ t, (s.thread t).pending = true → ∀ x ∈ s.mem.trace, x ≤ (s.thread t).stamp
  read : ∀ t, (s.thread t).pending = true →
    (s.thread t).stamp ≤ s.mem.now - cfg.emulationStartTime

theorem traceInv_start {t0 : ℤ} (h0 : cfg.emulationStartTime ≤ t0) : TraceInv cfg (start cfg t0) := by
  have hn : ∀ t, ((start cfg t0).thread t).pending = false := fun t => by cases t <;> rfl
  refine ⟨pairwise_singleton _ _,?_,fun t ht => ?_,fun t ht => ?_⟩
  · simpa [start] using h0
  · rw [hn t] at ht; cases ht
  · rw [hn t] at ht; cases ht

/-- No two threads inside the lock have a reading pending, so a line is printed
while no other reading is. -/
theorem Undisturbed.alone {s : System} (hx : (program cfg).Exclusive s)
    (hu : Undisturbed s (t, a)) (hp : (s.thread t).toPrint = true) {u : Tid} (hut : u ≠ t) :
    (s.thread u).pending = false := by
  by_contra hpend
  obtain ⟨hin,hin'⟩ := hu hp u hut (by simpa using hpend)
  have := ((hx u).mp hin).symm.trans ((hx t).mp hin')
  exact hut (Option.some.inj this)

/-- Printing a line: no other reading is pending, and the one that was is the
latest of the trace. -/
theorem traceInv_print {s s' : System} (hs : TraceInv cfg s) (hc : s.mem.now ≤ s'.mem.now)
    (hp : (s.thread t).toPrint = true) (hu : ∀ u, u ≠ t → (s.thread u).pending = false)
    (htr : s'.mem.trace = s.mem.trace ++ [(s.thread t).stamp])
    (hth : s'.thread = update s.thread t { s.thread t with toPrint := false }) :
    TraceInv cfg s' := by
  have hpend : (s.thread t).pending = true := by simp [Thread.pending,hp]
  have hread := hs.read t hpend
  have hle : ∀ x ∈ s'.mem.trace, x ≤ (s.thread t).stamp := by
    intro x hx
    rw [htr] at hx
    rcases mem_append.mp hx with hx | hx
    · exact hs.stamp t hpend x hx
    · exact (mem_singleton.mp hx).le
  have hstamp : ∀ u, (s'.thread u).pending = true → (s'.thread u).stamp = (s.thread t).stamp := by
    intro u hu'
    by_cases hut : u = t
    · rw [hth,hut]; simp
    · rw [hth,update_of_ne hut,hu u hut] at hu'
      cases hu'
  refine ⟨?_,?_,fun u hu' x hx => ?_,fun u hu' => ?_⟩
  · rw [htr]
    refine pairwise_append.mpr ⟨hs.sorted,pairwise_singleton _ _,fun x hx y hy => ?_⟩
    rw [mem_singleton.mp hy]
    exact hs.stamp t hpend x hx
  · intro x hx
    have := hle x hx
    omega
  · rw [hstamp u hu']
    exact hle x hx
  · rw [hstamp u hu']
    omega

/-- Any other statement: the trace stays, and a reading that is new is made now. -/
theorem traceInv_stmt {s s' : System} (hs : TraceInv cfg s) (hc : s.mem.now ≤ a.time)
    (hp : (s.thread t).toPrint = false) (hth : s'.thread = update s.thread t l)
    (hst : Stmt cfg s.thread { s.mem with now := a.time } a (s.thread t) t s'.mem l op) :
    TraceInv cfg s' := by
  obtain ⟨htr,hnow⟩ := hst.frame_trace
  have hpast : ∀ x ∈ s.mem.trace, x ≤ a.time - cfg.emulationStartTime := by
    intro x hx
    have := hs.past x hx
    omega
  have hcase : ∀ u, (s'.thread u).pending = true →
      (s'.thread u).stamp = a.time - cfg.emulationStartTime ∨
      ∃ v, (s.thread v).pending = true ∧ (s'.thread u).stamp = (s.thread v).stamp := by
    intro u hu
    by_cases hut : u = t
    · subst hut
      simp only [hth,update_self] at hu ⊢
      rcases hst.pending_stamp hp hu with h | ⟨h,h'⟩
      · exact .inl h
      · exact .inr ⟨u,h,h'⟩
    · simp only [hth,update_of_ne hut] at hu ⊢
      exact .inr ⟨u,hu,rfl⟩
  refine ⟨by rw [htr]; exact hs.sorted,?_,fun u hu x hx => ?_,fun u hu => ?_⟩
  · rw [htr,hnow]; exact hpast
  · rw [htr] at hx
    rcases hcase u hu with h | ⟨v,hv,h⟩
    · rw [h]; exact hpast x hx
    · rw [h]; exact hs.stamp v hv x hx
  · rw [hnow]
    rcases hcase u hu with h | ⟨v,hv,h⟩
    · exact h.le
    · have := hs.read v hv
      simp only
      omega

theorem traceInv_step {s s' : System} (hs : TraceInv cfg s) (hx : (program cfg).Exclusive s)
    (hc : Clock s (t, a)) (hu : Undisturbed s (t, a)) (h : stmt cfg s (t, a) = some s') : TraceInv cfg s' := by
  obtain ⟨m,l,op,he,rfl,hth⟩ := Monitor.step_exec h
  rcases exec_stmt he with ⟨hp,-,rfl,hm⟩ | ⟨hp,hst⟩
  · refine traceInv_print hs ?_ hp (fun u hut => hu.alone hx hp hut) (by rw [hm]) hth
    rw [hm]
    exact hc
  · exact traceInv_stmt hs hc hp hth hst

/-- Where no line outside the lock disturbs another, the trace of every
interleaving is in the order of time. -/
theorem trace_in_order (cfg : Config) (t0 : ℤ) (h0 : cfg.emulationStartTime ≤ t0)
    (as : List (Tid × Input)) (s : System)
    (h : Exec (stmt cfg) (fun s a => Clock s a ∧ Undisturbed s a) (start cfg t0) as s) :
    s.mem.trace.Pairwise (· ≤ ·) := by
  have hinv : TraceInv cfg s := by
    induction h with
    | nil => exact traceInv_start h0
    | snoc hrun hok hst ih => exact traceInv_step ih (exclusive_of_run hrun) hok.1 hok.2 hst
  exact hinv.sorted

/-- The threads, for evaluation. -/
def Tid.all : List Tid := [.main,.packet,.token,.server .S1,.server .S2,.signal]

theorem Tid.mem_all (t : Tid) : t ∈ Tid.all := by
  rcases t with _ | _ | _ | (_ | _) | _ <;> decide

instance (s : System) (a : Tid × Input) : Decidable (Undisturbed s a) :=
  decidable_of_iff ((s.thread a.1).toPrint = true → ∀ t ∈ Tid.all, t ≠ a.1 →
      (s.thread t).pending = true →
      (s.thread t).pc.inside = true ∧ (s.thread a.1).pc.inside = true)
    ⟨fun h hp t => h hp t t.mem_all,fun h hp t _ => h hp t⟩

/-- The complete run, in which every line is printed undisturbed. -/
def undisturbedRun : System :=
  (run (stmt oneToken) (fun s a => Clock s a ∧ Undisturbed s a) (start oneToken 0)
    completeRun).getD (start oneToken 0)

theorem trace_in_order_completeRun : undisturbedRun.mem.trace = [0,1,2,2,2,2,3,3,3,6] ∧
    undisturbedRun.mem.trace.Pairwise (· ≤ ·) :=
  ⟨by decide +kernel,trace_in_order oneToken 0 le_rfl completeRun undisturbedRun
    (Exec.ofRun_getD (by decide +kernel) _)⟩

def twoPackets : Config := ⟨1,2,0⟩

/-- The server reads the clock at 10 for the departure of the first packet; before
it prints the line, the second packet arrives at 20 and its line is printed. -/
def lateDeparture : List (Tid × Input) :=
  turn .token 9 1 ++ turn .packet 21 2 ++ turn (.server .S1) 13 3 ++ turn (.server .S1) 1 10 ++
    turn .packet 8 20 ++ turn (.server .S1) 1 20

theorem trace_out_of_order : ∃ s, Exec (stmt twoPackets) Clock (start twoPackets 0) lateDeparture s ∧
    s.mem.trace = [0,1,2,2,2,2,3,3,20,10] ∧ ¬ s.mem.trace.Pairwise (· ≤ ·) := by
  refine ⟨_,Exec.ofRun_getD (by decide +kernel) (start twoPackets 0),?_,?_⟩
  · decide +kernel
  · decide +kernel

end Csci402.Emulator.Threads
