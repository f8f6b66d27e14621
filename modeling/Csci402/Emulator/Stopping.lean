import Csci402.Emulator.Places

/-! When the threads stop. The loop guards of `tokenFunc` and `serverFunc` read
`inputQSize`, `Q1` and `Q2` one after another without the lock. A packet is in
none of the three between the decrement of `inputQSize` and the append to `Q1`,
and in neither queue between the unlink from `Q1` and the append to `Q2`. A guard
that reads in such a window can stop its thread too early; guards that do not stop
their threads only when the work is over. -/

namespace Csci402.Emulator.Threads

open Lib Function

/-- `inputQSize` has been decremented for a packet that is not in `Q1` yet. -/
def Pc.arriving : Pc → Bool
  | .initPacket | .readArrive | .testNeed | .appendQ1 => true
  | _ => false

/-- A packet has been unlinked from `Q1` and is not in `Q2` yet. -/
def Pc.moving : Pc → Bool
  | .payTokens | .readLeaveQ1 | .appendQ2 => true
  | _ => false

/-- `inputQSize` is not read by a guard while a packet is between the input and
`Q1`, and `Q1` is not read by a server's guard while a packet is between `Q1` and
`Q2`. -/
def Timely (s : System) (a : Tid × Input) : Prop :=
  (s.thread a.1).toPrint = false →
    ((s.thread a.1).pc = .guardInput → a.1 ≠ .packet → ∀ me ∈ s.holder, me.pc.arriving = false) ∧
    ((s.thread a.1).pc = .guardQ1 → a.1 ≠ .token → ∀ me ∈ s.holder, me.pc.moving = false)

instance (s : System) (a : Tid × Input) : Decidable (Timely s a) :=
  inferInstanceAs (Decidable ((s.thread a.1).toPrint = false →
    ((s.thread a.1).pc = .guardInput → a.1 ≠ .packet → ∀ me ∈ s.holder, me.pc.arriving = false) ∧
    ((s.thread a.1).pc = .guardQ1 → a.1 ≠ .token → ∀ me ∈ s.holder, me.pc.moving = false)))

/-! ### The input counter -/

/-- The packet that `inputQSize` does not count any more and `packetId` not yet. -/
def taken : Option Thread → ℤ
  | some me => if me.pc = .initPacket then 1 else 0
  | none => 0

structure Counted (cfg : Config) (h : Option Thread) (m : Shared) : Prop where
  conserved : Conserved h m
  count : m.packetId+m.inputQSize+taken h = cfg.num
  sign : 0 ≤ m.inputQSize ∨ m.inputQSize = cfg.num

variable {cfg : Config} {th : Tid → Thread} {m m' : Shared} {a : Input} {me l : Thread}
  {op : LockOp} {t : Tid} {o : Option Thread}

theorem counted_inside (ht : t ≠ .signal) (h : Stmt cfg th m a me t m' l .keep)
    (hin : me.pc.inside = true) (hs : Counted cfg (some me) m) : Counted cfg (some l) m' := by
  have hc := hs.count
  have hn := hs.sign
  have hk := hs.conserved.knows me rfl
  refine ⟨conserved_inside h hin hs.conserved,?_,?_⟩
  · unfold taken at hc ⊢
    cases h with
    | guardPass _ hpc => rcases hpc with hpc | hpc | hpc <;> simp [hpc,Pc.inside] at hin
    | leave _ hpc => rcases hpc with hpc | hpc | hpc | hpc | hpc <;> simp_all
    | initPacket hpc => simp_all; omega
    | takeInput hpc => simp_all; omega
    | _ => simp_all
  · unfold Thread.knows at hk
    cases h with
    | takeInput hpc =>
      simp only [hpc] at hk
      exact .inl (by simp only; omega)
    | closeInput => exact absurd rfl ht
    | _ => exact hn

theorem counted_kept (ht : t ≠ .signal) : Kept cfg t (Counted cfg) where
  same := fun h hs => ⟨(conserved_kept cfg t).same h hs.conserved,
    by rw [h.packetId,h.inputQSize]; exact hs.count,by rw [h.inputQSize]; exact hs.sign⟩
  print := fun hs => ⟨(conserved_kept cfg t).print hs.conserved,hs.count,hs.sign⟩
  inside := fun h _ => counted_inside ht h
  lock := fun {_ _ pc} hpc hs => ⟨conserved_lock hpc hs.conserved,by
    have hc := hs.count
    rcases hpc with rfl | rfl | rfl | rfl <;> exact hc,hs.sign⟩
  unlock := fun hpc hs => ⟨conserved_unlock hpc hs.conserved,by
    have hc := hs.count
    rcases hpc with hpc | hpc | hpc <;> simpa [taken,hpc] using hc,hs.sign⟩

/-! ### How far the work is over -/

/-- The input is used up, and no packet is on its way to `Q1`. -/
structure Closed (h : Option Thread) (m : Shared) : Prop where
  input : m.inputQSize ≤ 0
  arriving : ∀ me ∈ h, me.pc.arriving = false

structure Settled (h : Option Thread) (m : Shared) : Prop extends Closed h m where
  Q1 : m.Q1 = []

/-- No packet is on its way to `Q2` either. -/
structure Drained (h : Option Thread) (m : Shared) : Prop extends Settled h m where
  moving : ∀ me ∈ h, me.pc.moving = false

structure Finished (h : Option Thread) (m : Shared) : Prop extends Drained h m where
  Q2 : m.Q2 = []

theorem Stmt.input_spent (h : Stmt cfg th m a me t m' l .keep) (hin : m.inputQSize ≤ 0) : m'.inputQSize ≤ 0 := by
  cases h with
  | takeInput => simp only; omega
  | closeInput => exact le_rfl
  | _ => exact hin

/-- A packet starts on its way to `Q1` only from an input that is not used up. -/
theorem Stmt.not_arriving (h : Stmt cfg th m a me t m' l .keep) (hk : me.knows m)
    (hin : m.inputQSize ≤ 0) (harr : me.pc.arriving = false) : l.pc.arriving = false := by
  unfold Thread.knows at hk
  cases h with
  | takeInput hpc =>
    simp only [hpc] at hk
    omega
  | _ => simp_all [Pc.arriving]

theorem Stmt.Q1_empty (h : Stmt cfg th m a me t m' l .keep) (harr : me.pc.arriving = false)
    (h1 : m.Q1 = []) : m'.Q1 = [] := by
  cases h with
  | appendQ1 hpc => rw [hpc] at harr; cases harr
  | _ => simp [h1]

/-- A packet starts on its way to `Q2` only from a `Q1` that is not empty. -/
theorem Stmt.not_moving (h : Stmt cfg th m a me t m' l .keep) (hk : me.knows m)
    (h1 : m.Q1 = []) (hmov : me.pc.moving = false) : l.pc.moving = false := by
  unfold Thread.knows at hk
  cases h with
  | unlinkQ1 _ hpc => simp [hpc,h1] at hk
  | _ => simp_all [Pc.moving]

theorem Stmt.Q2_empty (h : Stmt cfg th m a me t m' l .keep) (hmov : me.pc.moving = false)
    (h2 : m.Q2 = []) : m'.Q2 = [] := by
  cases h with
  | appendQ2 _ hpc => rw [hpc] at hmov; cases hmov
  | _ => simp [h2]

/-- What a thread has found out when its guard has read so far. -/
inductive Phase where
  | any | spent | closed | settled | drained | finished
  deriving DecidableEq, Repr

def Phase.holds (ph : Phase) (h : Option Thread) (m : Shared) : Prop :=
  match ph with
  | .any => True
  | .spent => m.inputQSize ≤ 0
  | .closed => Closed h m
  | .settled => Settled h m
  | .drained => Drained h m
  | .finished => Finished h m

/-- The reads of the guard that are behind the thread. -/
def Tid.phase : Tid → Pc → Phase
  | .packet, .returned => .spent
  | .token, .guardQ1 => .closed
  | .token, .returned => .settled
  | .server _, .guardQ1 => .closed
  | .server _, .guardQ2 => .drained
  | .server _, .returned => .finished
  | _, _ => .any

theorem phase_inside (ph : Phase) (h : Stmt cfg th m a me t m' l .keep) (hk : me.knows m)
    (hs : ph.holds (some me) m) : ph.holds (some l) m' := by
  have closed : Closed (some me) m → Closed (some l) m' := fun hc =>
    ⟨h.input_spent hc.input,fun x hx => by
      cases hx; exact h.not_arriving hk hc.input (hc.arriving me rfl)⟩
  have settled : Settled (some me) m → Settled (some l) m' := fun hc =>
    ⟨closed hc.toClosed,h.Q1_empty (hc.arriving me rfl) hc.Q1⟩
  have drained : Drained (some me) m → Drained (some l) m' := fun hc =>
    ⟨settled hc.toSettled,fun x hx => by
      cases hx; exact h.not_moving hk hc.Q1 (hc.moving me rfl)⟩
  cases ph with
  | any => trivial
  | spent => exact h.input_spent hs
  | closed => exact closed hs
  | settled => exact settled hs
  | drained => exact drained hs
  | finished => exact ⟨drained hs.toDrained,h.Q2_empty (hs.moving me rfl) hs.Q2⟩

/-- What is said of the thread inside depends on its statement only. -/
theorem Phase.holds.congr {ph : Phase} {o' : Option Thread} (hs : ph.holds o m)
    (hi : m'.inputQSize = m.inputQSize) (h1 : m'.Q1 = m.Q1) (h2 : m'.Q2 = m.Q2)
    (ho : ∀ l ∈ o', (∃ me ∈ o, l.pc = me.pc) ∨ l.pc.arriving = false ∧ l.pc.moving = false) : ph.holds o' m' := by
  have closed : Closed o m → Closed o' m' := fun hc => by
    refine ⟨by rw [hi]; exact hc.input,fun l hl => ?_⟩
    rcases ho l hl with ⟨me,hme,hpc⟩ | ⟨h,-⟩
    · rw [hpc]; exact hc.arriving me hme
    · exact h
  have settled : Settled o m → Settled o' m' := fun hc =>
    ⟨closed hc.toClosed,by rw [h1]; exact hc.Q1⟩
  have drained : Drained o m → Drained o' m' := fun hc => by
    refine ⟨settled hc.toSettled,fun l hl => ?_⟩
    rcases ho l hl with ⟨me,hme,hpc⟩ | ⟨-,h⟩
    · rw [hpc]; exact hc.moving me hme
    · exact h
  cases ph with
  | any => trivial
  | spent => exact hi.le.trans hs
  | closed => exact closed hs
  | settled => exact settled hs
  | drained => exact drained hs
  | finished => exact ⟨drained hs.toDrained,by rw [h2]; exact hs.Q2⟩

/-- What a guard has found out stays true. -/
theorem phase_kept (cfg : Config) (t : Tid) (ph : Phase) : Kept cfg t fun h m => Conserved h m ∧ ph.holds h m where
  same := fun h hs => ⟨(conserved_kept cfg t).same h hs.1,
    hs.2.congr h.inputQSize h.Q1 h.Q2 fun l hl => .inl ⟨l,hl,rfl⟩⟩
  print := fun {me _} hs => ⟨(conserved_kept cfg t).print hs.1,
    hs.2.congr rfl rfl rfl fun l hl => .inl ⟨me,rfl,by cases hl; rfl⟩⟩
  inside := fun h _ hin hs => ⟨conserved_inside h hin hs.1,phase_inside ph h (hs.1.knows _ rfl) hs.2⟩
  lock := fun hpc hs => ⟨conserved_lock hpc hs.1,hs.2.congr rfl rfl rfl fun l hl => .inr (by
    cases hl
    rcases hpc with rfl | rfl | rfl | rfl <;> exact ⟨rfl,rfl⟩)⟩
  unlock := fun hpc hs => ⟨conserved_unlock hpc hs.1,hs.2.congr rfl rfl rfl fun l hl => by cases hl⟩

/-! ### Whole runs -/

/-- Every thread has found out what its guard read. -/
def Found (s : System) : Prop := ∀ t : Tid, (t.phase (s.thread t).pc).holds s.holder s.mem

theorem phase_step {s s' : System} (ph : Phase) (hx : (program cfg).Exclusive s)
    (hc : Conserved s.holder s.mem) (h : stmt cfg s (t, a) = some s')
    (hs : ph.holds s.holder s.mem) : ph.holds s'.holder s'.mem :=
  ((phase_kept cfg t ph).step hx h ⟨hc.later _,
    hs.congr rfl rfl rfl fun l hl => .inl ⟨l,hl,rfl⟩⟩).2

theorem found_step {s s' : System} (hs : Found s) (hx : (program cfg).Exclusive s)
    (hc : Conserved s.holder s.mem) (ht : Timely s (t, a)) (h : stmt cfg s (t, a) = some s') : Found s' := by
  intro u
  obtain ⟨m,l,op,he,hm,hth⟩ := Monitor.step_exec h
  have old : ∀ v : Tid, (v.phase (s.thread v).pc).holds s'.holder s'.mem := fun v =>
    phase_step _ hx hc h (hs v)
  by_cases hut : u = t
  · subst hut
    rw [hth,update_self]
    have hold := old u
    rcases exec_stmt he with ⟨-,-,rfl,-⟩ | ⟨hp,hst⟩
    · exact hold
    obtain ⟨htin,htq⟩ := ht hp
    have outside (hop : op = .keep) (hin : (s.thread u).pc.inside = false) :
        s'.holder = s.holder := by
      subst hop
      exact Monitor.holder_outside hx h he hin
    cases hst with
    | packetReturns hpc hin => rw [hm]; exact hin
    | guardInput _ htp hpc hin =>
      have hcl : Closed s'.holder s'.mem := by
        rw [outside rfl (by rw [hpc]; rfl),hm]
        exact ⟨hin,htin hpc htp⟩
      cases u <;> first | exact hcl | trivial
    | tokenReturns hpc h1 =>
      rw [hpc] at hold
      exact ⟨hold,by rw [hm]; exact h1⟩
    | guardQ1 n hpc h1 =>
      rw [hpc] at hold
      refine ⟨⟨hold,by rw [hm]; exact h1⟩,?_⟩
      rw [outside rfl (by rw [hpc]; rfl)]
      exact htq hpc (by simp)
    | serverReturns n hpc h2 =>
      rw [hpc] at hold
      exact ⟨hold,by rw [hm]; exact h2⟩
    | lock _ pc _ hpc => rcases hpc with rfl | rfl | rfl | rfl <;> cases u <;> trivial
    | _ => first | trivial | (cases u <;> trivial)
  · rw [hth,update_of_ne hut]
    exact old u

theorem found_start (cfg : Config) (t0 : ℤ) : Found (start cfg t0) := by
  intro t
  cases t <;> trivial

theorem found_of_run {t0 : ℤ} {as : List (Tid × Input)} {s : System}
    (h : Exec (stmt cfg) Timely (start cfg t0) as s) : Found s := by
  induction h with
  | nil => exact found_start cfg t0
  | snoc hrun ht hst ih =>
    exact found_step ih (exclusive_of_run hrun) (conserved_of_run hrun) ht hst

theorem counted_of_run {ok : System → Tid × Input → Prop} {t0 : ℤ} {as : List (Tid × Input)}
    {s : System} (h : Exec (stmt cfg) ok (start cfg t0) as s)
    (hsig : ∀ a ∈ as, a.1 ≠ .signal) : Counted cfg s.holder s.mem := by
  induction h with
  | nil => exact ⟨conserved_start cfg t0,by simp [start,LockState.holder,taken],.inr rfl⟩
  | snoc hrun _ hst ih =>
    have hs := ih fun a ha => hsig a (List.mem_append_left _ ha)
    exact (counted_kept (hsig _ (by simp))).step (exclusive_of_run hrun) hst
      ⟨hs.conserved.later _,hs.count,hs.sign⟩

/-- The threads stop only when their work is over, in every interleaving without
SIGINT in which no guard reads in a window. -/
theorem threads_stop_when_done (cfg : Config) (t0 : ℤ) (as : List (Tid × Input)) (s : System)
    (h : Exec (stmt cfg) Timely (start cfg t0) as s) (hsig : ∀ a ∈ as, a.1 ≠ .signal) :
    ((s.thread .token).pc = .returned → s.mem.Q1 = []) ∧
    ((∀ n, (s.thread (.server n)).pc = .returned) → s.mem.Q2 = []) ∧ (joined s.thread = true →
      s.mem.Q1 = [] ∧ s.mem.Q2 = [] ∧ s.mem.outputQ.Perm (numbers cfg.num)) := by
  have hf := found_of_run h
  have token : (s.thread .token).pc = .returned → s.mem.Q1 = [] := fun hpc => by
    have hs := hf .token
    rw [hpc] at hs
    exact hs.Q1
  have server : (∀ n, (s.thread (.server n)).pc = .returned) → s.mem.Q2 = [] := fun hpc => by
    have hs := hf (.server .S1)
    rw [hpc] at hs
    exact hs.Q2
  refine ⟨token,server,fun hj => ?_⟩
  have hfree : s.owner = none := by
    cases ho : s.owner with
    | none => rfl
    | some t =>
      -- only the signal thread could hold the lock, and it has not moved
      rw [owner_of_joined h hj ho] at ho
      have hin : (s.thread .signal).pc.inside = true := (exclusive_of_run h .signal).mpr ho
      rw [Monitor.thread_unmoved h hsig] at hin
      cases hin
  have hcount := counted_of_run h hsig
  rw [LockState.holder,hfree] at hcount
  have hq1 := token (joined_returned hj (by decide) (by decide))
  have hq2 := server fun n => joined_returned hj (by simp) (by simp)
  have hspent : s.mem.inputQSize ≤ 0 := by
    have hs := hf .packet
    rw [joined_returned hj (by decide) (by decide)] at hs
    exact hs
  refine ⟨hq1,hq2,?_⟩
  have hperm : s.mem.outputQ.Perm (numbers s.mem.packetId) := by
    simpa [places,hq1,hq2] using hcount.conserved.perm
  have hid : (numbers s.mem.packetId) = numbers cfg.num := by
    have hc : s.mem.packetId+s.mem.inputQSize+0 = cfg.num := hcount.count
    have hn := hcount.conserved.nonneg
    have : s.mem.packetId.toNat = cfg.num.toNat := by rcases hcount.sign with h | h <;> omega
    rw [numbers,numbers,this]
  exact hid ▸ hperm

/-- The complete run; no guard in it reads in a window. -/
def timelyRun : System :=
  (run (stmt oneToken) Timely (start oneToken 0) completeRun).getD (start oneToken 0)

theorem threads_stop_when_done_completeRun : (joined timelyRun.thread = true ∧ timelyRun.mem.outputQ = [1]) ∧
    timelyRun.mem.outputQ.Perm (numbers 1) := by
  have hj : joined timelyRun.thread = true := by decide +kernel
  refine ⟨⟨hj,by decide +kernel⟩,?_⟩
  exact ((threads_stop_when_done oneToken 0 completeRun timelyRun
    (Exec.ofRun_getD (by decide +kernel) _) (by decide +kernel)).2.2 hj).2.2

/-- The token thread reads both its guards between the decrement of `inputQSize`
for the only packet and the append of that packet to `Q1`. -/
def tornGuard : List (Tid × Input) :=
  turn .packet 4 1 ++ turn .token 2 1 ++ turn .packet 9 1

theorem token_stops_early : ∃ s, Exec (stmt oneToken) (fun _ _ => True) (start oneToken 0) tornGuard s ∧
    (∀ a ∈ tornGuard, a.1 ≠ .signal) ∧ (s.thread .token).pc = .returned ∧ s.owner = none ∧ s.mem.Q1 = [1] := by
  refine ⟨_,Exec.ofRun_getD (by decide +kernel) (start oneToken 0),?_⟩
  decide +kernel

end Csci402.Emulator.Threads
