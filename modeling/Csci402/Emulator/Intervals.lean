import Csci402.Emulator.Times

/-! The inter-arrival times. `packetFunc` keeps the time of the last arrival in
`prePacketArriveTime`, so that the intervals of the packets that have arrived add
up to the time since the first reading of the clock. -/

namespace Csci402.Emulator.Threads

open Lib Function List

/-- The packets whose arrival has been recorded: all but the one at hand whose
arrival time is still to be read. -/
def recorded (h : Option Thread) (m : Shared) : ℤ :=
  match h with
  | some me => if me.pc = .readArrive then m.packetId - 1 else m.packetId
  | none => m.packetId

/-- The sum of `realInterPacketArriveTime` over the packets `1, ..., n`. -/
def interTotal (m : Shared) (n : ℤ) : ℤ :=
  ((numbers n).map fun k => (m.heap k).realInterPacketArriveTime).sum

structure Arrived (cfg : Config) (t0 : ℤ) (h : Option Thread) (m : Shared) : Prop where
  conserved : Conserved h m
  pre : t0+interTotal m (recorded h m) = m.prePacketArriveTime
  each : ∀ k, 0 < k → k ≤ recorded h m →
    t0+interTotal m k = cfg.emulationStartTime+(m.heap k).arriveTime
  past : m.prePacketArriveTime ≤ m.now
  nonneg : ∀ k, 0 < k → k ≤ recorded h m → 0 ≤ (m.heap k).realInterPacketArriveTime

variable {cfg : Config} {th : Tid → Thread} {m m' : Shared} {a : Input} {me l : Thread}
  {op : LockOp} {t : Tid} {t0 : ℤ}

theorem interTotal_congr {n : ℤ} (h : ∀ k, 0 < k → k ≤ n →
    (m'.heap k).realInterPacketArriveTime = (m.heap k).realInterPacketArriveTime) :
    interTotal m' n = interTotal m n := by
  unfold interTotal
  refine congrArg List.sum (map_congr_left fun k hk => ?_)
  exact h k (mem_numbers.mp hk).1 (mem_numbers.mp hk).2

theorem interTotal_succ {n : ℤ} (hn : 0 ≤ n) :
    interTotal m (n+1) = interTotal m n+(m.heap (n+1)).realInterPacketArriveTime := by
  simp [interTotal,numbers_succ hn]

/-- The recorded arrivals stay as they are. -/
theorem Arrived.congr {o o' : Option Thread} (hs : Arrived cfg t0 o m) (hc : Conserved o' m')
    (hrec : recorded o' m' = recorded o m)
    (hpre : m'.prePacketArriveTime = m.prePacketArriveTime) (hnow : m.now ≤ m'.now)
    (hheap : ∀ k, 0 < k → k ≤ recorded o m → (m'.heap k).arriveTime = (m.heap k).arriveTime ∧
      (m'.heap k).realInterPacketArriveTime = (m.heap k).realInterPacketArriveTime) :
    Arrived cfg t0 o' m' := by
  have total : ∀ n, n ≤ recorded o m → interTotal m' n = interTotal m n := fun n hn =>
    interTotal_congr fun k h0 hk => (hheap k h0 (hk.trans hn)).2
  refine ⟨hc,?_,fun k h0 hk => ?_,?_,fun k h0 hk => ?_⟩
  · rw [hrec,total _ le_rfl,hpre]; exact hs.pre
  · rw [hrec] at hk
    rw [total k hk,(hheap k h0 hk).1]
    exact hs.each k h0 hk
  · rw [hpre]; exact hs.past.trans hnow
  · rw [hrec] at hk
    rw [(hheap k h0 hk).2]
    exact hs.nonneg k h0 hk

/-- Only the two statements of an arrival touch what is recorded of it. -/
theorem Stmt.frame_arrival (h : Stmt cfg th m a me t m' l .keep) (hi : me.pc ≠ .initPacket)
    (hr : me.pc ≠ .readArrive) : m'.packetId = m.packetId ∧
      m'.prePacketArriveTime = m.prePacketArriveTime ∧ l.pc ≠ .readArrive ∧
      ∀ p, (m'.heap p).arriveTime = (m.heap p).arriveTime ∧
        (m'.heap p).realInterPacketArriveTime = (m.heap p).realInterPacketArriveTime := by
  have write {p0 : ℤ} {f : MyPacket → MyPacket} (ha : ∀ x, (f x).arriveTime = x.arriveTime)
      (hr : ∀ x, (f x).realInterPacketArriveTime = x.realInterPacketArriveTime) (p : ℤ) :
      ((m.write p0 f).heap p).arriveTime = (m.heap p).arriveTime ∧
      ((m.write p0 f).heap p).realInterPacketArriveTime =
        (m.heap p).realInterPacketArriveTime :=
    ⟨Shared.write_field m p0 p MyPacket.arriveTime ha,
      Shared.write_field m p0 p MyPacket.realInterPacketArriveTime hr⟩
  cases h with
  | initPacket hpc => exact absurd hpc hi
  | readArrive hpc => exact absurd hpc hr
  | _ =>
    first
    | exact ⟨rfl,rfl,by simp,fun p => ⟨rfl,rfl⟩⟩
    | exact ⟨rfl,rfl,by simp,write (fun _ => rfl) (fun _ => rfl)⟩

/-- The arrival of the packet at hand is recorded. -/
theorem arrived_readArrive (hs : Arrived cfg t0 (some me) m) (hpc : me.pc = .readArrive)
    (hl : l.pc ≠ .readArrive) (hc : Conserved (some l) m') (hid : m'.packetId = m.packetId)
    (hpre : m'.prePacketArriveTime = m'.now) (hnow : m'.now = m.now)
    (hheap : m'.heap = update m.heap me.cur { m.heap me.cur with
      arriveTime := m.now - cfg.emulationStartTime
      realInterPacketArriveTime := m.now - m.prePacketArriveTime }) :
    Arrived cfg t0 (some l) m' := by
  have hcur : me.cur = m.packetId := by
    simpa [Thread.knows,hpc] using hs.conserved.knows me rfl
  have hpos : 0 < m.packetId := by
    refine hcur ▸ (hs.conserved.bound (p := me.cur) ?_).1
    simp [places,Thread.places,hpc,Pc.carries]
  have hrec : recorded (some me) m = m.packetId - 1 := by simp [recorded,hpc]
  have hrec' : recorded (some l) m' = m.packetId := by simp [recorded,hl,hid]
  have hself : (m'.heap m.packetId).arriveTime = m.now - cfg.emulationStartTime ∧
      (m'.heap m.packetId).realInterPacketArriveTime = m.now - m.prePacketArriveTime := by
    simp [hheap,hcur]
  have hother : ∀ k, k ≤ m.packetId - 1 → m'.heap k = m.heap k := by
    intro k hk
    rw [hheap,update_of_ne (by omega)]
  have htotal : ∀ n, n ≤ m.packetId - 1 → interTotal m' n = interTotal m n := fun n hn =>
    interTotal_congr fun k _ hk => by rw [hother k (hk.trans hn)]
  have hlast : t0+interTotal m' m.packetId = m.now := by
    have hsucc := interTotal_succ (m := m') (n := m.packetId - 1) (by omega)
    have hp := hs.pre
    rw [sub_add_cancel,htotal _ le_rfl,hself.2] at hsucc
    rw [hrec] at hp
    omega
  refine ⟨hc,?_,fun k h0 hk => ?_,by omega,fun k h0 hk => ?_⟩
  · rw [hrec',hlast,hpre,hnow]
  · rw [hrec'] at hk
    rcases lt_or_eq_of_le hk with hk | rfl
    · rw [htotal k (by omega),hother k (by omega)]
      exact hs.each k h0 (by omega)
    · rw [hlast,hself.1]; omega
  · rw [hrec'] at hk
    rcases lt_or_eq_of_le hk with hk | rfl
    · rw [hother k (by omega)]
      exact hs.nonneg k h0 (by omega)
    · have := hs.past
      rw [hself.2]; omega

theorem Stmt.at_initPacket (h : Stmt cfg th m a me t m' l op) (hpc : me.pc = .initPacket) :
    l.pc = .readArrive ∧ m'.packetId = m.packetId+1 ∧
      m'.prePacketArriveTime = m.prePacketArriveTime ∧
      ∀ k, k ≤ m.packetId → m'.heap k = m.heap k := by
  cases h with
  | initPacket _ => exact ⟨rfl,rfl,rfl,fun k hk => update_of_ne (by omega) _ _⟩
  | _ => simp_all

theorem Stmt.at_readArrive (h : Stmt cfg th m a me t m' l op) (hpc : me.pc = .readArrive) :
    l.pc = .testNeed ∧ m'.packetId = m.packetId ∧ m'.prePacketArriveTime = a.time ∧
      m'.heap = update m.heap me.cur { m.heap me.cur with
        arriveTime := a.time - cfg.emulationStartTime
        realInterPacketArriveTime := a.time - m.prePacketArriveTime } := by
  cases h with
  | readArrive _ => exact ⟨rfl,rfl,rfl,rfl⟩
  | _ => simp_all

theorem arrived_inside (h : Stmt cfg th m a me t m' l .keep) (hnow : m.now = a.time)
    (hin : me.pc.inside = true) (hs : Arrived cfg t0 (some me) m) : Arrived cfg t0 (some l) m' := by
  have hc := conserved_inside h hin hs.conserved
  have hnow' := h.frame_trace.2
  by_cases hi : me.pc = .initPacket
  · obtain ⟨hl,hid,hpre,hheap⟩ := h.at_initPacket hi
    have hrec : recorded (some me) m = m.packetId := by simp [recorded,hi]
    refine hs.congr hc (by simp [recorded,hi,hl,hid]) hpre hnow'.ge fun k _ hk => ?_
    rw [hheap k (hrec ▸ hk)]
    exact ⟨rfl,rfl⟩
  by_cases hr : me.pc = .readArrive
  · obtain ⟨hl,hid,hpre,hheap⟩ := h.at_readArrive hr
    refine arrived_readArrive hs hr (by rw [hl]; decide) hc hid ?_ hnow' ?_
    · rw [hpre,hnow',hnow]
    · rw [hnow]; exact hheap
  obtain ⟨hid,hpre,hl,hheap⟩ := h.frame_arrival hi hr
  exact hs.congr hc (by simp [recorded,hr,hl,hid]) hpre hnow'.ge fun k _ _ => hheap k

theorem arrived_kept (cfg : Config) (t : Tid) (t0 : ℤ) : Kept cfg t (Arrived cfg t0) where
  same := fun {o m m'} h hs => by
    refine hs.congr ((conserved_kept cfg t).same h hs.conserved) ?_ h.pre h.now.ge fun k _ _ => ?_
    · simp only [recorded,h.packetId]
    · obtain ⟨e,he⟩ := h.heap k
      rw [he]
      exact ⟨rfl,rfl⟩
  print := fun hs => hs.congr ((conserved_kept cfg t).print hs.conserved) rfl rfl le_rfl
    fun _ _ _ => ⟨rfl,rfl⟩
  inside := arrived_inside
  lock := fun {me m pc} hpc hs => by
    refine hs.congr (conserved_lock hpc hs.conserved) ?_ rfl le_rfl fun _ _ _ => ⟨rfl,rfl⟩
    rcases hpc with rfl | rfl | rfl | rfl <;> rfl
  unlock := fun {me m} hpc hs => by
    refine hs.congr (conserved_unlock hpc hs.conserved) ?_ rfl le_rfl fun _ _ _ => ⟨rfl,rfl⟩
    rcases hpc with hpc | hpc | hpc <;> simp [recorded,hpc]

theorem arrived_of_run {as : List (Tid × Input)} {s : System}
    (h : Exec (stmt cfg) Clock (start cfg t0) as s) : Arrived cfg t0 s.holder s.mem := by
  induction h with
  | nil =>
    refine ⟨conserved_start cfg t0,by simp [start,recorded,LockState.holder,interTotal,numbers],
      fun k h0 hk => ?_,le_rfl,fun k h0 hk => ?_⟩
    all_goals
      have hk : k ≤ 0 := hk
      omega
  | snoc hrun hc hst ih =>
    exact (arrived_kept cfg _ t0).step (exclusive_of_run hrun) hst
      (ih.congr (ih.conserved.later _) rfl rfl hc fun _ _ _ => ⟨rfl,rfl⟩)

/-- When the threads have been joined, every arrival has been recorded. -/
theorem recorded_of_joined {ok : System → Tid × Input → Prop} {as : List (Tid × Input)}
    {s : System} (h : Exec (stmt cfg) ok (start cfg t0) as s) (hj : joined s.thread = true) :
    recorded s.holder s.mem = s.mem.packetId := by
  cases ho : s.owner with
  | none => simp [LockState.holder,ho,recorded]
  | some t =>
    -- only the signal thread can hold the lock, and it records no arrival
    have hr := runs_of_run h .signal
    rw [owner_of_joined h hj ho] at ho
    have hne : (s.thread .signal).pc ≠ .readArrive := fun hpc => by rw [hpc] at hr; cases hr
    simp [LockState.holder,ho,recorded,hne]

/-! ### The times of a packet -/

/-- The times of a served packet, in the order of its way through the emulator. -/
def Ordered (x : MyPacket) : Prop :=
  x.arriveTime ≤ x.enterQ1Time ∧ x.enterQ1Time ≤ x.leaveQ1Time ∧
  x.leaveQ1Time ≤ x.enterQ2Time ∧ x.enterQ2Time ≤ x.leaveQ2Time ∧
  x.leaveQ2Time ≤ x.beginServiceTime ∧ x.beginServiceTime ≤ x.endServiceTime

theorem InOrder.ordered {now : ℤ} {x : MyPacket} (h : InOrder 6 now x)
    (he : x.beginServiceTime ≤ x.endServiceTime) : Ordered x := by
  have hs := h.sorted
  simp only [times,take_succ_cons,take_zero,pairwise_cons,mem_cons,
    not_mem_nil,or_false,forall_eq_or_imp,forall_eq] at hs
  obtain ⟨⟨h1,-⟩,⟨h2,-⟩,⟨h3,-⟩,⟨h4,-⟩,h5,-⟩ := hs
  exact ⟨h1,h2,h3,h4,h5,he⟩

/-- The times of the packets in every interleaving, with SIGINT at any point or not
at all. Once the threads have been joined, the times of every served packet are in
order, so the times `printStatics` takes from it are not negative; and the
intervals of the packets `1, ..., k` add up to the arrival of `k`, for every `k`
whose arrival has been recorded. -/
theorem packet_times_in_order (cfg : Config) (t0 : ℤ) (as : List (Tid × Input)) (s : System)
    (h : Exec (stmt cfg) Clock (start cfg t0) as s) :
    (joined s.thread = true → recorded s.holder s.mem = s.mem.packetId ∧
      ∀ p ∈ s.mem.outputQ, (s.mem.heap p).packetType = 1 →
        Ordered (s.mem.heap p) ∧
        0 ≤ (s.mem.heap p).endServiceTime - (s.mem.heap p).beginServiceTime ∧
        0 ≤ (s.mem.heap p).leaveQ1Time - (s.mem.heap p).enterQ1Time ∧
        0 ≤ (s.mem.heap p).leaveQ2Time - (s.mem.heap p).enterQ2Time ∧
        0 ≤ (s.mem.heap p).endServiceTime - (s.mem.heap p).arriveTime) ∧
    ∀ k, 0 < k → k ≤ recorded s.holder s.mem →
      interTotal s.mem k = cfg.emulationStartTime+(s.mem.heap k).arriveTime - t0 := by
  constructor
  · intro hj
    refine ⟨recorded_of_joined h hj,fun p hp hty => ?_⟩
    have hserv := not_serving_of_joined h hj
    have hat : ¬ At s.holder .readBegin p := by
      rintro ⟨me,hme,hpc,-⟩
      obtain ⟨u,-,rfl⟩ := Option.map_eq_some_iff.mp hme
      have := hserv u
      rw [hpc] at this
      cases this
    have hend := (ended_of_run h p hp hty).resolve_right fun hu => by
      obtain ⟨u,hu,-⟩ := hu
      rw [hserv u] at hu
      cases hu
    have ho := (((stamped_of_run h).outputQ p hp hty).resolve_right hat).ordered hend
    obtain ⟨h1,h2,h3,h4,h5,h6⟩ := ho
    exact ⟨⟨h1,h2,h3,h4,h5,h6⟩,by omega,by omega,by omega,by omega⟩
  · intro k h0 hk
    have := (arrived_of_run h).each k h0 hk
    omega

/-- The complete run under a clock that never decreases. -/
def clockedRun : System :=
  (run (stmt oneToken) Clock (start oneToken 0) completeRun).getD (start oneToken 0)

theorem packet_times_in_order_completeRun : (joined clockedRun.thread = true ∧ 1 ∈ clockedRun.mem.outputQ ∧
      (clockedRun.mem.heap 1).packetType = 1) ∧
    Ordered (clockedRun.mem.heap 1) ∧
    interTotal clockedRun.mem 1 = (clockedRun.mem.heap 1).arriveTime := by
  have hj : joined clockedRun.thread = true := by decide +kernel
  have hp : 1 ∈ clockedRun.mem.outputQ := by decide +kernel
  have hty : (clockedRun.mem.heap 1).packetType = 1 := by decide +kernel
  obtain ⟨hord,hsum⟩ := packet_times_in_order oneToken 0 completeRun clockedRun
    (Exec.ofRun_getD (by decide +kernel) _)
  refine ⟨⟨hj,hp,hty⟩,((hord hj).2 1 hp hty).1,?_⟩
  simpa [oneToken] using hsum 1 (by decide) (by decide +kernel)

end Csci402.Emulator.Threads
