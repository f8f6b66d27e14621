import Mathlib.Data.Rat.Floor
import Mathlib.Tactic.Linarith
import Mathlib.Algebra.BigOperators.Group.List.Basic
import Csci402.Emulator.Intervals

/-! The statistics `printStatics` prints, in exact rational arithmetic. They are
computed from `outputQ` and from the counters when `main` has joined the threads.
The average inter-arrival time and the packet drop probability are divided by
`num`, the number of packets that were to arrive. -/

namespace Csci402.Emulator.Threads

open Lib Function List

/-- The conversion of a `double` to `long long`. -/
def truncate (q : ℚ) : ℤ := if 0 ≤ q then ⌊q⌋ else ⌈q⌉

/-- The loop of `myRound` that multiplies by 10. -/
def tenfold : ℕ → ℚ → ℚ
  | 0, mul => mul
  | keepDigitSize+1, mul => tenfold keepDigitSize (mul*10)

def myRound (num : ℚ) (keepDigitSize : ℕ) : ℚ :=
  let mul := tenfold keepDigitSize 1
  truncate (num*mul+1 / 2) / mul

def msToUs : ℚ := 1000

structure Totals where
  totalRealInterPacketArriveTime : ℚ := 0
  totalRealServiceTime : ℚ := 0
  totalTimeInQ1 : ℚ := 0
  totalTimeInQ2 : ℚ := 0
  totalTimeInS1 : ℚ := 0
  totalTimeInS2 : ℚ := 0
  totalTimeInSystem : ℚ := 0
  packetServeSize : ℤ := 0
  packetDropSize : ℤ := 0

/-- The body of the first loop over `outputQ`. -/
def addPacket (tot : Totals) (curPacket : MyPacket) : Totals :=
  let tot := { tot with
    totalRealInterPacketArriveTime := tot.totalRealInterPacketArriveTime +
      myRound (curPacket.realInterPacketArriveTime / msToUs) 3 }
  if curPacket.packetType = 1 then
    let curRealServiceTime :=
      myRound ((curPacket.endServiceTime - curPacket.beginServiceTime : ℤ) / msToUs) 3
    { tot with
      packetServeSize := tot.packetServeSize+1
      totalRealServiceTime := tot.totalRealServiceTime+curRealServiceTime
      totalTimeInQ1 := tot.totalTimeInQ1 +
        myRound ((curPacket.leaveQ1Time - curPacket.enterQ1Time : ℤ) / msToUs) 3
      totalTimeInQ2 := tot.totalTimeInQ2 +
        myRound ((curPacket.leaveQ2Time - curPacket.enterQ2Time : ℤ) / msToUs) 3
      totalTimeInS1 :=
        if curPacket.serviceType = 1 then tot.totalTimeInS1+curRealServiceTime
        else tot.totalTimeInS1
      totalTimeInS2 :=
        if curPacket.serviceType = 1 then tot.totalTimeInS2
        else tot.totalTimeInS2+curRealServiceTime
      totalTimeInSystem := tot.totalTimeInSystem +
        myRound ((curPacket.endServiceTime - curPacket.arriveTime : ℤ) / msToUs) 3 }
  else if curPacket.packetType = 2 then
    { tot with packetDropSize := tot.packetDropSize+1 }
  else tot

/-- The second loop over `outputQ`. -/
def squares (avgPacketSystemTime : ℚ) (outputQ : List MyPacket) : ℚ :=
  outputQ.foldl (fun variance curPacket =>
    if curPacket.packetType = 1 then
      let curSystemTime :=
        myRound ((curPacket.endServiceTime - curPacket.arriveTime : ℤ) / msToUs) 3
      variance+(curSystemTime - avgPacketSystemTime)*(curSystemTime - avgPacketSystemTime)
    else variance) 0

/-- The lines of the statistics, with `none` where "N/A" is printed. The standard
deviation is printed as the square root of `varianceSystemTime` over `msToUs`. -/
structure Statistics where
  avgRealInterPacketArriveTime : Option ℚ
  avgRealServiceTime : Option ℚ
  avgNumPacketInQ1 : Option ℚ
  avgNumPacketInQ2 : Option ℚ
  avgNumPacketInS1 : Option ℚ
  avgNumPacketInS2 : Option ℚ
  avgPacketSystemTime : Option ℚ
  varianceSystemTime : Option ℚ
  tokenDropProb : Option ℚ
  packetDropProb : Option ℚ

/-- The packets `outputQ` points to. -/
def Shared.output (m : Shared) : List MyPacket := m.outputQ.map m.heap

def printStatics (cfg : Config) (m : Shared) : Statistics :=
  let tot := m.output.foldl addPacket {}
  let totalEmulationTime := m.emulationEndTime - cfg.emulationStartTime
  let totalEmulationTimeMS := myRound (totalEmulationTime / msToUs) 3
  -- a value that is not computed stays at -1
  let avgRealInterPacketArriveTime :=
    if 0 < cfg.num then tot.totalRealInterPacketArriveTime / cfg.num else -1
  let packetDropProb := if 0 < cfg.num then (tot.packetDropSize : ℚ) / cfg.num else -1
  let served := 0 < cfg.num ∧ 0 < tot.packetServeSize
  let avgRealServiceTime := if served then tot.totalRealServiceTime / tot.packetServeSize else -1
  let avgPacketSystemTime := if served then tot.totalTimeInSystem / tot.packetServeSize else -1
  let variance :=
    if served then squares avgPacketSystemTime m.output / tot.packetServeSize else -1
  { avgRealInterPacketArriveTime :=
      if 0 < cfg.num then some (avgRealInterPacketArriveTime / msToUs) else none
    avgRealServiceTime :=
      if 0 < tot.packetServeSize then some (avgRealServiceTime / msToUs) else none
    avgNumPacketInQ1 :=
      if 0 < totalEmulationTime then some (tot.totalTimeInQ1 / totalEmulationTimeMS) else none
    avgNumPacketInQ2 :=
      if 0 < totalEmulationTime then some (tot.totalTimeInQ2 / totalEmulationTimeMS) else none
    avgNumPacketInS1 :=
      if 0 < totalEmulationTime then some (tot.totalTimeInS1 / totalEmulationTimeMS) else none
    avgNumPacketInS2 :=
      if 0 < totalEmulationTime then some (tot.totalTimeInS2 / totalEmulationTimeMS) else none
    avgPacketSystemTime :=
      if 0 < tot.packetServeSize then some (avgPacketSystemTime / msToUs) else none
    varianceSystemTime := if 0 < tot.packetServeSize then some variance else none
    tokenDropProb := if 0 < m.tokenId then some ((m.tokenDropSize : ℚ) / m.tokenId) else none
    packetDropProb := if 0 < cfg.num then some packetDropProb else none }

/-! ### The loop over `outputQ` -/

/-- A time in microseconds that is not negative is not changed by rounding its
milliseconds to three digits. -/
theorem myRound_micro {n : ℤ} (hn : 0 ≤ n) : myRound (n / msToUs) 3 = n / msToUs := by
  have hmul : tenfold 3 1 = msToUs := by norm_num [tenfold,msToUs]
  have hms : msToUs ≠ 0 := by norm_num [msToUs]
  have hq : (0 : ℚ) ≤ n := by exact_mod_cast hn
  have htrunc : truncate ((n : ℚ)+1 / 2) = n := by
    rw [truncate,if_pos (by linarith),Int.floor_eq_iff]
    constructor <;> norm_num
  simp only [myRound,hmul,div_mul_cancel₀ _ hms,htrunc]

theorem addPacket_inter (tot : Totals) (x : MyPacket) :
    (addPacket tot x).totalRealInterPacketArriveTime = tot.totalRealInterPacketArriveTime +
      myRound (x.realInterPacketArriveTime / msToUs) 3 := by
  unfold addPacket
  split
  · rfl
  · split <;> rfl

theorem addPacket_drop (tot : Totals) (x : MyPacket) : (addPacket tot x).packetDropSize =
      tot.packetDropSize+if x.packetType = 2 then 1 else 0 := by
  unfold addPacket
  split
  next h => simp [h]
  · split <;> simp_all

theorem foldl_inter (l : List MyPacket) (tot : Totals) : (l.foldl addPacket tot).totalRealInterPacketArriveTime =
      tot.totalRealInterPacketArriveTime +
        (l.map fun x => myRound (x.realInterPacketArriveTime / msToUs) 3).sum := by
  induction l generalizing tot with
  | nil => simp
  | cons x l ih => simp only [foldl_cons,ih,addPacket_inter,map_cons,sum_cons]; ring

theorem foldl_drop (l : List MyPacket) (tot : Totals) : (l.foldl addPacket tot).packetDropSize =
      tot.packetDropSize+(l.filter (·.packetType = 2)).length := by
  induction l generalizing tot with
  | nil => simp
  | cons x l ih =>
    rw [foldl_cons,ih,addPacket_drop,filter_cons]
    by_cases h : x.packetType = 2
    · simp [h]; ring
    · simp [h]

/-! ### The counters -/

/-- The token that has been counted and is still to be added or dropped. -/
def counted (h : Option Thread) : ℤ :=
  match h with
  | some me => if me.pc = .readToken ∨ me.pc = .addToken then 1 else 0
  | none => 0

structure TokensCounted (h : Option Thread) (m : Shared) : Prop where
  nonneg : 0 ≤ m.tokenDropSize
  bound : m.tokenDropSize+counted h ≤ m.tokenId

variable {cfg : Config} {th : Tid → Thread} {m m' : Shared} {a : Input} {me l : Thread}
  {op : LockOp} {t : Tid} {t0 : ℤ}

theorem counted_nonneg (h : Option Thread) : 0 ≤ counted h := by
  unfold counted
  split
  · split <;> decide
  · exact le_rfl

theorem tokensCounted_inside (h : Stmt cfg th m a me t m' l .keep)
    (hs : TokensCounted (some me) m) : TokensCounted (some l) m' := by
  obtain ⟨hn,hb⟩ := hs
  have hc := counted_nonneg (some me)
  cases h with
  | countToken hpc =>
    simp only [counted,hpc,or_self,reduceCtorEq,if_false] at hb
    exact ⟨hn,by simp only [counted,Thread.goto_pc,true_or,if_true]; omega⟩
  | readToken hpc =>
    simp only [counted,hpc,true_or,if_true] at hb
    exact ⟨hn,by simpa only [counted,or_true,if_true] using hb⟩
  | dropToken hpc =>
    simp only [counted,hpc,or_true,if_true] at hb
    exact ⟨by simp only; omega,by simpa [counted] using hb⟩
  | _ =>
    refine ⟨hn,?_⟩
    simp only [counted,Thread.goto_pc,Thread.say_pc,reduceCtorEq,or_self,if_false,add_zero,
      Shared.write]
    omega

theorem tokensCounted_kept (cfg : Config) (t : Tid) : Kept cfg t TokensCounted where
  same := fun h hs => ⟨by rw [h.tokenDropSize]; exact hs.nonneg,
    by rw [h.tokenDropSize,h.tokenId]; exact hs.bound⟩
  print := fun hs => ⟨hs.nonneg,hs.bound⟩
  inside := fun h _ _ => tokensCounted_inside h
  lock := fun {_ _ pc} hpc hs => ⟨hs.nonneg,by
    have hb := hs.bound
    rcases hpc with rfl | rfl | rfl | rfl <;> exact hb⟩
  unlock := fun {me _} hpc hs => ⟨hs.nonneg,by
    have hb := hs.bound
    rcases hpc with hpc | hpc | hpc <;> simpa [counted,hpc] using hb⟩

variable {ok : System → Tid × Input → Prop} {as : List (Tid × Input)} {s : System}

theorem tokensCounted_of_run (h : Exec (stmt cfg) ok (start cfg t0) as s) : TokensCounted s.holder s.mem := by
  induction h with
  | nil => exact ⟨le_rfl,le_rfl⟩
  | snoc hrun _ hst ih =>
    exact (tokensCounted_kept cfg _).step (exclusive_of_run hrun) hst ⟨ih.nonneg,ih.bound⟩

/-! ### When `main` prints the statistics -/

theorem Stmt.not_returned (h : Stmt cfg th m a me t m' l op) : me.pc ≠ .returned := by
  intro hpc
  cases h <;> simp_all

/-- Threads that have been joined do not move any more. -/
theorem joined_step {s' : System} (hj : joined s.thread = true)
    (h : stmt cfg s (t, a) = some s') : joined s'.thread = true := by
  obtain ⟨m,l,op,he,-,hth⟩ := Monitor.step_exec h
  have hl : (s.thread t).pc = .returned → l.pc = .returned := by
    intro hpc
    rcases exec_stmt he with ⟨-,-,rfl,-⟩ | ⟨-,hst⟩
    · exact hpc
    · exact absurd hpc hst.not_returned
  simp only [joined,List.all_eq_true,decide_eq_true_eq] at hj ⊢
  intro u hu
  by_cases hut : u = t
  · subst hut
    rw [hth,update_self]
    exact hl (hj u hu)
  · rw [hth,update_of_ne hut]
    exact hj u hu

theorem Stmt.at_join (h : Stmt cfg th m a me t m' l op) (hpc : me.pc = .join) : joined th = true := by
  cases h <;> simp_all

/-- `main` goes on only when the threads have been joined. -/
theorem joined_of_main (h : Exec (stmt cfg) ok (start cfg t0) as s) (hm : (s.thread .main).pc ≠ .join) :
    joined s.thread = true := by
  induction h with
  | nil => exact absurd rfl hm
  | @snoc u v as b hrun _ hst ih =>
    by_cases hu : (u.thread .main).pc = .join
    · obtain ⟨m,l,op,he,-,hth⟩ := Monitor.step_exec hst
      by_cases hb : Tid.main = b.1
      · rcases exec_stmt he with ⟨-,-,rfl,-⟩ | ⟨-,h⟩
        · rw [hth,hb,update_self,← hb] at hm
          exact absurd hu hm
        · exact joined_step (h.at_join (hb ▸ hu)) hst
      · rw [hth,update_of_ne hb] at hm
        exact absurd hu hm
    · exact joined_step (ih hu) hst

/-- If no packet waits, every packet that has arrived is in `outputQ`. -/
theorem outputQ_perm {o : Option Thread} (hc : Conserved o m)
    (ho : ∀ me ∈ o, me.pc.carries = false) (h1 : m.Q1 = []) (h2 : m.Q2 = []) :
    m.outputQ.Perm (numbers m.packetId) := by
  have hp := hc.perm
  cases o with
  | none => simpa [places,h1,h2] using hp
  | some me =>
    have hk := hc.knows me rfl
    have hcar := ho me rfl
    simp only [places,Thread.places] at hp
    simp only [Thread.knows] at hk
    split at hp <;> simp_all

/-- The rounded intervals of the packets of `outputQ` add up to the intervals of
all packets that have arrived. -/
theorem inter_sum {n : ℤ} (hp : m.outputQ.Perm (numbers n))
    (hn : ∀ k, 0 < k → k ≤ n → 0 ≤ (m.heap k).realInterPacketArriveTime) :
    (m.output.map fun x => myRound (x.realInterPacketArriveTime / msToUs) 3).sum =
      interTotal m n / msToUs := by
  have hround : (m.output.map fun x => myRound (x.realInterPacketArriveTime / msToUs) 3) =
      m.outputQ.map fun k => ((m.heap k).realInterPacketArriveTime : ℚ) / msToUs := by
    rw [Shared.output,List.map_map]
    refine map_congr_left fun k hk => myRound_micro ?_
    have := mem_numbers.mp (hp.mem_iff.mp hk)
    exact hn k this.1 this.2
  rw [hround,(hp.map _).sum_eq,interTotal]
  generalize numbers n = l
  induction l with
  | nil => simp
  | cons k l ih => rw [map_cons,sum_cons,ih]; push_cast [map_cons,sum_cons]; ring

theorem carries_of_joined (h : Exec (stmt cfg) ok (start cfg t0) as s) (hj : joined s.thread = true) :
    ∀ me ∈ s.holder, me.pc.carries = false := by
  intro me hme
  obtain ⟨t,ho,rfl⟩ := Option.map_eq_some_iff.mp hme
  obtain rfl := owner_of_joined h hj ho
  have hr := runs_of_run h .signal
  generalize (s.thread .signal).pc = pc at hr
  cases pc <;> first | rfl | cases hr

theorem packetDropProb_eq (cfg : Config) (m : Shared) : (printStatics cfg m).packetDropProb =
    if 0 < cfg.num then some (((m.output.filter (·.packetType = 2)).length : ℚ) / cfg.num) else none := by
  by_cases hpos : 0 < cfg.num
  · simp [printStatics,hpos,foldl_drop]
  · simp [printStatics,hpos]

/-- The share of the dropped packets among those that arrived is the one among those that were to
arrive if these are the same or none was dropped. -/
theorem packetDropProb_iff (cfg : Config) (m : Shared) (h : 0 ≤ m.packetId) :
    ((printStatics cfg m).packetDropProb = if m.packetId = 0 then none else
      some (((m.output.filter (·.packetType = 2)).length : ℚ) / m.packetId)) ↔
    m.packetId = cfg.num ∨ m.packetId = 0 ∧ cfg.num < 0 ∨
      0 < m.packetId ∧ 0 < cfg.num ∧ m.output.filter (·.packetType = 2) = [] := by
  rw [packetDropProb_eq]
  by_cases hpos : 0 < cfg.num
  · by_cases h0 : m.packetId = 0
    · rw [if_pos hpos,if_pos h0]
      refine iff_of_false nofun ?_
      omega
    · rw [if_pos hpos,if_neg h0,Option.some.injEq]
      by_cases hd : m.output.filter (·.packetType = 2) = []
      · refine iff_of_true ?_ (.inr (.inr ⟨by omega,hpos,hd⟩))
        rw [hd,length_nil,Nat.cast_zero,zero_div,zero_div]
      · have hne : ((m.output.filter (·.packetType = 2)).length : ℚ) ≠ 0 := by
          exact_mod_cast mt length_eq_zero_iff.mp hd
        rw [div_eq_mul_inv,div_eq_mul_inv,mul_right_inj' hne,inv_inj,Int.cast_inj]
        refine ⟨fun he => .inl he.symm,?_⟩
        rintro (he | he | ⟨-,-,he⟩)
        · exact he.symm
        · omega
        · exact absurd he hd
  · rw [if_neg hpos]
    by_cases h0 : m.packetId = 0
    · rw [if_pos h0]
      refine iff_of_true rfl ?_
      omega
    · rw [if_neg h0]
      refine iff_of_false nofun ?_
      omega

/-- What `printStatics` computes from the packets that arrived. The packet drop probability is the
share of the dropped ones among them just if all packets that were to arrive have arrived, or some
have and none of them was dropped (a negative `num` lets none arrive); if all have arrived and none
of them waits in a queue, the average inter-arrival time, in seconds, is the sum of their intervals
over their number. The token drop probability is the share of the dropped tokens, in every run. -/
theorem statistics_count_arrivals (cfg : Config) (t0 : ℤ) (as : List (Tid × Input)) (s : System)
    (h : Exec (stmt cfg) (fun _ _ => True) (start cfg t0) as s) (hmain : (s.thread .main).pc = .printStatics) :
    ((printStatics cfg s.mem).packetDropProb = (if s.mem.packetId = 0 then none else
        some (((s.mem.output.filter (·.packetType = 2)).length : ℚ) / s.mem.packetId)) ↔
      s.mem.packetId = cfg.num ∨ s.mem.packetId = 0 ∧ cfg.num < 0 ∨
        0 < s.mem.packetId ∧ 0 < cfg.num ∧ s.mem.output.filter (·.packetType = 2) = []) ∧
    (Exec (stmt cfg) Clock (start cfg t0) as s →
      s.mem.packetId = cfg.num → s.mem.Q1 = [] → s.mem.Q2 = [] →
      (printStatics cfg s.mem).avgRealInterPacketArriveTime = if s.mem.packetId = 0 then none else
        some ((interTotal s.mem s.mem.packetId : ℚ) / s.mem.packetId / (msToUs*msToUs))) ∧
    ((printStatics cfg s.mem).tokenDropProb = if s.mem.tokenId = 0 then none else
      some ((s.mem.tokenDropSize : ℚ) / s.mem.tokenId)) ∧
    ∀ q ∈ (printStatics cfg s.mem).tokenDropProb, 0 ≤ q ∧ q ≤ 1 := by
  have hnonneg := (conserved_of_run h).nonneg
  have htok := tokensCounted_of_run h
  have hcount := counted_nonneg s.holder
  have hn := htok.nonneg
  have hb := htok.bound
  refine ⟨packetDropProb_iff cfg s.mem (by omega),fun hclock hall h1 h2 => ?_,?_,fun q hq => ?_⟩
  · have hj := joined_of_main h (by rw [hmain]; decide)
    have hrec := recorded_of_joined h hj
    have hperm := outputQ_perm (conserved_of_run h) (carries_of_joined h hj) h1 h2
    have hsum := inter_sum hperm fun k h0 hk => (arrived_of_run hclock).nonneg k h0 (hrec ▸ hk)
    by_cases h0 : s.mem.packetId = 0
    · simp [printStatics,← hall,h0]
    · have hpos : 0 < cfg.num := by omega
      rw [if_neg h0]
      simp only [printStatics,if_pos hpos,foldl_inter,hsum,hall,zero_add]
      rw [div_div,div_div,div_div,mul_left_comm,mul_comm msToUs]
  · by_cases h0 : s.mem.tokenId = 0
    · simp [printStatics,h0]
    · simp [printStatics,h0,show 0 < s.mem.tokenId by omega]
  · by_cases h0 : 0 < s.mem.tokenId
    · simp only [printStatics,if_pos h0,Option.mem_some_iff] at hq
      subst hq
      have hpos : (0 : ℚ) < s.mem.tokenId := by exact_mod_cast h0
      have hd : (0 : ℚ) ≤ s.mem.tokenDropSize := by exact_mod_cast hn
      have hle : (s.mem.tokenDropSize : ℚ) ≤ s.mem.tokenId := by
        exact_mod_cast (by omega : s.mem.tokenDropSize ≤ s.mem.tokenId)
      exact ⟨div_nonneg hd hpos.le,(div_le_one hpos).mpr hle⟩
    · simp [printStatics,h0] at hq

theorem statistics_count_arrivals_completeRun :
    ((clockedRun.thread .main).pc = .printStatics ∧ clockedRun.mem.packetId = 1) ∧
    (printStatics oneToken clockedRun.mem).packetDropProb = some 0 ∧
    (printStatics oneToken clockedRun.mem).avgRealInterPacketArriveTime =
      some (2 / (msToUs*msToUs)) ∧
    (printStatics oneToken clockedRun.mem).tokenDropProb = some 0 := by
  have hmain : (clockedRun.thread .main).pc = .printStatics := by decide +kernel
  have hid : clockedRun.mem.packetId = 1 := by decide +kernel
  have hrun : Exec (stmt oneToken) Clock (start oneToken 0) completeRun clockedRun :=
    Exec.ofRun_getD (by decide +kernel) _
  obtain ⟨hdrop,havg,htok,-⟩ := statistics_count_arrivals oneToken 0 completeRun clockedRun
    (hrun.weaken fun _ _ _ _ => trivial) hmain
  refine ⟨⟨hmain,hid⟩,?_,?_,?_⟩
  · rw [hdrop.mpr (.inl hid),hid]
    decide +kernel
  · rw [havg hrun hid (by decide +kernel) (by decide +kernel),hid]
    decide +kernel
  · rw [htok]
    decide +kernel

/-- SIGINT comes before the first packet arrives; the threads return and `main`
prints the statistics. -/
def earlyInterrupt : List (Tid × Input) :=
  turn .signal 11 1 ++ turn .packet 1 2 ++ turn .token 2 2 ++ turn (.server .S1) 3 2 ++
    turn (.server .S2) 3 2 ++ turn .main 3 3

theorem statistics_without_arrivals : ∃ s, Exec (stmt oneToken) Clock (start oneToken 0) earlyInterrupt s ∧
    (s.thread .main).pc = .printStatics ∧ s.mem.packetId = 0 ∧ s.mem.outputQ = [] ∧
    (printStatics oneToken s.mem).packetDropProb = some 0 ∧
    (printStatics oneToken s.mem).avgRealInterPacketArriveTime = some 0 := by
  refine ⟨_,Exec.ofRun_getD (by decide +kernel) (start oneToken 0),?_⟩
  decide +kernel

end Csci402.Emulator.Threads
