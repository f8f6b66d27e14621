import Csci402.Emulator.Places
import Mathlib.Data.List.Nodup

/-! The times in the packets. The seven times of a packet are written by up to four
threads, each where the packet is at that moment. The first `k` of them are in
order and past, where `k` is determined by the place of the packet: two in `Q1`,
four in `Q2`, six in `outputQ` once the service has begun. The last one is written
without the lock by the server that took the packet. -/

namespace Csci402.Emulator.Threads

open Lib Function List

/-- The times of a packet in the order in which they should be written. -/
def times (x : MyPacket) : List ℤ :=
  [x.arriveTime,x.enterQ1Time,x.leaveQ1Time,x.enterQ2Time,x.leaveQ2Time,x.beginServiceTime,
    x.endServiceTime]

/-- The first `k` times of `x` are in order and not after `now`. -/
structure InOrder (k : ℕ) (now : ℤ) (x : MyPacket) : Prop where
  sorted : ((times x).take k).Pairwise (· ≤ ·)
  past : ∀ v ∈ (times x).take k, v ≤ now

section InOrder

variable {j k : ℕ} {now : ℤ} {x y : MyPacket}

theorem inOrder_zero : InOrder 0 now x := ⟨by simp,by simp⟩

theorem InOrder.later {now' : ℤ} (h : InOrder k now x) (hl : now ≤ now') : InOrder k now' x :=
  ⟨h.sorted,fun v hv => (h.past v hv).trans hl⟩

theorem InOrder.congr (h : InOrder k now x) (hy : (times y).take k = (times x).take k) : InOrder k now y :=
  ⟨by rw [hy]; exact h.sorted,by rw [hy]; exact h.past⟩

theorem InOrder.down (h : InOrder k now x) (hj : j ≤ k) : InOrder j now x := by
  have hsub := take_sublist_take_left hj (l := times x)
  exact ⟨h.sorted.sublist hsub,fun v hv => h.past v (hsub.subset hv)⟩

/-- The next time is written. -/
theorem InOrder.stamp (h : InOrder k now x) (hy : (times y).take k = (times x).take k)
    (ht : (times y)[k]? = some now) : InOrder (k+1) now y := by
  have htake : (times y).take (k+1) = (times x).take k ++ [now] := by
    rw [take_add_one,hy,ht]; rfl
  refine ⟨?_,fun v hv => ?_⟩
  · rw [htake]
    refine pairwise_append.mpr ⟨h.sorted,pairwise_singleton _ _,fun u hu v hv => ?_⟩
    rw [mem_singleton.mp hv]
    exact h.past u hu
  · rw [htake] at hv
    rcases mem_append.mp hv with hv | hv
    · exact h.past v hv
    · exact (mem_singleton.mp hv).le

end InOrder

/-- How many times of the packet in hand have been written at a statement. -/
def Pc.stamped : Pc → Option ℕ
  | .readArrive => some 0
  | .testNeed | .markDropped | .appendDropped | .appendQ1 | .readEnterQ1 => some 1
  | .payTokens | .readLeaveQ1 => some 2
  | .appendQ2 | .readEnterQ2 => some 3
  | .readLeaveQ2 => some 4
  | .markServed | .appendServed | .readBegin => some 5
  | .broadcastServing | .unlockServing | .readEnd => some 6
  | _ => none

/-- The thread inside is at `pc` with the packet `p`. -/
def At (h : Option Thread) (pc : Pc) (p : ℤ) : Prop := ∃ me ∈ h, me.pc = pc ∧ me.cur = p

@[simp] theorem at_none (pc : Pc) (p : ℤ) : ¬ At none pc p := by
  rintro ⟨me,hme,-⟩
  cases hme

@[simp] theorem at_some (me : Thread) (pc : Pc) (p : ℤ) : At (some me) pc p ↔ me.pc = pc ∧ me.cur = p := by
  simp [At]

/-- The times of the packets by their places. A packet that was just appended to a
queue has its entry still to be written. -/
structure Stamped (cfg : Config) (h : Option Thread) (m : Shared) : Prop where
  conserved : Conserved h m
  hand : ∀ me ∈ h, ∀ k, me.pc.stamped = some k →
    InOrder k (m.now - cfg.emulationStartTime) (m.heap me.cur)
  Q1 : ∀ p ∈ m.Q1, InOrder 2 (m.now - cfg.emulationStartTime) (m.heap p) ∨ At h .readEnterQ1 p
  Q2 : ∀ p ∈ m.Q2, InOrder 4 (m.now - cfg.emulationStartTime) (m.heap p) ∨ At h .readEnterQ2 p
  outputQ : ∀ p ∈ m.outputQ, (m.heap p).packetType = 1 →
    InOrder 6 (m.now - cfg.emulationStartTime) (m.heap p) ∨ At h .readBegin p
  kind : ∀ me ∈ h, (me.pc = .appendDropped → (m.heap me.cur).packetType = 2) ∧
    ∀ q p ps, me.pc = .outputRemoved q p ps → (m.heap p).packetType = 3

variable {cfg : Config} {th : Tid → Thread} {m m' : Shared} {a : Input} {me l : Thread}
  {op : LockOp} {t : Tid}

/-! ### Where the packet in hand is not -/

theorem nodup_numbers (n : ℤ) : (numbers n).Nodup :=
  List.Nodup.map (fun i j h => by simpa using h) nodup_range

theorem mem_numbers {n k : ℤ} : k ∈ numbers n ↔ 0 < k ∧ k ≤ n := by
  simp only [numbers,List.mem_map,mem_range]
  constructor
  · rintro ⟨i,hi,rfl⟩; omega
  · rintro ⟨h0,hn⟩; exact ⟨(k - 1).toNat,by omega,by omega⟩

variable {o : Option Thread}

theorem Conserved.nodup (h : Conserved o m) : (places o m).Nodup :=
  h.perm.nodup_iff.mpr (nodup_numbers _)

variable {p : ℤ}

theorem Conserved.bound (h : Conserved o m) (hp : p ∈ places o m) : 0 < p ∧ p ≤ m.packetId :=
  mem_numbers.mp (h.perm.mem_iff.mp hp)

/-- A packet in hand is in none of the queues. -/
theorem carries_not_mem (hc : Conserved (some me) m) (hcar : me.pc.carries = true) :
    me.cur ∉ m.Q1 ∧ me.cur ∉ m.Q2 ∧ me.cur ∉ m.outputQ := by
  have hnd : (me.places m).Nodup := hc.nodup
  have hnd : (me.cur :: (m.Q1 ++ m.Q2 ++ m.outputQ)).Nodup := by
    cases hpc : me.pc <;> simp_all [Thread.places,Pc.carries]
  have hn := (nodup_cons.mp hnd).1
  simp only [mem_append,not_or] at hn
  exact ⟨hn.1.1,hn.1.2,hn.2⟩

variable {k : ℕ}

/-- A packet with few times is not in the later queues. -/
theorem stamped_not_mem (hc : Conserved (some me) m) (hk : me.pc.stamped = some k) :
    (k = 0 → me.cur ∉ m.Q1) ∧ (k ≤ 2 → me.cur ∉ m.Q2) ∧ (k ≤ 4 → me.cur ∉ m.outputQ) := by
  have hnd : (me.places m).Nodup := hc.nodup
  have hkn := hc.knows me rfl
  by_cases hcar : me.pc.carries = true
  · obtain ⟨h1,h2,ho⟩ := carries_not_mem hc hcar
    exact ⟨fun _ => h1,fun _ => h2,fun _ => ho⟩
  · have hcase : me.pc = .readEnterQ1 ∨ me.pc = .readEnterQ2 ∨ 5 ≤ k := by
      cases hpc : me.pc <;> simp_all [Pc.carries,Pc.stamped] <;> omega
    rcases hcase with hpc | hpc | hk'
    · simp only [Thread.places,hpc,Pc.carries,Thread.knows,Bool.false_eq_true,if_false,
        nil_append] at hnd hkn
      obtain ⟨hnd',-,hout⟩ := nodup_append.mp hnd
      obtain ⟨-,-,h2⟩ := nodup_append.mp hnd'
      rw [hpc] at hk
      cases hk
      exact ⟨by omega,fun _ h => h2 _ hkn _ h rfl,
        fun _ h => hout _ (mem_append_left _ hkn) _ h rfl⟩
    · simp only [Thread.places,hpc,Pc.carries,Thread.knows,Bool.false_eq_true,if_false,
        nil_append] at hnd hkn
      obtain ⟨-,-,hout⟩ := nodup_append.mp hnd
      rw [hpc] at hk
      cases hk
      exact ⟨by omega,by omega,fun _ h => hout _ (mem_append_right _ hkn) _ h rfl⟩
    · exact ⟨by omega,by omega,by omega⟩

/-! ### The statements inside the lock -/

/-- The statements that have a packet in a queue and its entry to write. -/
def Pc.entering : Pc → Bool
  | .readEnterQ1 | .readEnterQ2 | .readBegin => true
  | _ => false

/-- The statements that append a packet which is not served. -/
def Pc.appending : Pc → Bool
  | .appendDropped | .outputRemoved _ _ _ => true
  | _ => false

variable {pc : Pc}

theorem not_at (hme : me.pc.entering = false) (hpc : pc.entering = true) : ¬ At (some me) pc p := by
  intro h
  rw [← ((at_some _ _ _).mp h).1,hme] at hpc
  cases hpc

/-- Nothing is said of the packet of a statement that appends none. -/
theorem kind_of_appending (hl : l.pc.appending = false) : (l.pc = .appendDropped → (m.heap l.cur).packetType = 2) ∧
    ∀ q p ps, l.pc = .outputRemoved q p ps → (m.heap p).packetType = 3 := by
  constructor
  · intro hpc
    rw [hpc] at hl
    cases hl
  · intro q p ps hpc
    rw [hpc] at hl
    cases hl

/-- A statement that only moves packets. -/
theorem stamped_move (hs : Stamped cfg (some me) m) (hc : Conserved (some l) m')
    (hheap : m'.heap = m.heap) (hnow : m'.now = m.now)
    (hhand : ∀ k, l.pc.stamped = some k → InOrder k (m.now - cfg.emulationStartTime) (m.heap l.cur))
    (h1 : ∀ p ∈ m'.Q1, p ∈ m.Q1 ∨ l.pc = .readEnterQ1 ∧ l.cur = p)
    (h2 : ∀ p ∈ m'.Q2, p ∈ m.Q2 ∨ l.pc = .readEnterQ2 ∧ l.cur = p)
    (ho : ∀ p ∈ m'.outputQ, p ∈ m.outputQ ∨ (m.heap p).packetType ≠ 1 ∨ l.pc = .readBegin ∧ l.cur = p)
    (hme : me.pc.entering = false) (hl : l.pc.appending = false) : Stamped cfg (some l) m' := by
  refine ⟨hc,fun x hx k hk => ?_,fun p hp => ?_,fun p hp => ?_,fun p hp hty => ?_,fun x hx => ?_⟩
  · cases hx
    rw [hheap,hnow]
    exact hhand k hk
  · rw [hheap,hnow]
    exact (h1 p hp).imp (fun hp => (hs.Q1 p hp).resolve_right (not_at hme rfl)) (at_some _ _ _).mpr
  · rw [hheap,hnow]
    exact (h2 p hp).imp (fun hp => (hs.Q2 p hp).resolve_right (not_at hme rfl)) (at_some _ _ _).mpr
  · rw [hheap] at hty
    rw [hheap,hnow]
    exact (ho p hp).imp (fun hp => (hs.outputQ p hp hty).resolve_right (not_at hme rfl)) fun h =>
      (at_some _ _ _).mpr (h.resolve_left fun hne => hne hty)
  · cases hx
    exact kind_of_appending hl

/-- A statement that moves nothing and goes on with the packet in hand or without
one. -/
theorem stamped_jump (hs : Stamped cfg (some me) m) (hc : Conserved (some l) m')
    (hheap : m'.heap = m.heap) (hnow : m'.now = m.now)
    (hq : m'.Q1 = m.Q1 ∧ m'.Q2 = m.Q2 ∧ m'.outputQ = m.outputQ)
    (hhand : l.pc.stamped = none ∨ l.pc.stamped = me.pc.stamped ∧ l.cur = me.cur)
    (hme : me.pc.entering = false) (hl : l.pc.appending = false) : Stamped cfg (some l) m' := by
  obtain ⟨h1,h2,ho⟩ := hq
  refine stamped_move hs hc hheap hnow (fun k hk => ?_) (fun p hp => .inl (h1 ▸ hp)) (fun p hp => .inl (h2 ▸ hp))
    (fun p hp => .inl (ho ▸ hp)) hme hl
  rcases hhand with h | ⟨h,hcur⟩
  · rw [h] at hk
    cases hk
  · rw [hcur]
    exact hs.hand me rfl k (h ▸ hk)

/-- The next time is written into the packet in hand. -/
theorem stamped_stamp (k : ℕ) {y : MyPacket} (hs : Stamped cfg (some me) m)
    (hc : Conserved (some l) m') (hk : me.pc.stamped = some k) (hcur : l.cur = me.cur)
    (hl : ∀ j, l.pc.stamped = some j → j = k+1) (hsp : l.pc.appending = false)
    (hq : m'.Q1 = m.Q1 ∧ m'.Q2 = m.Q2 ∧ m'.outputQ = m.outputQ) (hnow : m'.now = m.now)
    (hheap : m'.heap = update m.heap me.cur y) (htake : (times y).take k = (times (m.heap me.cur)).take k)
    (ht : (times y)[k]? = some (m.now - cfg.emulationStartTime)) : Stamped cfg (some l) m' := by
  have hne : ∀ p, p ≠ me.cur → m'.heap p = m.heap p := fun p hp => by
    rw [hheap,update_of_ne hp]
  obtain ⟨h1,h2,ho⟩ := hq
  obtain ⟨hn1,hn2,hno⟩ := stamped_not_mem hs.conserved hk
  have hnew : InOrder (k+1) (m.now - cfg.emulationStartTime) (m'.heap me.cur) := by
    rw [hheap,update_self]
    exact (hs.hand me rfl k hk).stamp htake ht
  -- a packet of a queue is the one in hand, with one more time, or it is unchanged
  have queue {j : ℕ} {pc : Pc} {p : ℤ} (hj : p = me.cur → ¬ k+1 < j)
      (hold : p ≠ me.cur →
        InOrder j (m.now - cfg.emulationStartTime) (m.heap p) ∨ At (some me) pc p) :
      InOrder j (m'.now - cfg.emulationStartTime) (m'.heap p) := by
    rw [hnow]
    by_cases hp : p = me.cur
    · rw [hp]; exact hnew.down (not_lt.mp (hj hp))
    · rw [hne p hp]
      exact (hold hp).resolve_right fun h => hp ((at_some _ _ _).mp h).2.symm
  refine ⟨hc,fun x hx j hj => ?_,fun p hp => .inl ?_,fun p hp => .inl ?_,
    fun p hp hty => .inl ?_,fun x hx => ?_⟩
  · cases hx
    rw [hcur,hnow,hl j hj]
    exact hnew
  · rw [h1] at hp
    exact queue (fun h hk' => hn1 (by omega) (h ▸ hp)) fun _ => hs.Q1 p hp
  · rw [h2] at hp
    exact queue (fun h hk' => hn2 (by omega) (h ▸ hp)) fun _ => hs.Q2 p hp
  · rw [ho] at hp
    exact queue (fun h hk' => hno (by omega) (h ▸ hp)) fun hp' =>
      hs.outputQ p hp (hne p hp' ▸ hty)
  · cases hx
    exact kind_of_appending hsp

/-- The type of a packet that is not in `outputQ`, or not a served one, is set. -/
theorem stamped_mark {p0 : ℤ} {f : MyPacket → MyPacket} (hs : Stamped cfg (some me) m)
    (hc : Conserved (some l) (m.write p0 f)) (hf : ∀ x, times (f x) = times x)
    (hhand : ∀ k, l.pc.stamped = some k → me.pc.stamped = some k ∧ l.cur = me.cur) (hme : me.pc.entering = false)
    (hout : p0 ∈ m.outputQ → (f (m.heap p0)).packetType ≠ 1)
    (hkind : (l.pc = .appendDropped → l.cur = p0 ∧ (f (m.heap p0)).packetType = 2) ∧
      ∀ q p ps, l.pc = .outputRemoved q p ps → p = p0 ∧ (f (m.heap p0)).packetType = 3) :
    Stamped cfg (some l) (m.write p0 f) := by
  have htimes : ∀ p, times ((m.write p0 f).heap p) = times (m.heap p) := fun p =>
    Shared.write_field m p0 p times hf
  have order {k : ℕ} {now : ℤ} {p : ℤ} (h : InOrder k now (m.heap p)) :
      InOrder k now ((m.write p0 f).heap p) := h.congr (by rw [htimes])
  refine ⟨hc,fun x hx k hk => ?_,fun p hp => .inl ?_,fun p hp => .inl ?_,
    fun p hp hty => .inl ?_,fun x hx => ?_⟩
  · cases hx
    obtain ⟨hk',hcur⟩ := hhand k hk
    rw [hcur]
    exact order (hs.hand me rfl k hk')
  · exact order ((hs.Q1 p hp).resolve_right (not_at hme rfl))
  · exact order ((hs.Q2 p hp).resolve_right (not_at hme rfl))
  · have hne : p ≠ p0 := by
      rintro rfl
      exact hout hp (by simpa [Shared.write] using hty)
    refine order ((hs.outputQ p hp ?_).resolve_right (not_at hme rfl))
    simpa [Shared.write,update_of_ne hne] using hty
  · cases hx
    refine ⟨fun hpc => ?_,fun q p ps hpc => ?_⟩
    · obtain ⟨hcur,hty⟩ := hkind.1 hpc
      rw [hcur]
      simpa [Shared.write] using hty
    · obtain ⟨rfl,hty⟩ := hkind.2 q p ps hpc
      simpa [Shared.write] using hty

theorem stamped_inside (h : Stmt cfg th m a me t m' l .keep) (hnow : m.now = a.time)
    (hin : me.pc.inside = true) (hs : Stamped cfg (some me) m) : Stamped cfg (some l) m' := by
  have hc := conserved_inside h hin hs.conserved
  -- the packet that is appended to a queue
  have last {q : List ℤ} {p x : ℤ} {C : Prop} (hp : p ∈ q ++ [x]) (hx : x = p → C) : p ∈ q ∨ C :=
    (mem_append.mp hp).imp_right fun hp => hx (mem_singleton.mp hp).symm
  cases h with
  | guardPass _ hpc => rcases hpc with hpc | hpc | hpc <;> simp [hpc,Pc.inside] at hin
  | leave _ hpc =>
    refine stamped_jump hs hc rfl rfl ⟨rfl,rfl,rfl⟩ (.inl rfl) ?_ rfl
    rcases hpc with hpc | hpc | hpc | hpc | hpc <;> rw [hpc] <;> rfl
  | initPacket hpc =>
    -- the new packet is in no queue
    have hne : ∀ p ∈ m.Q1 ++ m.Q2 ++ m.outputQ, p ≠ m.packetId+1 := by
      intro p hp
      have := (hs.conserved.bound (p := p) (by simpa [places,Thread.places,hpc,Pc.carries] using hp)).2
      omega
    have hme : me.pc.entering = false := by rw [hpc]; rfl
    refine ⟨hc,fun x hx k hk => ?_,fun p hp => .inl ?_,fun p hp => .inl ?_,
      fun p hp hty => .inl ?_,fun x hx => ?_⟩
    · cases hx; cases hk; exact inOrder_zero
    · simp only [update_of_ne (hne p (by simp [hp]))]
      exact (hs.Q1 p hp).resolve_right (not_at hme rfl)
    · simp only [update_of_ne (hne p (by simp [hp]))]
      exact (hs.Q2 p hp).resolve_right (not_at hme rfl)
    · simp only [update_of_ne (hne p (by simp [hp]))] at hty ⊢
      exact (hs.outputQ p hp hty).resolve_right (not_at hme rfl)
    · cases hx; exact ⟨by simp,by simp⟩
  | readArrive hpc | readEnterQ1 hpc | readLeaveQ1 _ hpc | readEnterQ2 _ hpc | readLeaveQ2 _ hpc | readBegin _ hpc =>
    exact stamped_stamp _ hs hc (congrArg Pc.stamped hpc) rfl (by simp [Pc.stamped]) rfl
      ⟨rfl,rfl,rfl⟩ rfl rfl rfl (by rw [hnow]; rfl)
  | markDropped hpc =>
    refine stamped_mark hs hc (fun _ => rfl) (by simp [hpc,Pc.stamped]) (by rw [hpc]; rfl)
      (fun _ => by simp) ⟨fun _ => ⟨rfl,rfl⟩,by simp⟩
  | markServed _ _ hpc =>
    refine stamped_mark hs hc (fun _ => rfl) (by simp [hpc,Pc.stamped]) (by rw [hpc]; rfl)
      (fun hp => ?_) ⟨by simp,by simp⟩
    exact absurd hp (carries_not_mem hs.conserved (by rw [hpc]; rfl)).2.2
  | remove q p ps hpc =>
    refine stamped_mark hs hc (fun _ => rfl) (by simp [Pc.stamped]) (by rw [hpc]; rfl)
      (fun _ => by simp) ⟨by simp,fun q' p' ps' h => ?_⟩
    cases h
    exact ⟨rfl,rfl⟩
  | appendDropped hpc =>
    refine stamped_move hs hc rfl rfl (by simp [Pc.stamped]) (fun _ => .inl) (fun _ => .inl)
      (fun p hp => last hp fun he => .inl ?_) (by rw [hpc]; rfl) rfl
    rw [← he,(hs.kind me rfl).1 hpc]
    decide
  | outputRemoved q p0 ps hpc =>
    refine stamped_move hs hc rfl rfl (by simp [Pc.stamped]) (fun _ => .inl) (fun _ => .inl)
      (fun p hp => last hp fun he => .inl ?_) (by rw [hpc]; rfl) rfl
    rw [← he,(hs.kind me rfl).2 q p0 ps hpc]
    decide
  | appendServed _ hpc =>
    exact stamped_move hs hc rfl rfl (fun k hk => hs.hand me rfl k (by rw [hpc]; exact hk)) (fun _ => .inl)
      (fun _ => .inl) (fun p hp => last hp fun he => .inr ⟨rfl,he⟩) (by rw [hpc]; rfl) rfl
  | appendQ1 hpc =>
    exact stamped_move hs hc rfl rfl (fun k hk => hs.hand me rfl k (by rw [hpc]; exact hk))
      (fun p hp => last hp fun he => ⟨rfl,he⟩) (fun _ => .inl) (fun _ => .inl) (by rw [hpc]; rfl) rfl
  | appendQ2 _ hpc =>
    exact stamped_move hs hc rfl rfl (fun k hk => hs.hand me rfl k (by rw [hpc]; exact hk)) (fun _ => .inl)
      (fun p hp => last hp fun he => ⟨rfl,he⟩) (fun _ => .inl) (by rw [hpc]; rfl) rfl
  | unlinkQ1 _ hpc =>
    obtain ⟨rest,h1⟩ : ∃ rest, m.Q1 = me.cur :: rest := by
      simpa [Thread.knows,hpc] using hs.conserved.knows me rfl
    refine stamped_move hs hc rfl rfl (fun k hk => ?_) (fun p hp => .inl (mem_of_mem_erase hp))
      (fun _ => .inl) (fun _ => .inl) (by rw [hpc]; rfl) rfl
    cases hk
    exact (hs.Q1 me.cur (by simp [h1])).resolve_right (by simp [hpc])
  | unlinkQ2 _ hpc =>
    obtain ⟨rest,h2⟩ : ∃ rest, m.Q2 = me.cur :: rest := by
      simpa [Thread.knows,hpc] using hs.conserved.knows me rfl
    refine stamped_move hs hc rfl rfl (fun k hk => ?_) (fun _ => .inl)
      (fun p hp => .inl (mem_of_mem_erase hp)) (fun _ => .inl) (by rw [hpc]; rfl) rfl
    cases hk
    exact (hs.Q2 me.cur (by simp [h2])).resolve_right (by simp [hpc])
  | unlinkAllQ1 hpc =>
    exact stamped_move hs hc rfl rfl (by simp [Pc.stamped]) (by simp) (fun _ => .inl) (fun _ => .inl) (by rw [hpc]; rfl) rfl
  | unlinkAllQ2 hpc =>
    exact stamped_move hs hc rfl rfl (by simp [Pc.stamped]) (fun _ => .inl) (by simp) (fun _ => .inl) (by rw [hpc]; rfl) rfl
  | readEnd _ hpc => simp [hpc,Pc.inside] at hin
  | _ =>
    refine stamped_jump hs hc rfl rfl ⟨rfl,rfl,rfl⟩ ?_ ?_ ?_ <;> clear hs hc <;>
      simp_all [Pc.stamped,Pc.entering,Pc.appending,Pc.inside]

theorem stamped_le (h : pc.stamped = some k) : k ≤ 6 := by
  unfold Pc.stamped at h
  split at h <;> simp_all <;> omega

/-- The end of a service is the last time and is not among the first six. -/
theorem InOrder.ended {now e : ℤ} {x : MyPacket} (h : InOrder k now x) (hk : k ≤ 6) :
    InOrder k now { x with endServiceTime := e } := by
  refine h.congr ?_
  have h6 : (times { x with endServiceTime := e }).take 6 = (times x).take 6 := rfl
  have := congrArg (List.take k) h6
  rwa [take_take,take_take,min_eq_left hk] at this

theorem stamped_same (h : Same m m') (hs : Stamped cfg o m) : Stamped cfg o m' := by
  have order {k : ℕ} {now : ℤ} {p : ℤ} (hk : k ≤ 6) (ho : InOrder k now (m.heap p)) :
      InOrder k now (m'.heap p) := by
    obtain ⟨e,he⟩ := h.heap p
    rw [he]
    exact ho.ended hk
  have type : ∀ p, (m'.heap p).packetType = (m.heap p).packetType := fun p => by
    obtain ⟨e,he⟩ := h.heap p
    rw [he]
  refine ⟨(conserved_kept cfg .main).same h hs.conserved,fun me hme k hk => ?_,
    fun p hp => ?_,fun p hp => ?_,fun p hp hty => ?_,fun me hme => ?_⟩
  · rw [h.now]
    exact order (stamped_le hk) (hs.hand me hme k hk)
  · rw [h.now]
    exact (hs.Q1 p (h.Q1 ▸ hp)).imp_left (order (by decide))
  · rw [h.now]
    exact (hs.Q2 p (h.Q2 ▸ hp)).imp_left (order (by decide))
  · rw [h.now]
    exact (hs.outputQ p (h.outputQ ▸ hp) (type p ▸ hty)).imp_left (order (by decide))
  · simpa only [type] using hs.kind me hme

theorem stamped_print (hs : Stamped cfg (some me) m) : Stamped cfg (some { me with toPrint := false }) m := by
  refine ⟨(conserved_kept cfg .main).print hs.conserved,fun x hx => ?_,fun p hp => ?_,
    fun p hp => ?_,fun p hp hty => ?_,fun x hx => ?_⟩
  · cases hx; exact hs.hand me rfl
  · simpa using hs.Q1 p hp
  · simpa using hs.Q2 p hp
  · simpa using hs.outputQ p hp hty
  · cases hx; exact hs.kind me rfl

theorem stamped_lock (hpc : pc = .testInput ∨ pc = .testToken ∨ pc = .testWait ∨ pc = .readSignal)
    (hs : Stamped cfg none m) : Stamped cfg (some (me.goto pc)) m := by
  refine ⟨conserved_lock hpc hs.conserved,fun x hx k hk => ?_,
    fun p hp => .inl ((hs.Q1 p hp).resolve_right (at_none _ _)),
    fun p hp => .inl ((hs.Q2 p hp).resolve_right (at_none _ _)),
    fun p hp hty => .inl ((hs.outputQ p hp hty).resolve_right (at_none _ _)),fun x hx => ?_⟩
  · cases hx
    rcases hpc with rfl | rfl | rfl | rfl <;> cases hk
  · cases hx
    rcases hpc with rfl | rfl | rfl | rfl <;> exact ⟨by simp,by simp⟩

theorem stamped_unlock (hpc : me.pc = .unlock ∨ me.pc = .unlockServing ∨ me.pc = .testWait)
    (hs : Stamped cfg (some me) m) : Stamped cfg none m := by
  have hme : me.pc.entering = false := by
    rcases hpc with hpc | hpc | hpc <;> rw [hpc] <;> rfl
  exact ⟨conserved_unlock hpc hs.conserved,by simp,
    fun p hp => .inl ((hs.Q1 p hp).resolve_right (not_at hme rfl)),
    fun p hp => .inl ((hs.Q2 p hp).resolve_right (not_at hme rfl)),
    fun p hp hty => .inl ((hs.outputQ p hp hty).resolve_right (not_at hme rfl)),by simp⟩

theorem stamped_kept (cfg : Config) (t : Tid) : Kept cfg t (Stamped cfg) :=
  ⟨stamped_same,stamped_print,stamped_inside,stamped_lock,stamped_unlock⟩

theorem Stamped.later {time : ℤ} (h : Stamped cfg o m) (ht : m.now ≤ time) :
    Stamped cfg o { m with now := time } := by
  have order {k : ℕ} {x : MyPacket} (ho : InOrder k (m.now - cfg.emulationStartTime) x) :
      InOrder k (time - cfg.emulationStartTime) x := ho.later (by omega)
  exact ⟨h.conserved.later _,fun me hme k hk => order (h.hand me hme k hk),
    fun p hp => (h.Q1 p hp).imp_left order,fun p hp => (h.Q2 p hp).imp_left order,
    fun p hp hty => (h.outputQ p hp hty).imp_left order,h.kind⟩

theorem stamped_start (cfg : Config) (t0 : ℤ) : Stamped cfg (start cfg t0).holder (start cfg t0).mem :=
  ⟨conserved_start cfg t0,by simp [start,LockState.holder],by simp [start],by simp [start],
    by simp [start],by simp [start,LockState.holder]⟩

variable {t0 : ℤ} {as : List (Tid × Input)} {s : System}

theorem stamped_of_run (h : Exec (stmt cfg) Clock (start cfg t0) as s) : Stamped cfg s.holder s.mem := by
  induction h with
  | nil => exact stamped_start cfg t0
  | snoc hrun hc hst ih => exact (stamped_kept cfg _).step (exclusive_of_run hrun) hst (ih.later hc)

/-! ### The end of a service -/

/-- A server has the packet in hand and has not written the end of its service. -/
def Pc.serving : Pc → Bool
  | .readBegin | .broadcastServing | .unlockServing | .readEnd => true
  | _ => false

/-- Every service that has begun has ended, or a thread is still to write its end. -/
def Ended (s : System) : Prop :=
  ∀ p ∈ s.mem.outputQ, (s.mem.heap p).packetType = 1 →
    (s.mem.heap p).beginServiceTime ≤ (s.mem.heap p).endServiceTime ∨
    ∃ t, (s.thread t).pc.serving = true ∧ (s.thread t).cur = p

/-- A thread serves the packet in hand until it writes the end of the service. -/
theorem Stmt.serving_kept (h : Stmt cfg th m a me t m' l op) (hs : me.pc.serving = true)
    (he : me.pc ≠ .readEnd) : l.pc.serving = true ∧ l.cur = me.cur := by
  cases h with
  | guardPass _ hpc => rcases hpc with hpc | hpc | hpc <;> rw [hpc] at hs <;> cases hs
  | leave _ hpc => rcases hpc with hpc | hpc | hpc | hpc | hpc <;> rw [hpc] at hs <;> cases hs
  | _ => simp_all [Pc.serving]

/-- What a statement does to a served packet: nothing, it is taken by the thread,
or the thread writes the end of its service. -/
theorem Stmt.service (h : Stmt cfg th m a me t m' l op)
    (hs : me.pc.inside = true → Stamped cfg (some me) m) (hp : p ∈ m'.outputQ) (hty : (m'.heap p).packetType = 1) :
    (p ∈ m.outputQ ∧ (m.heap p).packetType = 1 ∧
      (m'.heap p).beginServiceTime = (m.heap p).beginServiceTime ∧
      (m'.heap p).endServiceTime = (m.heap p).endServiceTime ∧
      (me.pc.serving = true → me.cur = p → l.pc.serving = true ∧ l.cur = p)) ∨
    (l.pc.serving = true ∧ l.cur = p) ∨
    (me.pc = .readEnd ∧ p = me.cur ∧ p ∈ m.outputQ ∧ (m.heap p).packetType = 1 ∧
      (m'.heap p).beginServiceTime = (m.heap p).beginServiceTime ∧
      (m'.heap p).endServiceTime = a.time - cfg.emulationStartTime) := by
  have hkept : me.pc ≠ .readEnd → me.pc.serving = true → me.cur = p →
      l.pc.serving = true ∧ l.cur = p := fun he hs hcur => hcur ▸ h.serving_kept hs he
  -- an assignment to a time before the service changes nothing here
  have stamp {f : MyPacket → MyPacket} (hty : ((m.write me.cur f).heap p).packetType = 1)
      (ht : ∀ x, (f x).packetType = x.packetType)
      (hb : ∀ x, (f x).beginServiceTime = x.beginServiceTime)
      (he : ∀ x, (f x).endServiceTime = x.endServiceTime) :
      (m.heap p).packetType = 1 ∧
      ((m.write me.cur f).heap p).beginServiceTime = (m.heap p).beginServiceTime ∧
      ((m.write me.cur f).heap p).endServiceTime = (m.heap p).endServiceTime :=
    ⟨(Shared.write_field m _ p MyPacket.packetType ht).symm.trans hty,
      Shared.write_field m _ p MyPacket.beginServiceTime hb,
      Shared.write_field m _ p MyPacket.endServiceTime he⟩
  cases h with
  | guardPass _ hpc | leave _ hpc => exact .inl ⟨hp,hty,rfl,rfl,hkept fun h => by simp [h] at hpc⟩
  | initPacket hpc =>
    have hs := hs (by rw [hpc]; rfl)
    have hb := (hs.conserved.bound (p := p)
      (by simp [places,Thread.places,hpc,Pc.carries,show p ∈ m.outputQ from hp])).2
    have hne : p ≠ m.packetId+1 := by omega
    simp only [update_of_ne hne] at hty ⊢
    exact .inl ⟨hp,hty,trivial,trivial,hkept (by simp [hpc])⟩
  | readArrive hpc =>
    obtain ⟨h1,h2,h3⟩ := stamp (f := fun p => { p with
      arriveTime := a.time - cfg.emulationStartTime
      realInterPacketArriveTime := a.time - m.prePacketArriveTime }) hty (fun _ => rfl) (fun _ => rfl) (fun _ => rfl)
    exact .inl ⟨hp,h1,h2,h3,hkept (by simp [hpc])⟩
  | readEnterQ1 hpc | readLeaveQ1 _ hpc | readEnterQ2 _ hpc | readLeaveQ2 _ hpc =>
    obtain ⟨h1,h2,h3⟩ := stamp hty (fun _ => rfl) (fun _ => rfl) (fun _ => rfl)
    exact .inl ⟨hp,h1,h2,h3,hkept (by simp [hpc])⟩
  | markDropped hpc =>
    have hne : p ≠ me.cur := by
      rintro rfl
      simp [Shared.write_self] at hty
    rw [Shared.write_other _ _ hne] at hty ⊢
    exact .inl ⟨hp,hty,rfl,rfl,hkept (by simp [hpc])⟩
  | markServed _ _ hpc =>
    have hne : p ≠ me.cur := by
      rintro rfl
      exact (carries_not_mem (hs (by rw [hpc]; rfl)).conserved (by rw [hpc]; rfl)).2.2 hp
    rw [Shared.write_other _ _ hne] at hty ⊢
    exact .inl ⟨hp,hty,rfl,rfl,hkept (by simp [hpc])⟩
  | remove q p0 ps hpc =>
    have hne : p ≠ p0 := by
      rintro rfl
      simp [Shared.write_self] at hty
    rw [Shared.write_other _ _ hne] at hty ⊢
    exact .inl ⟨hp,hty,rfl,rfl,hkept (by simp [hpc])⟩
  | appendDropped hpc =>
    rcases mem_append.mp hp with hp | hp
    · exact .inl ⟨hp,hty,rfl,rfl,hkept (by simp [hpc])⟩
    · have := ((hs (by rw [hpc]; rfl)).kind me rfl).1 hpc
      rw [mem_singleton.mp hp] at hty
      exact absurd (hty.symm.trans this) (by decide)
  | outputRemoved q p0 ps hpc =>
    rcases mem_append.mp hp with hp | hp
    · exact .inl ⟨hp,hty,rfl,rfl,hkept (by simp [hpc])⟩
    · have := ((hs (by rw [hpc]; rfl)).kind me rfl).2 q p0 ps hpc
      rw [mem_singleton.mp hp] at hty
      exact absurd (hty.symm.trans this) (by decide)
  | appendServed _ hpc =>
    rcases mem_append.mp hp with hp | hp
    · exact .inl ⟨hp,hty,rfl,rfl,hkept (by simp [hpc])⟩
    · exact .inr (.inl ⟨rfl,(mem_singleton.mp hp).symm⟩)
  | readBegin _ hpc =>
    by_cases hpc' : p = me.cur
    · exact .inr (.inl ⟨rfl,hpc'.symm⟩)
    · rw [Shared.write_other _ _ hpc'] at hty ⊢
      exact .inl ⟨hp,hty,rfl,rfl,hkept (by simp [hpc])⟩
  | readEnd _ hpc =>
    by_cases hpc' : p = me.cur
    · subst hpc'
      rw [Shared.write_self] at hty ⊢
      exact .inr (.inr ⟨hpc,rfl,hp,hty,rfl,rfl⟩)
    · rw [Shared.write_other _ _ hpc'] at hty ⊢
      exact .inl ⟨hp,hty,rfl,rfl,fun _ h => absurd h.symm hpc'⟩
  | _ => exact .inl ⟨hp,hty,rfl,rfl,hkept (by simp [*])⟩

theorem InOrder.begun {now : ℤ} {x : MyPacket} (h : InOrder 6 now x) : x.beginServiceTime ≤ now :=
  h.past _ (by simp [times])

theorem ended_step {s' : System} (hs : Ended s) (hx : (program cfg).Exclusive s)
    (hst : Stamped cfg s.holder s.mem) (hc : s.mem.now ≤ a.time) (h : stmt cfg s (t, a) = some s') : Ended s' := by
  intro p hp hty
  obtain ⟨m,l,op,he,rfl,hth⟩ := Monitor.step_exec h
  have other {u : Tid} (hu : (s.thread u).pc.serving = true ∧ (s.thread u).cur = p)
      (ht : u = t → l.pc.serving = true ∧ l.cur = p) :
      ∃ u, (s'.thread u).pc.serving = true ∧ (s'.thread u).cur = p := by
    by_cases hut : u = t
    · exact ⟨t,by rw [hth,update_self]; exact ht hut⟩
    · exact ⟨u,by rw [hth,update_of_ne hut]; exact hu⟩
  have own (hin : (s.thread t).pc.inside = true) : s.holder = some (s.thread t) :=
    LockState.holder_of_own ((hx t).mp hin)
  rcases exec_stmt he with ⟨-,-,rfl,hm⟩ | ⟨hp',hstm⟩
  · rw [hm] at hp hty ⊢
    refine (hs p hp hty).imp_right fun hu => ?_
    obtain ⟨u,hu⟩ := hu
    exact other hu fun hut => hut ▸ hu
  · rcases hstm.service (fun hin => own hin ▸ hst.later hc) hp hty with
      ⟨hp,hty,hb,he',hserv⟩ | hserv | ⟨hpc,rfl,hp,hty,hb,he'⟩
    · rw [hb,he']
      refine (hs p hp hty).imp_right fun hu => ?_
      obtain ⟨u,hu⟩ := hu
      exact other hu fun hut => hserv (hut ▸ hu.1) (hut ▸ hu.2)
    · exact .inr ⟨t,by rw [hth,update_self]; exact hserv⟩
    · rcases hst.outputQ _ hp hty with ho | ⟨me,hme,hpc',hcur⟩
      · have := ho.begun
        rw [hb,he']
        exact .inl (by simp only; omega)
      · -- another server has just appended the packet
        obtain ⟨u,hu,rfl⟩ := Option.map_eq_some_iff.mp hme
        refine .inr (other (u := u) ⟨by rw [hpc']; rfl,hcur⟩ fun hut => ?_)
        rw [hut,hpc] at hpc'
        cases hpc'

theorem ended_of_run (h : Exec (stmt cfg) Clock (start cfg t0) as s) : Ended s := by
  induction h with
  | nil => intro p hp; simp [start] at hp
  | snoc hrun hc hst ih =>
    exact ended_step ih (exclusive_of_run hrun) (stamped_of_run hrun) hc hst

/-- When the threads have been joined, no service is under way. -/
theorem not_serving_of_joined {ok : System → Tid × Input → Prop} (h : Exec (stmt cfg) ok (start cfg t0) as s)
    (hj : joined s.thread = true) (t : Tid) : (s.thread t).pc.serving = false := by
  have hr := runs_of_run h t
  by_cases hm : t = .main
  · subst hm
    generalize (s.thread .main).pc = pc at hr
    cases pc <;> first | rfl | cases hr
  by_cases hs : t = .signal
  · subst hs
    generalize (s.thread .signal).pc = pc at hr
    cases pc <;> first | rfl | cases hr
  rw [joined_returned hj hm hs]
  rfl

end Csci402.Emulator.Threads
