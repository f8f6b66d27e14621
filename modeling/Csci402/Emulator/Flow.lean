import Csci402.Lib.Run
import Csci402.Emulator.Sections

/-! The flow of packets through `Q1`, `Q2` and `outputQ`. Every section either
brings in one packet, moves the first packet of a queue to the end of the next
one, stamps a time into a packet, or is the SIGINT section. What a section can do
is said once (`step_effect`); conservation and the arrival order follow from it
for every order of sections. -/

namespace Csci402.Emulator

open Lib Function List

/-- What identifies a packet in the traces: its number and its token need. -/
def MyPacket.key (p : MyPacket) : ℤ × ℤ := (p.packetId, p.tokenNeed)

/-- The packet that arrives in a section, if one does. -/
def arrival (s : State) : Section → List (ℤ × ℤ)
  | .packet d _ => if s.inputQSize ≤ 0 then [] else [(s.packetId+1, d.tokenNeed)]
  | _ => []

variable (cfg : Config)

/-- The packets that arrive in a run, in arrival order. -/
def arrivals (firstArriveTime : ℤ) (as : List Section) : List (ℤ × ℤ) :=
  observe (step cfg) arrival (cfg.start firstArriveTime) as

/-- The numbers `1, ..., n`. -/
def numbers (n : ℤ) : List ℤ := (List.range n.toNat).map fun i : ℕ => (i : ℤ)+1

/-- The packets that have arrived and have not been taken by a server, first to
last. -/
def State.waiting (s : State) : List MyPacket := s.Q2 ++ s.Q1

variable {cfg}

/-! ### What a section does to the queues -/

@[simp] theorem broadcast_waiting (s : State) : (broadcast s).waiting = s.waiting := rfl

theorem releaseHead_frame (cfg : Config) (l e : ℤ) (s : State) : (releaseHead cfg l e s).packetId = s.packetId ∧
    (releaseHead cfg l e s).inputQSize = s.inputQSize ∧ (releaseHead cfg l e s).tokenId = s.tokenId ∧
    (releaseHead cfg l e s).outputQ = s.outputQ := by
  unfold releaseHead
  split
  · exact ⟨rfl,rfl,rfl,rfl⟩
  · split <;> exact ⟨rfl,rfl,rfl,rfl⟩

theorem releaseHead_waiting (l e : ℤ) (s : State) :
    (releaseHead cfg l e s).waiting.map MyPacket.key = s.waiting.map MyPacket.key := by
  unfold releaseHead
  split
  · rfl
  next p rest h =>
    split
    · simp [broadcast,State.waiting,h,MyPacket.key]
    · rfl

/-- All that a section other than SIGINT can do to the packets and to the input
counters, with the packet that arrives. -/
inductive Effect (cfg : Config) (s t : State) : List (ℤ × ℤ) → Prop
  | drop (p : MyPacket) (hin : 0 < s.inputQSize) (hp : t.packetId = s.packetId+1)
      (hi : t.inputQSize = s.inputQSize - 1) (hid : p.packetId = s.packetId+1)
      (hB : cfg.B < p.tokenNeed) (ht : p.packetType = 2) (ho : t.outputQ = s.outputQ ++ [p])
      (hw : t.waiting.map MyPacket.key = s.waiting.map MyPacket.key) : Effect cfg s t [p.key]
  | accept (k : ℤ × ℤ) (hin : 0 < s.inputQSize) (hp : t.packetId = s.packetId+1)
      (hi : t.inputQSize = s.inputQSize - 1) (hid : k.1 = s.packetId+1) (hB : k.2 ≤ cfg.B)
      (ho : t.outputQ = s.outputQ)
      (hw : t.waiting.map MyPacket.key = s.waiting.map MyPacket.key ++ [k]) : Effect cfg s t [k]
  | serve (p : MyPacket) (hp : t.packetId = s.packetId) (hi : t.inputQSize = s.inputQSize)
      (ht : p.packetType = 1) (ho : t.outputQ = s.outputQ ++ [p])
      (hw : p.key :: t.waiting.map MyPacket.key = s.waiting.map MyPacket.key) : Effect cfg s t []
  | stamp (f : MyPacket → MyPacket) (hf : ∀ p, (f p).key = p.key ∧ (f p).packetType = p.packetType)
      (hp : t.packetId = s.packetId) (hi : t.inputQSize = s.inputQSize) (ho : t.outputQ = s.outputQ.map f)
      (hw : t.waiting.map MyPacket.key = s.waiting.map MyPacket.key) : Effect cfg s t []

variable {s t : State}

theorem Effect.idle (hp : t.packetId = s.packetId) (hi : t.inputQSize = s.inputQSize) (ho : t.outputQ = s.outputQ)
    (hw : t.waiting.map MyPacket.key = s.waiting.map MyPacket.key) : Effect cfg s t [] :=
  .stamp id (fun _ => ⟨rfl,rfl⟩) hp hi (by simpa using ho) hw

theorem packetSection_effect (d : PacketData) (clk : ℕ → ℤ) (s : State) :
    Effect cfg s (packetSection cfg d clk s) (arrival s (.packet d clk)) := by
  by_cases hin : s.inputQSize ≤ 0
  · simp only [packetSection,arrival,if_pos hin]
    exact .idle rfl rfl rfl rfl
  · simp only [packetSection,arrival,if_neg hin]
    split
    next hB =>
      exact .drop { arrivingPacket cfg d (clk 0) s with packetType := 2 }
        (by omega) rfl rfl rfl hB rfl rfl rfl
    next hB =>
      obtain ⟨hp,hi,-,ho⟩ := releaseHead_frame cfg (clk 2) (clk 3)
        (enterQ1 cfg (arrivingPacket cfg d (clk 0) s) (clk 1) (countArrival (clk 0) s))
      refine .accept _ (by omega) hp hi rfl (not_lt.mp hB) ho ?_
      rw [releaseHead_waiting]
      simp [State.waiting,enterQ1,countArrival,MyPacket.key,arrivingPacket]

theorem tokenSection_effect (clk : ℕ → ℤ) (s : State) : Effect cfg s (tokenSection cfg clk s) [] := by
  unfold tokenSection
  split
  · exact .idle rfl rfl rfl rfl
  · split
    all_goals
      obtain ⟨hp,hi,-,ho⟩ := releaseHead_frame cfg (clk 1) (clk 2) _
      exact .idle hp hi ho (by rw [releaseHead_waiting]; rfl)

theorem serverSection_effect (n : Server) (clk : ℕ → ℤ) (s : State) :
    Effect cfg s (serverSection cfg n clk s) [] := by
  unfold serverSection
  split
  · exact .idle rfl rfl rfl rfl
  · split
    · exact .idle rfl rfl rfl rfl
    next p rest h =>
      refine .serve _ rfl rfl ?_ rfl ?_
      · rfl
      · simp [State.waiting,broadcast,MyPacket.key,h]

theorem departSection_effect (n : Server) (id : ℤ) (clk : ℕ → ℤ) (s : State) :
    Effect cfg s (departSection cfg n id clk s) [] :=
  .stamp _ (fun p => by split <;> exact ⟨rfl,rfl⟩) rfl rfl rfl rfl

variable {a : Section}

theorem step_effect (h : step cfg s a = some t) :
    Effect cfg s t (arrival s a) ∨ a = .signal ∧ t = signalSection s := by
  cases a with
  | packet d clk => cases h; exact .inl (packetSection_effect d clk s)
  | token clk => cases h; exact .inl (tokenSection_effect clk s)
  | server n clk =>
    simp only [step] at h
    split at h
    · cases h; exact .inl (serverSection_effect n clk s)
    · cases h
  | wake n clk =>
    simp only [step] at h
    split at h
    · cases h; exact .inl (serverSection_effect n clk s)
    · cases h
  | depart n clk =>
    simp only [step] at h
    split at h
    · cases h; exact .inl (departSection_effect n _ clk s)
    · cases h
  | signal => cases h; exact .inr ⟨rfl,rfl⟩

/-! ### Before SIGINT -/

/-- The order of the packets while the input is open, relative to the sequence
`arr` of the packets that have arrived. -/
structure Flow (cfg : Config) (arr : List (ℤ × ℤ)) (s : State) : Prop where
  input : s.packetId+s.inputQSize = cfg.num
  order : ((s.outputQ.filter (·.packetType = 1)) ++ s.waiting).map MyPacket.key =
    arr.filter (·.2 ≤ cfg.B)
  dropped : (s.outputQ.filter (·.packetType = 2)).map MyPacket.key = arr.filter (cfg.B < ·.2)

theorem flow_start (cfg : Config) (t : ℤ) : Flow cfg [] (cfg.start t) :=
  ⟨by simp [Config.start],rfl,rfl⟩

/-- Stamping times keeps the packets of each type and their order. -/
theorem filter_stamp {f : MyPacket → MyPacket} (k : ℤ) (l : List MyPacket)
    (hf : ∀ p, (f p).key = p.key ∧ (f p).packetType = p.packetType) :
    ((l.map f).filter (·.packetType = k)).map MyPacket.key =
      (l.filter (·.packetType = k)).map MyPacket.key := by
  induction l with
  | nil => rfl
  | cons p l ih =>
    simp only [map_cons,filter_cons,(hf p).2]
    split
    · simp only [map_cons,ih,(hf p).1]
    · exact ih

theorem flow_effect {arr new : List (ℤ × ℤ)} (hs : Flow cfg arr s)
    (h : Effect cfg s t new) : Flow cfg (arr ++ new) t := by
  have hord := hs.order
  have hdrop := hs.dropped
  have hin := hs.input
  simp only [map_append] at hord
  cases h with
  | drop p _ hp hi _ hB ht ho hw =>
    have hB' : ¬ p.key.2 ≤ cfg.B := not_le.mpr hB
    refine ⟨by omega,?_,?_⟩
    · simp [ho,hw,ht,← hord,hB']
    · simp [ho,ht,hdrop,show cfg.B < p.key.2 from hB]
  | accept k _ hp hi _ hB ho hw =>
    refine ⟨by omega,?_,?_⟩
    · simp [ho,hw,← hord,hB]
    · simp [ho,hdrop,not_lt.mpr hB]
  | serve p hp hi ht ho hw =>
    refine ⟨by omega,?_,?_⟩
    · simp [ho,ht,← hord,← hw]
    · simpa [ho,ht] using hdrop
  | stamp f hf hp hi ho hw =>
    refine ⟨by omega,?_,?_⟩
    · simp [ho,hw,filter_stamp 1 _ hf,← hord]
    · simpa [ho,filter_stamp 2 _ hf] using hdrop

/-! ### Conservation -/

/-- Every packet that has arrived is in exactly one of the three queues, once. -/
structure Placed (s : State) : Prop where
  nonneg : 0 ≤ s.packetId
  perm : ((s.waiting ++ s.outputQ).map (·.packetId)).Perm (numbers s.packetId)

theorem numbers_succ {n : ℤ} (hn : 0 ≤ n) : numbers (n+1) = numbers n ++ [n+1] := by
  unfold numbers
  rw [show (n+1).toNat = n.toNat+1 by omega,range_succ,map_append]
  simp [Int.toNat_of_nonneg hn]

theorem ids_of_keys {l l' : List MyPacket} (h : l.map MyPacket.key = l'.map MyPacket.key) :
    l.map (·.packetId) = l'.map (·.packetId) := by
  simpa [comp_def,MyPacket.key] using congrArg (List.map Prod.fst) h

theorem placed_effect {new : List (ℤ × ℤ)} (hs : Placed s) (h : Effect cfg s t new) : Placed t := by
  have hperm := hs.perm
  have hn := hs.nonneg
  rw [map_append] at hperm
  -- the queues are compared through the keys, so every case is about lists of numbers
  have ids (l : List MyPacket) : l.map (·.packetId) = (l.map MyPacket.key).map Prod.fst := by
    simp [comp_def,MyPacket.key]
  rw [ids s.waiting] at hperm
  cases h with
  | drop p _ hp hi hid hB ht ho hw =>
    refine ⟨by omega,?_⟩
    rw [map_append,ids t.waiting,hw,ho,hp,numbers_succ hn,map_append,← hid,
      ← append_assoc]
    exact hperm.append_right _
  | accept k _ hp hi hid hB ho hw =>
    refine ⟨by omega,?_⟩
    rw [map_append,ids t.waiting,hw,ho,hp,numbers_succ hn,map_append,← hid,
      append_assoc]
    refine (List.Perm.append_left _ perm_append_comm).trans ?_
    rw [← append_assoc]
    exact hperm.append_right _
  | serve p hp hi ht ho hw =>
    refine ⟨by omega,?_⟩
    rw [map_append,ids t.waiting,ho,hp,map_append,← append_assoc]
    rw [← hw] at hperm
    exact (perm_append_singleton _ _).trans hperm
  | stamp f hf hp hi ho hw =>
    refine ⟨by omega,?_⟩
    have hout : (s.outputQ.map f).map (·.packetId) = s.outputQ.map (·.packetId) :=
      ids_of_keys (by simp [comp_def,(hf _).1])
    rw [map_append,ids t.waiting,hw,ho,hp,hout]
    exact hperm

theorem placed_signal (hs : Placed s) : Placed (signalSection s) := by
  refine ⟨hs.nonneg,List.Perm.trans ?_ hs.perm⟩
  simp only [signalSection,broadcast,State.waiting,append_nil,nil_append,
    map_append,List.map_map,comp_def]
  rw [append_assoc]
  exact perm_append_comm.trans (perm_append_comm.append_right _)

/-! ### After SIGINT -/

/-- The input is closed and no packet waits. -/
structure Stopped (s : State) : Prop where
  input : s.inputQSize = 0
  Q1 : s.Q1 = []
  Q2 : s.Q2 = []

theorem stopped_signal (s : State) : Stopped (signalSection s) := ⟨rfl,rfl,rfl⟩

/-- A section that runs after SIGINT can only stamp the end of a service. -/
theorem stopped_step (hs : Stopped s) (h : step cfg s a = some t) :
    Stopped t ∧ t.packetId = s.packetId ∧ t.tokenId = s.tokenId ∧
      ∃ f : MyPacket → MyPacket, (∀ p, (f p).key = p.key ∧ (f p).packetType = p.packetType) ∧
        t.outputQ = s.outputQ.map f := by
  obtain ⟨hi,h1,h2⟩ := hs
  have hid : ∀ p : MyPacket, (id p).key = p.key ∧ (id p).packetType = p.packetType :=
    fun _ => ⟨rfl,rfl⟩
  have serve (n : Server) (clk : ℕ → ℤ) : serverSection cfg n clk s =
      { s with server := update s.server n .ready } := by
    simp [serverSection,h1,h2]
  cases a with
  | packet d clk =>
    have : packetSection cfg d clk s = s := by simp [packetSection,hi]
    cases h
    rw [this]
    exact ⟨⟨hi,h1,h2⟩,rfl,rfl,id,hid,by simp⟩
  | token clk =>
    have : tokenSection cfg clk s = s := by simp [tokenSection,hi,h1]
    cases h
    rw [this]
    exact ⟨⟨hi,h1,h2⟩,rfl,rfl,id,hid,by simp⟩
  | server n clk =>
    simp only [step,serve] at h
    split at h
    · cases h; exact ⟨⟨hi,h1,h2⟩,rfl,rfl,id,hid,by simp⟩
    · cases h
  | wake n clk =>
    simp only [step,serve] at h
    split at h
    · cases h; exact ⟨⟨hi,h1,h2⟩,rfl,rfl,id,hid,by simp⟩
    · cases h
  | depart n clk =>
    simp only [step] at h
    split at h
    · cases h
      exact ⟨⟨hi,h1,h2⟩,rfl,rfl,_,fun p => by split <;> exact ⟨rfl,rfl⟩,rfl⟩
    · cases h
  | signal =>
    cases h
    exact ⟨stopped_signal s,rfl,rfl,id,hid,by simp [signalSection,broadcast,h1,h2]⟩

/-- The packet `p` has been removed by SIGINT. -/
def Removed (p : MyPacket) (s : State) : Prop :=
  ∃ q ∈ s.outputQ, q.packetId = p.packetId ∧ q.packetType = 3

theorem removed_signal {p : MyPacket} (hp : p ∈ s.Q1 ++ s.Q2) : Removed p (signalSection s) := by
  refine ⟨{ p with packetType := 3 },?_,rfl,rfl⟩
  simp only [signalSection,broadcast,mem_append,List.mem_map] at hp ⊢
  rcases hp with hp | hp
  · exact .inl (.inr ⟨p,hp,rfl⟩)
  · exact .inr ⟨p,hp,rfl⟩

theorem removed_step {p : MyPacket} (hs : Stopped s)
    (h : step cfg s a = some t) (hp : Removed p s) : Removed p t := by
  obtain ⟨-,-,-,f,hf,ho⟩ := stopped_step hs h
  obtain ⟨q,hq,hid,hty⟩ := hp
  refine ⟨f q,by rw [ho]; exact List.mem_map_of_mem hq,?_,(hf q).2.trans hty⟩
  exact (congrArg Prod.fst (hf q).1).trans hid

/-! ### Whole runs -/

/-- A run of sections, in any order, from the start of the emulation. -/
abbrev Emulation (cfg : Config) (t : ℤ) (as : List Section) (s : State) : Prop :=
  Exec (step cfg) (fun _ _ => True) (cfg.start t) as s

variable {as : List Section}

theorem Emulation.flow {t : ℤ} (h : Emulation cfg t as s) (hsig : .signal ∉ as) : Flow cfg (arrivals cfg t as) s := by
  induction h with
  | nil => exact flow_start cfg t
  | @snoc u v as a hu _ ha ih =>
    rw [mem_append,mem_singleton,not_or] at hsig
    rw [arrivals,observe_snoc hu]
    rcases step_effect ha with he | ⟨rfl,-⟩
    · exact flow_effect (ih hsig.1) he
    · exact absurd rfl hsig.2

theorem Emulation.placed {t : ℤ} (h : Emulation cfg t as s) : Placed s := by
  refine Exec.invariant h ⟨le_rfl,List.Perm.refl _⟩ fun u a v hu _ ha => ?_
  rcases step_effect ha with he | ⟨-,rfl⟩
  · exact placed_effect hu he
  · exact placed_signal hu

/-- The numbers of the packets that have arrived are `1, ..., packetId`. -/
theorem Emulation.arrivals_numbers {t : ℤ}
    (h : Emulation cfg t as s) : (arrivals cfg t as).map Prod.fst = numbers s.packetId := by
  induction h with
  | nil => rfl
  | @snoc u v as a hu _ ha ih =>
    have hn := (Emulation.placed hu).nonneg
    rw [arrivals,observe_snoc hu,map_append,← arrivals,ih]
    rcases step_effect ha with he | ⟨rfl,rfl⟩
    · generalize arrival u a = new at he
      cases he with
      | drop p _ hp _ hid => rw [hp,numbers_succ hn,← hid]; rfl
      | accept k _ hp _ hid => rw [hp,numbers_succ hn,← hid]; rfl
      | serve p hp => rw [hp]; simp
      | stamp f _ hp => rw [hp]; simp
    · simp [arrival,signalSection,broadcast]

/-- What holds in every state after a SIGINT that came in state `s`. -/
structure AfterSignal (s t : State) : Prop where
  stopped : Stopped t
  packets : t.packetId = s.packetId
  tokens : t.tokenId = s.tokenId
  removed : ∀ p ∈ s.Q1 ++ s.Q2, Removed p t

theorem afterSignal_run {bs : List Section}
    (h : Exec (step cfg) (fun _ _ => True) (signalSection s) bs t) : AfterSignal s t := by
  refine Exec.invariant h ⟨stopped_signal s,rfl,rfl,fun p hp => removed_signal hp⟩ ?_
  intro u a v hu _ ha
  obtain ⟨hs,hp,ht,-⟩ := stopped_step hu.stopped ha
  exact ⟨hs,hp.trans hu.packets,ht.trans hu.tokens,
    fun p hp => removed_step hu.stopped ha (hu.removed p hp)⟩

/-- Packet flow of the emulator, for every order of sections. The queues hold
every packet that has arrived exactly once. Until SIGINT the served packets, `Q2`
and `Q1` form the sequence of the accepted packets in arrival order, and the
dropped ones are those that need more than `B` tokens. After SIGINT nothing
arrives or moves any more. -/
theorem packet_flow (cfg : Config) (t : ℤ) (as : List Section) (s : State) (h : Emulation cfg t as s) :
    ((s.Q1 ++ s.Q2 ++ s.outputQ).map (·.packetId)).Perm (numbers s.packetId) ∧
    (arrivals cfg t as).map Prod.fst = numbers s.packetId ∧ (.signal ∉ as →
      s.packetId+s.inputQSize = cfg.num ∧
      ((s.outputQ.filter (·.packetType = 1)) ++ s.Q2 ++ s.Q1).map MyPacket.key =
        (arrivals cfg t as).filter (·.2 ≤ cfg.B) ∧
      (s.outputQ.filter (·.packetType = 2)).map MyPacket.key =
        (arrivals cfg t as).filter (cfg.B < ·.2)) ∧
    ∀ bs u, Exec (step cfg) (fun _ _ => True) (signalSection s) bs u →
      u.inputQSize = 0 ∧ u.Q1 = [] ∧ u.Q2 = [] ∧ u.packetId = s.packetId ∧
      u.tokenId = s.tokenId ∧
      ∀ p ∈ s.Q1 ++ s.Q2, ∃ q ∈ u.outputQ, q.packetId = p.packetId ∧ q.packetType = 3 := by
  refine ⟨?_,h.arrivals_numbers,fun hsig => ?_,fun bs u hu => ?_⟩
  · refine List.Perm.trans ?_ h.placed.perm
    exact (perm_append_comm.append_right _).map _
  · have hf := h.flow hsig
    exact ⟨hf.input,by rw [append_assoc]; exact hf.order,hf.dropped⟩
  · obtain ⟨⟨hi,h1,h2⟩,hp,ht,hr⟩ := afterSignal_run hu
    exact ⟨hi,h1,h2,hp,ht,hr⟩

/-- Two packets are accepted and one is dropped; the first is served. -/
def sampleRun : List Section :=
  [.packet ⟨1,1000,1000⟩ (↑),.packet ⟨5,1000,1000⟩ (↑),.packet ⟨2,1000,1000⟩ (↑),
    .token (↑),.server .S1 (↑),.token (↑)]

theorem packet_flow_sampleRun : ∃ s, Emulation ⟨2,4,0⟩ 0 sampleRun s ∧ s.Q1.map MyPacket.key = [(3, 2)] ∧
    ((s.Q1 ++ s.Q2 ++ s.outputQ).map (·.packetId)).Perm (numbers s.packetId) := by
  have h : Emulation ⟨2,4,0⟩ 0 sampleRun _ := Exec.ofRun rfl
  exact ⟨_,h,rfl,(packet_flow _ _ _ _ h).1⟩

end Csci402.Emulator
