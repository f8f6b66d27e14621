import Csci402.Emulator.Tokens
import Mathlib.Algebra.Order.BigOperators.Group.List
import Mathlib.Data.List.Nodup

/-! When a packet leaves `Q1`. The threads run in any order, packets arrive, servers come and go;
only the tokens count. As long as a packet waits no token is dropped, each of them goes to the
packets ahead or to the packet itself, and a token that completes a need is used at once. So the
token with which a packet leaves is known from the moment it has entered `Q1`. -/

namespace Csci402.Emulator

open Lib List

def Section.isToken : Section → Bool
  | .token _ => true
  | _ => false

/-- The tokens that arrive in a run. -/
def tokens (as : List Section) : ℤ := as.countP Section.isToken

/-- The tokens that the packets need together. -/
def needs (ps : List MyPacket) : ℤ := (ps.map (·.tokenNeed)).sum

variable {cfg : Config} {s t u : State} {m : ℤ} {a : Section} {q : MyPacket} {pre post : List MyPacket}
  {as bs : List Section}

@[simp] theorem needs_append (ps qs : List MyPacket) : needs (ps ++ qs) = needs ps+needs qs := by simp [needs]

@[simp] theorem needs_nil : needs [] = 0 := rfl

@[simp] theorem needs_cons (p : MyPacket) (ps : List MyPacket) : needs (p :: ps) = p.tokenNeed+needs ps := by
  simp [needs]

theorem needs_nonneg {ps : List MyPacket} (h : ∀ p ∈ ps, 0 < p.tokenNeed) : 0 ≤ needs ps :=
  sum_nonneg fun n hn => by
    obtain ⟨p,hp,rfl⟩ := List.mem_map.mp hn
    exact (h p hp).le

@[simp] theorem tokens_append (as bs : List Section) : tokens (as ++ bs) = tokens as+tokens bs := by simp [tokens]

/-- What a section other than SIGINT does to `Q1` and, when a packet waits, to the bucket. -/
inductive Turn (s : State) (a : Section) (t : State) : Prop
  | keeps (new : List MyPacket) (hQ : t.Q1 = s.Q1 ++ new) (hnew : ∀ p ∈ new, p.packetId = s.packetId+1)
      (hc : s.Q1 ≠ [] → t.curTokenSize = s.curTokenSize+tokens [a])
  | pays (p : MyPacket) (rest : List MyPacket) (hs : s.Q1 = p :: rest) (hQ : t.Q1 = rest) (ha : tokens [a] = 1)
      (hc : s.curTokenSize+1 = p.tokenNeed) (ht : t.curTokenSize = 0)

theorem Turn.same (hQ : t.Q1 = s.Q1) (hc : t.curTokenSize = s.curTokenSize) (ha : a.isToken = false) : Turn s a t :=
  .keeps [] (by simp [hQ]) (by simp) fun _ => by simp [hc,tokens,ha]

theorem releaseHead_cases (cfg : Config) (l e : ℤ) (s : State) : releaseHead cfg l e s = s ∨ ∃ p rest,
    s.Q1 = p :: rest ∧ p.tokenNeed ≤ s.curTokenSize ∧ (releaseHead cfg l e s).Q1 = rest ∧
      (releaseHead cfg l e s).curTokenSize = s.curTokenSize - p.tokenNeed := by
  unfold releaseHead
  split
  · exact .inl rfl
  next p rest hQ =>
    split
    · exact .inr ⟨p,rest,hQ,‹_›,rfl,rfl⟩
    · exact .inl rfl

theorem packetSection_turn (d : PacketData) (clk : ℕ → ℤ) (hs : Bucket cfg m s) :
    Turn s (.packet d clk) (packetSection cfg d clk s) := by
  unfold packetSection
  split
  · exact .same rfl rfl rfl
  dsimp only
  split
  · exact .same rfl rfl rfl
  rcases releaseHead_cases cfg (clk 2) (clk 3)
    (enterQ1 cfg (arrivingPacket cfg d (clk 0) s) (clk 1) (countArrival (clk 0) s)) with h | ⟨p,rest,hQ,hle,h,-⟩
  · rw [h]
    exact .keeps _ rfl (by simp [arrivingPacket]) fun _ => (Int.add_zero _).symm
  · -- the first of the packets that were there cannot be paid, so there were none
    cases h1 : s.Q1 with
    | nil =>
      simp only [enterQ1,countArrival,h1,nil_append,List.cons.injEq] at hQ
      exact .keeps [] (by rw [h,h1,← hQ.2]; rfl) (by simp) (absurd h1)
    | cons r rest' =>
      have hlt := hs.head r rest' h1
      simp only [enterQ1,countArrival,h1,cons_append,List.cons.injEq] at hQ hle
      rw [← hQ.1] at hle
      omega

theorem tokenSection_turn (clk : ℕ → ℤ) (hs : Bucket cfg m s) : Turn s (.token clk) (tokenSection cfg clk s) := by
  cases h1 : s.Q1 with
  | nil =>
    have hnil : (tokenSection cfg clk s).Q1 = [] := by
      unfold tokenSection
      split
      · exact h1
      · split <;> simp [releaseHead,h1]
    exact .keeps [] (by rw [hnil,h1]; rfl) (by simp) (absurd h1)
  | cons p rest =>
    have hlt := hs.head p rest h1
    have hle := (hs.need p (by simp [h1])).2
    have hroom : ¬ cfg.B ≤ s.curTokenSize := by omega
    have hopen : ¬ (s.inputQSize ≤ 0 ∧ s.Q1 = []) := by simp [h1]
    rw [tokenSection,if_neg hopen,if_neg hroom]
    rcases releaseHead_cases cfg (clk 1) (clk 2) { s with tokenId := s.tokenId+1, curTokenSize := s.curTokenSize+1 } with
      h | ⟨p',rest',hQ,hpay,h,hcur⟩
    · rw [h]
      exact .keeps [] (append_nil _).symm (by simp) fun _ => rfl
    · cases h1.symm.trans hQ
      dsimp only at hpay hcur
      exact .pays p rest h1 h rfl (by omega) (by omega)

theorem step_turn (hs : Bucket cfg m s) (h : step cfg s a = some t) (ha : a ≠ .signal) : Turn s a t := by
  have server (n : Server) (clk : ℕ → ℤ) : (serverSection cfg n clk s).Q1 = s.Q1 ∧
      (serverSection cfg n clk s).curTokenSize = s.curTokenSize := by
    unfold serverSection
    split
    · exact ⟨rfl,rfl⟩
    · split <;> exact ⟨rfl,rfl⟩
  cases a with
  | packet d clk => cases h; exact packetSection_turn d clk hs
  | token clk => cases h; exact tokenSection_turn clk hs
  | server n clk | wake n clk =>
    simp only [step] at h
    split at h
    · cases h; exact .same (server n clk).1 (server n clk).2 rfl
    · cases h
  | depart n clk =>
    simp only [step] at h
    split at h
    · cases h; exact .same rfl rfl rfl
    · cases h
  | signal => exact absurd rfl ha

/-- The packets ahead leave one after the other, and then the packet itself. -/
inductive Wait (s : State) (pre : List MyPacket) (q : MyPacket) (bs : List Section) (u : State) : Prop
  | stays (gone left new : List MyPacket) (hpre : pre = gone ++ left) (hQ : u.Q1 = left ++ q :: new)
      (hc : u.curTokenSize+needs gone = s.curTokenSize+tokens bs)
  | left (hq : q ∉ u.Q1) (hn : needs (pre ++ [q]) ≤ s.curTokenSize+tokens bs)

theorem Wait.step (h : Wait s pre q bs u) (hb : Bucket cfg m u) (hu : Placed u) (hq : q.packetId ≤ u.packetId)
    (hst : step cfg u a = some t) (ha : a ≠ .signal) : Wait s pre q (bs ++ [a]) t := by
  have hturn := step_turn hb hst ha
  cases h with
  | stays gone left new hpre hQ hc =>
    cases hturn with
    | keeps new' hQ' _ hc' =>
      have hc' := hc' (by simp [hQ])
      exact .stays gone left (new ++ new') hpre (by rw [hQ',hQ]; simp) (by rw [tokens_append]; omega)
    | pays p rest hs hQ' htok hneed hzero =>
      cases left with
      | cons p' left =>
        cases hs.symm.trans hQ
        refine .stays (gone ++ [p]) left new (by simp [hpre]) hQ' ?_
        simp only [needs_append,needs_cons,needs_nil,tokens_append]
        omega
      | nil =>
        cases hs.symm.trans hQ
        refine .left (fun hm => ?_) ?_
        · -- no packet is in the queue twice
          have hnodup : (u.Q1.map (·.packetId)).Nodup := by
            have hall := hu.perm.nodup_iff.mpr (List.Nodup.map (fun i j h => by simpa using h) nodup_range)
            rw [State.waiting,map_append,map_append] at hall
            exact (nodup_append.mp (nodup_append.mp hall).1).2.1
          rw [hs,map_cons,nodup_cons] at hnodup
          exact hnodup.1 (List.mem_map_of_mem (hQ' ▸ hm))
        · simp only [hpre,needs_append,needs_cons,needs_nil,tokens_append]
          omega
  | left hout hn =>
    have htok : 0 ≤ tokens [a] := Int.natCast_nonneg _
    refine .left (fun hm => ?_) (by rw [tokens_append]; omega)
    cases hturn with
    | keeps new hQ hnew _ =>
      rw [hQ,mem_append] at hm
      have := hnew q (hm.resolve_left hout)
      omega
    | pays p rest hs hQ => exact hout (by rw [hs,← hQ]; exact mem_cons_of_mem p hm)

theorem wait_of_exec {t0 : ℤ} (hB : 1 ≤ cfg.B) (h : Exec (step cfg) PositiveNeed (cfg.start t0) as s)
    (hQ : s.Q1 = pre ++ q :: post) (h' : Exec (step cfg) PositiveNeed s bs u) (hsig : .signal ∉ bs) :
    Wait s pre q bs u ∧ q.packetId ≤ u.packetId := by
  have placed {bs : List Section} {u : State} (h' : Exec (step cfg) PositiveNeed s bs u) : Placed u :=
    Emulation.placed ((h.append h').weaken fun _ _ _ _ => trivial)
  induction h' with
  | nil =>
    have hm : q.packetId ∈ numbers s.packetId := (placed (.nil s)).perm.mem_iff.mp (by simp [State.waiting,hQ])
    refine ⟨.stays [] pre post rfl hQ (by simp [tokens]),?_⟩
    simp only [numbers,List.mem_map,mem_range] at hm
    obtain ⟨i,hi,hid⟩ := hm
    omega
  | @snoc v w bs a hv ha hst ih =>
    rw [mem_append,mem_singleton,not_or] at hsig
    obtain ⟨hwait,hid⟩ := ih hsig.1
    have hne : a ≠ .signal := Ne.symm hsig.2
    refine ⟨hwait.step (Bucket.run hB (h.append hv)) (placed hv) hid hst hne,?_⟩
    rcases step_effect hst with he | ⟨rfl,-⟩
    · generalize arrival v a = new at he
      cases he <;> omega
    · exact absurd rfl hne

/-- For every order of sections before SIGINT: a packet is in `Q1` until as many tokens have arrived
as the packets ahead and itself need, less those in the bucket, and then no longer. -/
theorem release_exact (cfg : Config) (hB : 1 ≤ cfg.B) (t0 : ℤ) (as : List Section) (s : State)
    (h : Exec (step cfg) PositiveNeed (cfg.start t0) as s) (pre post : List MyPacket) (q : MyPacket)
    (hQ : s.Q1 = pre ++ q :: post) (bs : List Section) (u : State) (h' : Exec (step cfg) PositiveNeed s bs u)
    (hsig : .signal ∉ bs) : q ∈ u.Q1 ↔ tokens bs < needs (pre ++ [q]) - s.curTokenSize := by
  have hb := Bucket.run hB (h.append h')
  cases (wait_of_exec hB h hQ h' hsig).1 with
  | stays gone left new hpre hQ' hc =>
    refine iff_of_true (by simp [hQ']) ?_
    have hneed : ∀ p ∈ left ++ q :: new, 0 < p.tokenNeed := fun p hp => (hb.need p (hQ' ▸ hp)).1
    -- the first packet that is left cannot be paid yet
    have hlt : u.curTokenSize < needs (left ++ [q]) := by
      cases left with
      | nil => simpa using hb.head q new hQ'
      | cons p left =>
        have hhead := hb.head p _ hQ'
        have hrest : 0 ≤ needs (left ++ [q]) := needs_nonneg fun r hr => hneed r (by
          simp only [mem_append,cons_append,mem_cons] at hr ⊢
          tauto)
        rw [cons_append,needs_cons]
        omega
    rw [hpre,append_assoc,needs_append]
    omega
  | left hout hn => exact iff_of_false hout (by omega)

/-- Packets 1 and 3 need three tokens together, and two arrive. -/
theorem release_exact_sampleRun : ∃ s u pre q,
    Exec (step ⟨2,4,0⟩) PositiveNeed (Config.start ⟨2,4,0⟩ 0) (sampleRun.take 3) s ∧ s.Q1 = pre ++ [q] ∧
    Exec (step ⟨2,4,0⟩) PositiveNeed s (sampleRun.drop 3) u ∧ tokens (sampleRun.drop 3) = 2 ∧ needs (pre ++ [q]) = 3 ∧
    q ∈ u.Q1 := by
  obtain ⟨s,u,p,q,h,hQ,h',hc,hn⟩ : ∃ s u p q,
      Exec (step ⟨2,4,0⟩) PositiveNeed (Config.start ⟨2,4,0⟩ 0) (sampleRun.take 3) s ∧ s.Q1 = [p] ++ [q] ∧
      Exec (step ⟨2,4,0⟩) PositiveNeed s (sampleRun.drop 3) u ∧ s.curTokenSize = 0 ∧ needs ([p] ++ [q]) = 3 :=
    ⟨_,_,_,_,Exec.ofRun rfl,rfl,Exec.ofRun rfl,rfl,rfl⟩
  refine ⟨s,u,[p],q,h,hQ,h',rfl,hn,?_⟩
  refine (release_exact _ (by decide) _ _ _ h [p] [] q hQ _ _ h' (by simp [sampleRun])).mpr ?_
  rw [hn,hc]
  decide

end Csci402.Emulator
