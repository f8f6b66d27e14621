import Csci402.Emulator.Flow

/-! The token bucket. A section examines the first packet of `Q1` once, after it
has added a packet or a token. That this strands no packet follows from one
invariant: between sections the bucket holds less than the first packet of `Q1`
needs, so a token can complete the need of that packet only exactly. -/

namespace Csci402.Emulator

open Lib List

variable (cfg : Config)

/-- The packets a section moves from `Q1` to the end of `Q2`. -/
def movedToQ2 (s : State) (a : Section) : List MyPacket :=
  match step cfg s a with
  | some t => t.Q2.drop s.Q2.length
  | none => []

/-- The tokens spent in a run: what the packets that moved to `Q2` needed. -/
def spent (firstArriveTime : ℤ) (as : List Section) : ℤ :=
  ((observe (step cfg) (movedToQ2 cfg) (cfg.start firstArriveTime) as).map (·.tokenNeed)).sum

/-- Packets need a positive number of tokens, as `checkField` demands. -/
def PositiveNeed (_ : State) : Section → Prop
  | .packet d _ => 0 < d.tokenNeed
  | _ => True

instance (s : State) : ∀ a : Section, Decidable (PositiveNeed s a) := by
  rintro ⟨⟩ <;> unfold PositiveNeed <;> infer_instance

/-- The tokens and packets of the bucket when `m` tokens have been spent. -/
structure Level (m : ℤ) (s : State) : Prop where
  nonneg : 0 ≤ s.curTokenSize
  le : s.curTokenSize ≤ cfg.B
  count : s.tokenId = s.curTokenSize+s.tokenDropSize+m
  need : ∀ p ∈ s.Q1, 0 < p.tokenNeed ∧ p.tokenNeed ≤ cfg.B

/-- The law of the bucket between sections: the first packet of `Q1` cannot be paid. -/
structure Bucket (m : ℤ) (s : State) : Prop extends Level cfg m s where
  head : ∀ p rest, s.Q1 = p :: rest → s.curTokenSize < p.tokenNeed

variable {cfg} {s t : State} {m : ℤ}

theorem bucket_start (hB : 1 ≤ cfg.B) (t : ℤ) : Bucket cfg 0 (cfg.start t) where
  nonneg := le_rfl
  le := by simp only [Config.start]; omega
  count := rfl
  need := by simp [Config.start]
  head := by simp [Config.start]

/-- A section that leaves `Q1` and the counters of the bucket alone. -/
theorem Bucket.frame (h : Bucket cfg m s) (hc : t.curTokenSize = s.curTokenSize)
    (hd : t.tokenDropSize = s.tokenDropSize) (hi : t.tokenId = s.tokenId) (hQ : t.Q1 = s.Q1) : Bucket cfg m t where
  nonneg := by rw [hc]; exact h.nonneg
  le := by rw [hc]; exact h.le
  count := by rw [hc,hd,hi]; exact h.count
  need := by rw [hQ]; exact h.need
  head := by rw [hQ,hc]; exact h.head

/-- A section moves nothing to `Q2`, or one packet that it takes from `Q1`. -/
inductive Spends (cfg : Config) (m : ℤ) (Q2 : List MyPacket) (t : State) : Prop
  | none (hQ : ∃ k, t.Q2 = Q2.drop k) (hb : Bucket cfg m t)
  | one (q : MyPacket) (hQ : t.Q2 = Q2 ++ [q]) (hb : Bucket cfg (m+q.tokenNeed) t)

/-! ### The head of `Q1` -/

theorem releaseHead_idle {l e : ℤ} (h : ∀ p rest, s.Q1 = p :: rest → s.curTokenSize < p.tokenNeed) :
    releaseHead cfg l e s = s := by
  unfold releaseHead
  split
  · rfl
  next p rest hQ =>
    have := h p rest hQ
    exact if_neg (by omega)

/-- The first packet of `Q1` leaves: what remains cannot be paid, because nothing
remains or the packet took the last token. -/
theorem releaseHead_bucket {l e : ℤ} {p : MyPacket} {rest : List MyPacket} (hs : Level cfg m s)
    (hQ : s.Q1 = p :: rest) (hp : p.tokenNeed ≤ s.curTokenSize) (hlast : rest = [] ∨ s.curTokenSize = p.tokenNeed) :
    ∃ q : MyPacket, (releaseHead cfg l e s).Q2 = s.Q2 ++ [q] ∧ q.tokenNeed = p.tokenNeed ∧
      (releaseHead cfg l e s).curTokenSize = s.curTokenSize - p.tokenNeed ∧
      Bucket cfg (m+q.tokenNeed) (releaseHead cfg l e s) := by
  have hle := hs.le
  have hcount := hs.count
  have hneed := hs.need
  rw [hQ] at hneed
  have hpos := (hneed p mem_cons_self).1
  simp only [releaseHead,hQ,if_pos hp]
  refine ⟨{ p with leaveQ1Time := l - cfg.emulationStartTime, enterQ2Time := e - cfg.emulationStartTime },
    rfl,rfl,rfl,?_⟩
  refine { nonneg := ?_, le := ?_, count := ?_, need := ?_, head := ?_ }
  · change 0 ≤ s.curTokenSize - p.tokenNeed
    omega
  · change s.curTokenSize - p.tokenNeed ≤ cfg.B
    omega
  · change s.tokenId = s.curTokenSize - p.tokenNeed+s.tokenDropSize+(m+p.tokenNeed)
    omega
  · exact fun r hr => hneed r (mem_cons_of_mem p hr)
  · intro r rest' hr
    change rest = r :: rest' at hr
    change s.curTokenSize - p.tokenNeed < r.tokenNeed
    rcases hlast with rfl | heq
    · cases hr
    · have := (hneed r (by rw [hr]; simp)).1
      omega

/-! ### What a section does to the bucket -/

theorem releaseHead_tokenDropSize (l e : ℤ) (s : State) :
    (releaseHead cfg l e s).tokenDropSize = s.tokenDropSize := by
  unfold releaseHead
  split
  · rfl
  · split <;> rfl

/-- A packet that enters `Q1` leaves it at once only if `Q1` was empty. -/
theorem enterQ1_spends {l e enter : ℤ} {p : MyPacket} (hs : Bucket cfg m s)
    (hp : 0 < p.tokenNeed) (hB : p.tokenNeed ≤ cfg.B) :
    Spends cfg m s.Q2 (releaseHead cfg l e (enterQ1 cfg p enter s)) := by
  have hlevel : Level cfg m (enterQ1 cfg p enter s) := by
    refine ⟨hs.nonneg,hs.le,hs.count,fun r hr => ?_⟩
    rcases mem_append.mp hr with hr | hr
    · exact hs.need r hr
    · rw [mem_singleton.mp hr]
      exact ⟨hp,hB⟩
  by_cases hpay : s.Q1 = [] ∧ p.tokenNeed ≤ s.curTokenSize
  · have hQ : (enterQ1 cfg p enter s).Q1 = [{ p with enterQ1Time := enter - cfg.emulationStartTime }] := by
      simp only [enterQ1,hpay.1,nil_append]
    obtain ⟨q,hQ2,-,-,hb⟩ := releaseHead_bucket (l := l) (e := e) hlevel hQ hpay.2 (.inl rfl)
    exact .one q hQ2 hb
  · have hidle : ∀ r rest, (enterQ1 cfg p enter s).Q1 = r :: rest → s.curTokenSize < r.tokenNeed := by
      intro r rest hr
      cases hQ : s.Q1 with
      | nil =>
        simp only [enterQ1,hQ,nil_append,List.cons.injEq] at hr
        rw [← hr.1]
        exact not_le.mp fun hle => hpay ⟨hQ,hle⟩
      | cons r' rest' =>
        simp only [enterQ1,hQ,cons_append,List.cons.injEq] at hr
        rw [← hr.1]
        exact hs.head r' rest' hQ
    rw [releaseHead_idle hidle]
    exact .none ⟨0,rfl⟩ ⟨hlevel,hidle⟩

theorem packetSection_spends {d : PacketData} {clk : ℕ → ℤ} (hs : Bucket cfg m s)
    (hd : 0 < d.tokenNeed) : Spends cfg m s.Q2 (packetSection cfg d clk s) := by
  unfold packetSection
  split
  · exact .none ⟨0,rfl⟩ hs
  dsimp only
  split
  · exact .none ⟨0,rfl⟩ (hs.frame rfl rfl rfl rfl)
  next hB =>
    have hcounted : Bucket cfg m (countArrival (clk 0) s) := hs.frame rfl rfl rfl rfl
    exact enterQ1_spends hcounted hd (not_lt.mp hB)

theorem packetSection_tokenDropSize (d : PacketData) (clk : ℕ → ℤ) (s : State) :
    (packetSection cfg d clk s).tokenDropSize = s.tokenDropSize := by
  unfold packetSection
  split
  · rfl
  · dsimp only
    split
    · rfl
    · exact releaseHead_tokenDropSize (clk 2) (clk 3) _

/-- What a token does: it is dropped and `Q1` is empty, it stays in the bucket, or it
pays for the first packet of `Q1` together with all the others. -/
inductive TokenEffect (cfg : Config) (m : ℤ) (s t : State) : Prop
  | drop (h1 : s.Q1 = []) (hQ : t.Q2 = s.Q2) (hb : Bucket cfg m t)
  | keep (hd : t.tokenDropSize = s.tokenDropSize) (hQ : t.Q2 = s.Q2) (hb : Bucket cfg m t)
  | pay (hd : t.tokenDropSize = s.tokenDropSize) (hc : t.curTokenSize = 0) (q : MyPacket)
      (hQ : t.Q2 = s.Q2 ++ [q]) (hb : Bucket cfg (m+q.tokenNeed) t)

theorem tokenSection_tokenEffect (clk : ℕ → ℤ) (hs : Bucket cfg m s) :
    TokenEffect cfg m s (tokenSection cfg clk s) := by
  have hcount := hs.count
  have hnonneg := hs.nonneg
  unfold tokenSection
  split
  · exact .keep rfl rfl hs
  split
  · -- a full bucket pays for any packet, so none waits
    rename_i hfull
    have hQ : s.Q1 = [] := by
      cases hQ : s.Q1 with
      | nil => rfl
      | cons p rest =>
        have h₁ := hs.head p rest hQ
        have h2 := (hs.need p (by rw [hQ]; exact mem_cons_self)).2
        omega
    rw [releaseHead_idle (by simp [hQ])]
    refine .drop hQ rfl ⟨⟨hs.nonneg,hs.le,?_,hs.need⟩,hs.head⟩
    dsimp only
    omega
  next hroom =>
    generalize hu : ({ s with tokenId := s.tokenId+1, curTokenSize := s.curTokenSize+1 } : State) = u
    have hlevel : Level cfg m u := by
      subst hu
      refine ⟨?_,?_,?_,hs.need⟩
      all_goals
        dsimp only
        omega
    have hQ : u.Q1 = s.Q1 := by rw [← hu]
    have hQ2 : u.Q2 = s.Q2 := by rw [← hu]
    have hd : u.tokenDropSize = s.tokenDropSize := by rw [← hu]
    have hc : u.curTokenSize = s.curTokenSize+1 := by rw [← hu]
    by_cases hpay : ∃ p rest, s.Q1 = p :: rest ∧ p.tokenNeed ≤ s.curTokenSize+1
    · obtain ⟨p,rest,h1,hle⟩ := hpay
      have hlt := hs.head p rest h1
      obtain ⟨q,hq,-,hcur,hb⟩ := releaseHead_bucket (l := clk 1) (e := clk 2) hlevel
        (hQ.trans h1) (by omega) (.inr (by omega))
      exact .pay ((releaseHead_tokenDropSize _ _ u).trans hd) (by omega) q (by rw [hq,hQ2]) hb
    · have hidle : ∀ p rest, u.Q1 = p :: rest → u.curTokenSize < p.tokenNeed := by
        intro p rest hp
        rw [hc]
        exact not_le.mp fun hle => hpay ⟨p,rest,hQ.symm.trans hp,hle⟩
      rw [releaseHead_idle hidle]
      exact .keep hd hQ2 ⟨hlevel,hidle⟩

theorem serverSection_bucket (n : Server) (clk : ℕ → ℤ) (hs : Bucket cfg m s) :
    (∃ k, (serverSection cfg n clk s).Q2 = s.Q2.drop k) ∧ Bucket cfg m (serverSection cfg n clk s) ∧
      (serverSection cfg n clk s).tokenDropSize = s.tokenDropSize := by
  unfold serverSection
  split
  · exact ⟨⟨0,rfl⟩,hs.frame rfl rfl rfl rfl,rfl⟩
  · split
    · exact ⟨⟨0,rfl⟩,hs.frame rfl rfl rfl rfl,rfl⟩
    next p rest hQ =>
      exact ⟨⟨1,by rw [hQ]; rfl⟩,hs.frame rfl rfl rfl rfl,rfl⟩

theorem signalSection_bucket (hs : Bucket cfg m s) : Bucket cfg m (signalSection s) where
  nonneg := hs.nonneg
  le := hs.le
  count := hs.count
  need := by simp [signalSection,broadcast]
  head := by simp [signalSection,broadcast]

theorem step_spends {a : Section} (hs : Bucket cfg m s) (ha : PositiveNeed s a)
    (h : step cfg s a = some t) : Spends cfg m s.Q2 t ∧ (t.tokenDropSize ≠ s.tokenDropSize → s.Q1 = []) := by
  cases a with
  | packet d clk =>
    cases h
    exact ⟨packetSection_spends hs ha,absurd (packetSection_tokenDropSize d clk s)⟩
  | token clk =>
    cases h
    cases tokenSection_tokenEffect clk hs with
    | drop h1 hQ hb => exact ⟨.none ⟨0,hQ⟩ hb,fun _ => h1⟩
    | keep hd hQ hb => exact ⟨.none ⟨0,hQ⟩ hb,absurd hd⟩
    | pay hd _ q hQ hb => exact ⟨.one q hQ hb,absurd hd⟩
  | server n clk =>
    simp only [step] at h
    split at h
    · cases h
      obtain ⟨hQ,hb,hd⟩ := serverSection_bucket n clk hs
      exact ⟨.none hQ hb,absurd hd⟩
    · cases h
  | wake n clk =>
    simp only [step] at h
    split at h
    · cases h
      obtain ⟨hQ,hb,hd⟩ := serverSection_bucket n clk hs
      exact ⟨.none hQ hb,absurd hd⟩
    · cases h
  | depart n clk =>
    simp only [step] at h
    split at h
    · cases h
      exact ⟨.none ⟨0,rfl⟩ (hs.frame rfl rfl rfl rfl),absurd rfl⟩
    · cases h
  | signal =>
    cases h
    exact ⟨.none ⟨s.Q2.length,by simp [signalSection,broadcast]⟩ (signalSection_bucket hs),absurd rfl⟩

/-- The needs of the packets a section moves are the tokens it spends. -/
theorem step_movedToQ2 {a : Section} (hs : Bucket cfg m s) (ha : PositiveNeed s a) (h : step cfg s a = some t) :
    Bucket cfg (m+((movedToQ2 cfg s a).map (·.tokenNeed)).sum) t := by
  simp only [movedToQ2,h]
  rcases (step_spends hs ha h).1 with ⟨⟨k,hQ⟩,hb⟩ | ⟨q,hQ,hb⟩
  · rw [hQ,drop_drop,drop_eq_nil_of_le (by omega)]
    simpa using hb
  · rw [hQ,drop_left]
    simpa using hb

/-! ### Whole runs -/

theorem Bucket.run {t0 : ℤ} {as : List Section} (hB : 1 ≤ cfg.B)
    (h : Exec (step cfg) PositiveNeed (cfg.start t0) as s) : Bucket cfg (spent cfg t0 as) s := by
  induction h with
  | nil => exact bucket_start hB t0
  | @snoc u v as a hu ha hst ih =>
    have := step_movedToQ2 ih ha hst
    rwa [spent,observe_snoc hu,map_append,sum_append]

/-- The law of the token bucket, for every order of sections. The bucket never
overflows, every token is in the bucket, dropped or spent, and no packet that could
be paid is left in `Q1`. So a token is dropped only when no packet waits, and a token
that releases a packet is the last one in the bucket. -/
theorem token_bucket (cfg : Config) (hB : 1 ≤ cfg.B) (t0 : ℤ) (as : List Section) (s : State)
    (h : Exec (step cfg) PositiveNeed (cfg.start t0) as s) : 0 ≤ s.curTokenSize ∧ s.curTokenSize ≤ cfg.B ∧
    s.tokenId = s.curTokenSize+s.tokenDropSize+spent cfg t0 as ∧
    (∀ p rest, s.Q1 = p :: rest → s.curTokenSize < p.tokenNeed ∧ p.tokenNeed ≤ cfg.B) ∧
    (∀ a u, PositiveNeed s a → step cfg s a = some u → u.tokenDropSize ≠ s.tokenDropSize →
      s.Q1 = []) ∧
    ∀ clk u, step cfg s (.token clk) = some u → movedToQ2 cfg s (.token clk) ≠ [] →
      u.curTokenSize = 0 := by
  have hb := Bucket.run hB h
  refine ⟨hb.nonneg,hb.le,hb.count,fun p rest hQ => ⟨hb.head p rest hQ,?_⟩,
    fun a u ha hu => (step_spends hb ha hu).2,fun clk u hu hmoved => ?_⟩
  · exact (hb.need p (by rw [hQ]; exact mem_cons_self)).2
  · simp only [movedToQ2,hu] at hmoved
    cases hu
    cases tokenSection_tokenEffect clk hb with
    | drop _ hQ => simp [hQ] at hmoved
    | keep _ hQ => simp [hQ] at hmoved
    | pay _ hc => exact hc

theorem token_bucket_sampleRun : ∃ s, Exec (step ⟨2,4,0⟩) PositiveNeed (Config.start ⟨2,4,0⟩ 0) sampleRun s ∧
    s.tokenId = 2 ∧ spent ⟨2,4,0⟩ 0 sampleRun = 1 ∧ s.curTokenSize = 1 ∧
    s.tokenId = s.curTokenSize+s.tokenDropSize+spent ⟨2,4,0⟩ 0 sampleRun := by
  have h : Exec (step ⟨2,4,0⟩) PositiveNeed (Config.start ⟨2,4,0⟩ 0) sampleRun _ := Exec.ofRun rfl
  exact ⟨_,h,rfl,rfl,rfl,(token_bucket _ (by decide) _ _ _ h).2.2.1⟩

end Csci402.Emulator
