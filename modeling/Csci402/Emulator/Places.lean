import Csci402.Emulator.Statements
import Csci402.Emulator.Flow

/-! Where the packets are between two statements. A packet that has arrived is in
one queue, or in the hand of the thread that holds the lock. The loops of
`signalFunc` append to `outputQ` what is still linked in `Q1` and `Q2`; there the
packets that are left to visit count, and not the queue. -/

namespace Csci402.Emulator.Threads

open Lib List

/-- The statements where the packet in hand is in none of the queues. -/
def Pc.carries : Pc → Bool
  | .readArrive | .testNeed | .markDropped | .appendDropped | .appendQ1
  | .payTokens | .readLeaveQ1 | .appendQ2 | .readLeaveQ2 | .markServed | .appendServed => true
  | _ => false

/-- The packets of the emulator, where the thread inside the lock is `me`. -/
def Thread.places (me : Thread) (m : Shared) : List ℤ :=
  match me.pc with
  | .remove .Q1 ps | .readRemove .Q1 ps => ps ++ m.Q2 ++ m.outputQ
  | .outputRemoved .Q1 p ps => p :: ps ++ m.Q2 ++ m.outputQ
  | .remove .Q2 ps | .readRemove .Q2 ps => ps ++ m.outputQ
  | .outputRemoved .Q2 p ps => p :: ps ++ m.outputQ
  | .closeInput | .unlinkAllQ1 | .unlinkAllQ2 => m.outputQ
  | pc => (if pc.carries then [me.cur] else []) ++ m.Q1 ++ m.Q2 ++ m.outputQ

def places (h : Option Thread) (m : Shared) : List ℤ :=
  match h with
  | none => m.Q1 ++ m.Q2 ++ m.outputQ
  | some me => me.places m

/-- What the thread inside the lock knows at its statement. -/
def Thread.knows (me : Thread) (m : Shared) : Prop :=
  match me.pc with
  | .takeInput => 0 < m.inputQSize
  | .readArrive => me.cur = m.packetId
  | .readEnterQ1 => me.cur ∈ m.Q1
  | .unlinkQ1 => ∃ rest, m.Q1 = me.cur :: rest
  | .readEnterQ2 => me.cur ∈ m.Q2
  | .unlinkQ2 => ∃ rest, m.Q2 = me.cur :: rest
  | .readBegin => me.cur ∈ m.outputQ
  | .remove .Q1 ps | .readRemove .Q1 ps => ps <:+ m.Q1
  | .outputRemoved .Q1 p ps => p :: ps <:+ m.Q1
  | .remove .Q2 ps | .readRemove .Q2 ps => ps <:+ m.Q2
  | .outputRemoved .Q2 p ps => p :: ps <:+ m.Q2
  | .unlinkAllQ2 => m.Q1 = []
  | _ => True

/-- Every packet that has arrived is in exactly one place, once. -/
structure Conserved (h : Option Thread) (m : Shared) : Prop where
  nonneg : 0 ≤ m.packetId
  perm : (places h m).Perm (numbers m.packetId)
  knows : ∀ me ∈ h, me.knows m

/-! ### The invariant rule for the emulator -/

/-- Two memories that differ at most in the trace, the end of the emulation and
the ends of services: what a statement outside the lock can change. -/
structure Same (m m' : Shared) : Prop where
  packetId : m'.packetId = m.packetId
  tokenId : m'.tokenId = m.tokenId
  curTokenSize : m'.curTokenSize = m.curTokenSize
  tokenDropSize : m'.tokenDropSize = m.tokenDropSize
  inputQSize : m'.inputQSize = m.inputQSize
  Q1 : m'.Q1 = m.Q1
  Q2 : m'.Q2 = m.Q2
  outputQ : m'.outputQ = m.outputQ
  pre : m'.prePacketArriveTime = m.prePacketArriveTime
  now : m'.now = m.now
  heap : ∀ p, ∃ e, m'.heap p = { m.heap p with endServiceTime := e }

variable {cfg : Config} {th : Tid → Thread} {m m' : Shared} {a : Input} {me l : Thread}
  {op : LockOp} {t : Tid}

theorem Same.refl (m : Shared) : Same m m :=
  ⟨rfl,rfl,rfl,rfl,rfl,rfl,rfl,rfl,rfl,rfl,fun p => ⟨(m.heap p).endServiceTime,rfl⟩⟩

theorem Stmt.outside_same (h : Stmt cfg th m a me t m' l .keep) (hin : me.pc.inside = false) : Same m m' := by
  cases h <;> first
    | exact Same.refl _
    | (simp_all [Pc.inside]; done)
    | skip
  case readEnd =>
    refine ⟨rfl,rfl,rfl,rfl,rfl,rfl,rfl,rfl,rfl,rfl,fun p => ?_⟩
    by_cases hp : p = me.cur
    · subst hp; exact ⟨a.time - cfg.emulationStartTime,by simp [Shared.write]⟩
    · exact ⟨(m.heap p).endServiceTime,by simp [Shared.write,Function.update_of_ne hp]⟩
  case readEmulationEnd =>
    exact ⟨rfl,rfl,rfl,rfl,rfl,rfl,rfl,rfl,rfl,rfl,fun p => ⟨_,rfl⟩⟩

/-- A property of the memory and of the thread inside the lock that every
statement inside keeps, whatever the threads outside do. -/
structure Kept (cfg : Config) (t : Tid) (I : Option Thread → Shared → Prop) : Prop where
  same : ∀ {h m m'}, Same m m' → I h m → I h m'
  print : ∀ {me m}, I (some me) m → I (some { me with toPrint := false }) m
  inside : ∀ {th m a me m' l}, Stmt cfg th m a me t m' l .keep → m.now = a.time →
    me.pc.inside = true → I (some me) m → I (some l) m'
  lock : ∀ {me : Thread} {m pc},
    pc = .testInput ∨ pc = .testToken ∨ pc = .testWait ∨ pc = .readSignal →
      I none m → I (some (me.goto pc)) m
  unlock : ∀ {me m}, me.pc = .unlock ∨ me.pc = .unlockServing ∨ me.pc = .testWait →
    I (some me) m → I none m

theorem Kept.step {I : Option Thread → Shared → Prop} (hI : Kept cfg t I) {s s' : System}
    (hx : (program cfg).Exclusive s) (h : stmt cfg s (t, a) = some s')
    (hs : I s.holder { s.mem with now := a.time }) : I s'.holder s'.mem := by
  have trace (m : Shared) (x : ℤ) : Same m { m with trace := m.trace ++ [x] } :=
    ⟨rfl,rfl,rfl,rfl,rfl,rfl,rfl,rfl,rfl,rfl,fun p => ⟨_,rfl⟩⟩
  -- the time goes on first, so the rule is used for the memory with the new time
  have hnow : ∀ m l op, exec cfg s.thread s.mem t a = some (m, l, op) →
      { m with now := a.time } = m := by
    intro m l op he
    rcases exec_stmt he with ⟨-,-,-,rfl⟩ | ⟨-,hst⟩
    · rfl
    · have hn : m.now = a.time := hst.frame_trace.2
      rw [← hn]
  obtain ⟨m,l,op,he,hm,-⟩ := Monitor.step_exec h
  have hJ : I s'.holder { s'.mem with now := a.time } := by
    refine Monitor.holder_step (I := fun h m => I h { m with now := a.time }) hx h hs ?_ ?_ ?_ ?_
    · intro m l he hin hI'
      simp only [hnow m l _ he]
      rcases exec_stmt he with ⟨-,-,rfl,rfl⟩ | ⟨-,hst⟩
      · exact hI.same (trace _ _) (hI.print hI')
      · exact hI.inside hst rfl hin hI'
    · intro m l he hin
      simp only [hnow m l _ he]
      rcases exec_stmt he with ⟨-,-,-,rfl⟩ | ⟨-,hst⟩
      · exact hI.same (trace _ _) hs
      · exact hI.same (hst.outside_same hin) hs
    · intro m l he hI'
      simp only [hnow m l _ he]
      rcases exec_stmt he with ⟨-,hop,-⟩ | ⟨-,hst⟩
      · cases hop
      · cases hst with
        | lock _ pc _ hpc => exact hI.lock hpc hI'
        | wake => exact hI.lock (.inr (.inr (.inl rfl))) hI'
    · intro m l he hI'
      simp only [hnow m l _ he]
      rcases exec_stmt he with ⟨-,hop,-⟩ | ⟨-,hst⟩
      · cases hop
      · cases hst with
        | unlock _ _ hpc => exact hI.unlock (.inl hpc) hI'
        | signalReturns hpc => exact hI.unlock (.inl hpc) hI'
        | unlockServing _ hpc => exact hI.unlock (.inr (.inl hpc)) hI'
        | wait _ hpc => exact hI.unlock (.inr (.inr hpc)) hI'
  simpa only [hm,hnow m l op he] using hJ

/-! ### Conservation -/

theorem conserved_lock {pc : Pc} (hpc : pc = .testInput ∨ pc = .testToken ∨ pc = .testWait ∨ pc = .readSignal)
    (h : Conserved none m) : Conserved (some (me.goto pc)) m := by
  refine ⟨h.nonneg,?_,fun x hx => ?_⟩
  · rcases hpc with rfl | rfl | rfl | rfl <;> exact h.perm
  · cases hx
    rcases hpc with rfl | rfl | rfl | rfl <;> trivial

theorem conserved_unlock (hpc : me.pc = .unlock ∨ me.pc = .unlockServing ∨ me.pc = .testWait)
    (h : Conserved (some me) m) : Conserved none m := by
  refine ⟨h.nonneg,?_,fun x hx => by cases hx⟩
  have hp := h.perm
  rcases hpc with hpc | hpc | hpc <;> simpa [places,Thread.places,hpc,Pc.carries] using hp

/-- What a thread inside knows after a statement. -/
theorem knows_inside (h : Stmt cfg th m a me t m' l .keep) (hk : me.knows m) : l.knows m' := by
  unfold Thread.knows at hk ⊢
  cases h with
  | remove q p ps hpc => cases q <;> simp_all
  | outputRemoved q p ps hpc =>
    rw [hpc] at hk
    cases q with
    | Q1 => exact (suffix_cons p ps).trans hk
    | Q2 => exact (suffix_cons p ps).trans hk
  | readRemove q ps hpc => cases q <;> simp_all
  | _ => first | (simp; done) | simp_all

/-- A statement inside brings in the next packet, or moves packets from one place
to another. -/
theorem places_inside (h : Stmt cfg th m a me t m' l .keep) (hin : me.pc.inside = true) (hk : me.knows m) :
    m'.packetId = m.packetId ∧ (l.places m').Perm (me.places m) ∨
    m'.packetId = m.packetId+1 ∧ (l.places m').Perm ((m.packetId+1) :: me.places m) := by
  unfold Thread.knows at hk
  -- the lists are compared by what they hold how often
  simp only [perm_iff_count]
  unfold Thread.places
  cases h with
  | guardPass _ hpc => rcases hpc with hpc | hpc | hpc <;> simp [hpc,Pc.inside] at hin
  | leave _ hpc =>
    refine .inl ⟨rfl,fun x => ?_⟩
    rcases hpc with hpc | hpc | hpc | hpc | hpc <;> rw [hpc] <;> rfl
  | appendDropped hpc =>
    refine .inl ⟨rfl,fun x => ?_⟩
    simp [hpc,Pc.carries,count_cons]
    omega
  | remove q p ps hpc => cases q <;> simp_all
  | outputRemoved q p ps hpc =>
    refine .inl ⟨rfl,fun x => ?_⟩
    cases q <;> simp [hpc,count_cons] <;> omega
  | readRemove q ps hpc => cases q <;> simp_all
  | unlinkQ1 _ hpc =>
    refine .inl ⟨rfl,fun x => ?_⟩
    obtain ⟨rest,h1⟩ := by simpa [hpc] using hk
    simp [hpc,h1,Pc.carries]
  | unlinkQ2 _ hpc =>
    refine .inl ⟨rfl,fun x => ?_⟩
    obtain ⟨rest,h2⟩ := by simpa [hpc] using hk
    simp [hpc,h2,Pc.carries,count_cons]
    omega
  | appendQ1 hpc =>
    refine .inl ⟨rfl,fun x => ?_⟩
    simp [hpc,Pc.carries,count_cons]
    omega
  | appendQ2 _ hpc =>
    refine .inl ⟨rfl,fun x => ?_⟩
    simp [hpc,Pc.carries,count_cons]
    omega
  | appendServed _ hpc =>
    refine .inl ⟨rfl,fun x => ?_⟩
    simp [hpc,Pc.carries,count_cons]
    omega
  | _ => simp_all [Pc.inside,Pc.carries]

theorem conserved_inside (h : Stmt cfg th m a me t m' l .keep) (hin : me.pc.inside = true)
    (hs : Conserved (some me) m) : Conserved (some l) m' := by
  have hk := hs.knows me rfl
  have hn := hs.nonneg
  have hkl : ∀ x ∈ some l, x.knows m' := by
    intro x hx
    cases hx
    exact knows_inside h hk
  rcases places_inside h hin hk with ⟨hid,hp⟩ | ⟨hid,hp⟩
  · refine ⟨by omega,?_,hkl⟩
    rw [hid]
    exact hp.trans hs.perm
  · refine ⟨by omega,?_,hkl⟩
    rw [hid,numbers_succ hn]
    exact hp.trans ((hs.perm.cons _).trans (perm_append_singleton _ _).symm)

theorem Same.places_eq (h : Same m m') (o : Option Thread) : places o m' = places o m := by
  cases o with
  | none => simp only [places,h.Q1,h.Q2,h.outputQ]
  | some me => simp only [places,Thread.places,h.Q1,h.Q2,h.outputQ]

theorem Same.knows (h : Same m m') (hk : me.knows m) : me.knows m' := by
  simpa only [Thread.knows,h.inputQSize,h.packetId,h.Q1,h.Q2,h.outputQ] using hk

theorem conserved_kept (cfg : Config) (t : Tid) : Kept cfg t Conserved where
  same := fun h hs => ⟨by rw [h.packetId]; exact hs.nonneg,
    by rw [h.places_eq,h.packetId]; exact hs.perm,fun x hx => h.knows (hs.knows x hx)⟩
  print := fun {me _} hs => ⟨hs.nonneg,hs.perm,fun x hx => by
    cases hx; exact hs.knows me rfl⟩
  inside := fun h _ => conserved_inside h
  lock := conserved_lock
  unlock := conserved_unlock

theorem Conserved.later {o : Option Thread} (h : Conserved o m) (time : ℤ) : Conserved o { m with now := time } :=
  ⟨h.nonneg,h.perm,h.knows⟩

theorem conserved_start (cfg : Config) (t0 : ℤ) : Conserved (start cfg t0).holder (start cfg t0).mem :=
  ⟨le_rfl,List.Perm.refl _,fun x hx => by cases hx⟩

/-- Conservation in every interleaving, with or without SIGINT. -/
theorem conserved_of_run {ok : System → Tid × Input → Prop} {t0 : ℤ} {as : List (Tid × Input)}
    {s : System} (h : Exec (stmt cfg) ok (start cfg t0) as s) : Conserved s.holder s.mem := by
  induction h with
  | nil => exact conserved_start cfg t0
  | snoc hrun _ hst ih => exact (conserved_kept cfg _).step (exclusive_of_run hrun) hst (ih.later _)

end Csci402.Emulator.Threads
