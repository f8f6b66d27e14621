import Csci402.Emulator.Flow

/-! Servers that wait for `cv`. A server calls `pthread_cond_wait` only when `Q2` is empty
and `Q1` is not, and the sections that change this broadcast `cv`. The arrival of the last
packet, or its drop, also ends the condition of the inner loop of `serverFunc` and broadcasts
nothing; that strands nobody because `Q1` still holds a packet, whose move will. -/

namespace Csci402.Emulator

open Lib Function List

variable {cfg : Config} {s t : State} {n : Server}

/-! ### What a section does to the servers that wait -/

/-- All that a section can do to the queues and to the servers that wait: it broadcasts and
leaves the servers otherwise as they were, or a server takes the first packet of `Q2`, or
nothing leaves a queue. -/
inductive Signals (s t : State) : Prop
  | moved (u : State) (ht : t = broadcast u) (hu : u.server = s.server)
  | taken (u : State) (hQ2 : s.Q2 ≠ []) (hQ1 : t.Q1 = s.Q1) (ht : t = broadcast u)
  | quiet (hQ1 : s.Q1 <+: t.Q1) (hQ2 : t.Q2 = s.Q2) (hs : ∀ n, t.server n = s.server n ∨ t.server n = .ready ∨
        t.server n = .blocked false ∧ s.Q2 = [] ∧ s.Q1 ≠ [])

theorem Signals.of_same (hQ1 : s.Q1 <+: t.Q1) (hQ2 : t.Q2 = s.Q2) (hs : t.server = s.server) : Signals s t :=
  .quiet hQ1 hQ2 fun n => .inl (congrFun hs n)

/-- For a section that ends with `releaseHead`, which runs in `u`. -/
theorem releaseHead_signals {u : State} (l e : ℤ) (hQ1 : s.Q1 <+: u.Q1) (hQ2 : u.Q2 = s.Q2)
    (hs : u.server = s.server) : Signals s (releaseHead cfg l e u) := by
  unfold releaseHead
  split
  · exact .of_same hQ1 hQ2 hs
  · split
    · exact .moved _ rfl hs
    · exact .of_same hQ1 hQ2 hs

theorem packetSection_signals (d : PacketData) (clk : ℕ → ℤ) (s : State) : Signals s (packetSection cfg d clk s) := by
  unfold packetSection
  split
  · exact .of_same prefix_rfl rfl rfl
  · dsimp only
    split
    · exact .of_same prefix_rfl rfl rfl
    · exact releaseHead_signals _ _ (prefix_append _ _) rfl rfl

theorem tokenSection_signals (clk : ℕ → ℤ) (s : State) : Signals s (tokenSection cfg clk s) := by
  unfold tokenSection
  split
  · exact .of_same prefix_rfl rfl rfl
  · apply releaseHead_signals
    all_goals split <;> first | exact prefix_rfl | rfl

theorem update_server (pc : ServerPc) (m : Server) :
    update s.server n pc m = s.server m ∨ update s.server n pc m = pc := by
  by_cases h : m = n
  · subst h
    exact .inr (update_self ..)
  · exact .inl (update_of_ne h ..)

theorem serverSection_signals (n : Server) (clk : ℕ → ℤ) (s : State) : Signals s (serverSection cfg n clk s) := by
  unfold serverSection
  split
  next hwait =>
    exact .quiet prefix_rfl rfl fun m =>
      (update_server _ m).imp_right fun h => .inr ⟨h,hwait.1,hwait.2.2⟩
  · split
    · exact .quiet prefix_rfl rfl fun m => (update_server _ m).imp_right .inl
    next hQ2 =>
      exact .taken _ (by simp [hQ2]) rfl rfl

theorem departSection_signals (n : Server) (id : ℤ) (clk : ℕ → ℤ) (s : State) :
    Signals s (departSection cfg n id clk s) :=
  .quiet prefix_rfl rfl fun m => (update_server _ m).imp_right .inl

theorem step_signals {a : Section} (h : step cfg s a = some t) : Signals s t := by
  cases a with
  | packet d clk =>
    cases h
    exact packetSection_signals d clk s
  | token clk =>
    cases h
    exact tokenSection_signals clk s
  | server n clk =>
    simp only [step] at h
    split at h
    · cases h
      exact serverSection_signals n clk s
    · cases h
  | wake n clk =>
    simp only [step] at h
    split at h
    · cases h
      exact serverSection_signals n clk s
    · cases h
  | depart n clk =>
    simp only [step] at h
    split at h
    · cases h
      exact departSection_signals n _ clk s
    · cases h
  | signal =>
    cases h
    exact .moved _ rfl rfl

/-! ### Runs -/

/-- A server that sleeps and has not been woken has work ahead of it, and none to do. -/
def WorkAhead (s : State) : Prop := ∀ n, s.server n = .blocked false → s.Q2 = [] ∧ s.Q1 ≠ []

theorem broadcast_server (s : State) (n : Server) : (broadcast s).server n ≠ .blocked false := by
  unfold broadcast
  dsimp only
  split
  · simp
  next hpc =>
    exact hpc false

theorem broadcast_blocked {w : Bool} (h : s.server n = .blocked w) : (broadcast s).server n = .blocked true := by
  simp [broadcast,h]

theorem Signals.workAhead (h : Signals s t) (hw : WorkAhead s) : WorkAhead t := by
  intro n hn
  cases h with
  | moved u ht _ =>
    subst ht
    exact absurd hn (broadcast_server u n)
  | taken u _ _ ht =>
    subst ht
    exact absurd hn (broadcast_server u n)
  | quiet hQ1 hQ2 hs =>
    have hs' : s.Q2 = [] ∧ s.Q1 ≠ [] := by
      rcases hs n with h | h | h
      · exact hw n (h ▸ hn)
      · rw [hn] at h
        cases h
      · exact h.2
    exact ⟨hQ2.trans hs'.1,fun h0 => hs'.2 (prefix_nil.mp (h0 ▸ hQ1))⟩

/-- While a server sleeps nothing leaves `Q1`, except in a section that wakes it. -/
theorem Signals.wakes (h : Signals s t) (hn : s.server n = .blocked false) (hQ2 : s.Q2 = []) :
    s.Q1 <+: t.Q1 ∨ t.server n = .blocked true := by
  cases h with
  | moved u ht hu =>
    subst ht
    exact .inr (broadcast_blocked (hu ▸ hn))
  | taken _ h2 _ _ => exact absurd hQ2 h2
  | quiet hQ1 _ _ => exact .inl hQ1

/-- With `Q1` empty the inner loop of `serverFunc` ends. -/
theorem serverSection_leaves (clk : ℕ → ℤ) (hQ1 : s.Q1 = []) (w : Bool) :
    (serverSection cfg n clk s).server n ≠ .blocked w := by
  unfold serverSection
  rw [if_neg (by simp [hQ1])]
  split
  · simp
  · simp [broadcast]

theorem workAhead_run {t0 : ℤ} {as : List Section} (h : Emulation cfg t0 as s) : WorkAhead s :=
  h.invariant (fun _ hn => by cases hn) fun _ _ _ hw _ hst => (step_signals hst).workAhead hw

/-- No server sleeps through available work: in every state of a run a server that is blocked
and was not woken since has nothing to take from `Q2` and a packet ahead of it in `Q1`; a
section in which a packet leaves `Q1` wakes it; and once `Q1` is empty every server that is
still blocked has been woken and does not block again. -/
theorem server_has_work_ahead (cfg : Config) (t0 : ℤ) (as : List Section) (s : State) (h : Emulation cfg t0 as s) :
    (∀ n, s.server n = .blocked false → s.Q2 = [] ∧ s.Q1 ≠ []) ∧
    (∀ n a t, s.server n = .blocked false → step cfg s a = some t →
      s.Q1 <+: t.Q1 ∨ t.server n = .blocked true) ∧
    (s.Q1 = [] → ∀ n w, s.server n = .blocked w → w = true ∧
      ∀ clk, ∃ t, step cfg s (.wake n clk) = some t ∧ ∀ w', t.server n ≠ .blocked w') := by
  have hw := workAhead_run h
  refine ⟨hw,fun n a t hn hst => (step_signals hst).wakes hn (hw n hn).1,fun hQ1 n w hn => ⟨?_,fun clk => ?_⟩⟩
  · cases w with
    | true => rfl
    | false => exact absurd hQ1 (hw n hn).2
  · refine ⟨serverSection cfg n clk s,?_,fun w' => serverSection_leaves clk hQ1 w'⟩
    simp only [step,hn]

/-- The first packet needs two tokens, and a server waits for it. -/
theorem server_has_work_ahead_waitingRun : ∃ s,
    Emulation ⟨2,4,0⟩ 0 [.packet ⟨2,1000,1000⟩ (↑),.token (↑),.server .S1 (↑)] s ∧
    s.server .S1 = .blocked false ∧ s.Q2 = [] ∧ s.Q1 ≠ [] := by
  have h : Emulation ⟨2,4,0⟩ 0 [.packet ⟨2,1000,1000⟩ (↑),.token (↑),.server .S1 (↑)] _ := Exec.ofRun rfl
  exact ⟨_,h,rfl,(server_has_work_ahead _ _ _ _ h).1 .S1 rfl⟩

end Csci402.Emulator
