import Csci402.Emulator.Threads

/-! What a statement of the emulator can do, one case for each statement, and the
program of the threads over the lock `myLock`. The proofs about the interleavings
go through these cases and not through the bodies of the thread functions. -/

namespace Csci402.Emulator.Threads

open Lib Function

/-- The statements that run with `myLock` held. -/
def Pc.inside : Pc → Bool
  | .guardInput | .guardQ1 | .guardQ2 | .lock | .returned | .blocked | .readEnd | .sigwait
  | .join | .readEmulationEnd | .printStatics => false
  | _ => true

section

variable (cfg : Config) (th : Tid → Thread) (m : Shared) (a : Input) (me : Thread)

/-- A statement at `me` of the thread `t` in the memory `m`, with the memory, the
thread and the lock after it. -/
inductive Stmt : Tid → Shared → Thread → LockOp → Prop
  | guardPass (t : Tid) (hpc : me.pc = .guardInput ∨ me.pc = .guardQ1 ∨ me.pc = .guardQ2) :
      Stmt t m (me.goto .lock) .keep
  | packetReturns (hpc : me.pc = .guardInput) (hin : m.inputQSize ≤ 0) : Stmt .packet m (me.goto .returned) .keep
  | guardInput (t : Tid) (ht : t ≠ .packet) (hpc : me.pc = .guardInput) (hin : m.inputQSize ≤ 0) :
      Stmt t m (me.goto .guardQ1) .keep
  | tokenReturns (hpc : me.pc = .guardQ1) (h1 : m.Q1 = []) : Stmt .token m (me.goto .returned) .keep
  | guardQ1 (n : Server) (hpc : me.pc = .guardQ1) (h1 : m.Q1 = []) : Stmt (.server n) m (me.goto .guardQ2) .keep
  | serverReturns (n : Server) (hpc : me.pc = .guardQ2) (h2 : m.Q2 = []) :
      Stmt (.server n) m (me.goto .returned) .keep
  -- the lock
  | lock (t : Tid) (pc : Pc) (hpc : me.pc = .lock)
      (he : pc = .testInput ∨ pc = .testToken ∨ pc = .testWait ∨ pc = .readSignal) : Stmt t m (me.goto pc) .acquire
  | wake (n : Server) (hpc : me.pc = .blocked) : Stmt (.server n) m (me.goto .testWait) .acquire
  | unlock (t : Tid) (ht : t ≠ .signal) (hpc : me.pc = .unlock) : Stmt t m (me.goto .guardInput) .release
  | signalReturns (hpc : me.pc = .unlock) : Stmt .signal m (me.goto .returned) .release
  | unlockServing (n : Server) (hpc : me.pc = .unlockServing) : Stmt (.server n) m (me.goto .readEnd) .release
  | wait (n : Server) (hpc : me.pc = .testWait) : Stmt (.server n) m (me.goto .blocked) .release
  -- an arrival
  | leave (t : Tid) (hpc : me.pc = .testInput ∨ me.pc = .testHead ∨ me.pc = .testToken ∨
        me.pc = .testQ2 ∨ me.pc = .broadcast) : Stmt t m (me.goto .unlock) .keep
  | testInput (hpc : me.pc = .testInput) (hin : 0 < m.inputQSize) : Stmt .packet m (me.goto .takeInput) .keep
  | takeInput (hpc : me.pc = .takeInput) : Stmt .packet { m with inputQSize := m.inputQSize - 1 }
        (me.goto .initPacket) .keep
  | initPacket (hpc : me.pc = .initPacket) : Stmt .packet
        { m with
          packetId := m.packetId+1
          heap := update m.heap (m.packetId+1) {
            packetId := m.packetId+1
            tokenNeed := a.data.tokenNeed
            interPacketTime := a.data.interPcketTime
            packetServiceTime := a.data.packetServiceTime } }
        { me with pc := .readArrive, cur := m.packetId+1 } .keep
  | readArrive (hpc : me.pc = .readArrive) : Stmt .packet
        { m.write me.cur (fun p => { p with
            arriveTime := a.time - cfg.emulationStartTime
            realInterPacketArriveTime := a.time - m.prePacketArriveTime }) with
          prePacketArriveTime := a.time }
        { me with pc := .testNeed, stamp := a.time - cfg.emulationStartTime } .keep
  | reject (hpc : me.pc = .testNeed) : Stmt .packet m (me.goto .markDropped) .keep
  | accept (hpc : me.pc = .testNeed) : Stmt .packet m { me with pc := .appendQ1, toPrint := true } .keep
  | markDropped (hpc : me.pc = .markDropped) :
      Stmt .packet (m.write me.cur fun p => { p with packetType := 2 })
        (me.goto .appendDropped) .keep
  | appendDropped (hpc : me.pc = .appendDropped) : Stmt .packet { m with outputQ := m.outputQ ++ [me.cur] }
        { me with pc := .unlock, toPrint := true } .keep
  | appendQ1 (hpc : me.pc = .appendQ1) : Stmt .packet { m with Q1 := m.Q1 ++ [me.cur] } (me.goto .readEnterQ1) .keep
  | readEnterQ1 (hpc : me.pc = .readEnterQ1) : Stmt .packet
        (m.write me.cur fun p => { p with enterQ1Time := a.time - cfg.emulationStartTime })
        (me.say (a.time - cfg.emulationStartTime) .testHead) .keep
  -- a move from `Q1` to `Q2`
  | testHead (t : Tid) (p : ℤ) (rest : List ℤ) (hpc : me.pc = .testHead) (h1 : m.Q1 = p :: rest) :
      Stmt t m { me with pc := .unlinkQ1, cur := p } .keep
  | unlinkQ1 (t : Tid) (hpc : me.pc = .unlinkQ1) :
      Stmt t { m with Q1 := m.Q1.erase me.cur } (me.goto .payTokens) .keep
  | payTokens (t : Tid) (hpc : me.pc = .payTokens) :
      Stmt t { m with curTokenSize := m.curTokenSize - (m.heap me.cur).tokenNeed }
        (me.goto .readLeaveQ1) .keep
  | readLeaveQ1 (t : Tid) (hpc : me.pc = .readLeaveQ1) : Stmt t
        (m.write me.cur fun p => { p with leaveQ1Time := a.time - cfg.emulationStartTime })
        (me.say (a.time - cfg.emulationStartTime) .appendQ2) .keep
  | appendQ2 (t : Tid) (hpc : me.pc = .appendQ2) :
      Stmt t { m with Q2 := m.Q2 ++ [me.cur] } (me.goto .readEnterQ2) .keep
  | readEnterQ2 (t : Tid) (hpc : me.pc = .readEnterQ2) : Stmt t
        (m.write me.cur fun p => { p with enterQ2Time := a.time - cfg.emulationStartTime })
        (me.say (a.time - cfg.emulationStartTime) .broadcast) .keep
  -- a token
  | testToken (hpc : me.pc = .testToken) : Stmt .token m (me.goto .countToken) .keep
  | countToken (hpc : me.pc = .countToken) : Stmt .token { m with tokenId := m.tokenId+1 } (me.goto .readToken) .keep
  | readToken (hpc : me.pc = .readToken) : Stmt .token m
        { me with pc := .addToken, stamp := a.time - cfg.emulationStartTime } .keep
  | dropToken (hpc : me.pc = .addToken) : Stmt .token { m with tokenDropSize := m.tokenDropSize+1 }
        { me with pc := .testHead, toPrint := true } .keep
  | addToken (hpc : me.pc = .addToken) : Stmt .token { m with curTokenSize := m.curTokenSize+1 }
        { me with pc := .testHead, toPrint := true } .keep
  -- a service
  | testWait (n : Server) (hpc : me.pc = .testWait) : Stmt (.server n) m (me.goto .testQ2) .keep
  | testQ2 (n : Server) (p : ℤ) (rest : List ℤ) (hpc : me.pc = .testQ2) (h2 : m.Q2 = p :: rest) :
      Stmt (.server n) m { me with pc := .unlinkQ2, cur := p } .keep
  | unlinkQ2 (n : Server) (hpc : me.pc = .unlinkQ2) :
      Stmt (.server n) { m with Q2 := m.Q2.erase me.cur } (me.goto .readLeaveQ2) .keep
  | readLeaveQ2 (n : Server) (hpc : me.pc = .readLeaveQ2) : Stmt (.server n)
        (m.write me.cur fun p => { p with leaveQ2Time := a.time - cfg.emulationStartTime })
        (me.say (a.time - cfg.emulationStartTime) .markServed) .keep
  | markServed (n : Server) (ty : ℤ) (hpc : me.pc = .markServed) : Stmt (.server n)
        (m.write me.cur fun p => { p with packetType := 1, serviceType := ty })
        (me.goto .appendServed) .keep
  | appendServed (n : Server) (hpc : me.pc = .appendServed) :
      Stmt (.server n) { m with outputQ := m.outputQ ++ [me.cur] }
        (me.goto .readBegin) .keep
  | readBegin (n : Server) (hpc : me.pc = .readBegin) : Stmt (.server n)
        (m.write me.cur fun p => { p with beginServiceTime := a.time - cfg.emulationStartTime })
        (me.say (a.time - cfg.emulationStartTime) .broadcastServing) .keep
  | broadcastServing (n : Server) (hpc : me.pc = .broadcastServing) :
      Stmt (.server n) m (me.goto .unlockServing) .keep
  | readEnd (n : Server) (hpc : me.pc = .readEnd) : Stmt (.server n)
        (m.write me.cur fun p => { p with endServiceTime := a.time - cfg.emulationStartTime })
        (me.say (a.time - cfg.emulationStartTime) .guardInput) .keep
  -- SIGINT
  | sigwait (hpc : me.pc = .sigwait) : Stmt .signal m (me.goto .lock) .keep
  | readSignal (hpc : me.pc = .readSignal) : Stmt .signal m
        (me.say (a.time - cfg.emulationStartTime) (.remove .Q1 m.Q1)) .keep
  | remove (q : Queue) (p : ℤ) (ps : List ℤ) (hpc : me.pc = .remove q (p :: ps)) :
      Stmt .signal (m.write p fun x => { x with packetType := 3 })
        (me.goto (.outputRemoved q p ps)) .keep
  | outputRemoved (q : Queue) (p : ℤ) (ps : List ℤ) (hpc : me.pc = .outputRemoved q p ps) :
      Stmt .signal { m with outputQ := m.outputQ ++ [p] }
        (me.goto (.readRemove q ps)) .keep
  | readRemove (q : Queue) (ps : List ℤ) (hpc : me.pc = .readRemove q ps) :
      Stmt .signal m (me.say (a.time - cfg.emulationStartTime) (.remove q ps)) .keep
  | removedQ1 (hpc : me.pc = .remove .Q1 []) : Stmt .signal m (me.goto (.remove .Q2 m.Q2)) .keep
  | removedQ2 (hpc : me.pc = .remove .Q2 []) : Stmt .signal m (me.goto .closeInput) .keep
  | closeInput (hpc : me.pc = .closeInput) : Stmt .signal { m with inputQSize := 0 } (me.goto .unlinkAllQ1) .keep
  | unlinkAllQ1 (hpc : me.pc = .unlinkAllQ1) : Stmt .signal { m with Q1 := [] } (me.goto .unlinkAllQ2) .keep
  | unlinkAllQ2 (hpc : me.pc = .unlinkAllQ2) : Stmt .signal { m with Q2 := [] } (me.goto .broadcast) .keep
  -- `main`
  | join (hpc : me.pc = .join) (hj : joined th = true) : Stmt .main m (me.goto .readEmulationEnd) .keep
  | readEmulationEnd (hpc : me.pc = .readEmulationEnd) : Stmt .main { m with emulationEndTime := a.time }
        (me.say (a.time - cfg.emulationStartTime) .printStatics) .keep

end

variable {cfg : Config} {th : Tid → Thread} {m m' : Shared} {a : Input} {me l : Thread}
  {op : LockOp} {t : Tid}

theorem moveHead_stmt (ht : t ≠ .signal) (h : moveHead cfg m a me = some (m', l, op)) :
    Stmt cfg th m a me t m' l op := by
  unfold moveHead at h
  split at h
  next hpc =>
    split at h
    · cases h; exact .leave t (.inr (.inl hpc))
    next p rest h1 =>
      split at h
      · cases h; exact .testHead t p rest hpc h1
      · cases h; exact .leave t (.inr (.inl hpc))
  next hpc => cases h; exact .unlinkQ1 t hpc
  next hpc => cases h; exact .payTokens t hpc
  next hpc => cases h; exact .readLeaveQ1 t hpc
  next hpc => cases h; exact .appendQ2 t hpc
  next hpc => cases h; exact .readEnterQ2 t hpc
  next hpc => cases h; exact .leave t (by simp [hpc])
  next hpc => cases h; exact .unlock t ht hpc
  · cases h

theorem packetFunc_stmt (h : packetFunc cfg m a me = some (m', l, op)) : Stmt cfg th m a me .packet m' l op := by
  unfold packetFunc at h
  split at h
  next hpc =>
    split at h
    · cases h; exact .guardPass _ (.inl hpc)
    next hin => cases h; exact .packetReturns hpc (not_lt.mp hin)
  next hpc => cases h; exact .lock _ _ hpc (.inl rfl)
  next hpc =>
    split at h
    · cases h; exact .leave _ (.inl hpc)
    next hin => cases h; exact .testInput hpc (not_le.mp hin)
  next hpc => cases h; exact .takeInput hpc
  next hpc => cases h; exact .initPacket hpc
  next hpc => cases h; exact .readArrive hpc
  next hpc =>
    split at h
    · cases h; exact .reject hpc
    · cases h; exact .accept hpc
  next hpc => cases h; exact .markDropped hpc
  next hpc => cases h; exact .appendDropped hpc
  next hpc => cases h; exact .appendQ1 hpc
  next hpc => cases h; exact .readEnterQ1 hpc
  · exact moveHead_stmt (by decide) h

theorem tokenFunc_stmt (h : tokenFunc cfg m a me = some (m', l, op)) : Stmt cfg th m a me .token m' l op := by
  unfold tokenFunc at h
  split at h
  next hpc =>
    split at h
    · cases h; exact .guardPass _ (.inl hpc)
    next hin => cases h; exact .guardInput _ (by decide) hpc (not_lt.mp hin)
  next hpc =>
    split at h
    · cases h; exact .guardPass _ (.inr (.inl hpc))
    next h1 => cases h; exact .tokenReturns hpc (not_not.mp h1)
  next hpc => cases h; exact .lock _ _ hpc (.inr (.inl rfl))
  next hpc =>
    split at h
    · cases h; exact .leave _ (.inr (.inr (.inl hpc)))
    · cases h; exact .testToken hpc
  next hpc => cases h; exact .countToken hpc
  next hpc => cases h; exact .readToken hpc
  next hpc =>
    cases h
    split
    · exact .dropToken hpc
    · exact .addToken hpc
  · exact moveHead_stmt (by decide) h

theorem serverFunc_stmt {n : Server} (h : serverFunc cfg n m a me = some (m', l, op)) :
    Stmt cfg th m a me (.server n) m' l op := by
  unfold serverFunc at h
  split at h
  next hpc =>
    split at h
    · cases h; exact .guardPass _ (.inl hpc)
    next hin => cases h; exact .guardInput _ (by simp) hpc (not_lt.mp hin)
  next hpc =>
    split at h
    · cases h; exact .guardPass _ (.inr (.inl hpc))
    next h1 => cases h; exact .guardQ1 n hpc (not_not.mp h1)
  next hpc =>
    split at h
    · cases h; exact .guardPass _ (.inr (.inr hpc))
    next h2 => cases h; exact .serverReturns n hpc (not_not.mp h2)
  next hpc => cases h; exact .lock _ _ hpc (.inr (.inr (.inl rfl)))
  next hpc =>
    split at h
    · cases h; exact .wait n hpc
    · cases h; exact .testWait n hpc
  next hpc => cases h; exact .wake n hpc
  next hpc =>
    split at h
    · cases h; exact .leave _ (.inr (.inr (.inr (.inl hpc))))
    next p rest h2 => cases h; exact .testQ2 n p rest hpc h2
  next hpc => cases h; exact .unlinkQ2 n hpc
  next hpc => cases h; exact .readLeaveQ2 n hpc
  next hpc => cases h; exact .markServed n _ hpc
  next hpc => cases h; exact .appendServed n hpc
  next hpc => cases h; exact .readBegin n hpc
  next hpc => cases h; exact .broadcastServing n hpc
  next hpc => cases h; exact .unlock _ (by simp) hpc
  next hpc => cases h; exact .unlockServing n hpc
  next hpc => cases h; exact .readEnd n hpc
  · cases h

theorem signalFunc_stmt (h : signalFunc cfg m a me = some (m', l, op)) : Stmt cfg th m a me .signal m' l op := by
  unfold signalFunc at h
  split at h
  next hpc => cases h; exact .sigwait hpc
  next hpc => cases h; exact .lock _ _ hpc (.inr (.inr (.inr rfl)))
  next hpc => cases h; exact .readSignal hpc
  next hpc => cases h; exact .remove _ _ _ hpc
  next hpc => cases h; exact .outputRemoved _ _ _ hpc
  next hpc => cases h; exact .readRemove _ _ hpc
  next hpc => cases h; exact .removedQ1 hpc
  next hpc => cases h; exact .removedQ2 hpc
  next hpc => cases h; exact .closeInput hpc
  next hpc => cases h; exact .unlinkAllQ1 hpc
  next hpc => cases h; exact .unlinkAllQ2 hpc
  next hpc => cases h; exact .leave _ (by simp [hpc])
  next hpc => cases h; exact .signalReturns hpc
  · cases h

theorem mainFunc_stmt (h : mainFunc cfg th m a me = some (m', l, op)) : Stmt cfg th m a me .main m' l op := by
  unfold mainFunc at h
  split at h
  next hpc =>
    split at h
    next hj => cases h; exact .join hpc hj
    · cases h
  next hpc => cases h; exact .readEmulationEnd hpc
  · cases h

/-- All that one step of a thread can do: it prints a line, or it executes the
statement it is at. -/
theorem exec_stmt (h : exec cfg th m t a = some (m', l, op)) :
    ((th t).toPrint = true ∧ op = .keep ∧ l = { th t with toPrint := false } ∧
      m' = { m with now := a.time, trace := m.trace ++ [(th t).stamp] }) ∨
    ((th t).toPrint = false ∧ Stmt cfg th { m with now := a.time } a (th t) t m' l op) := by
  cases hp : (th t).toPrint with
  | true =>
    simp only [exec,hp,if_true,Option.some.injEq,Prod.mk.injEq] at h
    obtain ⟨rfl,rfl,rfl⟩ := h
    exact .inl ⟨rfl,rfl,rfl,rfl⟩
  | false =>
    refine .inr ⟨rfl,?_⟩
    simp only [exec,hp,Bool.false_eq_true,if_false] at h
    cases t with
    | main => exact mainFunc_stmt h
    | packet => exact packetFunc_stmt h
    | token => exact tokenFunc_stmt h
    | server n => exact serverFunc_stmt h
    | signal => exact signalFunc_stmt h

theorem Stmt.frame_trace (h : Stmt cfg th m a me t m' l op) : m'.trace = m.trace ∧ m'.now = m.now := by
  cases h <;> exact ⟨rfl,rfl⟩

theorem Stmt.keep_inside (h : Stmt cfg th m a me t m' l .keep) : l.pc.inside = me.pc.inside := by
  cases h <;> simp_all [Thread.goto,Thread.say,Pc.inside]
  case guardPass hpc => rcases hpc with hpc | hpc | hpc <;> rw [hpc]
  case leave hpc => rcases hpc with hpc | hpc | hpc | hpc | hpc <;> rw [hpc]

theorem Stmt.acquire_inside (h : Stmt cfg th m a me t m' l .acquire) : me.pc.inside = false ∧ l.pc.inside = true := by
  cases h with
  | lock _ pc hpc he =>
    rw [hpc]
    rcases he with rfl | rfl | rfl | rfl <;> exact ⟨rfl,rfl⟩
  | wake n hpc => rw [hpc]; exact ⟨rfl,rfl⟩

theorem Stmt.release_inside (h : Stmt cfg th m a me t m' l .release) : me.pc.inside = true ∧ l.pc.inside = false := by
  cases h <;> simp_all [Thread.goto,Pc.inside]

theorem exec_keep_inside (h : exec cfg th m t a = some (m', l, .keep)) : l.pc.inside = (th t).pc.inside := by
  rcases exec_stmt h with ⟨-,-,rfl,-⟩ | ⟨-,h⟩
  · rfl
  · exact h.keep_inside

theorem exec_acquire_inside (h : exec cfg th m t a = some (m', l, .acquire)) :
    (th t).pc.inside = false ∧ l.pc.inside = true := by
  rcases exec_stmt h with ⟨-,h,-⟩ | ⟨-,h⟩
  · cases h
  · exact h.acquire_inside

theorem exec_release_inside (h : exec cfg th m t a = some (m', l, .release)) :
    (th t).pc.inside = true ∧ l.pc.inside = false := by
  rcases exec_stmt h with ⟨-,h,-⟩ | ⟨-,h⟩
  · cases h
  · exact h.release_inside

/-- The threads of the emulator over `myLock`. -/
def program (cfg : Config) : Monitor Tid Thread Shared Input where
  exec := exec cfg
  inside := fun me => me.pc.inside
  keep_inside := exec_keep_inside
  acquire_inside := exec_acquire_inside
  release_inside := exec_release_inside

/-- The statement a thread starts with. -/
def Tid.start : Tid → Pc
  | .main => .join
  | .packet | .token | .server _ => .guardInput
  | .signal => .sigwait

abbrev System := LockState Tid Thread Shared

/-- The state when `main` has started the threads: `setDefault` and `init` have
run, `prePacketArriveTime` has been read from the clock, and the first line of the
trace has been printed. -/
def start (cfg : Config) (firstArriveTime : ℤ) : System where
  mem := {
    inputQSize := cfg.num
    prePacketArriveTime := firstArriveTime
    now := firstArriveTime
    trace := [0] }
  owner := none
  thread := fun t => { pc := t.start }

/-- A step of the thread `a.1`. -/
abbrev stmt (cfg : Config) : System → Tid × Input → Option System := (program cfg).step

/-- `gettimeofday` never decreases. -/
def Clock (s : System) (a : Tid × Input) : Prop := s.mem.now ≤ a.2.time

instance (s : System) (a : Tid × Input) : Decidable (Clock s a) :=
  inferInstanceAs (Decidable (s.mem.now ≤ a.2.time))

theorem exclusive_start (cfg : Config) (t0 : ℤ) : (program cfg).Exclusive (start cfg t0) := by
  intro t
  have ht : t.start.inside = false := by cases t <;> rfl
  simp [program,start,ht]

variable {ok : System → Tid × Input → Prop} {t0 : ℤ} {as : List (Tid × Input)} {s : System}

/-- Mutual exclusion on `myLock`. -/
theorem exclusive_of_run (h : Exec (stmt cfg) ok (start cfg t0) as s) : (program cfg).Exclusive s :=
  Monitor.exclusive_run h (exclusive_start cfg t0)

/-- The statements of `main` and of `signalFunc`; of the other threads nothing is
said. -/
def Tid.runs : Tid → Pc → Bool
  | .main, pc => match pc with
    | .join | .readEmulationEnd | .printStatics => true
    | _ => false
  | .signal, pc => match pc with
    | .sigwait | .lock | .readSignal | .remove _ _ | .outputRemoved _ _ _ | .readRemove _ _
    | .closeInput | .unlinkAllQ1 | .unlinkAllQ2 | .broadcast | .unlock | .returned => true
    | _ => false
  | _, _ => true

theorem exec_runs (h : exec cfg th m t a = some (m', l, op)) (hr : t.runs (th t).pc = true) : t.runs l.pc = true := by
  cases hp : (th t).toPrint with
  | true =>
    simp only [exec,hp,if_true,Option.some.injEq,Prod.mk.injEq] at h
    obtain ⟨-,rfl,-⟩ := h
    exact hr
  | false =>
    simp only [exec,hp,Bool.false_eq_true,if_false] at h
    cases t with
    | main =>
      simp only [mainFunc] at h
      split at h
      · split at h
        · cases h; rfl
        · cases h
      · cases h; rfl
      · cases h
    | signal =>
      simp only [signalFunc] at h
      split at h <;> cases h <;> rfl
    | _ => rfl

theorem runs_of_run (h : Exec (stmt cfg) ok (start cfg t0) as s) (t : Tid) : t.runs (s.thread t).pc = true := by
  induction h with
  | nil => cases t <;> rfl
  | @snoc u v as b _ _ hst ih =>
    obtain ⟨m,l,op,he,-,hth⟩ := Monitor.step_exec hst
    by_cases htb : t = b.1
    · rw [hth,htb,update_self]
      exact exec_runs he (htb ▸ ih)
    · rw [hth,update_of_ne htb]
      exact ih

theorem main_outside {pc : Pc} (h : Tid.main.runs pc = true) : pc.inside = false := by
  cases pc <;> first | rfl | cases h

theorem joined_returned (hj : joined th = true) (hm : t ≠ .main) (hs : t ≠ .signal) : (th t).pc = .returned := by
  simp only [joined,List.all_cons,List.all_nil,Bool.and_true,Bool.and_eq_true,
    decide_eq_true_eq] at hj
  obtain ⟨hp,ht,h1,h2⟩ := hj
  rcases t with _ | _ | _ | (_ | _) | _ <;> first | assumption | contradiction

/-- When the threads have been joined, only the signal thread can hold the lock. -/
theorem owner_of_joined (h : Exec (stmt cfg) ok (start cfg t0) as s) (hj : joined s.thread = true)
    {t : Tid} (ho : s.owner = some t) : t = .signal := by
  have hin : (s.thread t).pc.inside = true := (exclusive_of_run h t).mpr ho
  by_contra hs
  by_cases hm : t = .main
  · subst hm
    rw [main_outside (runs_of_run h .main)] at hin
    cases hin
  · rw [joined_returned hj hm hs] at hin
    cases hin

/-! ### A complete run -/

/-- `k` statements of the thread `t` at one time; a packet that arrives needs one
token. -/
def turn (t : Tid) (k : ℕ) (time : ℤ) : List (Tid × Input) :=
  List.replicate k (t, ⟨time,⟨1,0,0⟩⟩)

def oneToken : Config := ⟨1,1,0⟩

/-- A token, then the packet passes `Q1` and `Q2`, is served by `S1`, and all
threads return. -/
def completeRun : List (Tid × Input) :=
  turn .token 9 1 ++ turn .packet 22 2 ++ turn (.server .S1) 20 3 ++ turn .token 2 4 ++
    turn (.server .S2) 3 5 ++ turn .main 3 6

end Csci402.Emulator.Threads
