import Csci402.Lib.Monitor
import Csci402.Emulator.Sections

/-! The emulator one statement at a time. Every thread of `warmup2.c` is at a
statement; a step executes the statement of one thread, and any thread may take
the next step. What the sections of `Sections.lean` do at once is here spread over
the statements between `pthread_mutex_lock` and `pthread_mutex_unlock`, and the
loop guards, the end of a service and `main` run without the lock. A packet is
pointed to by its number, which `initPacket` gives to no other packet; the queues
hold pointers, and `heap` holds the packets.

The clock is read and the line is printed in separate steps. A statement that is
preceded by an `fprintf` of the current `timeStampStr` is reached with `toPrint`
set: the thread prints first. -/

namespace Csci402.Emulator.Threads

open Lib Function

inductive Tid where
  | main | packet | token | server (n : Server) | signal
  deriving DecidableEq, Repr

/-- The two queues SIGINT empties. -/
inductive Queue where
  | Q1 | Q2
  deriving DecidableEq, Repr

/-- The statements. The ones of `packetFunc` come first; those from `testHead` to
`broadcast` are also the end of `tokenFunc`. -/
inductive Pc where
  -- the loop guards, read one after another without the lock
  | guardInput | guardQ1 | guardQ2
  | lock | unlock | returned
  | testInput | takeInput | initPacket | readArrive | testNeed | markDropped | appendDropped
  | appendQ1 | readEnterQ1
  | testHead | unlinkQ1 | payTokens | readLeaveQ1 | appendQ2 | readEnterQ2 | broadcast
  | testToken | countToken | readToken | addToken
  | testWait | blocked | testQ2 | unlinkQ2 | readLeaveQ2 | markServed | appendServed
  | readBegin | broadcastServing | unlockServing | readEnd
  -- the loops of `signalFunc`, with the packets that are still to be visited
  | sigwait | readSignal | remove (q : Queue) (ps : List ℤ)
  | outputRemoved (q : Queue) (p : ℤ) (ps : List ℤ) | readRemove (q : Queue) (ps : List ℤ)
  | closeInput | unlinkAllQ1 | unlinkAllQ2
  | join | readEmulationEnd | printStatics
  deriving DecidableEq, Repr

/-- The local state of a thread: the packet in hand (`inputPacket`, `q1Packet` or
`q2Packet`) and the time in `timeStampStr`, in microseconds. -/
structure Thread where
  pc : Pc
  toPrint : Bool := false
  cur : ℤ := 0
  stamp : ℤ := 0
  deriving DecidableEq, Repr

/-- What the threads share: the globals, the packets, the clock and `stdout`, of
which only the timestamps of the trace lines are kept. -/
structure Shared where
  packetId : ℤ := 0
  tokenId : ℤ := 0
  curTokenSize : ℤ := 0
  tokenDropSize : ℤ := 0
  inputQSize : ℤ
  Q1 : List ℤ := []
  Q2 : List ℤ := []
  outputQ : List ℤ := []
  heap : ℤ → MyPacket := fun _ => {}
  prePacketArriveTime : ℤ
  emulationEndTime : ℤ := 0
  now : ℤ
  trace : List ℤ

/-- What the environment answers to a statement: the clock, and the data the
packet thread has for the next packet. -/
structure Input where
  time : ℤ
  data : PacketData
  deriving DecidableEq, Repr

def Thread.goto (me : Thread) (pc : Pc) : Thread := { me with pc := pc }

/-- The time goes into `timeStampStr`, and the line is printed before `pc`. -/
def Thread.say (me : Thread) (stamp : ℤ) (pc : Pc) : Thread :=
  { me with pc := pc, stamp := stamp, toPrint := true }

/-- An assignment to fields of the packet `p` points to. -/
def Shared.write (m : Shared) (p : ℤ) (f : MyPacket → MyPacket) : Shared :=
  { m with heap := update m.heap p (f (m.heap p)) }

section Fields

variable (me : Thread) (m : Shared) (pc : Pc) (p x : ℤ) (f : MyPacket → MyPacket)

@[simp] theorem Thread.goto_pc : (me.goto pc).pc = pc := rfl

@[simp] theorem Thread.goto_cur : (me.goto pc).cur = me.cur := rfl

@[simp] theorem Thread.goto_toPrint : (me.goto pc).toPrint = me.toPrint := rfl

@[simp] theorem Thread.say_pc : (me.say x pc).pc = pc := rfl

@[simp] theorem Thread.say_cur : (me.say x pc).cur = me.cur := rfl

@[simp] theorem Shared.write_packetId : (m.write p f).packetId = m.packetId := rfl

@[simp] theorem Shared.write_inputQSize : (m.write p f).inputQSize = m.inputQSize := rfl

@[simp] theorem Shared.write_Q1 : (m.write p f).Q1 = m.Q1 := rfl

@[simp] theorem Shared.write_Q2 : (m.write p f).Q2 = m.Q2 := rfl

@[simp] theorem Shared.write_outputQ : (m.write p f).outputQ = m.outputQ := rfl

theorem Shared.write_self : (m.write p f).heap p = f (m.heap p) := by
  simp [Shared.write]

theorem Shared.write_other {x p : ℤ} (h : x ≠ p) : (m.write p f).heap x = m.heap x := by
  simp [Shared.write,update_of_ne h]

/-- A field that the assignment does not touch. -/
theorem Shared.write_field {β : Type} {f : MyPacket → MyPacket} (g : MyPacket → β)
    (hg : ∀ y, g (f y) = g y) : g ((m.write p f).heap x) = g (m.heap x) := by
  by_cases h : x = p
  · rw [h,Shared.write_self,hg]
  · rw [Shared.write_other m f h]

end Fields

variable (cfg : Config)

/-- A statement of a thread: the memory, the thread and the lock after it. -/
abbrev After := Option (Shared × Thread × LockOp)

/-- The block that ends the locked section of `packetFunc` and of `tokenFunc`. -/
def moveHead (m : Shared) (a : Input) (me : Thread) : After :=
  let timestamp := a.time - cfg.emulationStartTime
  match me.pc with
  | .testHead => match m.Q1 with
    | [] => some (m, me.goto .unlock, .keep)
    | q1Packet :: _ =>
      if (m.heap q1Packet).tokenNeed ≤ m.curTokenSize then
        some (m, { me with pc := .unlinkQ1, cur := q1Packet }, .keep)
      else some (m, me.goto .unlock, .keep)
  | .unlinkQ1 => some ({ m with Q1 := m.Q1.erase me.cur }, me.goto .payTokens, .keep)
  | .payTokens =>
    some ({ m with curTokenSize := m.curTokenSize - (m.heap me.cur).tokenNeed },
      me.goto .readLeaveQ1, .keep)
  | .readLeaveQ1 =>
    some (m.write me.cur fun p => { p with leaveQ1Time := timestamp },
      me.say timestamp .appendQ2, .keep)
  | .appendQ2 => some ({ m with Q2 := m.Q2 ++ [me.cur] }, me.goto .readEnterQ2, .keep)
  | .readEnterQ2 =>
    some (m.write me.cur fun p => { p with enterQ2Time := timestamp },
      me.say timestamp .broadcast, .keep)
  | .broadcast => some (m, me.goto .unlock, .keep)
  | .unlock => some (m, me.goto .guardInput, .release)
  | _ => none

/-- `packetFunc`. The sleep and the reading of the next packet's data, which come
between the guard and the lock, touch nothing that is shared. -/
def packetFunc (m : Shared) (a : Input) (me : Thread) : After :=
  let timestamp := a.time - cfg.emulationStartTime
  match me.pc with
  | .guardInput =>
    if 0 < m.inputQSize then some (m, me.goto .lock, .keep)
    else some (m, me.goto .returned, .keep)
  | .lock => some (m, me.goto .testInput, .acquire)
  | .testInput =>
    if m.inputQSize ≤ 0 then some (m, me.goto .unlock, .keep)
    else some (m, me.goto .takeInput, .keep)
  | .takeInput => some ({ m with inputQSize := m.inputQSize - 1 }, me.goto .initPacket, .keep)
  | .initPacket =>
    some ({ m with
        packetId := m.packetId+1
        heap := update m.heap (m.packetId+1) {
          packetId := m.packetId+1
          tokenNeed := a.data.tokenNeed
          interPacketTime := a.data.interPcketTime
          packetServiceTime := a.data.packetServiceTime } },
      { me with pc := .readArrive, cur := m.packetId+1 }, .keep)
  | .readArrive =>
    some ({ m.write me.cur (fun p => { p with
          arriveTime := timestamp
          realInterPacketArriveTime := a.time - m.prePacketArriveTime }) with
        prePacketArriveTime := a.time },
      { me with pc := .testNeed, stamp := timestamp }, .keep)
  | .testNeed =>
    if cfg.B < (m.heap me.cur).tokenNeed then some (m, me.goto .markDropped, .keep)
    else some (m, { me with pc := .appendQ1, toPrint := true }, .keep)
  | .markDropped =>
    some (m.write me.cur fun p => { p with packetType := 2 }, me.goto .appendDropped, .keep)
  | .appendDropped =>
    some ({ m with outputQ := m.outputQ ++ [me.cur] },
      { me with pc := .unlock, toPrint := true }, .keep)
  | .appendQ1 => some ({ m with Q1 := m.Q1 ++ [me.cur] }, me.goto .readEnterQ1, .keep)
  | .readEnterQ1 =>
    some (m.write me.cur fun p => { p with enterQ1Time := timestamp },
      me.say timestamp .testHead, .keep)
  | _ => moveHead cfg m a me

def tokenFunc (m : Shared) (a : Input) (me : Thread) : After :=
  let timestamp := a.time - cfg.emulationStartTime
  match me.pc with
  | .guardInput =>
    if 0 < m.inputQSize then some (m, me.goto .lock, .keep)
    else some (m, me.goto .guardQ1, .keep)
  | .guardQ1 =>
    if m.Q1 ≠ [] then some (m, me.goto .lock, .keep)
    else some (m, me.goto .returned, .keep)
  | .lock => some (m, me.goto .testToken, .acquire)
  | .testToken =>
    if m.inputQSize ≤ 0 ∧ m.Q1 = [] then some (m, me.goto .unlock, .keep)
    else some (m, me.goto .countToken, .keep)
  | .countToken => some ({ m with tokenId := m.tokenId+1 }, me.goto .readToken, .keep)
  | .readToken => some (m, { me with pc := .addToken, stamp := timestamp }, .keep)
  | .addToken =>
    some (if cfg.B ≤ m.curTokenSize then { m with tokenDropSize := m.tokenDropSize+1 }
        else { m with curTokenSize := m.curTokenSize+1 },
      { me with pc := .testHead, toPrint := true }, .keep)
  | _ => moveHead cfg m a me

/-- `serverFunc`, started with the name `n`. A thread in `pthread_cond_wait` may
return from it whenever the lock is free, with or without a broadcast. The unlock
that is reached with a packet in `q2Packet` is `unlockServing`. -/
def serverFunc (n : Server) (m : Shared) (a : Input) (me : Thread) : After :=
  let timestamp := a.time - cfg.emulationStartTime
  match me.pc with
  | .guardInput =>
    if 0 < m.inputQSize then some (m, me.goto .lock, .keep)
    else some (m, me.goto .guardQ1, .keep)
  | .guardQ1 =>
    if m.Q1 ≠ [] then some (m, me.goto .lock, .keep)
    else some (m, me.goto .guardQ2, .keep)
  | .guardQ2 =>
    if m.Q2 ≠ [] then some (m, me.goto .lock, .keep)
    else some (m, me.goto .returned, .keep)
  | .lock => some (m, me.goto .testWait, .acquire)
  | .testWait =>
    if m.Q2 = [] ∧ 0 < m.inputQSize ∧ m.Q1 ≠ [] then some (m, me.goto .blocked, .release)
    else some (m, me.goto .testQ2, .keep)
  | .blocked => some (m, me.goto .testWait, .acquire)
  | .testQ2 => match m.Q2 with
    | [] => some (m, me.goto .unlock, .keep)
    | q2Packet :: _ => some (m, { me with pc := .unlinkQ2, cur := q2Packet }, .keep)
  | .unlinkQ2 => some ({ m with Q2 := m.Q2.erase me.cur }, me.goto .readLeaveQ2, .keep)
  | .readLeaveQ2 =>
    some (m.write me.cur fun p => { p with leaveQ2Time := timestamp },
      me.say timestamp .markServed, .keep)
  | .markServed =>
    some (m.write me.cur fun p => { p with
        packetType := 1
        serviceType := match n with | .S1 => 1 | .S2 => 2 },
      me.goto .appendServed, .keep)
  | .appendServed =>
    some ({ m with outputQ := m.outputQ ++ [me.cur] }, me.goto .readBegin, .keep)
  | .readBegin =>
    some (m.write me.cur fun p => { p with beginServiceTime := timestamp },
      me.say timestamp .broadcastServing, .keep)
  | .broadcastServing => some (m, me.goto .unlockServing, .keep)
  | .unlock => some (m, me.goto .guardInput, .release)
  | .unlockServing => some (m, me.goto .readEnd, .release)
  -- the service time has passed; the lock is not held
  | .readEnd =>
    some (m.write me.cur fun p => { p with endServiceTime := timestamp },
      me.say timestamp .guardInput, .keep)
  | _ => none

/-- `signalFunc`. `sigwait` returns when SIGINT comes. -/
def signalFunc (m : Shared) (a : Input) (me : Thread) : After :=
  let timestamp := a.time - cfg.emulationStartTime
  match me.pc with
  | .sigwait => some (m, me.goto .lock, .keep)
  | .lock => some (m, me.goto .readSignal, .acquire)
  | .readSignal => some (m, me.say timestamp (.remove .Q1 m.Q1), .keep)
  | .remove q (p :: ps) =>
    some (m.write p fun x => { x with packetType := 3 }, me.goto (.outputRemoved q p ps), .keep)
  | .outputRemoved q p ps =>
    some ({ m with outputQ := m.outputQ ++ [p] }, me.goto (.readRemove q ps), .keep)
  | .readRemove q ps => some (m, me.say timestamp (.remove q ps), .keep)
  | .remove .Q1 [] => some (m, me.goto (.remove .Q2 m.Q2), .keep)
  | .remove .Q2 [] => some (m, me.goto .closeInput, .keep)
  | .closeInput => some ({ m with inputQSize := 0 }, me.goto .unlinkAllQ1, .keep)
  | .unlinkAllQ1 => some ({ m with Q1 := [] }, me.goto .unlinkAllQ2, .keep)
  | .unlinkAllQ2 => some ({ m with Q2 := [] }, me.goto .broadcast, .keep)
  | .broadcast => some (m, me.goto .unlock, .keep)
  | .unlock => some (m, me.goto .returned, .release)
  | _ => none

/-- The threads `main` waits for have returned. -/
def joined (th : Tid → Thread) : Bool :=
  [.packet,.token,.server .S1,.server .S2].all fun t => (th t).pc = .returned

/-- `main` after it has started the threads. -/
def mainFunc (th : Tid → Thread) (m : Shared) (a : Input) (me : Thread) : After :=
  let timestamp := a.time - cfg.emulationStartTime
  match me.pc with
  | .join => if joined th then some (m, me.goto .readEmulationEnd, .keep) else none
  | .readEmulationEnd =>
    some ({ m with emulationEndTime := a.time }, me.say timestamp .printStatics, .keep)
  | _ => none

/-- The next statement of the thread `t`; time has gone on to `a.time`. -/
def exec (th : Tid → Thread) (m : Shared) (t : Tid) (a : Input) : After :=
  let me := th t
  let m := { m with now := a.time }
  if me.toPrint then
    some ({ m with trace := m.trace ++ [me.stamp] }, { me with toPrint := false }, .keep)
  else match t with
    | .main => mainFunc cfg th m a me
    | .packet => packetFunc cfg m a me
    | .token => tokenFunc cfg m a me
    | .server n => serverFunc cfg n m a me
    | .signal => signalFunc cfg m a me

end Csci402.Emulator.Threads
