import Mathlib.Algebra.Order.Ring.Int
import Mathlib.Data.List.Basic
import Mathlib.Logic.Function.Basic

/-! The token-bucket emulator of `Warmup2/warmup2.c`. The state holds the
globals that the threads share and where each server thread is; a section is
what one thread executes between taking and releasing `myLock`. A call of
`gettimeofday` is an input of the section: `clk k` is the answer to its `k`-th
call, in microseconds, so that `calTimeDiff` is a subtraction. The sleeping and
the loop guards outside the lock decide only when a section runs, and any order
of sections is allowed here. -/

namespace Csci402.Emulator

open Function

structure MyPacket where
  serviceType : ℤ := 0
  packetType : ℤ := 0
  packetId : ℤ := 0
  tokenNeed : ℤ := 0
  interPacketTime : ℤ := 0
  packetServiceTime : ℤ := 0
  arriveTime : ℤ := 0
  enterQ1Time : ℤ := 0
  leaveQ1Time : ℤ := 0
  enterQ2Time : ℤ := 0
  leaveQ2Time : ℤ := 0
  beginServiceTime : ℤ := 0
  endServiceTime : ℤ := 0
  realInterPacketArriveTime : ℤ := 0
  deriving DecidableEq, Repr

structure PacketData where
  tokenNeed : ℤ
  interPcketTime : ℤ
  packetServiceTime : ℤ
  deriving DecidableEq, Repr

/-- The globals that no thread changes after `init`. -/
structure Config where
  B : ℤ
  num : ℤ
  emulationStartTime : ℤ
  deriving DecidableEq, Repr

/-- The two threads that run `serverFunc`, by the name they are started with. -/
inductive Server where
  | S1 | S2
  deriving DecidableEq, Repr

/-- Where a server thread is: outside `myLock` and about to take it, inside
`pthread_cond_wait` (with whether `cv` was broadcast since it blocked), or
serving the packet with the given `packetId` after releasing the lock. -/
inductive ServerPc where
  | ready
  | blocked (woken : Bool)
  | serving (packetId : ℤ)
  deriving DecidableEq, Repr

structure State where
  packetId : ℤ
  tokenId : ℤ
  curTokenSize : ℤ
  tokenDropSize : ℤ
  inputQSize : ℤ
  Q1 : List MyPacket
  Q2 : List MyPacket
  outputQ : List MyPacket
  prePacketArriveTime : ℤ
  server : Server → ServerPc

/-- The state when `main` starts the threads: `setDefault` and `init` have run,
and the clock has been read for the first inter-arrival time. -/
def Config.start (cfg : Config) (firstArriveTime : ℤ) : State where
  packetId := 0
  tokenId := 0
  curTokenSize := 0
  tokenDropSize := 0
  inputQSize := cfg.num
  Q1 := []
  Q2 := []
  outputQ := []
  prePacketArriveTime := firstArriveTime
  server := fun _ => .ready

/-- `pthread_cond_broadcast(&cv)`. -/
def broadcast (s : State) : State :=
  { s with server := fun n => match s.server n with
      | .blocked _ => .blocked true
      | pc => pc }

variable (cfg : Config)

/-- The block at the end of `packetFunc` and of `tokenFunc`: if the bucket holds
enough tokens for the first packet of `Q1`, it moves to `Q2`. The head of `Q1` is
examined once. -/
def releaseHead (leave enter : ℤ) (s : State) : State :=
  match s.Q1 with
  | [] => s
  | q1Packet :: rest =>
    if q1Packet.tokenNeed ≤ s.curTokenSize then
      broadcast { s with
        Q1 := rest
        curTokenSize := s.curTokenSize - q1Packet.tokenNeed
        Q2 := s.Q2 ++ [{ q1Packet with
          leaveQ1Time := leave - cfg.emulationStartTime
          enterQ2Time := enter - cfg.emulationStartTime }] }
    else s

/-- `createPacket` and `initPacket`, with the arrival times `packetFunc` stores. -/
def arrivingPacket (d : PacketData) (curArriveTime : ℤ) (s : State) : MyPacket where
  packetId := s.packetId+1
  tokenNeed := d.tokenNeed
  interPacketTime := d.interPcketTime
  packetServiceTime := d.packetServiceTime
  arriveTime := curArriveTime - cfg.emulationStartTime
  realInterPacketArriveTime := curArriveTime - s.prePacketArriveTime

/-- The counters `packetFunc` updates for every packet that arrives. -/
def countArrival (curArriveTime : ℤ) (s : State) : State :=
  { s with
    inputQSize := s.inputQSize - 1
    packetId := s.packetId+1
    prePacketArriveTime := curArriveTime }

/-- A packet that can never be paid for goes straight to `outputQ`. -/
def dropPacket (inputPacket : MyPacket) (s : State) : State :=
  { s with outputQ := s.outputQ ++ [{ inputPacket with packetType := 2 }] }

def enterQ1 (inputPacket : MyPacket) (enter : ℤ) (s : State) : State :=
  { s with Q1 := s.Q1 ++
      [{ inputPacket with enterQ1Time := enter - cfg.emulationStartTime }] }

def packetSection (d : PacketData) (clk : ℕ → ℤ) (s : State) : State :=
  if s.inputQSize ≤ 0 then s else
    let inputPacket := arrivingPacket cfg d (clk 0) s
    if cfg.B < inputPacket.tokenNeed then dropPacket inputPacket (countArrival (clk 0) s)
    else releaseHead cfg (clk 2) (clk 3)
      (enterQ1 cfg inputPacket (clk 1) (countArrival (clk 0) s))

def tokenSection (clk : ℕ → ℤ) (s : State) : State :=
  if s.inputQSize ≤ 0 ∧ s.Q1 = [] then s else
    releaseHead cfg (clk 1) (clk 2) <|
      if cfg.B ≤ s.curTokenSize then
        { s with tokenId := s.tokenId+1, tokenDropSize := s.tokenDropSize+1 }
      else
        { s with tokenId := s.tokenId+1, curTokenSize := s.curTokenSize+1 }

/-- `serverFunc` from the test of its inner loop, where the lock is held, up to
the release of the lock: by `pthread_cond_wait` or by the unlock at the end. -/
def serverSection (n : Server) (clk : ℕ → ℤ) (s : State) : State :=
  if s.Q2 = [] ∧ 0 < s.inputQSize ∧ s.Q1 ≠ [] then
    { s with server := update s.server n (.blocked false) }
  else match s.Q2 with
    | [] => { s with server := update s.server n .ready }
    | q2Packet :: rest =>
      broadcast { s with
        Q2 := rest
        outputQ := s.outputQ ++ [{ q2Packet with
          leaveQ2Time := clk 0 - cfg.emulationStartTime
          packetType := 1
          serviceType := match n with | .S1 => 1 | .S2 => 2
          beginServiceTime := clk 1 - cfg.emulationStartTime }]
        server := update s.server n (.serving q2Packet.packetId) }

/-- The end of a service, after the lock has been released: the server writes
`endServiceTime` into the packet it appended to `outputQ`. -/
def departSection (n : Server) (id : ℤ) (clk : ℕ → ℤ) (s : State) : State :=
  { s with
    outputQ := s.outputQ.map fun p =>
      if p.packetId = id then { p with endServiceTime := clk 0 - cfg.emulationStartTime } else p
    server := update s.server n .ready }

/-- `signalFunc` after `sigwait`: everything in `Q1` and then in `Q2` goes to
`outputQ`, and the input ends. -/
def signalSection (s : State) : State :=
  broadcast { s with
    outputQ := s.outputQ ++ s.Q1.map (fun p => { p with packetType := 3 }) ++
      s.Q2.map (fun p => { p with packetType := 3 })
    inputQSize := 0
    Q1 := []
    Q2 := [] }

/-- A section with its inputs. `wake` is the return from `pthread_cond_wait`,
after a broadcast or spuriously. -/
inductive Section where
  | packet (d : PacketData) (clk : ℕ → ℤ)
  | token (clk : ℕ → ℤ)
  | server (n : Server) (clk : ℕ → ℤ)
  | wake (n : Server) (clk : ℕ → ℤ)
  | depart (n : Server) (clk : ℕ → ℤ)
  | signal

/-- One section. A server thread can only take the section that comes next in
`serverFunc`. -/
def step (s : State) : Section → Option State
  | .packet d clk => some (packetSection cfg d clk s)
  | .token clk => some (tokenSection cfg clk s)
  | .server n clk => if s.server n = .ready then some (serverSection cfg n clk s) else none
  | .wake n clk => match s.server n with
    | .blocked _ => some (serverSection cfg n clk s)
    | _ => none
  | .depart n clk => match s.server n with
    | .serving id => some (departSection cfg n id clk s)
    | _ => none
  | .signal => some (signalSection s)

end Csci402.Emulator
