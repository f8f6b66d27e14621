import Csci402.Lib.Fifo
import Csci402.Proc.SchedRun
import Csci402.Proc.WaitOrder

/-! The mutex of `proc/kmutex.c` on top of the scheduler. `km` is the mutex's wait
queue among all wait queues. A thread that sleeps in one of the lock functions
continues there when `sched_switch` returns in it, so each thread has a place in
that code. Control only changes at `sched_switch`: what a thread does between two
switches is one step. -/

namespace Csci402.Proc

/-- Where a thread is in the functions of one mutex: inside one of the two lock
functions, or after the return of the last one it called. -/
inductive KmPc where
  /-- It has not locked the mutex, or has unlocked it again. -/
  | idle
  /-- `kmutex_lock` has returned, or `kmutex_lock_cancellable` with 0. -/
  | locked
  /-- `kmutex_lock_cancellable` has returned `-EINTR`. -/
  | eintr
  | inLock
  | inLockCancellable
  deriving DecidableEq, Repr

/-- One mutex, the scheduler, and the threads' places. -/
structure Kmutex (T W : Type*) where
  sched : Sched T W
  kmHolder : Option T
  pc : T → KmPc

namespace Kmutex

variable {T W : Type*} [DecidableEq T] [DecidableEq W]

def setPc (t : T) (p : KmPc) (m : Kmutex T W) : Kmutex T W :=
  { m with pc := Function.update m.pc t p }

def curthr (m : Kmutex T W) : T := m.sched.curthr

def cancelled (m : Kmutex T W) : Bool := (m.sched.thr m.sched.curthr).ktCancelled

variable (km : W)

def kmutexLock (m : Kmutex T W) : Option (Kmutex T W) :=
  if m.kmHolder = some m.curthr then none
  else if m.kmHolder = none then
    some (setPc m.curthr .locked { m with kmHolder := some m.curthr })
  else
    (m.sched.schedSleepOn km).map fun s => setPc m.curthr .inLock { m with sched := s }

/-- The flag is read here and again in `sched_cancellable_sleep_on`. -/
def kmutexLockCancellable (m : Kmutex T W) : Option (Kmutex T W) :=
  if m.kmHolder = some m.curthr then none
  else if m.cancelled then some (setPc m.curthr .eintr m)
  else if m.kmHolder = none then
    some (setPc m.curthr .locked { m with kmHolder := some m.curthr })
  else
    (m.sched.schedCancellableSleepOn km).map fun s =>
      setPc m.curthr .inLockCancellable { m with sched := s }

/-- The next waiter is woken and made the holder in the same step. -/
def kmutexUnlock (m : Kmutex T W) : Option (Kmutex T W) :=
  if m.kmHolder ≠ some m.curthr then none
  else if Sched.schedQueueEmpty (.wait km) m.sched then some { m with kmHolder := none }
  else (m.sched.schedWakeupOn km).bind fun (t, s) =>
    if t = m.curthr then none else some { m with sched := s, kmHolder := some t }

/-- The rest of `kmutex_lock_cancellable` after its sleep. -/
def lockCancellableWoken (m : Kmutex T W) : Option (Kmutex T W) :=
  if m.cancelled then
    (if m.kmHolder = some m.curthr then kmutexUnlock km m else some m).map (setPc m.curthr .eintr)
  else some (setPc m.curthr .locked m)

/-- `sched_switch` goes to the next thread, which continues where it slept. -/
def switch (m : Kmutex T W) : Option (Kmutex T W) :=
  m.sched.resume.bind fun s =>
    let m := { m with sched := s }
    match m.pc m.curthr with
    | .inLock => some (setPc m.curthr .locked m)
    | .inLockCancellable => lockCancellableWoken km m
    | _ => some m

/-- A call of the running thread, a switch, or any other call of the scheduler. -/
inductive Op (T W : Type*) where
  | lock
  | lockCancellable
  | unlock
  | switch
  | other (c : Sched.Call T W)

/-- Other calls leave the mutex's own queue to the mutex; cancellation does not care. -/
def Avoids : Sched.Call T W → Prop
  | .sleepOn w | .cancellableSleepOn w | .wakeupOn w | .broadcastOn w | .threadExited w => w ≠ km
  | .resume => False
  | _ => True

instance : ∀ c : Sched.Call T W, Decidable (Avoids km c) := by
  rintro ⟨⟩ <;> unfold Avoids <;> infer_instance

/-- No thread locks a mutex that it holds, and only the holder unlocks it. -/
def Enabled (m : Kmutex T W) : Op T W → Prop
  | .lock => m.sched.switching = false ∧ m.kmHolder ≠ some m.curthr
  | .lockCancellable => m.sched.switching = false ∧ m.kmHolder ≠ some m.curthr
  | .unlock => m.sched.switching = false ∧ m.kmHolder = some m.curthr
  | .switch => Sched.Enabled m.sched .resume
  | .other c => Sched.Enabled m.sched c ∧ Avoids km c

instance (m : Kmutex T W) : ∀ a : Op T W, Decidable (Enabled km m a) := by
  rintro ⟨⟩ <;> unfold Enabled <;> infer_instance

def step (m : Kmutex T W) : Op T W → Option (Kmutex T W)
  | .lock => kmutexLock km m
  | .lockCancellable => kmutexLockCancellable km m
  | .unlock => (kmutexUnlock km m).map (setPc m.curthr .idle)
  | .switch => switch km m
  | .other c => (Sched.step m.sched c).map fun s => { m with sched := s }

/-! ### Who waits -/

/-- The waiters with the times at which they queued, first comer first. -/
def waiters (m : Kmutex T W) : List (T × ℕ) := m.sched.entries km

/-- The waiters that a step adds. -/
def queued (m : Kmutex T W) (a : Op T W) : List (T × ℕ) :=
  match step km m a with
  | none => []
  | some m' => Lib.joined (waiters km m) (waiters km m')

/-- The waiters that a step makes the holder. -/
def granted (m : Kmutex T W) (a : Op T W) : List (T × ℕ) :=
  match step km m a with
  | none => []
  | some m' => (Lib.parted (waiters km m) (waiters km m')).filter
      fun e => m'.kmHolder = some e.1

/-- The waiters that leave the queue because they have been cancelled. -/
def withdrawn (m : Kmutex T W) (a : Op T W) : List (T × ℕ) :=
  match step km m a with
  | none => []
  | some m' => (Lib.parted (waiters km m) (waiters km m')).filter
      fun e => m'.kmHolder ≠ some e.1 ∧ (m'.sched.thr e.1).ktCancelled = true

end Kmutex

end Csci402.Proc
