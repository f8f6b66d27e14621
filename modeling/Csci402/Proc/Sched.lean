import Mathlib.Data.Int.Notation
import Mathlib.Data.List.Basic
import Mathlib.Logic.Function.Basic

/-! The scheduler of `proc/sched.c` and `proc/sched_helper.c`, with the parts of
`proc/kthread.c` that move threads between queues. Threads and wait queues are
arbitrary types. A queue is its list, newest thread first as `list_insert_head`
leaves it, with the separate counter `tq_size`; a thread has the back pointer
`kt_wchan`. A function returns `none` where an assertion of the source fails or a
NULL queue is used.

`sched_switch` is two steps. Entering it gives up the processor (`switching`);
its loop then waits for a non-empty run queue, during which interrupts may wake
threads, and `resume` is the switch to the thread it dequeues. -/

namespace Csci402.Proc

open Function

inductive KtState where
  | run | sleep | sleepCancellable | exited
  deriving DecidableEq, Repr

/-- The run queue `kt_runq` or a wait queue. -/
inductive Queue (W : Type*) where
  | runq
  | wait (w : W)
  deriving DecidableEq, Repr

structure Kthread (W : Type*) where
  ktState : KtState
  ktCancelled : Bool
  ktWchan : Option (Queue W)
  /-- Whether the links of `kt_qlink` are non-NULL. -/
  ktQlink : Bool
  deriving DecidableEq, Repr

@[simps]
def Kthread.withState {W : Type*} (k : KtState) (r : Kthread W) : Kthread W :=
  { r with ktState := k }

@[simps]
def Kthread.cancelled {W : Type*} (r : Kthread W) : Kthread W := { r with ktCancelled := true }

structure Ktqueue (T : Type*) where
  tqList : List T
  tqSize : ℤ
  deriving DecidableEq, Repr

/-- The scheduler's state. The last four fields are history variables that no
function reads: which threads have been made runnable, which have entered the
`sched_switch` at the end of their exit, when each thread was last enqueued, and
how many enqueues there have been. -/
structure Sched (T W : Type*) where
  thr : T → Kthread W
  queue : Queue W → Ktqueue T
  curthr : T
  /-- Control is inside `sched_switch`, in no thread. -/
  switching : Bool
  started : T → Bool
  exited : T → Bool
  stamp : T → ℕ
  clock : ℕ

namespace Sched

variable {T W : Type*} [DecidableEq T] [DecidableEq W]

/-- Update the record of one thread. -/
def modify (t : T) (f : Kthread W → Kthread W) (s : Sched T W) : Sched T W :=
  { s with thr := update s.thr t (f (s.thr t)) }

def setState (t : T) (k : KtState) : Sched T W → Sched T W := modify t (Kthread.withState k)

/-! ### The private queue functions -/

/-- `list_insert_head` into `q`, with the back pointer and the size. -/
def insertHead (q : Queue W) (t : T) (s : Sched T W) : Sched T W :=
  { s with
    queue := update s.queue q ⟨t :: (s.queue q).tqList,(s.queue q).tqSize+1⟩
    thr := update s.thr t { s.thr t with ktWchan := some q, ktQlink := true }
    stamp := update s.stamp t s.clock
    clock := s.clock+1 }

/-- `list_remove` of the thread's link, which takes it off whatever list it is on;
the back pointer is cleared and the size of `q` goes down. -/
def unlink (q : Queue W) (t : T) (s : Sched T W) : Sched T W :=
  { s with
    queue := fun q' => ⟨(s.queue q').tqList.erase t,
      if q' = q then (s.queue q').tqSize - 1 else (s.queue q').tqSize⟩
    thr := update s.thr t { s.thr t with ktWchan := none, ktQlink := false } }

def ktqueueEnqueue (q : Queue W) (t : T) (s : Sched T W) : Option (Sched T W) :=
  if (s.thr t).ktWchan.isSome then none else some (insertHead q t s)

/-- The oldest thread of the queue, taken off it; `none` for an empty queue. -/
def ktqueueDequeue (q : Queue W) (s : Sched T W) : Option (T × Sched T W) :=
  (s.queue q).tqList.getLast?.map fun t => (t, unlink q t s)

def ktqueueRemove (q : Queue W) (t : T) (s : Sched T W) : Option (Sched T W) :=
  if (s.thr t).ktQlink then some (unlink q t s) else none

def schedQueueEmpty (q : Queue W) (s : Sched T W) : Bool := (s.queue q).tqList.isEmpty

/-! ### The public functions -/

def schedMakeRunnable (t : T) (s : Sched T W) : Option (Sched T W) :=
  if (s.thr t).ktWchan = some .runq then none
  else (ktqueueEnqueue .runq t s).map fun s =>
    { s with started := update s.started t true }

/-- Entry of `sched_switch`. -/
def schedSwitch (s : Sched T W) : Sched T W := { s with switching := true }

/-- The loop of `sched_switch` has found a thread and switches to it. -/
def resume (s : Sched T W) : Option (Sched T W) :=
  (ktqueueDequeue .runq s).map fun (t, s) => { s with curthr := t, switching := false }

def schedSleepOn (w : W) (s : Sched T W) : Option (Sched T W) :=
  (ktqueueEnqueue (.wait w) s.curthr (setState s.curthr .sleep s)).map fun s =>
    schedSwitch (modify s.curthr (fun r => { r with ktWchan := some (.wait w) }) s)

/-- A thread that is already cancelled does not sleep and gets `-EINTR`. After the
sleep the flag is read again, by the thread that `resume` continues. -/
def schedCancellableSleepOn (w : W) (s : Sched T W) : Option (Sched T W) :=
  if (s.thr s.curthr).ktCancelled then some s
  else (ktqueueEnqueue (.wait w) s.curthr (setState s.curthr .sleepCancellable s)).map schedSwitch

def schedWakeupOn (w : W) (s : Sched T W) : Option (T × Sched T W) :=
  match ktqueueDequeue (.wait w) s with
  | none => none
  | some (t, s) =>
    if (s.thr t).ktState = .sleep ∨ (s.thr t).ktState = .sleepCancellable then
      (schedMakeRunnable t (setState t .run s)).map fun s => (t, s)
    else none

/-- The loop of `sched_broadcast_on`; the queue holds at most `n` threads. -/
def broadcastLoop (w : W) : ℕ → Sched T W → Option (Sched T W)
  | 0, s => some s
  | n+1, s =>
    if schedQueueEmpty (.wait w) s then some s
    else (schedWakeupOn w s).bind fun r => broadcastLoop w n r.2

def schedBroadcastOn (w : W) (s : Sched T W) : Option (Sched T W) :=
  broadcastLoop w (s.queue (.wait w)).tqList.length s

def schedCancel (t : T) (s : Sched T W) : Option (Sched T W) :=
  let s := modify t Kthread.cancelled s
  if (s.thr t).ktState = .sleepCancellable then
    match (s.thr t).ktWchan with
    | none => none
    | some q => (ktqueueRemove q t s).bind (schedMakeRunnable t)
  else some s

/-- The head of `kthread_exit`; `proc_cleanup`, which follows, may still sleep. -/
def kthreadExit (s : Sched T W) : Option (Sched T W) :=
  let s := setState s.curthr .exited s
  if (s.thr s.curthr).ktWchan.isSome ∨ (s.thr s.curthr).ktQlink then none else some s

def kthreadCancel (t : T) (s : Sched T W) : Option (Sched T W) :=
  let s := modify t Kthread.cancelled s
  if t = s.curthr then kthreadExit s else schedCancel t s

/-- The end of `proc_cleanup` (the parent is woken) and the switch after it. -/
def procThreadExited (pWait : W) (s : Sched T W) : Option (Sched T W) :=
  (schedBroadcastOn pWait s).map fun s =>
    let s := schedSwitch (setState s.curthr .exited s)
    { s with exited := update s.exited s.curthr true }

/-! ### Runs -/

/-- A call of the running thread, an interrupt, or the end of `sched_switch`. -/
inductive Call (T W : Type*) where
  | start (t : T)
  | yield
  | sleepOn (w : W)
  | cancellableSleepOn (w : W)
  | wakeupOn (w : W)
  | broadcastOn (w : W)
  | cancel (t : T)
  | kthreadCancel (t : T)
  | exit
  | threadExited (pWait : W)
  | resume

/-- How the kernel uses the scheduler. Wake-ups and cancellations may also come
from an interrupt, while no thread runs. The condition on `kt_qlink` is the
assertion of `kthread_exit`, which fails only in a thread that never was on a
queue. -/
def Enabled (s : Sched T W) : Call T W → Prop
  | .start t => s.switching = false ∧ s.started t = false
  | .yield => s.switching = false
  | .sleepOn _ => s.switching = false
  | .cancellableSleepOn _ => s.switching = false
  | .wakeupOn w => (s.queue (.wait w)).tqList ≠ []
  | .broadcastOn _ => True
  | .cancel t => t ≠ s.curthr
  | .kthreadCancel t =>
    t = s.curthr → s.switching = false ∧ (s.thr s.curthr).ktQlink = false
  | .exit => s.switching = false ∧ (s.thr s.curthr).ktQlink = false
  | .threadExited _ => s.switching = false
  | .resume => s.switching = true ∧ (s.queue .runq).tqList ≠ []

instance (s : Sched T W) : ∀ a : Call T W, Decidable (Enabled s a) := by
  rintro ⟨⟩ <;> unfold Enabled <;> infer_instance

def step (s : Sched T W) : Call T W → Option (Sched T W)
  | .start t => schedMakeRunnable t s
  | .yield => (schedMakeRunnable s.curthr s).map schedSwitch
  | .sleepOn w => schedSleepOn w s
  | .cancellableSleepOn w => schedCancellableSleepOn w s
  | .wakeupOn w => (schedWakeupOn w s).map Prod.snd
  | .broadcastOn w => schedBroadcastOn w s
  | .cancel t => schedCancel t s
  | .kthreadCancel t => kthreadCancel t s
  | .exit => kthreadExit s
  | .threadExited w => procThreadExited w s
  | .resume => resume s

end Sched

end Csci402.Proc
