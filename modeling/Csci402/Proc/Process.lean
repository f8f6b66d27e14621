import Csci402.Lib.Ring
import Csci402.Proc.RunState

/-! Processes: `proc/proc.c`, and the part of `proc/fork.c` that makes a process. A
process has one thread, which the scheduler knows by the same name; a name is used for
one process only. The children of a process are the circular list `p_children`, kept
as links between list heads and the link each process has in its parent's list; what is
assumed of `util/list.h` is in `listInsertTail`, `listRemove` and the loops, which read
the next link before they run their body. The list of all processes is a sequence.

A function returns `none` where an assertion of the source fails, where freed memory or
a list head that is taken for a process is used, or where a loop over a list runs for
more rounds than there are processes. `proc_cleanup` is in two parts, since the calls
between them may block. -/

namespace Csci402.Proc

open Lib Function

inductive PState where
  | running | dead
  deriving DecidableEq, Repr

structure ProcT (P : Type) where
  pPid : ℤ
  pPproc : Option P
  pState : PState
  pStatus : ℤ
  deriving DecidableEq, Repr

/-- A link of a list of children: the head of the list of a process, or the
`p_child_link` of a process. -/
inductive PLink (P : Type) where
  | children (p : P)
  | child (p : P)
  deriving DecidableEq, Repr

/-- The wait queues: `p_wait` of a process, and those that other code sleeps on. -/
inductive WaitQ (P : Type) where
  | pWait (p : P)
  | other (w : ℕ)
  deriving DecidableEq, Repr

/-- Where the thread of a process is: in its own code, in `do_waitpid` after a sleep, in
`proc_cleanup` after the process has been marked as dead, or past it. -/
inductive Pc where
  | user
  | waitpid (pid : ℤ)
  | cleanup
  | exited
  deriving DecidableEq, Repr

/-- The state. `used` is a history variable: the names that have been given to a process. -/
structure Kernel (P : Type) where
  sched : Sched P (WaitQ P)
  proc : P → Option (ProcT P)
  links : Links (PLink P)
  procList : List P
  procInitproc : Option P
  nextPid : ℤ
  pc : P → Pc
  used : P → Bool

namespace Kernel

variable {P : Type} [DecidableEq P]

def curproc (s : Kernel P) : P := s.sched.curthr

def modProc (p : P) (f : ProcT P → ProcT P) (s : Kernel P) : Option (Kernel P) :=
  (s.proc p).map fun r => { s with proc := update s.proc p (some (f r)) }

/-! ### Lists -/

def listInit (h : PLink P) (k : Links (PLink P)) : Links (PLink P) where
  next := update k.next h (some h)
  prev := update k.prev h (some h)

/-- Link `n` in before the head `h`. -/
def listInsertTail (h n : PLink P) (k : Links (PLink P)) : Option (Links (PLink P)) :=
  (k.prev h).map fun last => k.insert last n h

def listRemove (n : PLink P) (k : Links (PLink P)) : Option (Links (PLink P)) := do
  return k.remove (← k.prev n) n (← k.next n)

/-- The processes on a list of children, from `link` on. -/
def childrenFrom (h : PLink P) (k : Links (PLink P)) : ℕ → PLink P → Option (List P)
  | 0, _ => none
  | n+1, link =>
    if link = h then some [] else match link with
      | .children _ => none
      | .child q => do
        let next ← k.next (.child q)
        return q :: (← childrenFrom h k n next)

/-- `p_children` of `p`, as a loop over it sees it. -/
def children (p : P) (s : Kernel P) : Option (List P) :=
  (s.links.next (.children p)).bind (childrenFrom (.children p) s.links (s.procList.length+1))

/-! ### Creating processes -/

/-- The search of `_proc_getid` from `pid` on. -/
def getidFrom (procMaxCount : ℤ) (s : Kernel P) : ℕ → ℤ → Option ℤ
  | 0, _ => none
  | n+1, pid =>
    if ∃ p ∈ s.procList, (s.proc p).map ProcT.pPid = some pid then
      let pid := (pid+1) % procMaxCount
      if pid = s.nextPid then some (-1) else getidFrom procMaxCount s n pid
    else some pid

/-- `_proc_getid`: the pid, and the new `next_pid`. -/
def procGetid (procMaxCount : ℤ) (s : Kernel P) : Option (ℤ × ℤ) :=
  (getidFrom procMaxCount s procMaxCount.toNat s.nextPid).map fun pid =>
    (pid, if pid = -1 then s.nextPid else (pid+1) % procMaxCount)

/-- `proc_create` by the current process; `new` is what the allocator returns. -/
def procCreate (procMaxCount : ℤ) (new : P) (s : Kernel P) : Option (Kernel P) := do
  let (pid, nextPid) ← procGetid procMaxCount s
  let cur ← s.proc s.curproc
  if pid = 0 ∧ s.procList ≠ [] then none else
  if pid = 1 ∧ cur.pPid ≠ 0 then none else
  let k := listInit (.child new) (listInit (.children new) s.links)
  let k ← listInsertTail (.children s.curproc) (.child new) k
  return { s with
    nextPid
    links := k
    proc := update s.proc new (some ⟨pid,some s.curproc,.running,0⟩)
    procList := s.procList ++ [new]
    procInitproc := if pid = 1 then some new else s.procInitproc
    pc := update s.pc new .user
    used := update s.used new true }

/-- `kthread_create` for a process, whose thread is then made runnable. -/
def startThread (p : P) (s : Kernel P) : Option (Kernel P) := do
  let _ ← s.proc p
  return { s with sched := ← s.sched.schedMakeRunnable p }

/-- `do_fork`. -/
def doFork (procMaxCount : ℤ) (new : P) (s : Kernel P) : Option (Kernel P) := do
  let cur ← s.proc s.curproc
  if cur.pState ≠ .running then none else
  let s ← procCreate procMaxCount new s
  let sched ← s.sched.kthreadClone s.sched.curthr new
  startThread new { s with sched }

/-! ### Exit -/

/-- The reparenting loop of `proc_cleanup`. -/
def reparent (init : P) (h : PLink P) : ℕ → PLink P → Kernel P → Option (Kernel P)
  | 0, _, _ => none
  | n+1, link, s =>
    if link = h then some s else match link with
      | .children _ => none
      | .child q => do
        let next ← s.links.next (.child q)
        let _ ← s.proc init
        let k ← listInsertTail (.children init) (.child q) s.links
        let s ← modProc q (fun r => { r with pPproc := some init }) { s with links := k }
        reparent init h n next s

/-- `do_exit`, through `kthread_cancel` and `kthread_exit`, and `proc_cleanup` up to the first
call that can block. -/
def exitBegin (status : ℤ) (s : Kernel P) : Option (Kernel P) := do
  let s := { s with sched := ← s.sched.kthreadCancel s.sched.curthr }
  let init ← s.procInitproc
  let r ← s.proc s.curproc
  if r.pPid < 1 ∨ r.pPproc = none then none else
  let s ← modProc s.curproc (fun r => { r with pStatus := status, pState := .dead }) s
  let first ← s.links.next (.children s.curproc)
  let s ← reparent init (.children s.curproc) (s.procList.length+1) first s
  return { s with pc := update s.pc s.curproc .cleanup }

/-- The end of `proc_cleanup`, and the switch after it. -/
def exitEnd (s : Kernel P) : Option (Kernel P) := do
  let r ← s.proc s.curproc
  let parent ← r.pPproc
  let _ ← s.proc parent
  let sched ← s.sched.procThreadExited (.pWait parent)
  return { s with sched, pc := update s.pc s.curproc .exited }

/-- An exit in which nothing blocks. -/
def doExit (status : ℤ) (s : Kernel P) : Option (Kernel P) := (exitBegin status s).bind exitEnd

/-! ### Waiting -/

/-- What `do_waitpid` does when it has looked at the children: it disposes of one and
returns its pid and status, goes to sleep, or returns `-ECHILD`. -/
inductive Waited (P : Type) where
  | reaped (p : P) (pid status : ℤ)
  | asleep
  | echild
  deriving DecidableEq, Repr

/-- The parent disposes of the dead child `p` and of its thread. -/
def dispose (p : P) (s : Kernel P) : Option (Kernel P) := do
  let k ← listRemove (.child p) s.links
  return { s with links := k, procList := s.procList.erase p, proc := update s.proc p none }

/-- The body of the loop of `do_waitpid` for a child that is asked for. -/
def visit (pid : ℤ) (q : P) (r : ProcT P) (s : Kernel P) : Option (Waited P × Kernel P) :=
  if r.pState = .dead then do
    let s ← dispose q s
    return (.reaped q r.pPid r.pStatus, { s with pc := update s.pc s.curproc .user })
  else do
    let sched ← s.sched.schedSleepOn (.pWait s.curproc)
    return (.asleep, { s with sched, pc := update s.pc s.curproc (.waitpid pid) })

/-- The loop of `do_waitpid` over the children; after the sleep it starts again. -/
def waitFrom (pid : ℤ) (h : PLink P) : ℕ → PLink P → Kernel P → Option (Waited P × Kernel P)
  | 0, _, _ => none
  | n+1, link, s =>
    if link = h then some (.echild, { s with pc := update s.pc s.curproc .user })
    else match link with
      | .children _ => none
      | .child q => do
        let next ← s.links.next (.child q)
        let r ← s.proc q
        if r.pPid = pid ∨ pid = -1 then visit pid q r s else waitFrom pid h n next s

def doWaitpid (pid : ℤ) (s : Kernel P) : Option (Waited P × Kernel P) := do
  let first ← s.links.next (.children s.curproc)
  waitFrom pid (.children s.curproc) (s.procList.length+1) first s

/-! ### Runs -/

/-- A step: a call of the current process, a wake-up, or the end of `sched_switch`. -/
inductive Act (P : Type) where
  | create (new : P)
  | start (p : P)
  | fork (new : P)
  | waitpid (pid : ℤ)
  | exit (status : ℤ)
  | exitBegin (status : ℤ)
  | exitEnd
  | yield
  | block (w : ℕ)
  | wakeup (w : ℕ)
  | resume

/-- The scheduler takes a step of its own. -/
def schedule (a : Sched.Call P (WaitQ P)) (s : Kernel P) : Option (Kernel P) :=
  (s.sched.step a).map fun sched => { s with sched }

def step (procMaxCount : ℤ) (s : Kernel P) : Act P → Option (Kernel P)
  | .create new => procCreate procMaxCount new s
  | .start p => startThread p s
  | .fork new => doFork procMaxCount new s
  | .waitpid pid => (doWaitpid pid s).map Prod.snd
  | .exit status => doExit status s
  | .exitBegin status => exitBegin status s
  | .exitEnd => exitEnd s
  | .yield => schedule .yield s
  | .block w => schedule (.sleepOn (.other w)) s
  | .wakeup w => schedule (.wakeupOn (.other w)) s
  | .resume => (schedule .resume s).bind fun s => if (s.proc s.curproc).isSome then some s else none

/-- Control is in the current process, in its own code. -/
def InUser (s : Kernel P) : Prop := s.sched.switching = false ∧ s.pc s.curproc = .user

/-- The name is not that of a process, and never was. -/
def Unused (s : Kernel P) (p : P) : Prop := s.used p = false ∧ s.sched.started p = false

/-- What `proc_create` asserts of the pid it gets. -/
def PidOk (procMaxCount : ℤ) (s : Kernel P) : Prop :=
  ∀ r ∈ procGetid procMaxCount s, ∀ cur ∈ s.proc s.curproc,
    (r.1 = 0 → s.procList = []) ∧ (r.1 = 1 → cur.pPid = 0)

/-- What `kthread_exit` and `proc_cleanup` assert when a process exits. -/
def MayExit (s : Kernel P) : Prop :=
  (s.sched.thr s.curproc).ktQlink = false ∧ s.procInitproc ≠ none ∧
    ∀ r ∈ s.proc s.curproc, 1 ≤ r.pPid ∧ r.pPproc ≠ none

/-- Which steps can be taken, by callers that meet the assertions; a thread that wakes up in
`do_waitpid` goes on with it. -/
def Enabled (procMaxCount : ℤ) (s : Kernel P) : Act P → Prop
  | .create new => InUser s ∧ Unused s new ∧ PidOk procMaxCount s
  | .start p => InUser s ∧ s.sched.started p = false ∧ s.proc p ≠ none
  | .fork new => InUser s ∧ Unused s new ∧ PidOk procMaxCount s ∧ (s.sched.thr s.curproc).ktState = .run
  | .waitpid pid => s.sched.switching = false ∧ (s.pc s.curproc = .user ∨ s.pc s.curproc = .waitpid pid)
  | .exit _ | .exitBegin _ => InUser s ∧ MayExit s
  | .exitEnd => s.sched.switching = false ∧ s.pc s.curproc = .cleanup
  | .yield => InUser s
  | .block _ => s.sched.switching = false ∧ (s.pc s.curproc = .user ∨ s.pc s.curproc = .cleanup)
  | .wakeup w => (s.sched.queue (.wait (.other w))).tqList ≠ []
  | .resume => s.sched.switching = true ∧ (s.sched.queue .runq).tqList ≠ []

instance (s : Kernel P) : Decidable (InUser s) := inferInstanceAs (Decidable (_ ∧ _))

instance (s : Kernel P) (p : P) : Decidable (Unused s p) := inferInstanceAs (Decidable (_ ∧ _))

instance (procMaxCount : ℤ) (s : Kernel P) : Decidable (PidOk procMaxCount s) :=
  inferInstanceAs (Decidable (∀ r ∈ procGetid procMaxCount s, ∀ cur ∈ s.proc s.curproc,
    (r.1 = 0 → s.procList = []) ∧ (r.1 = 1 → cur.pPid = 0)))

instance (s : Kernel P) : Decidable (MayExit s) := inferInstanceAs (Decidable (_ ∧ _ ∧ _))

instance (procMaxCount : ℤ) (s : Kernel P) : ∀ a : Act P, Decidable (Enabled procMaxCount s a) := by
  rintro ⟨⟩ <;> unfold Enabled <;> infer_instance

end Kernel

end Csci402.Proc
