import Mathlib.Algebra.Order.Ring.Int
import Mathlib.Data.List.Basic
import Mathlib.Logic.Function.Basic

/-! The page cache of `mm/pframe.c` under interleaved threads. Threads, memory objects
and frames are arbitrary types. A frame is on the four intrusive lists that its links
are in: a hash chain, its object's `mmo_respages`, and one of `alloc_list` and
`pinned_list`; `list_remove` of a link takes the frame off whatever list holds it.

Control changes only where a thread sleeps or an operation of the object (`fillpage`,
`dirtypage`, `cleanpage`) may block, so a function that calls one is cut in two there.
What a thread has begun is on its stack, since `fillpage` may itself use the cache.
Page tables, page contents and the wake-up of pageoutd are not part of this state. -/

namespace Csci402.Mm

open Function

/-- The addresses of the objects and the size of the hash table. -/
structure HashTable (O : Type*) where
  addr : O → ℕ
  pfHashSize : ℕ

/-- `hash_page`, in 32 bits. -/
def HashTable.hashPage {O : Type*} (H : HashTable O) (o : O) (pagenum : ℕ) : ℕ :=
  (H.addr o+pagenum) % 2 ^ 32 % H.pfHashSize

structure Pframe (O T : Type*) where
  pfObj : O
  pfPagenum : ℕ
  pfPincount : ℤ
  busy : Bool
  dirty : Bool
  pfWaitq : List T
  deriving DecidableEq

/-- What a thread has begun and not finished. -/
inductive Pending (O F : Type*) where
  /-- In the loop of `pframe_get`, at or after its sleep. -/
  | getting (o : O) (pagenum : ℕ)
  /-- In `fillpage`, called from `pframe_get` for a new frame. -/
  | filling (o : O) (pagenum : ℕ) (f : F)
  | dirtying (f : F)
  | cleaning (f : F)
  deriving DecidableEq

/-- The frame that the pending call keeps busy. -/
def Pending.frame {O F : Type*} : Pending O F → Option F
  | .getting _ _ => none
  | .filling _ _ f | .dirtying f | .cleaning f => some f

def Pending.isGetting {O F : Type*} : Pending O F → Bool
  | .getting _ _ => true
  | _ => false

def Pending.fills {O F : Type*} [DecidableEq F] (f : F) : Pending O F → Bool
  | .filling _ _ g => g = f
  | _ => false

structure PageCache (T O F : Type*) where
  /-- The frames in use; the others are free. -/
  frame : F → Option (Pframe O T)
  pframeHash : ℕ → List F
  mmoRespages : O → List F
  mmoNrespages : O → ℤ
  mmoRefcount : O → ℤ
  allocList : List F
  nallocated : ℤ
  pinnedList : List F
  npinned : ℤ
  /-- The frame on whose `pf_waitq` the thread sleeps. -/
  ktWchan : T → Option F
  stack : T → List (Pending O F)

namespace PageCache

variable {T O F : Type*} [DecidableEq T] [DecidableEq O] [DecidableEq F]

def setFrame (f : F) (pf : Pframe O T) (s : PageCache T O F) : PageCache T O F :=
  { s with frame := update s.frame f (some pf) }

def setStack (t : T) (st : List (Pending O F)) (s : PageCache T O F) : PageCache T O F :=
  { s with stack := update s.stack t st }

/-- `list_remove` of `pf_link`. -/
def removeLink (f : F) (s : PageCache T O F) : PageCache T O F :=
  { s with allocList := s.allocList.erase f, pinnedList := s.pinnedList.erase f }

/-- `list_remove` of `pf_link` and `list_insert_tail` into `alloc_list`. -/
def linkAlloc (f : F) (s : PageCache T O F) : PageCache T O F :=
  { removeLink f s with allocList := s.allocList.erase f ++ [f] }

def linkPinned (f : F) (s : PageCache T O F) : PageCache T O F :=
  { removeLink f s with pinnedList := s.pinnedList.erase f ++ [f] }

/-- `sched_sleep_on` the frame's queue. -/
def sleepOn (t : T) (f : F) (pf : Pframe O T) (s : PageCache T O F) : PageCache T O F :=
  { setFrame f { pf with pfWaitq := t :: pf.pfWaitq } s with
    ktWchan := update s.ktWchan t (some f) }

/-- `pframe_clear_busy` and `sched_broadcast_on`, which every blocking call ends with. -/
def clearBusy (f : F) (pf : Pframe O T) (s : PageCache T O F) : PageCache T O F :=
  { setFrame f { pf with busy := false, pfWaitq := [] } s with
    ktWchan := fun t => if t ∈ pf.pfWaitq then none else s.ktWchan t }

variable (H : HashTable O)

def hasIdentity (s : PageCache T O F) (o : O) (pagenum : ℕ) (f : F) : Bool :=
  match s.frame f with
  | none => false
  | some pf => pf.pfObj = o ∧ pf.pfPagenum = pagenum

/-- The search of the hash chain; an unpinned frame goes to the end of `alloc_list`. -/
def pframeGetResident (o : O) (pagenum : ℕ) (s : PageCache T O F) : Option F × PageCache T O F :=
  match (s.pframeHash (H.hashPage o pagenum)).find? (s.hasIdentity o pagenum) with
  | none => (none, s)
  | some f =>
    if (s.frame f).any (·.pfPincount > 0) then (some f, s) else (some f, linkAlloc f s)

/-- `pframe_alloc` in the memory `f` that the allocator gives. -/
def pframeAlloc (o : O) (pagenum : ℕ) (f : F) (s : PageCache T O F) : PageCache T O F :=
  { s with
    nallocated := s.nallocated+1
    allocList := s.allocList ++ [f]
    frame := update s.frame f (some ⟨o,pagenum,0,false,false,[]⟩)
    pframeHash := update s.pframeHash (H.hashPage o pagenum)
      (f :: s.pframeHash (H.hashPage o pagenum))
    mmoRefcount := update s.mmoRefcount o (s.mmoRefcount o+1)
    mmoNrespages := update s.mmoNrespages o (s.mmoNrespages o+1)
    mmoRespages := update s.mmoRespages o (f :: s.mmoRespages o) }

/-- Mark the frame busy and enter an operation of its object. -/
def beginOp (t : T) (f : F) (pf : Pframe O T) (p : Pending O F) (s : PageCache T O F) : PageCache T O F :=
  setStack t (p :: s.stack t) (setFrame f { pf with busy := true } s)

/-- One round of the loop of `pframe_get`: the new state and, if the function returns
with success, the frame. `mem` is the memory that `pframe_alloc` gets, if any. -/
def pframeGet (t : T) (o : O) (pagenum : ℕ) (mem : Option F) (s : PageCache T O F) :
    Option (PageCache T O F × Option F) :=
  match pframeGetResident H o pagenum s with
  | (some f, s) => (s.frame f).bind fun pf =>
    if pf.busy then some (setStack t (.getting o pagenum :: s.stack t) (sleepOn t f pf s), none)
    else some (s, some f)
  | (none, s) =>
    match mem with
    | none => some (s, none)
    | some f =>
      let s := pframeAlloc H o pagenum f s
      (s.frame f).map fun pf => (beginOp t f pf (.filling o pagenum f) s, none)

/-- The end of `pframe_fill`; a failed fill leaves the frame where it is. -/
def pframeFilled (t : T) (ret : ℤ) (s : PageCache T O F) : Option (PageCache T O F × Option F) :=
  match s.stack t with
  | .filling _ _ f :: st => (s.frame f).map fun pf =>
    (setStack t st (clearBusy f pf s), if ret < 0 then none else some f)
  | _ => none

def pframePin (f : F) (s : PageCache T O F) : Option (PageCache T O F) :=
  (s.frame f).bind fun pf =>
    if pf.pfPincount < 0 then none
    else if pf.pfPincount > 0 then
      some (setFrame f { pf with pfPincount := pf.pfPincount+1 } s)
    else
      some (setFrame f { pf with pfPincount := pf.pfPincount+1 }
        { linkPinned f s with nallocated := s.nallocated - 1, npinned := s.npinned+1 })

def pframeUnpin (f : F) (s : PageCache T O F) : Option (PageCache T O F) :=
  (s.frame f).bind fun pf =>
    if pf.pfPincount ≤ 0 then none
    else
      let s := setFrame f { pf with pfPincount := pf.pfPincount - 1 } s
      if pf.pfPincount - 1 = 0 then
        some { linkAlloc f s with npinned := s.npinned - 1, nallocated := s.nallocated+1 }
      else some s

def pframeDirty (t : T) (f : F) (s : PageCache T O F) : Option (PageCache T O F) :=
  (s.frame f).bind fun pf =>
    if pf.busy then none else some (beginOp t f pf (.dirtying f) s)

def pframeDirtied (t : T) (ret : ℤ) (s : PageCache T O F) : Option (PageCache T O F) :=
  match s.stack t with
  | .dirtying f :: st => (s.frame f).map fun pf =>
    setStack t st (clearBusy f { pf with dirty := pf.dirty || ret = 0 } s)
  | _ => none

/-- The dirty bit is cleared before the object's operation can block. -/
def pframeClean (t : T) (f : F) (s : PageCache T O F) : Option (PageCache T O F) :=
  (s.frame f).bind fun pf =>
    if pf.dirty = false ∨ pf.pfPincount ≠ 0 then none
    else some (beginOp t f { pf with dirty := false } (.cleaning f) s)

def pframeCleaned (t : T) (ret : ℤ) (s : PageCache T O F) : Option (PageCache T O F) :=
  match s.stack t with
  | .cleaning f :: st => (s.frame f).map fun pf =>
    setStack t st (clearBusy f { pf with dirty := pf.dirty || ret < 0 } s)
  | _ => none

/-- `pframe_free`; what `put` does beyond the count are calls of its own. -/
def pframeFree (f : F) (s : PageCache T O F) : Option (PageCache T O F) :=
  (s.frame f).bind fun pf =>
    if pf.pfPincount > 0 ∨ pf.busy then none
    else
      let s := removeLink f { s with
        pframeHash := fun b => (s.pframeHash b).erase f
        frame := update s.frame f none
        nallocated := s.nallocated - 1 }
      some { s with
        mmoNrespages := update s.mmoNrespages pf.pfObj (s.mmoNrespages pf.pfObj - 1)
        mmoRespages := fun o => (s.mmoRespages o).erase f
        mmoRefcount := update s.mmoRefcount pf.pfObj (s.mmoRefcount pf.pfObj - 1) }

/-! ### Runs -/

/-- A call by a thread, or the return of an operation that a thread is in. -/
inductive Op (T O F : Type*) where
  | getResident (o : O) (pagenum : ℕ)
  | get (t : T) (o : O) (pagenum : ℕ) (mem : Option F)
  | woken (t : T) (mem : Option F)
  | filled (t : T) (ret : ℤ)
  | pin (t : T) (f : F)
  | unpin (f : F)
  | dirty (t : T) (f : F)
  | dirtied (t : T) (ret : ℤ)
  | clean (t : T) (f : F)
  | cleaned (t : T) (ret : ℤ)
  | free (f : F)

/-- The thread runs, and not in the loop of `pframe_get`. -/
def ready (s : PageCache T O F) (t : T) : Bool :=
  s.ktWchan t = none ∧ ¬ (s.stack t).head?.any Pending.isGetting

def isBusy (s : PageCache T O F) (f : F) : Bool := (s.frame f).any (·.busy)

/-- The allocator gives memory that is not in use. -/
def fresh (s : PageCache T O F) (mem : Option F) : Bool := mem.all fun f => (s.frame f).isNone

/-- How the functions are called: on frames that are not busy, but that `fillpage`
may pin the frame it fills. -/
def Enabled (s : PageCache T O F) : Op T O F → Prop
  | .getResident _ _ => True
  | .get t _ _ mem => s.ready t = true ∧ s.fresh mem = true
  | .woken t mem => s.ktWchan t = none ∧ s.fresh mem = true
  | .filled t _ | .dirtied t _ | .cleaned t _ => s.ktWchan t = none
  | .pin t f => s.isBusy f = false ∨ (s.stack t).head?.any (Pending.fills f) = true
  | .unpin f | .free f => s.isBusy f = false
  | .dirty t f | .clean t f => s.ready t = true ∧ s.isBusy f = false

instance (s : PageCache T O F) : ∀ a : Op T O F, Decidable (Enabled s a) := by
  rintro ⟨⟩ <;> unfold Enabled <;> infer_instance

/-- The new state, and the object, the page number and the frame if `pframe_get`
returns with success. -/
def stepResult (s : PageCache T O F) : Op T O F → Option (PageCache T O F × Option (O × ℕ × F))
  | .getResident o n => some ((pframeGetResident H o n s).2, none)
  | .get t o n mem => (pframeGet H t o n mem s).map fun (s, r) => (s, r.map (o, n, ·))
  | .woken t mem =>
    match s.stack t with
    | .getting o n :: st =>
      (pframeGet H t o n mem (setStack t st s)).map fun (s, r) => (s, r.map (o, n, ·))
    | _ => none
  | .filled t ret =>
    match s.stack t with
    | .filling o n _ :: _ => (pframeFilled t ret s).map fun (s, r) => (s, r.map (o, n, ·))
    | _ => none
  | .pin _ f => (pframePin f s).map (·, none)
  | .unpin f => (pframeUnpin f s).map (·, none)
  | .dirty t f => (pframeDirty t f s).map (·, none)
  | .dirtied t ret => (pframeDirtied t ret s).map (·, none)
  | .clean t f => (pframeClean t f s).map (·, none)
  | .cleaned t ret => (pframeCleaned t ret s).map (·, none)
  | .free f => (pframeFree f s).map (·, none)

def step (s : PageCache T O F) (a : Op T O F) : Option (PageCache T O F) :=
  (stepResult H s a).map Prod.fst

end PageCache

end Csci402.Mm
