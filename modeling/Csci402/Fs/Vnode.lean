import Csci402.Lib.Run
import Mathlib.Data.Int.Notation
import Mathlib.Logic.Function.Basic

/-! The vnode cache: `vref`, `vget` and `vput` of `fs/vnode.c`, with `pframe_alloc` and
`pframe_free` of `mm/pframe.c` as far as they concern a vnode and its pages. Threads give up
the processor only where they may block, so what a thread does from one such place to the
next is one step: it goes to sleep on a busy vnode, yields when there is no memory, or is
inside `read_vnode` or `delete_vnode`. What the file system and the allocator answer is part
of the label. Names of freed vnodes and pages may be given out again.

A function returns `none` where an assertion of the source fails or freed memory is used. -/

namespace Csci402.Fs

open Function

/-- A vnode with its memory object; `vnBusy` is the flag `VN_BUSY`. -/
structure Vnode (F I G T : Type) where
  vnFs : F
  vnVno : I
  vnBusy : Bool
  vnRefcount : ℤ
  vnNrespages : ℤ
  mmoRespages : List G
  vnWaitq : List T

structure Pframe (V : Type) where
  pfObj : V
  pfBusy : Bool

/-- Where a thread is: in other code, on the way back to the start of the search in `vget`,
asleep there, or inside one of the two calls of the file system. -/
inductive Pc (F I V : Type) where
  | user
  | retry (fs : F) (vno : I)
  | asleep (fs : F) (vno : I) (v : V)
  | reading (v : V)
  | deleting (v : V)
  deriving DecidableEq

def Pc.isReading {F I V : Type} : Pc F I V → Bool
  | .reading _ => true
  | _ => false

def Pc.isDeleting {F I V : Type} : Pc F I V → Bool
  | .deleting _ => true
  | _ => false

/-- The state. `active` is a history variable: how many references to a vnode have been
returned by `vget` or made by `vref` and not been given to `vput`. -/
structure Cache (F I V G T : Type) where
  vnode : V → Option (Vnode F I G T)
  inuse : List V
  page : G → Option (Pframe V)
  pc : T → Pc F I V
  active : V → ℕ

namespace Cache

variable {F I V G T : Type} [DecidableEq F] [DecidableEq I] [DecidableEq V] [DecidableEq G] [DecidableEq T]

def modVnode (v : V) (f : Vnode F I G T → Vnode F I G T) (s : Cache F I V G T) : Cache F I V G T :=
  { s with vnode := update s.vnode v ((s.vnode v).map f) }

def setPc (t : T) (pc : Pc F I V) (s : Cache F I V G T) : Cache F I V G T :=
  { s with pc := update s.pc t pc }

def setActive (v : V) (n : ℕ) (s : Cache F I V G T) : Cache F I V G T :=
  { s with active := update s.active v n }

def vref (v : V) (s : Cache F I V G T) : Option (Cache F I V G T) := do
  let vn ← s.vnode v
  if 0 < vn.vnRefcount then some (modVnode v (fun vn => { vn with vnRefcount := vn.vnRefcount+1 }) s) else none

/-! ### Getting a vnode -/

/-- The search of `vget` through the list. -/
def find (fs : F) (vno : I) (s : Cache F I V G T) : Option V :=
  s.inuse.find? fun v => (s.vnode v).any fun vn => vn.vnFs = fs ∧ vn.vnVno = vno

/-- `vget` from the search to the next place where it can block or return; `new` is what
the allocator answers. -/
def vget (t : T) (fs : F) (vno : I) (new : Option V) (s : Cache F I V G T) : Option (Cache F I V G T) :=
  match find fs vno s with
  | some v => do
    let vn ← s.vnode v
    if vn.vnBusy then
      let s := modVnode v (fun vn => { vn with vnWaitq := t :: vn.vnWaitq }) s
      return setPc t (.asleep fs vno v) s
    else
      let s ← vref v s
      return setPc t .user (setActive v (s.active v+1) s)
  | none =>
    match new with
    | none => some (setPc t (.retry fs vno) s)
    | some v => some (setPc t (.reading v) { s with
        vnode := update s.vnode v (some ⟨fs,vno,true,0,0,[],[]⟩)
        inuse := v :: s.inuse })

/-- The rest of `vget` after `read_vnode`. -/
def readDone (t : T) (s : Cache F I V G T) : Option (Cache F I V G T) :=
  match s.pc t with
  | .reading v => do
    let _ ← s.vnode v
    let s := modVnode v (fun vn => { vn with vnBusy := false, vnRefcount := 1 }) s
    return setPc t .user (setActive v (s.active v+1) s)
  | _ => none

/-! ### Putting a vnode -/

/-- The page part of `pframe_free`: the object of the page, and the state without it. -/
def uncache (g : G) (s : Cache F I V G T) : Option (V × Cache F I V G T) := do
  let pf ← s.page g
  let _ ← s.vnode pf.pfObj
  if pf.pfBusy then none else
  let s := modVnode pf.pfObj (fun vn => { vn with
    vnNrespages := vn.vnNrespages - 1, mmoRespages := vn.mmoRespages.erase g }) s
  return (pf.pfObj, { s with page := update s.page g none })

/-- `pframe_free`, with the `put` operation of the object: the object, and what `put` returns. -/
def pframeFree (put : V → Cache F I V G T → Option (Cache F I V G T × Bool)) (g : G) (s : Cache F I V G T) :
    Option (V × Cache F I V G T × Bool) :=
  (uncache g s).bind fun r => (put r.1 r.2).map fun r' => (r.1, r')

/-- A round of the loop of `vput` over the pages. -/
def freeNext (put : V → Cache F I V G T → Option (Cache F I V G T × Bool)) (s : Cache F I V G T) (g : G) :
    Option (Cache F I V G T) :=
  (pframeFree put g s).bind fun r => if r.2.2 then none else some r.2.1

/-- The end of `vput`: the reference is dropped, and the vnode of the last one is marked as
busy before `delete_vnode` is called, which the second component says. -/
def drop (v : V) (s : Cache F I V G T) : Option (Cache F I V G T × Bool) := do
  let vn ← s.vnode v
  let s := modVnode v (fun vn => { vn with vnRefcount := vn.vnRefcount - 1 }) s
  if 0 < vn.vnRefcount - 1 then return (s, false) else
  if vn.vnRefcount - 1 ≠ 0 ∨ vn.vnNrespages ≠ 0 then none else
  return (modVnode v (fun vn => { vn with vnBusy := true }) s, true)

/-- `vput` up to its return or the call of `delete_vnode`; `query` is the answer of
`query_vnode`. It calls itself through `pframe_free` for each page that is left; `fuel` bounds
the depth. The loop waits for a page that is busy; it is not to find one. -/
def vput (query : Bool) : ℕ → V → Cache F I V G T → Option (Cache F I V G T × Bool)
  | 0, _, _ => none
  | fuel+1, v, s => do
    let vn ← s.vnode v
    if ¬ (0 ≤ vn.vnNrespages ∧ vn.vnNrespages < vn.vnRefcount ∧ vn.vnBusy = false) then none else
    if vn.vnNrespages = vn.vnRefcount - 1 ∧ query = false then do
      let s ← vn.mmoRespages.foldlM (freeNext (vput query fuel)) s
      let vn ← s.vnode v
      if vn.vnNrespages ≠ 0 ∨ vn.vnRefcount ≠ 1 then none else drop v s
    else drop v s

/-- `sched_broadcast_on` for the threads that wait for the vnode. -/
def wake (v : V) (s : Cache F I V G T) : Cache F I V G T :=
  let waiting := ((s.vnode v).map Vnode.vnWaitq).getD []
  let s := modVnode v (fun vn => { vn with vnWaitq := [] }) s
  { s with
    pc := fun t => if t ∈ waiting then
      match s.pc t with
      | .asleep fs vno _ => .retry fs vno
      | pc => pc
    else s.pc t }

/-- The rest of `vput` after `delete_vnode`. -/
def deleteDone (t : T) (s : Cache F I V G T) : Option (Cache F I V G T) :=
  match s.pc t with
  | .deleting v => do
    let _ ← s.vnode v
    let s := wake v s
    return setPc t .user { s with inuse := s.inuse.erase v, vnode := update s.vnode v none }
  | _ => none

/-! ### Pages -/

/-- The part of `pframe_alloc` that concerns the object. -/
def pframeAlloc (v : V) (g : G) (s : Cache F I V G T) : Option (Cache F I V G T) := do
  let s ← vref v s
  let s := modVnode v (fun vn => { vn with
    vnNrespages := vn.vnNrespages+1, mmoRespages := g :: vn.mmoRespages }) s
  return { s with page := update s.page g (some ⟨v,false⟩) }

/-! ### Runs -/

inductive Act (F I V G T : Type) where
  | vget (t : T) (fs : F) (vno : I) (new : Option V)
  | readDone (t : T)
  | vref (v : V)
  | vput (t : T) (v : V) (query : Bool)
  | deleteDone (t : T)
  | pframeAlloc (v : V) (g : G)
  | pframeFree (t : T) (g : G) (query : Bool)
  | setBusy (g : G) (busy : Bool)

/-- The thread that has called `vput` returns or is now in `delete_vnode`. -/
def afterPut (t : T) (v : V) : Cache F I V G T × Bool → Cache F I V G T
  | (s, deleted) => if deleted then setPc t (.deleting v) s else s

def step (s : Cache F I V G T) : Act F I V G T → Option (Cache F I V G T)
  | .vget t fs vno new => vget t fs vno new s
  | .readDone t => readDone t s
  | .vref v => (vref v s).map (setActive v (s.active v+1))
  | .vput t v query => (vput query 2 v s).map fun r => setActive v (s.active v - 1) (afterPut t v r)
  | .deleteDone t => deleteDone t s
  | .pframeAlloc v g => pframeAlloc v g s
  | .pframeFree t g query => (pframeFree (vput query 2) g s).map fun r => afterPut t r.1 r.2
  | .setBusy g busy => (s.page g).map fun pf =>
      { s with page := update s.page g (some { pf with pfBusy := busy }) }

/-- No page of the vnode is busy. -/
def QuietPages (s : Cache F I V G T) (v : V) : Prop :=
  ∀ vn ∈ s.vnode v, ∀ g ∈ vn.mmoRespages, ∀ pf ∈ s.page g, pf.pfBusy = false

/-- How callers use the cache: a thread uses a vnode that it has a reference to, frees a page
that is not busy, and the file system answers that a vnode is not linked any more only when
none of its pages is busy. -/
def Enabled (s : Cache F I V G T) : Act F I V G T → Prop
  | .vget t fs vno new => (s.pc t = .user ∨ s.pc t = .retry fs vno) ∧ ∀ v ∈ new, s.vnode v = none
  | .readDone t => (s.pc t).isReading = true
  | .vref v => 0 < s.active v
  | .vput t v query => s.pc t = .user ∧ 0 < s.active v ∧ (query = false → QuietPages s v)
  | .deleteDone t => (s.pc t).isDeleting = true
  | .pframeAlloc v g => 0 < s.active v ∧ s.page g = none
  | .pframeFree t g query => s.pc t = .user ∧ s.page g ≠ none ∧
      ∀ pf ∈ s.page g, pf.pfBusy = false ∧ (query = false → QuietPages s pf.pfObj)
  | .setBusy g _ => s.page g ≠ none

end Cache

end Csci402.Fs
