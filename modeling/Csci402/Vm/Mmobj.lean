import Csci402.Lib.Iterate
import Csci402.Vm.State

/-! Memory objects: `vm/anon.c`, `vm/shadow.c`, `vput` of `fs/vnode.c` and what they
need of `mm/pframe.c`. A function returns `none` where an assertion of the source
fails or a freed object is used. The operations of a file's object are not in the
source; `ref` and `put` are `vref` and `vput`, `lookuppage` is `pframe_get`, and
`fillpage` reads the file.

`put` and the loops down a chain of shadow objects are cut off after as many rounds
as the number of the object allows, which is enough since an object shadows only
older ones. -/

namespace Csci402.Vm

namespace Memory

open Lib Function

variable {D : Type}

/-- `mmobj_init` and the initial count, for `anon_create` and `shadow_create`. -/
def newObj (kind : ObjKind) (s : Memory D) : Memory D :=
  { s with
    objs := update s.objs s.nextObj (some ⟨kind,1,0,[],none,none,[]⟩)
    nextObj := s.nextObj+1 }

/-- A new shadow object over `o`, with the bottom object `b`. -/
def newShadow (o b : ℕ) (s : Memory D) : Memory D :=
  (newObj .shadow s).modObj s.nextObj fun ob =>
    { ob with mmoShadowed := some o, mmoBottomObj := some b }

def mmobjBottomObj (s : Memory D) (o : ℕ) : Option ℕ :=
  (s.objs o).bind fun ob => match ob.mmoShadowed with
    | none => some o
    | some _ => ob.mmoBottomObj

/-- `list_insert_tail` onto `mmobj_bottom_vmas` of `o`. -/
def insertVma (o : ℕ) (link : ℕ × ℕ) (s : Memory D) : Option (Memory D) := do
  let b ← s.mmobjBottomObj o
  let _ ← s.objs b
  return s.modObj b fun ob => { ob with mmoVmas := ob.mmoVmas ++ [link] }

/-- The `ref` of every kind of object. -/
def ref (o : ℕ) (s : Memory D) : Option (Memory D) := do
  let ob ← s.objs o
  if 0 < ob.mmoRefcount then
    return s.modObj o fun ob => { ob with mmoRefcount := ob.mmoRefcount+1 }
  else none

/-! ### Page frames -/

def pframeGetResident (s : Memory D) (o n : ℕ) : Option ℕ :=
  (s.objs o).bind fun ob =>
    ob.mmoRespages.find? fun f => (s.frames f).any fun pf => pf.pfPagenum = n

/-- The frame allocated is `nextFrame`. -/
def pframeAlloc (junk : D) (o n : ℕ) (s : Memory D) : Option (Memory D) := do
  let s ← ref o s
  return { s with
    frames := update s.frames s.nextFrame (some ⟨o,n,0,junk⟩)
    objs := update s.objs o ((s.objs o).map fun ob =>
      { ob with mmoNrespages := ob.mmoNrespages+1, mmoRespages := s.nextFrame :: ob.mmoRespages })
    nextFrame := s.nextFrame+1 }

/-- One round of `pframe_remove_from_pts`. -/
def removeFromPt (n : ℕ) (s : Memory D) (link : ℕ × ℕ) : Option (Memory D) := do
  let vma ← s.findArea link.1 link.2
  if vma.vmaOff ≤ n ∧ n < u32 (vma.vmaOff+(vma.vmaEnd - vma.vmaStart)) then
    return s.ptUnmap link.1 (addrPage (u32 (vma.vmaStart+n - vma.vmaOff)))
  else return s

def pframeRemoveFromPts (pf : Pframe D) (s : Memory D) : Option (Memory D) := do
  let b ← s.mmobjBottomObj pf.pfObj
  let ob ← s.objs b
  ob.mmoVmas.foldlM (removeFromPt pf.pfPagenum) s

def pframeUnpin (f : ℕ) : Memory D → Memory D :=
  modFrame f fun pf => { pf with pfPincount := pf.pfPincount - 1 }

/-- `pframe_free` up to the `put` at its end. -/
def pframeUncache (f : ℕ) (pf : Pframe D) (s : Memory D) : Option (Memory D) :=
  if pf.pfPincount = 0 then
    (pframeRemoveFromPts pf s).map fun s =>
      { s with
        frames := update s.frames f none
        objs := update s.objs pf.pfObj ((s.objs pf.pfObj).map fun ob =>
          { ob with mmoNrespages := ob.mmoNrespages - 1, mmoRespages := ob.mmoRespages.erase f }) }
  else none

def pframeFree (put : ℕ → Memory D → Option (Memory D)) (f : ℕ) (s : Memory D) : Option (Memory D) := do
  let pf ← s.frames f
  let s ← pframeUncache f pf s
  put pf.pfObj s

/-! ### Dropping references -/

def respages (o : ℕ) (s : Memory D) : List ℕ := (s.objs o).elim [] Mmobj.mmoRespages

/-- The loop over `mmo_respages`; `vput` does not unpin. -/
def freePages (put : ℕ → Memory D → Option (Memory D)) (unpin : Bool) (o : ℕ) : Memory D → Option (Memory D) :=
  listIterate (respages o) fun f s =>
    let pinned := (s.frames f).any fun pf => 0 < pf.pfPincount
    pframeFree put f (if unpin && pinned then pframeUnpin f s else s)

def decRef (o : ℕ) : Memory D → Memory D := modObj o fun ob => { ob with mmoRefcount := ob.mmoRefcount - 1 }

def anonPut (put : ℕ → Memory D → Option (Memory D)) (o : ℕ) (ob : Mmobj) (s : Memory D) : Option (Memory D) := do
  if 0 < ob.mmoRefcount then
    if ob.mmoRefcount - 1 = ob.mmoNrespages then
      let s ← freePages put true o s
      return freeObj o s
    else return decRef o s
  else none

def shadowPut (put : ℕ → Memory D → Option (Memory D)) (o : ℕ) (ob : Mmobj) (s : Memory D) : Option (Memory D) := do
  if 0 < ob.mmoRefcount then
    if ob.mmoRefcount - 1 = ob.mmoNrespages then
      let s ← freePages put true o s
      let s ← put (← ob.mmoBottomObj) s
      let s ← put (← ob.mmoShadowed) s
      return freeObj o s
    else return decRef o s
  else none

/-- The end of `vput`: the count goes down, and the vnode goes when it reaches zero. -/
def vputDrop (o : ℕ) (s : Memory D) : Option (Memory D) := do
  let ob ← s.objs o
  if 0 < ob.mmoRefcount - 1 then return decRef o s
  else if ob.mmoRefcount - 1 = 0 ∧ ob.mmoNrespages = 0 then return freeObj o s
  else none

def vput (linked : Bool) (put : ℕ → Memory D → Option (Memory D)) (o : ℕ) (ob : Mmobj) (s : Memory D) :
    Option (Memory D) := do
  if 0 ≤ ob.mmoNrespages ∧ ob.mmoNrespages < ob.mmoRefcount then
    if ob.mmoNrespages = ob.mmoRefcount - 1 ∧ linked = false then
      let s ← freePages put false o s
      let ob ← s.objs o
      if ob.mmoNrespages = 0 ∧ ob.mmoRefcount = 1 then vputDrop o s else none
    else vputDrop o s
  else none

def putFuel (linked : ℕ → Bool) : (fuel : ℕ) → (o : ℕ) → Memory D → Option (Memory D)
  | 0, _, _ => none
  | n+1, o, s => (s.objs o).bind fun ob => match ob.mmoOps with
    | .anon => anonPut (putFuel linked n) o ob s
    | .shadow => shadowPut (putFuel linked n) o ob s
    | .vnode => vput (linked o) (putFuel linked n) o ob s

/-- The `put` of an object, whatever its kind. -/
def put (env : Env D) (o : ℕ) : Memory D → Option (Memory D) := putFuel env.queryVnode (o+2) o

/-! ### Looking pages up

A lookup returns the new state and the frame, or no frame where the source returns
an error. -/

/-- The first object below `cur` that has the page resident, as `shadow_fillpage` looks
for it. -/
def findBelow (s : Memory D) (n : ℕ) : (fuel : ℕ) → (cur : ℕ) → Option (Option ℕ)
  | 0, _ => none
  | k+1, cur => (s.objs cur).bind fun ob => match ob.mmoShadowed with
    | none => some none
    | some next => match s.pframeGetResident next n with
      | some f => some (some f)
      | none => findBelow s n k next

/-- The first shadow object from `cur` on that has the page resident, as
`shadow_lookuppage` looks for it. -/
def findShadow (s : Memory D) (n : ℕ) : (fuel : ℕ) → (cur : ℕ) → Option (Option ℕ)
  | 0, _ => none
  | k+1, cur => (s.objs cur).bind fun ob => match ob.mmoShadowed with
    | none => some none
    | some next => match s.pframeGetResident cur n with
      | some f => some (some f)
      | none => findShadow s n k next

/-- A page that is not resident is allocated and filled; `fill` also says whether it
succeeded. -/
def pframeGet (env : Env D) (o n : ℕ) (fill : ℕ → Memory D → Option (Memory D × Bool)) (s : Memory D) :
    Option (Memory D × Option ℕ) :=
  match s.pframeGetResident o n with
  | some f => some (s, some f)
  | none =>
    if env.allocOk o then do
      let s' ← pframeAlloc env.junk o n s
      let (s', ok) ← fill s.nextFrame s'
      return (s', if ok then some s.nextFrame else none)
    else some (s, none)

/-- Pin the frame and set its contents. -/
def fillPinned (f : ℕ) (d : D) : Memory D → Memory D :=
  modFrame f fun pf => { pf with pfPincount := pf.pfPincount+1, pfData := d }

variable [Zero D]

def anonFillpage (f : ℕ) (s : Memory D) : Option (Memory D × Bool) := some (fillPinned f 0 s, true)

def vnodeFillpage (env : Env D) (o n f : ℕ) (s : Memory D) : Option (Memory D × Bool) :=
  if env.fillOk o then some (s.modFrame f fun pf => { pf with pfData := s.disk o n }, true)
  else some (s, false)

/-- `lookuppage` of an object that is not a shadow object. -/
def lookupBase (env : Env D) (o n : ℕ) (s : Memory D) : Option (Memory D × Option ℕ) := do
  let ob ← s.objs o
  match ob.mmoOps with
  | .anon => pframeGet env o n anonFillpage s
  | .vnode => pframeGet env o n (vnodeFillpage env o n) s
  | .shadow => none

/-- The bottom object is never a shadow object. -/
def shadowFillpage (env : Env D) (o n f : ℕ) (s : Memory D) : Option (Memory D × Bool) := do
  match ← findBelow s n (o+1) o with
  | some g => return (fillPinned f (← s.frames g).pfData s, true)
  | none =>
    let ob ← s.objs o
    let (s, r) ← lookupBase env (← ob.mmoBottomObj) n s
    match r with
    | some g => return (fillPinned f (← s.frames g).pfData s, true)
    | none => return (s, false)

def shadowLookuppage (env : Env D) (o n : ℕ) (forwrite : Bool) (s : Memory D) : Option (Memory D × Option ℕ) := do
  if forwrite then
    match s.pframeGetResident o n with
    | some f => return (s, some f)
    | none => pframeGet env o n (shadowFillpage env o n) s
  else
    match ← findShadow s n (o+1) o with
    | some f => return (s, some f)
    | none =>
      let ob ← s.objs o
      lookupBase env (← ob.mmoBottomObj) n s

def lookuppage (env : Env D) (o n : ℕ) (forwrite : Bool) (s : Memory D) : Option (Memory D × Option ℕ) := do
  let ob ← s.objs o
  match ob.mmoOps with
  | .shadow => shadowLookuppage env o n forwrite s
  | _ => lookupBase env o n s

end Memory

end Csci402.Vm
