import Csci402.Vm.Mmobj

/-! The address space of a process, `vm/vmmap.c`: first the functions that only read or
build a list of areas, then those that change the objects behind it. Page numbers
are computed in 32 bits as in the source. -/

namespace Csci402.Vm

open Lib

/-! ### Lists of areas -/

/-- The page of the area's object behind a page of the address space. -/
def Vmarea.page (a : Vmarea) (vfn : ℕ) : ℕ := u32 (a.vmaOff+vfn - a.vmaStart)

def vmmapLookup (l : List Vmarea) (vfn : ℕ) : Option Vmarea :=
  l.find? fun vma => vma.vmaEnd > vfn ∧ vma.vmaStart ≤ vfn

/-- Before the first area that starts after the new one ends. -/
def insertArea (newvma : Vmarea) : List Vmarea → List Vmarea
  | [] => [newvma]
  | vma :: l =>
    if vma.vmaStart ≥ newvma.vmaEnd then newvma :: vma :: l else vma :: insertArea newvma l

def vmmapInsert (U : UserMem) (newvma : Vmarea) (l : List Vmarea) : Option (List Vmarea) :=
  if newvma.vmaStart < newvma.vmaEnd ∧ U.low ≤ newvma.vmaStart ∧ newvma.vmaEnd ≤ U.high then
    some (insertArea newvma l)
  else none

def isRangeEmpty (startvfn endvfn : ℕ) : List Vmarea → Bool
  | [] => true
  | vma :: l =>
    if vma.vmaStart ≥ endvfn then true
    else if vma.vmaStart < endvfn ∧ vma.vmaEnd > startvfn then false
    else isRangeEmpty startvfn endvfn l

def vmmapIsRangeEmpty (U : UserMem) (l : List Vmarea) (startvfn npages : ℕ) : Option Bool :=
  let endvfn := u32 (startvfn+npages)
  if startvfn < endvfn ∧ U.low ≤ startvfn ∧ endvfn ≤ U.high then
    some (isRangeEmpty startvfn endvfn l)
  else none

inductive Dir where
  | lohi | hilo
  deriving DecidableEq, Repr

/-- The loop of `VMMAP_DIR_HILO`, over the list in reverse. -/
def findHigh (npages : ℕ) : (preStart : ℕ) → List Vmarea → Option ℕ
  | _, [] => none
  | preStart, vma :: l =>
    if u32 (preStart - vma.vmaEnd) ≥ npages then some (u32 (preStart - npages))
    else findHigh npages vma.vmaStart l

/-- The loop of `VMMAP_DIR_LOHI`. -/
def findLow (npages : ℕ) : (preEnd : ℕ) → List Vmarea → Option ℕ
  | _, [] => none
  | preEnd, vma :: l =>
    if preEnd > 0 ∧ u32 (vma.vmaStart - preEnd) ≥ npages then some preEnd
    else findLow npages vma.vmaEnd l

/-- The result is negative where there is no range. An empty list has no first and no
last area, which the source reads all the same. -/
def vmmapFindRange (U : UserMem) (l : List Vmarea) (npages : ℕ) : Dir → Option ℤ
  | .hilo => match findHigh npages U.high l.reverse with
    | some vfn => some (s32 vfn)
    | none => l.head?.map fun vma =>
      if u32 (vma.vmaStart - U.low) ≥ npages then s32 (u32 (vma.vmaStart - npages)) else -1
  | .lohi => match findLow npages U.low l with
    | some vfn => some (s32 vfn)
    | none => l.getLast?.map fun vma =>
      if u32 (U.high - vma.vmaEnd) ≥ npages then s32 vma.vmaEnd else -1

/-- `vmmap_clone`; the new areas are numbered from `next` on and have no object yet. -/
def vmmapClone : (next : ℕ) → List Vmarea → List Vmarea
  | _, [] => []
  | next, vma :: l => { vma with vmaId := next, vmaObj := none } :: vmmapClone (next+1) l

namespace Memory

variable {D : Type}

/-- The areas of a process by number, which is how the loops name them. -/
def areaIds (pid : ℕ) (s : Memory D) : List ℕ := (s.vmmList pid).map Vmarea.vmaId

/-! ### Removing mappings -/

/-- A list of areas to which the one numbered `nextArea` has been added. -/
def addArea (pid : ℕ) (l : List Vmarea) (s : Memory D) : Memory D :=
  { s.setList pid l with nextArea := s.nextArea+1 }

/-- The first case of `vmmap_remove`. The new area is inserted before the old one is
shortened, and it is put on no `mmo_vmas` list. -/
def splitArea (U : UserMem) (pid lopage endvfn : ℕ) (vma : Vmarea) (s : Memory D) : Option (Memory D) := do
  let newvma := { vma with
    vmaId := s.nextArea
    vmaStart := endvfn
    vmaOff := u32 (vma.vmaOff+endvfn - vma.vmaStart) }
  let l ← vmmapInsert U newvma (s.vmmList pid)
  let s ← ref (← newvma.vmaObj) (s.addArea pid l)
  return s.modArea pid vma.vmaId fun a => { a with vmaEnd := lopage }

/-- One round of `vmmap_remove`. -/
def removeArea (U : UserMem) (env : Env D) (pid lopage endvfn k : ℕ) (s : Memory D) : Option (Memory D) := do
  let vma ← s.findArea pid k
  if vma.vmaEnd > endvfn ∧ vma.vmaStart < lopage then splitArea U pid lopage endvfn vma s
  else if vma.vmaEnd ≤ endvfn ∧ vma.vmaStart < lopage ∧ vma.vmaEnd > lopage then
    return s.modArea pid k fun a => { a with vmaEnd := lopage }
  else if vma.vmaEnd > endvfn ∧ vma.vmaStart ≥ lopage ∧ vma.vmaStart < endvfn then
    return s.modArea pid k fun a =>
      { a with vmaOff := u32 (a.vmaOff+(endvfn - a.vmaStart)), vmaStart := endvfn }
  else if vma.vmaEnd ≤ endvfn ∧ vma.vmaStart ≥ lopage then
    put env (← vma.vmaObj) (s.unlinkArea pid k)
  else return s

def vmmapRemove (U : UserMem) (env : Env D) (pid lopage npages : ℕ) (s : Memory D) : Option (Memory D) := do
  let endvfn := u32 (lopage+npages)
  let s ← listIterate (areaIds pid) (removeArea U env pid lopage endvfn) s
  return s.ptUnmapRange pid (addrPage lopage) (addrPage endvfn)

/-- One round of `vmmap_destroy`. -/
def destroyArea (env : Env D) (pid k : ℕ) (s : Memory D) : Option (Memory D) := do
  let vma ← s.findArea pid k
  put env (← vma.vmaObj) (s.unlinkArea pid k)

def vmmapDestroy (env : Env D) (pid : ℕ) : Memory D → Option (Memory D) :=
  listIterate (areaIds pid) (destroyArea env pid)

/-! ### Adding mappings -/

/-- The start of `vmmap_map`: find a range, or clear the one asked for. -/
def mapPlace (U : UserMem) (env : Env D) (pid lopage npages : ℕ) (dir : Dir) (s : Memory D) :
    Option (Memory D × Option ℕ) := do
  if lopage = 0 then
    let range ← vmmapFindRange U (s.vmmList pid) npages dir
    return (s, if range < 0 then none else some range.toNat)
  else if ← vmmapIsRangeEmpty U (s.vmmList pid) lopage npages then return (s, some lopage)
  else return (← vmmapRemove U env pid lopage npages s, some lopage)

/-- The end of `vmmap_map`: area `k` gets the object `o`, or a shadow object over it. -/
def mapAttach (pid k o : ℕ) (flags : MapFlags) (s : Memory D) : Option (Memory D) := do
  let _ ← s.objs o
  let s := s.modObj o fun ob => { ob with mmoVmas := ob.mmoVmas ++ [(pid, k)] }
  let s := s.modArea pid k fun a => { a with vmaObj := some o }
  if flags.priv then
    let b ← s.mmobjBottomObj o
    let s' ← ref b (newShadow o b s)
    return s'.modArea pid k fun a => { a with vmaObj := some s.nextObj }
  else return s

/-- The object of the mapping. When the `mmap` operation of the file fails the area is
freed but stays on the list, here without an object. -/
def mapObject (env : Env D) (pid k : ℕ) (file : Option ℕ) (flags : MapFlags) (s : Memory D) :
    Option (Memory D × Except Errno Unit) :=
  match file with
  | none => (mapAttach pid k s.nextObj flags (newObj .anon s)).map fun s => (s, .ok ())
  | some o => match env.mmapErr o with
    | some err => some (s, .error (.mmapOp err))
    | none => ((ref o s).bind (mapAttach pid k o flags)).map fun s => (s, .ok ())

/-- The area of a new mapping, before it has an object. -/
def mapArea (k lopage npages : ℕ) (prot : Prot) (flags : MapFlags) (off : ℕ) : Vmarea :=
  ⟨k,lopage,u32 (lopage+npages),u32 off / pageSize,prot,flags,none⟩

/-- The area at `lopage` is made, inserted and given its object. -/
def mapInsert (U : UserMem) (env : Env D) (pid : ℕ) (file : Option ℕ) (lopage npages : ℕ)
    (prot : Prot) (flags : MapFlags) (off : ℕ) (s : Memory D) : Option (Memory D × Except Errno Unit) := do
  let l ← vmmapInsert U (mapArea s.nextArea lopage npages prot flags off) (s.vmmList pid)
  mapObject env pid s.nextArea file flags (s.addArea pid l)

/-- `vmmap_map`; on success the result is the start of the new area. -/
def vmmapMap (U : UserMem) (env : Env D) (pid : ℕ) (file : Option ℕ) (lopage npages : ℕ)
    (prot : Prot) (flags : MapFlags) (off : ℕ) (dir : Dir) (s : Memory D) : Option (Memory D × Except Errno ℕ) := do
  if 0 < npages ∧ (flags.shared ∨ flags.priv) ∧ (lopage = 0 ∨ U.low ≤ lopage) ∧
      (lopage = 0 ∨ u32 (lopage+npages) ≤ U.high) ∧ off % pageSize = 0 then
    let (s, place) ← mapPlace U env pid lopage npages dir s
    match place with
    | none => return (s, .error .noRange)
    | some lopage =>
      let (s, r) ← mapInsert U env pid file lopage npages prot flags off s
      return (s, r.map fun _ => lopage)
  else none

end Memory

end Csci402.Vm
