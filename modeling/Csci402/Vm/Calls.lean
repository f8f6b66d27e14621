import Csci402.Vm.Vmmap

/-! The entry points of the virtual memory subsystem: page faults, the kernel's copies
from and to user memory, `mmap`, `munmap`, `brk`, `fork` and exit, and the freeing of
a page by the pageout daemon. Each runs to completion. The other references to the
objects of files are taken and dropped by calls of their own. -/

namespace Csci402.Vm

namespace Memory

open Lib Function

variable {D : Type}

/-- A process that exits: `vmmap_destroy`, and the process is gone. -/
def doExit (env : Env D) (pid : ℕ) (s : Memory D) : Option (Memory D) := do
  let s ← vmmapDestroy env pid s
  return { s with procs := update s.procs pid none }

/-- `proc_create`: an empty address space and an empty page directory. -/
def procCreate (s : Memory D) : Memory D :=
  { s with
    procs := update s.procs s.nextPid (some ⟨[],fun _ => none,0,0⟩)
    nextPid := s.nextPid+1 }

/-! ### `fork` -/

/-- One round of the loop of `do_fork` over the areas of the child. -/
def forkArea (parent child k : ℕ) (s : Memory D) : Option (Memory D) := do
  let childVmArea ← s.findArea child k
  let parentVmArea ← vmmapLookup (s.vmmList parent) childVmArea.vmaStart
  let o ← parentVmArea.vmaObj
  if childVmArea.vmaFlags.shared ∧ ¬ childVmArea.vmaFlags.priv then
    let s ← ref o (s.modArea child k fun a => { a with vmaObj := some o })
    insertVma o (child, k) s
  else
    let b ← s.mmobjBottomObj o
    let parentShadow := s.nextObj
    let childShadow := s.nextObj+1
    let s ← ref o (newShadow o b (newShadow o b s))
    let s ← ref b s
    let s ← ref b s
    let s := s.modArea parent parentVmArea.vmaId fun a => { a with vmaObj := some parentShadow }
    let s := s.modArea child k fun a => { a with vmaObj := some childShadow }
    insertVma parentShadow (child, k) s

/-- `do_fork` up to the threads and files; the child is process `nextPid`. -/
def doFork (U : UserMem) (pid : ℕ) (s : Memory D) : Option (Memory D) := do
  let parent ← s.procs pid
  let child := s.nextPid
  let s := s.procCreate.modProc child fun _ =>
    ⟨vmmapClone s.nextArea parent.vmmList,fun _ => none,parent.pBrk,parent.pStartBrk⟩
  let s := { s with nextArea := s.nextArea+parent.vmmList.length }
  let s ← listIterate (areaIds child) (forkArea pid child) s
  return s.ptUnmapRange pid U.low U.high

/-! ### `mmap`, `munmap` and `brk` -/

/-- `len` in pages, rounded up. -/
def pagesOf (len : ℕ) : ℕ := len / pageSize+if len % pageSize = 0 then 0 else 1

/-- `do_mmap`; `file` is what `fget` finds for the descriptor: the object of the file
and whether it is open for writing. -/
def doMmap (U : UserMem) (env : Env D) (pid addr len : ℕ) (prot : Prot) (flags : MapFlags)
    (file : Option (ℕ × Bool)) (off : ℕ) (s : Memory D) : Option (Memory D × Except Errno ℕ) :=
  if off % pageSize ≠ 0 ∨ (addr ≠ 0 ∧ addr % pageSize ≠ 0) then some (s, .error .einval)
  else if u32 (addr+len) > U.high*pageSize ∨ len = 0 then some (s, .error .einval)
  else if ¬ flags.priv ∧ ¬ flags.shared then some (s, .error .einval)
  else if flags.fixed ∧ addr = 0 then some (s, .error .einval)
  else if flags.anon then
    vmmapMap U env pid none (addr / pageSize) (pagesOf len) prot flags off .hilo s
  else match file with
    | none => some (s, .error .ebadf)
    | some (o, fmodeWrite) =>
      if ¬ fmodeWrite ∧ prot.write ∧ ¬ flags.priv then some (s, .error .eacces)
      else vmmapMap U env pid (some o) (addr / pageSize) (pagesOf len) prot flags off .hilo s

def doMunmap (U : UserMem) (env : Env D) (pid addr len : ℕ) (s : Memory D) : Option (Memory D × Except Errno Unit) :=
  if addr % pageSize ≠ 0 then some (s, .error .einval)
  else if u32 (addr+len) > U.high*pageSize ∨ u32 (addr+len) < U.low*pageSize ∨ len = 0 ∨
      len > U.high*pageSize then
    some (s, .error .einval)
  else (vmmapRemove U env pid (addr / pageSize) (pagesOf len) s).map fun s => (s, .ok ())

def setBrk (pid addr : ℕ) : Memory D → Memory D := modProc pid fun p => { p with pBrk := addr }

/-- The end of `do_brk`: the area of the heap gets the end that `addr` asks for. -/
def moveBrk (U : UserMem) (env : Env D) (pid addr : ℕ) (vma : Vmarea) (s : Memory D) :
    Option (Memory D × Except Errno ℕ) := do
  if vma.vmaEnd > pagesOf addr then
    let s ← vmmapRemove U env pid (pagesOf addr) (vma.vmaEnd - pagesOf addr) s
    return (s.setBrk pid addr, .ok addr)
  else if vma.vmaEnd < pagesOf addr then
    if ← vmmapIsRangeEmpty U (s.vmmList pid) vma.vmaEnd (pagesOf addr - vma.vmaEnd) then
      let s := s.modArea pid vma.vmaId fun a => { a with vmaEnd := pagesOf addr }
      return (s.setBrk pid addr, .ok addr)
    else return (s, .error .enomem)
  else return (s.setBrk pid addr, .ok addr)

/-- `do_brk`, which takes it that there is an area at the start of the heap. -/
def doBrk (U : UserMem) (env : Env D) (pid addr : ℕ) (s : Memory D) : Option (Memory D × Except Errno ℕ) := do
  let p ← s.procs pid
  if addr = 0 then return (s, .ok p.pBrk)
  else if addr < p.pStartBrk ∨ addr > U.high*pageSize then return (s, .error .enomem)
  else moveBrk U env pid addr (← vmmapLookup p.vmmList (p.pStartBrk / pageSize)) s

/-! ### Page faults and copies -/

structure Cause where
  write : Bool
  exec : Bool
  deriving DecidableEq, Repr

/-- Whether the protection of the area allows the access. -/
def permitted (cause : Cause) (prot : Prot) : Bool :=
  (cause.write || cause.exec || prot.read) && (!cause.write || prot.write) &&
    (!cause.exec || prot.exec)

variable [Zero D]

/-- A page of the address space is looked up in its area's object. The outer `none` is
an access to nothing; no area is `.error`. -/
def lookupVfn (env : Env D) (pid vfn : ℕ) (forwrite : Bool) (s : Memory D) : Option (Memory D × Option ℕ) := do
  let vma ← vmmapLookup (s.vmmList pid) vfn
  lookuppage env (← vma.vmaObj) (vma.page vfn) forwrite s

/-- `handle_pagefault`. A process that may not do this access, or whose page cannot be
had, exits. -/
def handlePagefault (env : Env D) (pid vaddr : ℕ) (cause : Cause) (s : Memory D) : Option (Memory D) := do
  let vfn := vaddr / pageSize
  match vmmapLookup (s.vmmList pid) vfn with
  | none => doExit env pid s
  | some vma =>
    if permitted cause vma.vmaProt then
      let (s, r) ← lookuppage env (← vma.vmaObj) (vma.page vfn) cause.write s
      match r with
      | none => doExit env pid s
      | some f => return s.ptMap pid vfn f cause.write
    else doExit env pid s

/-- A page is read by the kernel; `none` as a result where it has no area. The frame of
a failed lookup is not initialised. -/
def readPage (env : Env D) (pid vfn : ℕ) (s : Memory D) : Option (Memory D × Option D) := do
  match vmmapLookup (s.vmmList pid) vfn with
  | none => return (s, none)
  | some vma =>
    let (s, r) ← lookuppage env (← vma.vmaObj) (vma.page vfn) false s
    let pf ← s.frames (← r)
    return (s, some pf.pfData)

/-- A page is written by the kernel: the frame of a write lookup is changed by `store`. -/
def writePage (env : Env D) (pid vfn : ℕ) (store : D → D) (s : Memory D) : Option (Memory D × Option Unit) := do
  match vmmapLookup (s.vmmList pid) vfn with
  | none => return (s, none)
  | some vma =>
    let (s, r) ← lookuppage env (← vma.vmaObj) (vma.page vfn) true s
    return (s.modFrame (← r) fun pf => { pf with pfData := store pf.pfData }, some ())

/-- The loop of `vmmap_read` and `vmmap_write`. Each round treats the rest of one page;
`visit` gets the address, how many bytes are done and how many this round does. -/
def copyPages {β : Type} (visit : ℕ → ℕ → ℕ → Memory D → Option (Memory D × Option β)) (endaddr count : ℕ) :
    (fuel curraddr done : ℕ) → Memory D → Option (Memory D × Option (List β))
  | 0, _, _, _ => none
  | n+1, curraddr, done, s =>
    if curraddr < endaddr then do
      let bytes := min (count - done) (pageSize - curraddr % pageSize)
      let (s, r) ← visit curraddr done bytes s
      match r with
      | none => return (s, none)
      | some x =>
        let (s, xs) ← copyPages visit endaddr count n (u32 (curraddr+bytes)) (done+bytes) s
        return (s, xs.map (x :: ·))
    else some (s, some [])

/-- `vmmap_read`: the pages it reads from, in order. -/
def vmmapRead (env : Env D) (pid vaddr count : ℕ) (s : Memory D) : Option (Memory D × Option (List D)) :=
  copyPages (fun addr _ _ => readPage env pid (addr / pageSize)) (u32 (vaddr+count)) count
    (count+1) vaddr 0 s

/-- `vmmap_write`; `store` is the `memcpy` into a page, by the offset in the page, the
offset in the buffer and the number of bytes. -/
def vmmapWrite (env : Env D) (pid vaddr count : ℕ) (store : ℕ → ℕ → ℕ → D → D) (s : Memory D) :
    Option (Memory D × Option (List Unit)) :=
  copyPages (fun addr done bytes =>
      writePage env pid (addr / pageSize) (store (addr % pageSize) done bytes))
    (u32 (vaddr+count)) count (count+1) vaddr 0 s

/-! ### Runs -/

inductive Call (D : Type) where
  | procCreate
  | map (pid : ℕ) (file : Option ℕ) (lopage npages : ℕ) (prot : Prot) (flags : MapFlags) (off : ℕ) (dir : Dir)
  | remove (pid lopage npages : ℕ)
  | mmap (pid addr len : ℕ) (prot : Prot) (flags : MapFlags) (file : Option (ℕ × Bool)) (off : ℕ)
  | munmap (pid addr len : ℕ)
  | brk (pid addr : ℕ)
  | fork (pid : ℕ)
  | exit (pid : ℕ)
  | pagefault (pid vaddr : ℕ) (cause : Cause)
  | lookup (pid vfn : ℕ) (forwrite : Bool)
  | read (pid vfn : ℕ)
  | write (pid vfn : ℕ) (store : D → D)
  | vmmapRead (pid vaddr count : ℕ)
  | vmmapWrite (pid vaddr count : ℕ) (store : ℕ → ℕ → ℕ → D → D)
  | reclaim (frame : ℕ)
  | vget
  | vref (o : ℕ)
  | vput (o : ℕ)

/-- A reference to the object of a file from outside. -/
def hold (o : ℕ) (s : Memory D) : Memory D :=
  { s with held := update s.held o (s.held o+1) }

def release (o : ℕ) (s : Memory D) : Memory D :=
  { s with held := update s.held o (s.held o - 1) }

def step (U : UserMem) (s : Memory D) : Env D × Call D → Option (Memory D)
  | (_, .procCreate) => some s.procCreate
  | (env, .map pid file lopage npages prot flags off dir) =>
    (vmmapMap U env pid file lopage npages prot flags off dir s).map Prod.fst
  | (env, .remove pid lopage npages) => vmmapRemove U env pid lopage npages s
  | (env, .mmap pid addr len prot flags file off) =>
    (doMmap U env pid addr len prot flags file off s).map Prod.fst
  | (env, .munmap pid addr len) => (doMunmap U env pid addr len s).map Prod.fst
  | (env, .brk pid addr) => (doBrk U env pid addr s).map Prod.fst
  | (_, .fork pid) => doFork U pid s
  | (env, .exit pid) => doExit env pid s
  | (env, .pagefault pid vaddr cause) => handlePagefault env pid vaddr cause s
  | (env, .lookup pid vfn forwrite) => (lookupVfn env pid vfn forwrite s).map Prod.fst
  | (env, .read pid vfn) => (readPage env pid vfn s).map Prod.fst
  | (env, .write pid vfn store) => (writePage env pid vfn store s).map Prod.fst
  | (env, .vmmapRead pid vaddr count) => (vmmapRead env pid vaddr count s).map Prod.fst
  | (env, .vmmapWrite pid vaddr count store) =>
    (vmmapWrite env pid vaddr count store s).map Prod.fst
  | (env, .reclaim frame) => pframeFree (put env) frame s
  | (_, .vget) => some ((newObj .vnode s).hold s.nextObj)
  | (_, .vref o) => (ref o s).map (hold o)
  | (env, .vput o) => (put env o s).map (release o)

end Memory

end Csci402.Vm
