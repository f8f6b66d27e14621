import Mathlib.Algebra.Order.Ring.Int
import Mathlib.Data.List.Basic
import Mathlib.Logic.Function.Basic

/-! The state of the virtual memory subsystem: memory objects, page frames, and for
each process its list of areas and its page table. Objects, frames, areas and
processes are named by numbers that are never used again, so a pointer to something
freed finds nothing. `D` is the type of the contents of a page.

Left out are the dirty and busy flags of a frame, which no function below reads, and
the hash table of `mm/pframe.c`: a frame is found among the resident pages of its
object, and `Csci402.Mm` shows that the chains of the table hold the same frames. -/

namespace Csci402.Vm

open Function

/-- The pages of user memory: `ADDR_TO_PN(USER_MEM_LOW)` and `ADDR_TO_PN(USER_MEM_HIGH)`. -/
structure UserMem where
  low : ℕ
  high : ℕ
  low_pos : 0 < low
  low_lt_high : low < high
  high_lt : high < 2 ^ 20

def pageSize : ℕ := 4096

/-- The result of unsigned 32-bit arithmetic. -/
def u32 (x : ℤ) : ℕ := (x % 2 ^ 32).toNat

/-- An unsigned 32-bit value read as an `int`. -/
def s32 (x : ℕ) : ℤ := if x < 2 ^ 31 then x else x - 2 ^ 32

/-- The page of `PN_TO_ADDR(pn)`, an address of 32 bits. -/
def addrPage (pn : ℕ) : ℕ := pn % 2 ^ 20

/-- Which operations an object has (`mmo_ops`). -/
inductive ObjKind where
  | anon | shadow | vnode
  deriving DecidableEq, Repr

/-- The union `mmo_un` is the bottom object in a shadow object and the list of areas,
each with the process whose map it is in, in the other objects. -/
structure Mmobj where
  mmoOps : ObjKind
  mmoRefcount : ℤ
  mmoNrespages : ℤ
  mmoRespages : List ℕ
  mmoShadowed : Option ℕ
  mmoBottomObj : Option ℕ
  mmoVmas : List (ℕ × ℕ)
  deriving DecidableEq, Repr

structure Pframe (D : Type) where
  pfObj : ℕ
  pfPagenum : ℕ
  pfPincount : ℕ
  /-- What is stored at `pf_addr`. -/
  pfData : D

structure Prot where
  read : Bool
  write : Bool
  exec : Bool
  deriving DecidableEq, Repr

structure MapFlags where
  shared : Bool
  priv : Bool
  fixed : Bool
  anon : Bool
  deriving DecidableEq, Repr

structure Vmarea where
  vmaId : ℕ
  vmaStart : ℕ
  vmaEnd : ℕ
  vmaOff : ℕ
  vmaProt : Prot
  vmaFlags : MapFlags
  vmaObj : Option ℕ
  deriving DecidableEq, Repr

/-- A process: its areas, its page table (frame and write flag), and its break. -/
structure Proc where
  vmmList : List Vmarea
  pPagedir : ℕ → Option (ℕ × Bool)
  pBrk : ℕ
  pStartBrk : ℕ

/-- The state. `disk` is what the file system would read for a page of a file, and
`held` counts the references to the object of a file that other parts of the kernel
hold (open files, working directories). -/
structure Memory (D : Type) where
  objs : ℕ → Option Mmobj
  frames : ℕ → Option (Pframe D)
  procs : ℕ → Option Proc
  nextObj : ℕ
  nextFrame : ℕ
  nextArea : ℕ
  nextPid : ℕ
  disk : ℕ → ℕ → D
  held : ℕ → ℕ

/-- Error returns. `noRange` is the `-1` of `vmmap_find_range`, and `mmapOp` an error of
the `mmap` operation of a file. -/
inductive Errno where
  | noRange | einval | enomem | ebadf | eacces | mmapOp (err : ℤ)
  deriving DecidableEq, Repr

/-- What the code under a call decides: whether a vnode is still linked in its file
system (`query_vnode`), whether a frame can be allocated for a page of an object,
whether a file can be read and whether its `mmap` operation fails, and what a frame
holds before it is filled. -/
structure Env (D : Type) where
  queryVnode : ℕ → Bool
  allocOk : ℕ → Bool
  fillOk : ℕ → Bool
  mmapErr : ℕ → Option ℤ
  junk : D

namespace Memory

variable {D : Type}

def modObj (o : ℕ) (f : Mmobj → Mmobj) (s : Memory D) : Memory D :=
  { s with objs := update s.objs o ((s.objs o).map f) }

def freeObj (o : ℕ) (s : Memory D) : Memory D := { s with objs := update s.objs o none }

def modFrame (f : ℕ) (g : Pframe D → Pframe D) (s : Memory D) : Memory D :=
  { s with frames := update s.frames f ((s.frames f).map g) }

def modProc (pid : ℕ) (f : Proc → Proc) (s : Memory D) : Memory D :=
  { s with procs := update s.procs pid ((s.procs pid).map f) }

/-- The areas of a process; a process that has exited has none. -/
def vmmList (s : Memory D) (pid : ℕ) : List Vmarea := (s.procs pid).elim [] Proc.vmmList

def setList (pid : ℕ) (l : List Vmarea) : Memory D → Memory D := modProc pid fun p => { p with vmmList := l }

def findArea (s : Memory D) (pid k : ℕ) : Option Vmarea := (s.vmmList pid).find? fun a => a.vmaId = k

/-- Update one area. -/
def modArea (pid k : ℕ) (f : Vmarea → Vmarea) (s : Memory D) : Memory D :=
  s.setList pid ((s.vmmList pid).map fun a => if a.vmaId = k then f a else a)

/-- `list_remove` of `vma_plink` and of `vma_olink`. -/
def unlinkArea (pid k : ℕ) (s : Memory D) : Memory D :=
  { s.setList pid ((s.vmmList pid).filter fun a => a.vmaId ≠ k) with
    objs := fun o => (s.objs o).map fun ob => { ob with mmoVmas := ob.mmoVmas.filter (· ≠ (pid, k)) } }

/-- `pt_unmap_range`, in pages. -/
def ptUnmapRange (pid lo hi : ℕ) : Memory D → Memory D :=
  modProc pid fun p => { p with pPagedir := fun v => if lo ≤ v ∧ v < hi then none else p.pPagedir v }

def ptUnmap (pid vfn : ℕ) : Memory D → Memory D := ptUnmapRange pid vfn (vfn+1)

def ptMap (pid vfn frame : ℕ) (write : Bool) : Memory D → Memory D :=
  modProc pid fun p => { p with pPagedir := update p.pPagedir vfn (some (frame, write)) }

end Memory

end Csci402.Vm
