import Csci402.Api.Access
import Csci402.Fs.Descriptors

/-! The system calls that move data between files and user memory (`api/syscall.c`):
`sys_read`, `sys_write` and `sys_getdents`. Each has a buffer of the kernel between the two
sides. The record of arguments is given as what `copy_from_user` made of it; it does not
change during the call. -/

namespace Csci402.Api

open Lib Lib.Prog Vm Vm.Memory Fs

/-- The file system, and user memory with the buffer of the call. -/
structure Kernel (β F : Type) where
  vfs : Vfs F
  xfer : Transfer β

inductive SysError where
  | fs (e : Fs.Errno)
  | copy (e : CopyError)
  deriving DecidableEq, Repr

/-- What is stored in `kt_errno` where the call returns -1, or what it returns. -/
abbrev SysRet := Except SysError ℤ

structure RwArgs where
  fd : ℤ
  buf : ℕ
  nbytes : ℕ

structure GetdentsArgs where
  fd : ℤ
  dirp : ℕ
  count : ℕ

/-- What the code outside the source decides: what a page holds when it is allocated, what a
`read` puts into its buffer, how much of its buffer an operation that fails or does not return has
accessed, and the bytes of an entry. -/
structure Io (β E : Type) where
  page : ℕ → β
  data : ℕ → β
  partly : ℕ
  encode : E → ℕ → β

variable {β F E : Type} {α : Type}

def onVfs (m : Prog (Vfs F) α) : Prog (Kernel β F) α := fun k => ((m k.vfs).1, { k with vfs := (m k.vfs).2 })

/-- A copy that uses a frame that is not there stops. -/
def onTransfer (f : Transfer β → Option (Transfer β × α)) : Prog (Kernel β F) α := fun k =>
  match f k.xfer with
  | none => (none, k)
  | some (x, a) => (some a, { k with xfer := x })

/-- The buffer is new. -/
def newBuffer (data : ℕ → β) : Prog (Kernel β F) Unit := modify fun k =>
  { k with xfer := { k.xfer with buf := data, touched := [] } }

/-- How much of its buffer a call on `nbytes` bytes has accessed. A call that refuses its descriptor
does not get to the operation; `stopped` is for a call that does not return. -/
def accessed (io : Io β E) (nbytes stopped : ℕ) : Option Ret → ℕ
  | some (.ok n) => min n.toNat nbytes
  | some (.error (.other _)) => min io.partly nbytes
  | some (.error _) => 0
  | none => min stopped nbytes

/-- `do_read` or `do_write` on the first `nbytes` bytes of the buffer, which then holds `data`. -/
def fileOp (io : Io β E) (nbytes stopped : ℕ) (data : (ℕ → β) → ℕ → β) (m : Prog (Vfs F) Ret) : Prog (Kernel β F) Ret := fun k =>
  ((m k.vfs).1, {
    vfs := (m k.vfs).2
    xfer := { k.xfer with
      buf := data k.xfer.buf
      touched := k.xfer.touched ++ [(0, accessed io nbytes stopped (m k.vfs).1)] } })

variable [Zero β] (ops : Ops F E) (env : Env (ℕ → β)) (io : Io β E)

def sysRead (pid : ℕ) (args : Except CopyError RwArgs) : Prog (Kernel β F) SysRet :=
  match args with
  | .error e => return .error (.copy e)
  | .ok a => do
    newBuffer io.page
    -- where `do_read` stops, it does so before its operation
    match ← fileOp io a.nbytes 0 (fun _ => io.data) (doRead ops pid a.fd a.nbytes) with
    | .error e => return .error (.fs e)
    | .ok readbytes =>
      match ← onTransfer (copyToUser env pid a.buf readbytes.toNat) with
      | .error e => return .error (.copy e)
      | .ok () => return .ok readbytes

/-- `sys_write`. The copy into the buffer is made twice, and only the second result is
looked at. -/
def sysWrite (pid : ℕ) (args : Except CopyError RwArgs) : Prog (Kernel β F) SysRet :=
  match args with
  | .error e => return .error (.copy e)
  | .ok a => do
    newBuffer io.page
    let _ ← onTransfer (copyFromUser env pid a.buf a.nbytes)
    match ← onTransfer (copyFromUser env pid a.buf a.nbytes) with
    | .error e => return .error (.copy e)
    | .ok () =>
      match ← fileOp io a.nbytes io.partly id (doWrite ops pid a.fd a.nbytes) with
      | .error e => return .error (.fs e)
      | .ok writebytes => return .ok writebytes

/-- The loop of `sys_getdents`, cut off after `fuel` rounds. -/
def getdentsLoop (pid : ℕ) (a : GetdentsArgs) : (fuel bytes tail : ℕ) → Prog (Kernel β F) SysRet
  | 0, _, _ => stop
  | n+1, bytes, tail =>
    if bytes < a.count then do
      let (r, dirent) ← onVfs (doGetdent ops pid a.fd)
      match r with
      | .error e => return .error (.fs e)
      | .ok size =>
        if size = 0 then return .ok (int32 bytes)
        else
          let dirent ← need dirent
          newBuffer (io.encode dirent)
          match ← onTransfer (copyToUser env pid tail ops.direntSize) with
          | .error e => return .error (.copy e)
          | .ok () => getdentsLoop pid a n (u32 (bytes+ops.direntSize)) (u32 (tail+ops.direntSize))
    else return .ok (int32 bytes)

def sysGetdents (pid : ℕ) (args : Except CopyError GetdentsArgs) : Prog (Kernel β F) SysRet :=
  match args with
  | .error e => return .error (.copy e)
  | .ok a => getdentsLoop ops env io pid a (a.count+1) 0 a.dirp

end Csci402.Api
