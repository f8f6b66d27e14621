import Csci402.Lib.Prog
import Mathlib.Data.Int.Notation
import Mathlib.Data.Nat.Notation
import Mathlib.Logic.Function.Basic

/-! The state of the virtual file system as the system calls of `fs/vfs_syscall.c` and
`fs/open.c` see it: references to vnodes, open files, and descriptor tables. A call runs to
completion; the operations of the file system are functions of its state. Directories have
the operations on names, and all other files none of them; `read` and `write` are missing for
directories and for block special files.

A call stops where an assertion fails or a null pointer is used. -/

namespace Csci402.Fs

open Lib Lib.Prog Function

/-- Error numbers; those of the file system are told apart by their value. -/
inductive Errno where
  | ebadf
  | eisdir
  | einval
  | eexist
  | enotdir
  | enametoolong
  | enotempty
  | eperm
  | emfile
  | other (n : ℕ)
  deriving DecidableEq, Repr

/-- The type of a file in `vn_mode`. -/
inductive FileType where
  | dir
  | reg
  | chr
  | blk
  | other (n : ℕ)
  deriving DecidableEq, Repr

/-- The files whose `read` and `write` are null pointers. -/
def FileType.NoTransfer (ty : FileType) : Prop := ty = .dir ∨ ty = .blk

instance (ty : FileType) : Decidable ty.NoTransfer := inferInstanceAs (Decidable (_ ∨ _))

/-- What the system calls ask of the file system (not under `src`), with the constants
`NAME_LEN`, `NFILES` and `sizeof(dirent_t)`, the vnode `vfs_root_vn` and `name_match`. Results of `int` type are
as the operation returns them. -/
structure Ops (F E : Type) where
  nameLen : ℕ
  nfiles : ℕ
  direntSize : ℕ
  root : ℕ
  type : ℕ → FileType
  vnLen : F → ℕ → ℤ
  lookup : F → ℕ → List Char → Except Errno ℕ
  create : F → ℕ → List Char → F × Except Errno ℕ
  mknod : F → ℕ → List Char → FileType → ℕ → F × ℤ
  mkdir : F → ℕ → List Char → F × ℤ
  rmdir : F → ℕ → List Char → F × ℤ
  unlink : F → ℕ → List Char → F × ℤ
  link : F → ℕ → ℕ → List Char → F × ℤ
  stat : F → ℕ → ℤ
  read : F → ℕ → ℤ → ℕ → F × ℤ
  write : F → ℕ → ℤ → ℕ → F × ℤ
  readdir : F → ℕ → ℤ → F × ℤ × E
  nameMatch : List Char → List Char → ℕ → Bool

structure FMode where
  read : Bool
  write : Bool
  append : Bool
  deriving DecidableEq, Repr

structure File where
  fVnode : Option ℕ
  fPos : ℤ
  fMode : FMode
  fRefcount : ℕ
  deriving DecidableEq

structure Process where
  pFiles : ℕ → Option ℕ
  pCwd : ℕ

/-- What a call does with the vnodes it is given by path resolution. -/
inductive Event where
  | got (v : ℕ)
  | put (v : ℕ)
  | use (v : ℕ)
  | made (v : ℕ)
  deriving DecidableEq, Repr

/-- The state. `refs` are the active references of a vnode, those that are not held by its
pages; `trace` is a history variable, the latest event first. -/
structure Vfs (F : Type) where
  fs : F
  refs : ℕ → ℕ
  files : ℕ → Option File
  procs : ℕ → Option Process
  nextFile : ℕ
  nextPid : ℕ
  trace : List Event

/-- What a call returns: a value that is not negative, or an error. -/
abbrev Ret := Except Errno ℤ

def Ret.ofInt (n : ℤ) : Ret := if n < 0 then .error (.other n.natAbs) else .ok n

section Vnodes

variable {F E : Type}

def note (e : Event) : Prog (Vfs F) Unit := modify fun s => { s with trace := e :: s.trace }

def addRef (v : ℕ) : Prog (Vfs F) Unit := modify fun s =>
  { s with refs := update s.refs v (s.refs v+1) }

/-- `vput` with its assertion, for a reference that the call was not given by path resolution. -/
def dropRef (v : ℕ) : Prog (Vfs F) Unit := do
  let s ← get
  assert (0 < s.refs v)
  modify fun s => { s with refs := update s.refs v (s.refs v - 1) }

/-- The call is given a reference to a vnode. -/
def gain (v : ℕ) : Prog (Vfs F) Unit := do
  addRef v
  note (.got v)

def vref (v : ℕ) : Prog (Vfs F) Unit := do
  let s ← get
  assert (0 < s.refs v)
  gain v

def vput (vn : Option ℕ) : Prog (Vfs F) Unit := do
  let v ← need vn
  dropRef v
  note (.put v)

/-- A `vput` that is made only for a vnode. -/
def vputIf (vn : Option ℕ) : Prog (Vfs F) Unit := match vn with
  | some v => vput (some v)
  | none => pure ()

/-- A field of the vnode is read, or it is given to an operation. -/
def useVnode (v : ℕ) : Prog (Vfs F) Unit := note (.use v)

def useIf (vn : Option ℕ) : Prog (Vfs F) Unit := match vn with
  | some v => useVnode v
  | none => pure ()

/-- An operation on names of a directory. -/
def dirOp (ops : Ops F E) (dir : ℕ) (name : Option (List Char)) (op : F → ℕ → List Char → F × ℤ) :
    Prog (Vfs F) Ret := do
  useVnode dir
  assert (ops.type dir = .dir)
  let name ← need name
  let s ← get
  modify fun s => { s with fs := (op s.fs dir name).1 }
  return .ofInt (op s.fs dir name).2

end Vnodes

end Csci402.Fs
