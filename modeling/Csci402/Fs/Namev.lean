import Csci402.Fs.Path
import Csci402.Fs.Vfs

/-! Path resolution: `lookup`, `dir_namev` and `open_namev` of `fs/namev.c`. -/

namespace Csci402.Fs

open Lib Lib.Prog

variable {F E : Type} (ops : Ops F E)

def lookup (dir : ℕ) (name : Option (List Char)) : Prog (Vfs F) (Except Errno ℕ) := do
  let name ← need name
  if ops.type dir ≠ .dir then return .error .enotdir
  else
    let s ← get
    match ops.lookup s.fs dir name with
    | .error e => return .error e
    | .ok v =>
      gain v
      return .ok v

/-- The operation `create` of a directory. -/
def create (dir : ℕ) (name : Option (List Char)) : Prog (Vfs F) (Except Errno ℕ) := do
  useVnode dir
  assert (ops.type dir = .dir)
  let name ← need name
  let s ← get
  modify fun s => { s with fs := (ops.create s.fs dir name).1 }
  match (ops.create s.fs dir name).2 with
  | .error e => return .error e
  | .ok v =>
    gain v
    note (.made v)
    return .ok v

/-- What `dir_namev` returns: the vnode of the directory, and the last component by its
index in the path and its length. -/
structure DirName where
  namelen : ℕ
  name : Option ℕ
  vnode : ℕ
  deriving DecidableEq, Repr

/-- The characters of the last component. -/
def DirName.base (d : DirName) (p : List Char) : Option (List Char) := d.name.map fun i => slice p i (i+d.namelen)

/-- The loop of `dir_namev` over the components before the last one. `prevVNode` is what
`curVNode` was before the lookup. -/
def dirLoop (p : List Char) (limit : ℕ) :
    (fuel fast curBase : ℕ) → (curVNode : Option ℕ) → Prog (Vfs F) (Except Errno (ℕ × Option ℕ))
  | 0, _, _, _ => stop
  | n+1, slow, curBase, curVNode =>
    if slow < limit then do
      let fast := scanName p limit slow
      if fast - slow > ops.nameLen then
        vput curVNode
        return .error .enametoolong
      else
        useIf curVNode
        let code ← lookup ops curBase (some (slice p slow fast))
        vputIf curVNode
        match code with
        | .error e => return .error e
        | .ok v => dirLoop p limit n (skipSlashes p limit fast) v (some v)
    else return .ok (curBase, curVNode)

/-- The vnode at which the resolution of a path starts. -/
def startOf (p : List Char) (base : Option ℕ) (cwd : ℕ) : ℕ := if charAt p 0 = '/' then ops.root else base.getD cwd

def dirNamev (pid : ℕ) (p : List Char) (base : Option ℕ) : Prog (Vfs F) (Except Errno DirName) := do
  let s ← get
  let curproc ← need (s.procs pid)
  let curBase := startOf ops p base curproc.pCwd
  let (indexLimit, lastSlashLen) := trailing p p.length
  let indexLimit := lastSlash p indexLimit
  let namelen := p.length - lastSlashLen - indexLimit
  if namelen > ops.nameLen then return .error .enametoolong
  else
    let name := if namelen > 0 then some indexLimit else none
    match ← dirLoop ops p (indexLimit - 1) (p.length+1) (skipSlashes p (indexLimit - 1) 0) curBase none with
    | .error e => return .error e
    | .ok (curBase, some curVNode) =>
      useVnode curVNode
      if ops.type curBase ≠ .dir then
        vput (some curVNode)
        return .error .enotdir
      else return .ok ⟨namelen,name,curVNode⟩
    | .ok (curBase, none) =>
      vref curBase
      return .ok ⟨namelen,name,curBase⟩

/-- `open_namev`; `creat` is whether `O_CREAT` is set in the flags. -/
def openNamev (pid : ℕ) (p : List Char) (creat : Bool) (base : Option ℕ) : Prog (Vfs F) (Except Errno ℕ) := do
  match ← dirNamev ops pid p base with
  | .error e => return .error e
  | .ok d =>
    if d.namelen = 0 then return .ok d.vnode
    else
      useVnode d.vnode
      match ← lookup ops d.vnode (d.base p) with
      | .error e =>
        if creat then
          let code ← create ops d.vnode (d.base p)
          vput (some d.vnode)
          return code
        else
          vput (some d.vnode)
          return .error e
      | .ok v =>
        useIf (if charAt p (p.length - 1) = '/' then some v else none)
        if charAt p (p.length - 1) = '/' ∧ ops.type v ≠ .dir then
          vput (some v)
          vput (some d.vnode)
          return .error .enotdir
        else
          vput (some d.vnode)
          return .ok v

end Csci402.Fs
