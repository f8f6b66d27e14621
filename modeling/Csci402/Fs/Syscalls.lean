import Csci402.Fs.Namev
import Mathlib.Algebra.Order.Ring.Int

/-! The system calls of `fs/vfs_syscall.c` and `fs/open.c`, and what `do_fork`, `proc_create`
and `proc_cleanup` of `proc` do with files and working directories. `fget`, `fref` and `fput`
(not under `src`) count the references to a file, and the last `fput` puts its vnode. -/

namespace Csci402.Fs

open Lib Lib.Prog Function

/-- Two's complement in 32 bits. -/
def int32 (n : ℤ) : ℤ := (n+2 ^ 31) % 2 ^ 32 - 2 ^ 31

variable {F E : Type} (ops : Ops F E)

/-! ### Files and descriptors -/

def modFile (f : ℕ) (g : File → File) : Prog (Vfs F) Unit := modify fun s =>
  { s with files := update s.files f ((s.files f).map g) }

def setSlot (pid fd : ℕ) (x : Option ℕ) : Prog (Vfs F) Unit := modify fun s =>
  { s with procs := update s.procs pid ((s.procs pid).map fun p =>
      { p with pFiles := update p.pFiles fd x }) }

/-- `p_files[fd]`, or none where the test of the system calls fails. -/
def slot (pid : ℕ) (fd : ℤ) : Prog (Vfs F) (Option ℕ) := do
  let s ← get
  let p ← need (s.procs pid)
  return if fd < 0 ∨ ops.nfiles ≤ fd then none else p.pFiles fd.toNat

def fref (f : ℕ) : Prog (Vfs F) Unit := do
  let s ← get
  let _ ← need (s.files f)
  modFile f fun file => { file with fRefcount := file.fRefcount+1 }

/-- `fget(-1)`: a new file. -/
def newFile : Prog (Vfs F) ℕ := do
  let s ← get
  modify fun s => { s with
    files := update s.files s.nextFile (some ⟨none,0,⟨false,false,false⟩,1⟩)
    nextFile := s.nextFile+1 }
  return s.nextFile

def dropIf (vn : Option ℕ) : Prog (Vfs F) Unit := match vn with
  | some v => dropRef v
  | none => pure ()

def fput (f : ℕ) : Prog (Vfs F) Unit := do
  let s ← get
  let file ← need (s.files f)
  assert (0 < file.fRefcount)
  if file.fRefcount = 1 then
    modify fun s => { s with files := update s.files f none }
    dropIf file.fVnode
  else modFile f fun file => { file with fRefcount := file.fRefcount - 1 }

/-- A file and its vnode. -/
def openFile (f : ℕ) : Prog (Vfs F) (File × ℕ) := do
  let s ← get
  let file ← need (s.files f)
  let v ← need file.fVnode
  return (file, v)

/-- The loop of `get_empty_fd`. -/
def emptyFd (p : Process) : (n fd : ℕ) → Option ℕ
  | 0, _ => none
  | n+1, fd => if (p.pFiles fd).isNone then some fd else emptyFd p n (fd+1)

def getEmptyFd (pid : ℕ) : Prog (Vfs F) (Option ℕ) := do
  let s ← get
  let p ← need (s.procs pid)
  return emptyFd p ops.nfiles 0

/-! ### Calls on descriptors -/

def doRead (pid : ℕ) (fd : ℤ) (nbytes : ℕ) : Prog (Vfs F) Ret := do
  match ← slot ops pid fd with
  | none => return .error .ebadf
  | some f =>
    fref f
    let (file, v) ← openFile f
    if (ops.type v).NoTransfer then
      fput f
      return .error .eisdir
    else if ¬ file.fMode.read then
      fput f
      return .error .ebadf
    else
      let s ← get
      let (fs, rbytes) := ops.read s.fs v file.fPos nbytes
      modify fun s => { s with fs := fs }
      if rbytes < 0 then
        fput f
        return .ofInt rbytes
      else
        modFile f fun file => { file with fPos := int32 (file.fPos+rbytes) }
        fput f
        return .ofInt rbytes

inductive Whence where
  | set
  | cur
  | fromEnd
  | other
  deriving DecidableEq, Repr

/-- The position that `do_lseek` sets, or none for a position that it refuses. -/
def seekTo (pos len offset : ℤ) : Whence → Option ℤ
  | .set => if offset < 0 then none else some offset
  | .cur => if int32 (pos+offset) < 0 then none else some (int32 (pos+offset))
  | .fromEnd => if int32 (offset+len) < 0 then none else some (int32 (len+offset))
  | .other => none

def doLseek (pid : ℕ) (fd offset : ℤ) (whence : Whence) : Prog (Vfs F) Ret := do
  match ← slot ops pid fd with
  | none => return .error .ebadf
  | some f =>
    fref f
    let (file, v) ← openFile f
    let s ← get
    match seekTo file.fPos (ops.vnLen s.fs v) offset whence with
    | none =>
      fput f
      return .error .einval
    | some pos =>
      modFile f fun file => { file with fPos := pos }
      fput f
      return .ok pos

/-- In append mode `do_write` goes to the end of the file first. -/
def seekToEnd (pid : ℕ) (fd : ℤ) (file : File) : Prog (Vfs F) Ret :=
  if file.fMode.append then doLseek ops pid fd 0 .fromEnd else return .ok 0

/-- `do_write`, which calls `write` without a look at it. -/
def doWrite (pid : ℕ) (fd : ℤ) (nbytes : ℕ) : Prog (Vfs F) Ret := do
  match ← slot ops pid fd with
  | none => return .error .ebadf
  | some f =>
    fref f
    let (file, v) ← openFile f
    if ¬ (file.fMode.write ∨ file.fMode.append) then
      fput f
      return .error .ebadf
    else
      let _ ← seekToEnd ops pid fd file
      let (file, _) ← openFile f
      assert (¬ (ops.type v).NoTransfer)
      let s ← get
      let (fs, wbytes) := ops.write s.fs v file.fPos nbytes
      modify fun s => { s with fs := fs }
      modFile f fun file => { file with fPos := int32 (file.fPos+wbytes) }
      assert (ops.type v = .chr ∨ ops.type v = .blk ∨
        (ops.type v = .reg ∧ int32 (file.fPos+wbytes) ≤ ops.vnLen fs v))
      fput f
      return .ofInt wbytes

/-- `do_getdent`, with the entry that is filled in. -/
def doGetdent (pid : ℕ) (fd : ℤ) : Prog (Vfs F) (Ret × Option E) := do
  match ← slot ops pid fd with
  | none => return (.error .ebadf, none)
  | some f =>
    fref f
    let (file, v) ← openFile f
    if ops.type v ≠ .dir then
      fput f
      return (.error .enotdir, none)
    else
      let s ← get
      let (fs, readByteSize, dirent) := ops.readdir s.fs v file.fPos
      modify fun s => { s with fs := fs }
      modFile f fun file => { file with fPos := int32 (file.fPos+readByteSize) }
      fput f
      if readByteSize = 0 then return (.ok 0, some dirent)
      else return (.ok ops.direntSize, some dirent)

def doClose (pid : ℕ) (fd : ℤ) : Prog (Vfs F) Ret := do
  match ← slot ops pid fd with
  | none => return .error .ebadf
  | some f =>
    fput f
    setSlot pid fd.toNat none
    return .ok 0

def doDup (pid : ℕ) (fd : ℤ) : Prog (Vfs F) Ret := do
  match ← slot ops pid fd with
  | none => return .error .ebadf
  | some f =>
    fref f
    match ← getEmptyFd ops pid with
    | none =>
      fput f
      return .error .emfile
    | some nfd =>
      setSlot pid nfd (some f)
      return .ok nfd

/-- `do_dup2` closes what is in the new descriptor, unless it is the old one. -/
def closeOther (pid : ℕ) (ofd nfd : ℤ) (old : Option ℕ) : Prog (Vfs F) Ret :=
  if old.isSome ∧ nfd ≠ ofd then doClose ops pid nfd else return .ok 0

def fputSame (ofd nfd : ℤ) (f : ℕ) : Prog (Vfs F) Unit := if nfd = ofd then fput f else return ()

def doDup2 (pid : ℕ) (ofd nfd : ℤ) : Prog (Vfs F) Ret := do
  match ← slot ops pid ofd with
  | none => return .error .ebadf
  | some f =>
    if nfd < 0 ∨ ops.nfiles ≤ nfd then return .error .ebadf
    else
      fref f
      let old ← slot ops pid nfd
      let _ ← closeOther ops pid ofd nfd old
      setSlot pid nfd.toNat (some f)
      fputSame ofd nfd f
      return .ok nfd

/-! ### Calls on paths -/

/-- What `do_mknod` and `do_mkdir` do in the directory: the name must be new there. -/
def addEntry (d : DirName) (path : List Char) (op : F → ℕ → List Char → F × ℤ) : Prog (Vfs F) Ret := do
  useVnode d.vnode
  match ← lookup ops d.vnode (d.base path) with
  | .ok v =>
    vput (some v)
    vput (some d.vnode)
    return .error .eexist
  | .error _ =>
    let code ← dirOp ops d.vnode (d.base path) op
    vput (some d.vnode)
    return code

def doMknod (pid : ℕ) (path : List Char) (mode : FileType) (devid : ℕ) : Prog (Vfs F) Ret := do
  if mode ≠ .chr ∧ mode ≠ .blk then return .error .einval
  else
    match ← dirNamev ops pid path none with
    | .error e => return .error e
    | .ok d => addEntry ops d path fun f dir name => ops.mknod f dir name mode devid

def doMkdir (pid : ℕ) (path : List Char) : Prog (Vfs F) Ret := do
  match ← dirNamev ops pid path none with
  | .error e => return .error e
  | .ok d =>
    if d.namelen = 0 ∧ d.vnode = ops.root then
      vput (some d.vnode)
      return .error .eexist
    else addEntry ops d path ops.mkdir

/-- `do_rmdir`; `name_match` is given the rest of the path from the name on. -/
def doRmdir (pid : ℕ) (path : List Char) : Prog (Vfs F) Ret := do
  match ← dirNamev ops pid path none with
  | .error e => return .error e
  | .ok d =>
    let i ← need d.name
    if ops.nameMatch (path.drop i) ['.'] d.namelen then
      vput (some d.vnode)
      return .error .einval
    else if ops.nameMatch (path.drop i) ['.', '.'] d.namelen then
      vput (some d.vnode)
      return .error .enotempty
    else
      let code ← dirOp ops d.vnode (d.base path) ops.rmdir
      vput (some d.vnode)
      return code

def doUnlink (pid : ℕ) (path : List Char) : Prog (Vfs F) Ret := do
  match ← dirNamev ops pid path none with
  | .error e => return .error e
  | .ok d =>
    useVnode d.vnode
    match ← lookup ops d.vnode (d.base path) with
    | .error e =>
      vput (some d.vnode)
      return .error e
    | .ok v =>
      useVnode v
      if ops.type v = .dir then
        vput (some v)
        vput (some d.vnode)
        return .error .eperm
      else
        let code ← dirOp ops d.vnode (d.base path) ops.unlink
        vput (some v)
        vput (some d.vnode)
        return code

/-- `do_link`, which puts the vnode of `from` first and uses it afterwards. -/
def doLink (pid : ℕ) (old new : List Char) : Prog (Vfs F) Ret := do
  match ← openNamev ops pid old false none with
  | .error e => return .error e
  | .ok fromVNode =>
    vput (some fromVNode)
    useVnode fromVNode
    if ops.type fromVNode = .dir then return .error .eperm
    else
      match ← dirNamev ops pid new none with
      | .error e => return .error e
      | .ok d =>
        useVnode d.vnode
        match ← lookup ops d.vnode (d.base new) with
        | .ok v =>
          vput (some v)
          vput (some d.vnode)
          return .error .eexist
        | .error _ =>
          useVnode d.vnode
          if ops.type d.vnode ≠ .dir then
            vput (some d.vnode)
            return .error .enotdir
          else
            useVnode fromVNode
            let code ← dirOp ops d.vnode (d.base new) fun f dir name => ops.link f fromVNode dir name
            vput (some d.vnode)
            return code

def doRename (pid : ℕ) (old new : List Char) : Prog (Vfs F) Ret := do
  match ← doLink ops pid old new with
  | .error e => return .error e
  | .ok _ => doUnlink ops pid old

def doChdir (pid : ℕ) (path : List Char) : Prog (Vfs F) Ret := do
  match ← openNamev ops pid path false none with
  | .error e => return .error e
  | .ok v =>
    useVnode v
    if ops.type v ≠ .dir then
      vput (some v)
      return .error .enotdir
    else
      let s ← get
      let p ← need (s.procs pid)
      dropRef p.pCwd
      modify fun s => { s with procs := update s.procs pid (some { p with pCwd := v }) }
      return .ok 0

def doStat (pid : ℕ) (path : List Char) : Prog (Vfs F) Ret := do
  if path.length = 0 then return .error .einval
  else
    match ← openNamev ops pid path false none with
    | .error e => return .error e
    | .ok v =>
      useVnode v
      let s ← get
      vput (some v)
      return .ofInt (ops.stat s.fs v)

/-- The flags of `do_open`; `O_RDONLY` is the flag word without any. -/
structure OFlags where
  wronly : Bool
  rdwr : Bool
  creat : Bool
  trunc : Bool
  append : Bool
  deriving DecidableEq, Repr

def rdonly : OFlags := ⟨false,false,false,false,false⟩

/-- The mode that `do_open` computes. -/
def modeOf (oflags : OFlags) : FMode where
  read := oflags = rdonly || oflags.rdwr
  write := oflags.wronly || oflags.rdwr
  append := oflags.append

def doOpen (pid : ℕ) (filename : List Char) (oflags : OFlags) : Prog (Vfs F) Ret := do
  if oflags.wronly ∧ oflags.rdwr then return .error .einval
  else
    match ← getEmptyFd ops pid with
    | none => return .error .emfile
    | some newfd =>
      let f ← newFile
      setSlot pid newfd (some f)
      modFile f fun file => { file with fMode := modeOf oflags }
      match ← openNamev ops pid filename oflags.creat none with
      | .error e =>
        fput f
        setSlot pid newfd none
        return .error e
      | .ok v =>
        useVnode v
        if ops.type v = .dir ∧ (oflags.wronly ∨ oflags.rdwr) then
          vput (some v)
          fput f
          setSlot pid newfd none
          return .error .eisdir
        else
          modFile f fun file => { file with fPos := 0, fVnode := some v }
          return .ok newfd

/-! ### Processes -/

/-- A loop over descriptors, from `fd` on. -/
def eachFd (body : ℕ → Prog (Vfs F) Unit) : (n fd : ℕ) → Prog (Vfs F) Unit
  | 0, _ => pure ()
  | n+1, fd => do
    body fd
    eachFd body n (fd+1)

/-- `vref` for a reference that is kept by a process. -/
def keepRef (v : ℕ) : Prog (Vfs F) Unit := do
  let s ← get
  assert (0 < s.refs v)
  addRef v

/-- One round of the loop of `do_fork` over the descriptors. -/
def copyFd (pid child fd : ℕ) : Prog (Vfs F) Unit := do
  let s ← get
  let p ← need (s.procs pid)
  setSlot child fd (p.pFiles fd)
  match p.pFiles fd with
  | none => pure ()
  | some f => fref f

/-- `do_fork`, with `proc_create`, as far as files are concerned. -/
def doFork (pid : ℕ) : Prog (Vfs F) Ret := do
  let s ← get
  let _ ← need (s.procs pid)
  let child := s.nextPid
  keepRef ops.root
  modify fun s => { s with
    procs := update s.procs child (some ⟨fun _ => none,ops.root⟩)
    nextPid := child+1 }
  eachFd (copyFd pid child) ops.nfiles 0
  dropRef ops.root
  let s ← get
  let p ← need (s.procs pid)
  modify fun s =>
    { s with procs := update s.procs child ((s.procs child).map fun c => { c with pCwd := p.pCwd }) }
  keepRef p.pCwd
  return .ok child

def fputIf (x : Option ℕ) : Prog (Vfs F) Unit := match x with
  | none => pure ()
  | some f => fput f

/-- One round of the loop of `proc_cleanup`. -/
def cleanFd (pid fd : ℕ) : Prog (Vfs F) Unit := do
  let s ← get
  let p ← need (s.procs pid)
  fputIf (p.pFiles fd)
  setSlot pid fd none

/-- `proc_cleanup`, as far as files are concerned; the process is gone. -/
def doExit (pid : ℕ) : Prog (Vfs F) Ret := do
  let s ← get
  let p ← need (s.procs pid)
  dropRef p.pCwd
  eachFd (cleanFd pid) ops.nfiles 0
  modify fun s => { s with procs := update s.procs pid none }
  return .ok 0

/-! ### Calls -/

inductive Call where
  | read (fd : ℤ) (nbytes : ℕ)
  | write (fd : ℤ) (nbytes : ℕ)
  | lseek (fd offset : ℤ) (whence : Whence)
  | getdent (fd : ℤ)
  | close (fd : ℤ)
  | dup (fd : ℤ)
  | dup2 (ofd nfd : ℤ)
  | mknod (path : List Char) (mode : FileType) (devid : ℕ)
  | mkdir (path : List Char)
  | rmdir (path : List Char)
  | unlink (path : List Char)
  | link (old new : List Char)
  | rename (old new : List Char)
  | chdir (path : List Char)
  | stat (path : List Char)
  | openFile (filename : List Char) (oflags : OFlags)
  | fork
  | exit
  deriving DecidableEq, Repr

def body (pid : ℕ) : Call → Prog (Vfs F) Ret
  | .read fd nbytes => doRead ops pid fd nbytes
  | .write fd nbytes => doWrite ops pid fd nbytes
  | .lseek fd offset whence => doLseek ops pid fd offset whence
  | .getdent fd => Prod.fst <$> doGetdent ops pid fd
  | .close fd => doClose ops pid fd
  | .dup fd => doDup ops pid fd
  | .dup2 ofd nfd => doDup2 ops pid ofd nfd
  | .mknod path mode devid => doMknod ops pid path mode devid
  | .mkdir path => doMkdir ops pid path
  | .rmdir path => doRmdir ops pid path
  | .unlink path => doUnlink ops pid path
  | .link old new => doLink ops pid old new
  | .rename old new => doRename ops pid old new
  | .chdir path => doChdir ops pid path
  | .stat path => doStat ops pid path
  | .openFile filename oflags => doOpen ops pid filename oflags
  | .fork => doFork ops pid
  | .exit => doExit ops pid

/-- A call of a process; the history is that of the call. -/
def syscall (pid : ℕ) (c : Call) : Prog (Vfs F) Ret := do
  modify fun s => { s with trace := [] }
  body ops pid c

end Csci402.Fs
