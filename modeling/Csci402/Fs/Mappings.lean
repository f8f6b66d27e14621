import Csci402.Fs.FileRuns
import Csci402.Vm.Counts

/-! References to vnodes from mappings. The count of a vnode is that of its memory object, and
areas and shadow objects count there as well: `do_fork` and the exit of a process change it
through the areas of the process. Here the two states stand side by side. `refs` of the file
system and `held` of the virtual memory are the same references, those that come from files,
working directories and path resolution. -/

namespace Csci402.Fs

open Lib Option
open Vm (Memory UserMem Env)

variable {F E D : Type}

/-- `node v` is the memory object of the vnode `v`, while the vnode is in memory. -/
structure Joint (F D : Type) where
  vfs : Vfs F
  mem : Memory D
  node : ℕ → Option ℕ

/-- A system call, with the calls it makes for vnodes and areas and the vnodes that are in memory
after it; or a call of the virtual memory alone. -/
inductive Act (D : Type) where
  | syscall (pid : ℕ) (c : Call) (vm : List (Env D × Memory.Call D)) (node : ℕ → Option ℕ)
  | vm (c : Env D × Memory.Call D)

namespace Joint

/-- The calls that take and drop references to vnodes from outside. -/
def isRef : Memory.Call D → Bool
  | .vget | .vref _ | .vput _ => true
  | _ => false

/-- What a system call does with areas: `do_fork` copies them, and a process that exits gives them up. -/
def mapCalls (pid : ℕ) : Call → List (Memory.Call D)
  | .fork => [.fork pid]
  | .exit => [.exit pid]
  | _ => []

def step [Zero D] (ops : Ops F E) (U : UserMem) (k : Joint F D) : Act D → Option (Joint F D)
  | .syscall pid c vm node => do
    let vfs ← Fs.step ops k.vfs (pid, c)
    let mem ← run (Memory.step U) Memory.Allowed k.mem vm
    return ⟨vfs,mem,node⟩
  | .vm c => do
    let mem ← run (Memory.step U) Memory.Allowed k.mem [c]
    return { k with mem }

/-- Both count the same references to a vnode. -/
def Tied (k : Joint F D) : Prop := ∀ v, k.vfs.refs v = (k.node v).elim 0 k.mem.held

/-- The calls that a system call makes are its own, in any order; the references that it has taken and
dropped when it returns are those that both sides count. -/
structure Fits [Zero D] (ops : Ops F E) (U : UserMem) (k : Joint F D) (a : Act D) : Prop where
  own : ∀ pid c vm node, a = .syscall pid c vm node → (vm.map Prod.snd).filter (!isRef ·) = mapCalls pid c
  tied : ∀ t, step ops U k a = some t → Tied t

/-- What holds after every call. -/
structure Inv (ops : Ops F E) (U : UserMem) (base : ℕ → ℕ) (k : Joint F D) : Prop where
  vfs : Started ops base k.vfs
  mem : Memory.Sys U k.mem
  tied : Tied k

variable [Zero D] {ops : Ops F E} {U : UserMem} {base : ℕ → ℕ} {k k0 t : Joint F D}

theorem Inv.step {a : Act D} (h : Inv ops U base k) (ha : Fits ops U k a) (hs : Joint.step ops U k a = some t) :
    Inv ops U base t := by
  have htied := ha.tied t hs
  cases a with
  | syscall pid c vm node =>
    obtain ⟨vfs,hvfs,hs⟩ := bind_eq_some_iff.mp hs
    obtain ⟨mem,hmem,hs⟩ := bind_eq_some_iff.mp hs
    cases hs
    refine ⟨(h.vfs.run (Exec.one trivial hvfs)).1,?_,htied⟩
    exact Memory.sys_of_exec h.mem (Exec.ofRun hmem)
  | vm c =>
    obtain ⟨mem,hmem,hs⟩ := bind_eq_some_iff.mp hs
    cases hs
    exact ⟨h.vfs,Memory.sys_of_exec h.mem (Exec.ofRun hmem),htied⟩

end Joint

open Joint

end Csci402.Fs
