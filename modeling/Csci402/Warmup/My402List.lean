import Mathlib.Data.Int.Notation
import Csci402.Lib.Ring

/-! The doubly linked lists of `my402list.c`, which both warmups use. The memory holds
any number of lists and cells; a pointer leads to the anchor of a list or to a cell, or
is NULL (`none`). Each field of the structures is an array of its own, indexed by what
holds it. A function returns `none` where the source dereferences NULL or a freed cell,
or does not leave a loop in as many rounds as the list has members.

The result of `malloc` is an input. A new cell holds whatever its fields held before;
the functions store into all of them before they read any. -/

namespace Csci402.Warmup

open Lib Function

/-- What a `My402ListElem*` that is not NULL can lead to. -/
inductive Ref (L A : Type) where
  | anchor (l : L)
  | elem (a : A)
  deriving DecidableEq, Repr

structure Store (L A O : Type) where
  links : Links (Ref L A)
  obj : A → O
  /-- The cells that have been allocated and not freed. -/
  alive : A → Bool
  numMembers : L → ℤ

namespace Store

variable {L A O : Type}

/-- The pointer leads to memory that may be used. -/
def ok (s : Store L A O) : Ref L A → Bool
  | .anchor _ => true
  | .elem a => s.alive a

def getNext (p : Option (Ref L A)) (s : Store L A O) : Option (Option (Ref L A)) :=
  p.bind fun r => if s.ok r then some (s.links.next r) else none

def getPrev (p : Option (Ref L A)) (s : Store L A O) : Option (Option (Ref L A)) :=
  p.bind fun r => if s.ok r then some (s.links.prev r) else none

/-- The object in a cell; the anchors hold none. -/
def getObj (p : Option (Ref L A)) (s : Store L A O) : Option O :=
  p.bind fun
    | .anchor _ => none
    | .elem a => if s.alive a then some (s.obj a) else none

variable [DecidableEq L] [DecidableEq A] [DecidableEq O]

def setNext (p v : Option (Ref L A)) (s : Store L A O) : Option (Store L A O) :=
  p.bind fun r => if s.ok r then
    some { s with links := { s.links with next := update s.links.next r v } } else none

def setPrev (p v : Option (Ref L A)) (s : Store L A O) : Option (Store L A O) :=
  p.bind fun r => if s.ok r then
    some { s with links := { s.links with prev := update s.links.prev r v } } else none

def setObj (p : Option (Ref L A)) (o : O) (s : Store L A O) : Option (Store L A O) :=
  p.bind fun
    | .anchor _ => none
    | .elem a => if s.alive a then some { s with obj := update s.obj a o } else none

/-- `num_members` of the list `l` changes by `d`. -/
def addMembers (l : L) (d : ℤ) (s : Store L A O) : Store L A O :=
  { s with numMembers := update s.numMembers l (s.numMembers l+d) }

def malloc (a : A) (s : Store L A O) : Store L A O :=
  { s with alive := update s.alive a true }

def free (p : Option (Ref L A)) (s : Store L A O) : Option (Store L A O) :=
  p.bind fun
    | .anchor _ => none
    | .elem a => if s.alive a then some { s with alive := update s.alive a false } else none

/-! ### Reading a list -/

def my402ListLength (l : L) (s : Store L A O) : ℤ := s.numMembers l

def my402ListEmpty (l : L) (s : Store L A O) : Bool := s.numMembers l = 0

def my402ListFirst (l : L) (s : Store L A O) : Option (Ref L A) :=
  if s.my402ListEmpty l then none else s.links.next (.anchor l)

def my402ListLast (l : L) (s : Store L A O) : Option (Ref L A) :=
  if s.my402ListEmpty l then none else s.links.prev (.anchor l)

def my402ListNext (l : L) (cur : Option (Ref L A)) (s : Store L A O) : Option (Option (Ref L A)) :=
  if s.my402ListLast l = cur then some none else s.getNext cur

def my402ListPrev (l : L) (cur : Option (Ref L A)) (s : Store L A O) : Option (Option (Ref L A)) :=
  if s.my402ListFirst l = cur then some none else s.getPrev cur

/-- The loop of `My402ListFind`. -/
def findLoop (l : L) (o : O) (s : Store L A O) : ℕ → Option (Ref L A) → Option (Option (Ref L A))
  | _, none => some none
  | 0, some _ => none
  | k+1, some cur => do
    if (← s.getObj cur) = o then return some cur
    findLoop l o s k (← s.my402ListNext l cur)

def my402ListFind (l : L) (o : O) (s : Store L A O) : Option (Option (Ref L A)) :=
  findLoop l o s (s.numMembers l).toNat (s.my402ListFirst l)

/-! ### Changing a list -/

def my402ListInit (l : L) (s : Store L A O) : Store L A O :=
  { s with
    numMembers := update s.numMembers l 0
    links :=
      { next := update s.links.next (.anchor l) none
        prev := update s.links.prev (.anchor l) none } }

/-- `m` is what `malloc` returns. -/
def my402ListAppend (l : L) (o : O) (m : Option A) (s : Store L A O) : Option (Bool × Store L A O) :=
  match m with
  | none => some (false, s)
  | some a => do
    let newElem := some (.elem a)
    let anchor := some (.anchor l)
    let s ← (s.malloc a).setObj newElem o
    if s.my402ListEmpty l then
      let s := s.addMembers l 1
      let s ← s.setNext anchor newElem
      let s ← s.setPrev anchor newElem
      let s ← s.setPrev newElem anchor
      let s ← s.setNext newElem anchor
      return (true, s)
    let s := s.addMembers l 1
    let last := s.my402ListLast l
    let s ← s.setPrev newElem last
    let s ← s.setNext newElem anchor
    let s ← s.setNext last newElem
    let s ← s.setPrev anchor newElem
    return (true, s)

def my402ListPrepend (l : L) (o : O) (m : Option A) (s : Store L A O) : Option (Bool × Store L A O) :=
  match m with
  | none => some (false, s)
  | some a => do
    let newElem := some (.elem a)
    let anchor := some (.anchor l)
    let s ← (s.malloc a).setObj newElem o
    if s.my402ListEmpty l then
      let s := s.addMembers l 1
      let s ← s.setNext anchor newElem
      let s ← s.setPrev anchor newElem
      let s ← s.setPrev newElem anchor
      let s ← s.setNext newElem anchor
      return (true, s)
    let s := s.addMembers l 1
    let first := s.my402ListFirst l
    let s ← s.setPrev newElem anchor
    let s ← s.setNext newElem first
    let s ← s.setNext anchor newElem
    let s ← s.setPrev first newElem
    return (true, s)

def my402ListUnlink (l : L) (elem : Option (Ref L A)) (s : Store L A O) : Option (Store L A O) := do
  let prev ← s.getPrev elem
  let next ← s.getNext elem
  let s ← s.setNext prev next
  let s ← s.setPrev next prev
  let s ← s.setPrev elem none
  let s ← s.setNext elem none
  let s ← s.free elem
  return s.addMembers l (-1)

/-- The loop of `My402ListUnlinkAll`. -/
def unlinkLoop (l : L) : ℕ → Option (Ref L A) → Option (Ref L A) → Store L A O → Option (Store L A O)
  | _, none, _, s => some s
  | 0, some _, _, _ => none
  | k+1, some cur, curNext, s => do
    let s ← s.my402ListUnlink l cur
    unlinkLoop l k curNext (← s.my402ListNext l curNext) s

def my402ListUnlinkAll (l : L) (s : Store L A O) : Option (Store L A O) := do
  let cur := s.my402ListFirst l
  let curNext ← s.my402ListNext l cur
  let s ← unlinkLoop l (s.numMembers l).toNat cur curNext s
  return s.my402ListInit l

/-- `malloc` is not checked here. -/
def my402ListInsertAfter (l : L) (o : O) (elem : Option (Ref L A)) (m : Option A) (s : Store L A O) :
    Option (Bool × Store L A O) :=
  if elem = none then s.my402ListAppend l o m else do
    let s := s.addMembers l 1
    let a ← m
    let newElem := some (.elem a)
    let s ← (s.malloc a).setObj newElem o
    let next ← s.getNext elem
    let s ← s.setPrev newElem elem
    let s ← s.setNext newElem next
    let s ← s.setNext elem newElem
    let s ← s.setPrev next newElem
    return (true, s)

def my402ListInsertBefore (l : L) (o : O) (elem : Option (Ref L A)) (m : Option A) (s : Store L A O) :
    Option (Bool × Store L A O) :=
  if elem = none then s.my402ListPrepend l o m else do
    let s := s.addMembers l 1
    let a ← m
    let newElem := some (.elem a)
    let s ← (s.malloc a).setObj newElem o
    let prev ← s.getPrev elem
    let s ← s.setPrev newElem prev
    let s ← s.setNext newElem elem
    let s ← s.setNext prev newElem
    let s ← s.setPrev elem newElem
    return (true, s)

end Store

/-! ### Sequences of calls -/

/-- A call, with the result of `malloc` where it allocates. -/
inductive ListOp (L A O : Type) where
  | init (l : L)
  | append (l : L) (o : O) (m : Option A)
  | prepend (l : L) (o : O) (m : Option A)
  | insertAfter (l : L) (o : O) (elem : Option A) (m : Option A)
  | insertBefore (l : L) (o : O) (elem : Option A) (m : Option A)
  | unlink (l : L) (elem : Option A)
  | unlinkAll (l : L)

namespace Store

variable {L A O : Type} [DecidableEq L] [DecidableEq A] [DecidableEq O]

/-- The call returns with the given state; those that return a value return TRUE or FALSE. -/
def call (s : Store L A O) : ListOp L A O → Option (Bool × Store L A O)
  | .init l => some (true, s.my402ListInit l)
  | .append l o m => s.my402ListAppend l o m
  | .prepend l o m => s.my402ListPrepend l o m
  | .insertAfter l o elem m => s.my402ListInsertAfter l o (elem.map .elem) m
  | .insertBefore l o elem m => s.my402ListInsertBefore l o (elem.map .elem) m
  | .unlink l elem => (s.my402ListUnlink l (elem.map .elem)).map (true, ·)
  | .unlinkAll l => (s.my402ListUnlinkAll l).map (true, ·)

end Store

end Csci402.Warmup
