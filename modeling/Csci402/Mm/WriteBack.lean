import Csci402.Mm.Filled

/-! The contents of the pages. A frame has data, an object has its pages on disk, and page
tables map frames for writing. `fillpage` brings a page in, `cleanpage` writes it out, and a
page is written to by the kernel, right before `pframe_dirty`, and by user programs, through
a mapping that `handle_pagefault` makes after `pframe_dirty`. Objects here keep their pages on a
disk of their own; the frames that an object gives up when it goes away are not part of this. -/

namespace Csci402.Mm

open Lib Function Option

/-! ### Contents -/

/-- The cache with the data of the frames, the pages on disk, and the frames that a page table
maps for writing, in an area that is on the `mmo_vmas` of the object. -/
structure PageStore (T O F D : Type*) where
  cache : PageCache T O F
  data : F → D
  disk : O × ℕ → D
  writable : F → Bool

/-- A step: one of the cache, a change of a page by the kernel and the call of `pframe_dirty`
that follows it, a page-table entry that is made after `pframe_dirty` or removed, a change by a
user program, or a sleep on a busy frame in `pframe_clean_all` or `pageoutd_run`. An operation
that fails leaves `junk` where it was to write. -/
inductive PageAct (T O F D : Type*) where
  | op (a : PageCache.Op T O F) (junk : D)
  | write (t : T) (f : F) (g : D → D)
  | map (f : F)
  | unmap (f : F)
  | store (f : F) (g : D → D)
  | sleep (t : T) (f : F)

namespace PageStore

open PageCache

variable {T O F D : Type*}

section

variable [DecidableEq T] [DecidableEq O] [DecidableEq F]

/-- What `fillpage` has done to the data and `cleanpage` to the disk when they return. `clean`
and `free` unmap the frame in these areas. -/
def finish (x : PageStore T O F D) (junk : D) (c : PageCache T O F) : Op T O F → PageStore T O F D
  | .filled t ret => match x.cache.stack t with
    | .filling o n f :: _ =>
      { x with cache := c, data := update x.data f (if ret < 0 then junk else x.disk (o, n)) }
    | _ => { x with cache := c }
  | .cleaned t ret => match x.cache.stack t with
    | .cleaning f :: _ => match x.cache.identity f with
      | some p => { x with cache := c, disk := update x.disk p (if ret < 0 then junk else x.data f) }
      | none => { x with cache := c }
    | _ => { x with cache := c }
  | .clean _ f | .free f => { x with cache := c, writable := update x.writable f false }
  | _ => { x with cache := c }

def step (H : HashTable O) (x : PageStore T O F D) : PageAct T O F D → Option (PageStore T O F D)
  | .op a junk => (x.cache.step H a).map fun c => x.finish junk c a
  | .write t f g => (pframeDirty t f x.cache).map fun c =>
    { x with cache := c, data := update x.data f (g (x.data f)) }
  | .map f => some { x with writable := update x.writable f true }
  | .unmap f => some { x with writable := update x.writable f false }
  | .store f g => some { x with data := update x.data f (g (x.data f)) }
  | .sleep t f => (x.cache.frame f).map fun pf => { x with cache := sleepOn t f pf x.cache }

def Enabled (x : PageStore T O F D) : PageAct T O F D → Prop
  | .op a _ => PageCache.Enabled x.cache a
  | .write t f _ => x.cache.ready t = true ∧ x.cache.isBusy f = false
  | .map f => x.cache.isBusy f = false ∧ x.cache.isDirty f = true
  | .unmap _ => True
  | .store f _ => x.writable f = true
  | .sleep t f => x.cache.ready t = true ∧ x.cache.isBusy f = true

/-- `fillpage` and `dirtypage` do not fail, and a frame is clean when it is freed. -/
def Sound (x : PageStore T O F D) : PageAct T O F D → Prop
  | .op (.filled _ ret) _ => 0 ≤ ret
  | .op (.dirtied _ ret) _ => ret = 0
  | .op (.free f) _ => x.cache.isDirty f = false
  | _ => True

end

variable [DecidableEq T] [DecidableEq O] [DecidableEq F] {H : HashTable O} {x x' : PageStore T O F D}
  {c : PageCache T O F} {store store' : O × ℕ → D} {a : Op T O F} {f : F} {t : T} {p : O × ℕ}

omit [DecidableEq T] in
@[simp] theorem finish_cache (x : PageStore T O F D) (junk : D) (c : PageCache T O F) (a : Op T O F) :
    (x.finish junk c a).cache = c := by
  cases a <;> simp only [finish] <;> repeat' split
  all_goals rfl

omit [DecidableEq O] in
/-- A thread goes to sleep on a busy frame outside `pframe_get`. -/
theorem inv_sleepOn {pf : Pframe O T} (h : Inv H c) (hf : c.frame f = some pf) (hb : pf.busy = true)
    (ht : c.ktWchan t = none) : Inv H (sleepOn t f pf c) := by
  have hpop := (h.sleepOn hf hb ht pf.pfObj pf.pfPagenum).popGetting (update_self ..)
  have hstack : ∀ l, update (update c.stack t l) t (c.stack t) = c.stack := by simp
  simpa [setStack,PageCache.sleepOn,setFrame,hstack] using hpop

theorem inv_step (hi : Inv H x.cache) (hb : Enabled x b) (hs : step H x b = some x') :
    Inv H x'.cache := by
  cases b with
  | op a junk =>
    obtain ⟨c,hc,rfl⟩ := map_eq_some_iff.mp hs
    obtain ⟨⟨c',r⟩,hr,rfl⟩ := map_eq_some_iff.mp hc
    rw [finish_cache]
    exact (hi.stepResult hb hr).1
  | write t f g =>
    obtain ⟨c,hc,rfl⟩ := map_eq_some_iff.mp hs
    have hr : PageCache.stepResult H x.cache (.dirty t f) = some (c, none) := by simp [PageCache.stepResult,hc]
    exact (hi.stepResult (a := .dirty t f) hb hr).1
  | map f | unmap f | store f g =>
    cases hs
    exact hi
  | sleep t f =>
    obtain ⟨pf,hf,rfl⟩ := map_eq_some_iff.mp hs
    have hbusy : x.cache.isBusy f = true := hb.2
    rw [isBusy,hf] at hbusy
    exact inv_sleepOn hi hf hbusy (ready_wchan hb.1)

/-! ### Runs -/

/-- The cache is empty, and nothing is mapped. -/
structure Initial (x : PageStore T O F D) : Prop where
  cache : PageCache.Initial x.cache
  unmapped : ∀ f, x.writable f = false

instance (x : PageStore T O F D) : ∀ a : PageAct T O F D, Decidable (Enabled x a) := by
  rintro ⟨⟩ <;> unfold Enabled <;> infer_instance

def sampleHash : HashTable Unit := ⟨fun _ => 0,7⟩

/-- The cache of `sampleCache` before a disk of zeros. -/
def sampleStore : PageStore (Fin 2) Unit (Fin 2) ℕ := ⟨sampleCache,fun _ => 9,fun _ => 0,fun _ => false⟩

theorem sampleStore_initial : Initial sampleStore := ⟨sampleCache_initial,fun _ => rfl⟩

end PageStore

end Csci402.Mm
