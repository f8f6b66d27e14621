import Mathlib.Data.UInt
import Csci402.Api.Access
import Csci402.Lib.Blocks
import Csci402.Lib.Words

/-! Strings and vectors of strings from user memory (`user_strdup` and `user_vecdup` of
`api/access.c`, `free_vector` of `api/syscall.c`). Lengths come from the user and sizes are
computed modulo 2^32. Nothing makes sure that a string ends, that the sizes do not wrap, or
that the vector is filled before it is walked on the way out. -/

namespace Csci402.Api

open Lib Vm Vm.Memory Option List

/-- An `argstr_t` of the user. -/
structure Argstr where
  asStr : ℕ
  asLen : ℕ
  str_lt : asStr < 2 ^ 32
  len_lt : asLen < 2 ^ 32

/-- An `argvec_t` of the user. -/
structure Argvec where
  avVec : ℕ
  avLen : ℕ
  vec_lt : avVec < 2 ^ 32
  len_lt : avLen < 2 ^ 32

/-- What `kt_errno` is set to. -/
inductive DupErrno where
  | enomem
  | copy (e : CopyError)
  deriving DecidableEq, Repr

/-- The memory of the user, the heap of the kernel, and `kt_errno`. -/
structure DupState where
  mem : Memory (ℕ → UInt8)
  heap : Blocks UInt8
  ktErrno : Option DupErrno

/-- Whether `kmalloc` succeeds, where, and what the block holds then. It gives no block out
twice. -/
structure Allocator where
  malloc : DupState → ℕ → Option (ℕ × (ℕ → UInt8))
  fresh : ∀ {s n a d}, malloc s n = some (a, d) → s.heap.block a = none
  range : ∀ {s n a d}, malloc s n = some (a, d) → 0 < a ∧ a < 2 ^ 32

namespace DupState

/-! ### The heap -/

/-- `kmalloc`; the result is 0 when there is no memory. -/
def kmalloc (A : Allocator) (size : ℕ) (s : DupState) : DupState × ℕ :=
  match A.malloc s size with
  | none => (s, 0)
  | some (a, data) => ({ s with heap := s.heap.make a ⟨size,data⟩ }, a)

/-- `kfree` of a block that there is not stops; nothing happens for a null pointer. -/
def kfree (a : ℕ) (s : DupState) : Option DupState :=
  if a = 0 then some s else (s.heap.free a).map fun heap => { s with heap := heap }

/-- A word of a block; outside of it the access stops. -/
def load (a off : ℕ) (s : DupState) : Option ℕ := do
  let b ← s.heap.block a
  if off+4 ≤ b.size then return decode b.data off 4 else none

def store (a off w : ℕ) (s : DupState) : Option DupState := do
  let b ← s.heap.block a
  if off+4 ≤ b.size then return { s with heap := s.heap.modify a fun d => encode d off w 4 } else none

/-- `copy_from_user` into a block; it stops when it goes past its end. -/
def copyIn (env : Env (ℕ → UInt8)) (pid a uaddr nbytes : ℕ) (s : DupState) :
    Option (DupState × Except CopyError Unit) := do
  let b ← s.heap.block a
  let (x, r) ← copyFromUser env pid uaddr nbytes ⟨s.mem,b.data,[]⟩
  if ∀ p ∈ x.touched, p.1+p.2 ≤ b.size then
    return ({ s with mem := x.mem, heap := s.heap.modify a fun _ => x.buf }, r)
  else none

/-! ### The functions -/

variable (A : Allocator) (env : Env (ℕ → UInt8)) (pid : ℕ)

def userStrdup (ustr : Argstr) (s : DupState) : Option (DupState × ℕ) := do
  let (s, kstr) := s.kmalloc A (u32 (ustr.asLen+1))
  if kstr = 0 then return ({ s with ktErrno := some .enomem }, 0)
  let (s, ret) ← s.copyIn env pid kstr ustr.asStr (u32 (ustr.asLen+1))
  match ret with
  | .ok () => return (s, kstr)
  | .error e =>
    let s ← kfree kstr { s with ktErrno := some (.copy e) }
    return (s, 0)

/-- The loop over the entries of a vector, from entry `i` on. -/
def freeEntries (vect : ℕ) : (fuel i : ℕ) → DupState → Option DupState
  | 0, _, _ => none
  | n+1, i, s => do
    let p ← s.load vect (4*i)
    if p = 0 then return s else freeEntries vect n (i+1) (← s.kfree p)

/-- `free_vector`, and the part of the way out of `user_vecdup` for the vector. The loop leaves
the block or ends before the fuel does. -/
def freeVector (vect : ℕ) (s : DupState) : Option DupState := do
  let b ← s.heap.block vect
  kfree vect (← freeEntries vect (b.size+1) 0 s)

/-- The label `fail` of `user_vecdup`. -/
def vecFail (kvec tempKvec : ℕ) (ret : Option DupErrno) (s : DupState) : Option (DupState × ℕ) := do
  let s ← if kvec = 0 then some s else s.freeVector kvec
  let s ← s.kfree tempKvec
  return ({ s with ktErrno := ret }, 0)

/-- An `argstr_t` of the array in the bytes `d`. -/
def argstrIn (d : ℕ → UInt8) (i : ℕ) : Argstr :=
  ⟨decode d (8*i) 4,decode d (8*i+4) 4,decode_lt ..,decode_lt ..⟩

def loadArgstr (tempKvec i : ℕ) (s : DupState) : Option Argstr := do
  let b ← s.heap.block tempKvec
  if 8*i+8 ≤ b.size then return argstrIn b.data i else none

/-- The loop of `user_vecdup`, with `n` strings to do; `false` when one of them fails. -/
def dupLoop (tempKvec kvec : ℕ) : (n i : ℕ) → DupState → Option (DupState × Bool)
  | 0, _, s => some (s, true)
  | n+1, i, s => do
    let (s, p) ← s.userStrdup A env pid (← s.loadArgstr tempKvec i)
    let s ← s.store kvec (4*i) p
    if p = 0 then return (s, false) else dupLoop tempKvec kvec n (i+1) s

def userVecdup (uvec : Argvec) (s : DupState) : Option (DupState × ℕ) := do
  let (s, tempKvec) := s.kmalloc A (u32 ((uvec.avLen+1)*8))
  if tempKvec = 0 then s.vecFail 0 0 (some .enomem) else
  let (s, kvec) := s.kmalloc A (u32 ((uvec.avLen+1)*4))
  if kvec = 0 then s.vecFail 0 tempKvec (some .enomem) else
  let (s, ret) ← s.copyIn env pid tempKvec uvec.avVec (u32 ((uvec.avLen+1)*8))
  match ret with
  | .error e => s.vecFail kvec tempKvec (some (.copy e))
  | .ok () =>
    let (s, done) ← s.dupLoop A env pid tempKvec kvec uvec.avLen 0
    if done then
      let s ← s.store kvec (4*uvec.avLen) 0
      let s ← s.kfree tempKvec
      return (s, kvec)
    else s.vecFail kvec tempKvec s.ktErrno

/-! ### What a computation holds -/

section Holding

variable {U : UserMem} {env : Env (ℕ → UInt8)} {pid a i n p w : ℕ} {s t u : DupState} {own own' : List ℕ}
  {b : Block UInt8} {ustr : Argstr}

/-- From `s` to `t` the user sees no difference, and the blocks `own` have been made. -/
structure Holds (U : UserMem) (s t : DupState) (own : List ℕ) : Prop where
  sys : Sys U t.mem
  views : ∀ q w, t.mem.view q w = s.mem.view q w
  heap : s.heap.Holds t.heap own

theorem Holds.refl (h : Sys U s.mem) : Holds U s s [] := ⟨h,fun _ _ => rfl,.refl _⟩

theorem Holds.trans (h : Holds U s t own) (h' : Holds U t u own') : Holds U s u (own' ++ own) :=
  ⟨h'.sys,fun q w => (h'.views q w).trans (h.views q w),h.heap.trans h'.heap⟩

theorem Holds.perm (h : Holds U s t own) (hp : own.Perm own') : Holds U s t own' := ⟨h.sys,h.views,h.heap.perm hp⟩

theorem Holds.setErrno (h : Holds U s t own) (e : Option DupErrno) : Holds U s { t with ktErrno := e } own :=
  ⟨h.sys,h.views,h.heap⟩

theorem Holds.byteAt (h : Holds U s t own) (pid x : ℕ) : t.mem.byteAt pid x = s.mem.byteAt pid x :=
  byteAt_congr (h.views pid _)

theorem kmalloc_cases (A : Allocator) (n : ℕ) (h : Sys U s.mem) :
    A.malloc s n = none ∧ s.kmalloc A n = (s, 0) ∨ ∃ t a d, A.malloc s n = some (a, d) ∧ s.kmalloc A n = (t, a) ∧ 0 < a ∧
      a < 2 ^ 32 ∧ Holds U s t [a] ∧ t.heap.block a = some ⟨n,d⟩ := by
  unfold kmalloc
  cases hm : A.malloc s n with
  | none => exact .inl ⟨rfl,rfl⟩
  | some r =>
    obtain ⟨a,d⟩ := r
    refine .inr ⟨_,a,d,rfl,rfl,(A.range hm).1,(A.range hm).2,⟨h,fun _ _ => rfl,Blocks.holds_make (A.fresh hm) _⟩,?_⟩
    exact Blocks.block_make a |>.trans (if_pos rfl)

theorem Holds.kfree (h : Holds U s t (a :: own)) (ha : a ≠ 0) :
    ∃ u, t.kfree a = some u ∧ Holds U s u own ∧ ∀ x, x ≠ a → u.heap.block x = t.heap.block x := by
  obtain ⟨heap,hfree,hheap,hframe⟩ := h.heap.free
  refine ⟨{ t with heap := heap },?_,⟨h.sys,h.views,hheap⟩,hframe⟩
  rw [DupState.kfree,if_neg ha,hfree]
  rfl

theorem load_eq (hb : t.heap.block a = some b) (hi : i+4 ≤ b.size) : t.load a i = some (decode b.data i 4) := by
  simp only [load,hb,bind_eq_bind,bind_some]
  exact if_pos hi

theorem load_congr (he : u.heap.block a = t.heap.block a) : u.load a i = t.load a i := by rw [load,load,he]

/-- A word that can be loaded is in the block. -/
theorem load_inside (h : t.load a i = some w) : ∃ b, t.heap.block a = some b ∧ i+4 ≤ b.size := by
  obtain ⟨b,hb,hw⟩ := bind_eq_some_iff.mp h
  refine ⟨b,hb,?_⟩
  by_contra hc
  rw [if_neg hc] at hw
  cases hw

/-- A word is stored, and all that is not in its place stays. -/
theorem Holds.store (h : Holds U s t own) (ha : a ∈ own) (hb : t.heap.block a = some b) (hi : i+4 ≤ b.size)
    (hw : w < 2 ^ 32) : ∃ u, t.store a i w = some u ∧ Holds U s u own ∧ (∃ d, u.heap.block a = some ⟨b.size,d⟩) ∧
      u.load a i = some w ∧ (∀ j v, j+4 ≤ i → t.load a j = some v → u.load a j = some v) ∧
      ∀ x, x ≠ a → u.heap.block x = t.heap.block x := by
  let f := fun d => encode d i w 4
  let u : DupState := { t with heap := t.heap.modify a f }
  have hu : u.heap.block a = some ⟨b.size,f b.data⟩ := Blocks.block_modify_self hb f
  refine ⟨u,?_,⟨h.sys,h.views,h.heap.modify ha f⟩,⟨_,hu⟩,?_,fun j v hj hv => ?_,
    fun x hx => Blocks.block_modify_of_ne hx f⟩
  · simp only [DupState.store,hb,bind_eq_bind,bind_some]
    exact if_pos hi
  · rw [load_eq hu hi]
    exact congrArg some (decode_encode hw)
  · have hin : j+4 ≤ b.size := by omega
    rw [load_eq hb hin] at hv
    rw [load_eq hu hin,← hv]
    exact congrArg some (decode_encode_beside (.inl hj))

/-- A copy into a block that is long enough. -/
theorem Holds.copyIn (h : Holds U s t own) (henv : LookupsOk env) (pid : ℕ) (ha : a ∈ own)
    (hb : t.heap.block a = some b) (hn : n ≤ b.size) {uaddr : ℕ} (hu : uaddr < 2 ^ 32) :
    ∃ u r, t.copyIn env pid a uaddr n = some (u, r) ∧ Holds U s u own ∧
      (∀ x, x ≠ a → u.heap.block x = t.heap.block x) ∧
      (r = .ok () ∧ (∃ d, u.heap.block a = some ⟨b.size,d⟩ ∧ ∀ i, i < n → s.mem.byteAt pid (uaddr+i) = some (d i)) ∨
        (∃ e, r = .error e) ∧ ∃ i, i < n ∧ s.mem.byteAt pid (uaddr+i) = none) := by
  have hx : Sys U (⟨t.mem,b.data,[]⟩ : Transfer UInt8).mem := h.sys
  obtain ⟨y,r,hy,hcase⟩ := copyFromUser_returns hx henv pid hu n
  obtain ⟨d,hd,hf⟩ : ∃ d, d ≤ n ∧ Fetched U pid uaddr ⟨t.mem,b.data,[]⟩ d y := by
    rcases hcase with ⟨-,hf⟩ | ⟨-,hf,-⟩
    · exact ⟨n,Nat.le_refl n,hf⟩
    · exact hf
  have hin : ∀ p ∈ y.touched, p.1+p.2 ≤ b.size := by
    obtain ⟨l,hl,htiles⟩ := hf.touched
    intro p hp
    rw [hl] at hp
    exact Nat.le_trans (htiles.mem_le hp) (Nat.le_trans hd hn)
  let f := fun (_ : ℕ → UInt8) => y.buf
  refine ⟨{ t with mem := y.mem, heap := t.heap.modify a f },r,?_,
    ⟨hf.sys,fun q w => (hf.views q w).trans (h.views q w),h.heap.modify ha f⟩,
    fun x hx => Blocks.block_modify_of_ne hx f,?_⟩
  · simp only [DupState.copyIn,hb,hy,bind_eq_bind,bind_some]
    exact if_pos hin
  · rcases hcase with ⟨rfl,hf⟩ | ⟨he,-,i,hi,hnone⟩
    · exact .inl ⟨rfl,y.buf,Blocks.block_modify_self hb f,fun i hi => (h.byteAt pid _).symm.trans (hf.got i hi)⟩
    · exact .inr ⟨he,i,hi,(h.byteAt pid _).symm.trans hnone⟩

/-! ### `user_strdup` -/

/-- The block is as long as the string and has its bytes. -/
def Duplicates (s t : DupState) (pid : ℕ) (ustr : Argstr) (p : ℕ) : Prop :=
  ∃ d, t.heap.block p = some ⟨u32 (ustr.asLen+1),d⟩ ∧
    ∀ i, i < u32 (ustr.asLen+1) → s.mem.byteAt pid (ustr.asStr+i) = some (d i)

/-- All the bytes that are copied are mapped. -/
def Mapped (s : DupState) (pid : ℕ) (ustr : Argstr) : Prop :=
  ∀ i, i < u32 (ustr.asLen+1) → s.mem.byteAt pid (ustr.asStr+i) ≠ none

/-- One of the bytes that are copied is 0. -/
def NulIn (s : DupState) (pid : ℕ) (ustr : Argstr) : Prop :=
  ∃ i, i < u32 (ustr.asLen+1) ∧ s.mem.byteAt pid (ustr.asStr+i) = some 0

/-- The string in the block ends before the block does. -/
def Terminated (s : DupState) (p : ℕ) : Prop := ∃ b, s.heap.block p = some b ∧ ∃ i, i < b.size ∧ b.data i = 0

theorem terminated_iff : ((s.heap.block p).any fun b => decide (∃ i, i < b.size ∧ b.data i = 0)) ↔ Terminated s p := by
  rw [Option.any_eq_true]
  exact exists_congr fun b => and_congr_right fun _ => decide_eq_true_iff

instance : Decidable (Terminated s p) := decidable_of_iff _ terminated_iff

theorem Duplicates.terminated_iff (h : Duplicates s t pid ustr p) : Terminated t p ↔ NulIn s pid ustr := by
  obtain ⟨d,hd,hgot⟩ := h
  constructor
  · rintro ⟨b,hb,i,hi,hz⟩
    cases hd.symm.trans hb
    exact ⟨i,hi,(hgot i hi).trans (congrArg some hz)⟩
  · rintro ⟨i,hi,hz⟩
    exact ⟨_,hd,i,hi,some.inj ((hgot i hi).symm.trans hz)⟩

theorem Duplicates.mapped (h : Duplicates s t pid ustr p) : Mapped s pid ustr := by
  obtain ⟨d,-,hgot⟩ := h
  intro i hi hnone
  cases (hgot i hi).symm.trans hnone

theorem Duplicates.congr (h : Duplicates s t pid ustr p) (he : u.heap.block p = t.heap.block p) :
    Duplicates s u pid ustr p := by
  obtain ⟨d,hd,hgot⟩ := h
  exact ⟨d,he.trans hd,hgot⟩

/-- `user_strdup` returns: there is nothing of it left, since there is no memory or a byte is not
mapped, or there is the block with the string. -/
theorem userStrdup_returns (A : Allocator) (henv : LookupsOk env) (h : Sys U s.mem) (pid : ℕ) (ustr : Argstr) :
    ∃ t p, s.userStrdup A env pid ustr = some (t, p) ∧
      (p = 0 ∧ Holds U s t [] ∧ (A.malloc s (u32 (ustr.asLen+1)) = none ∨ ¬Mapped s pid ustr) ∨
        0 < p ∧ p < 2 ^ 32 ∧ Holds U s t [p] ∧ Duplicates s t pid ustr p) := by
  unfold userStrdup
  rcases kmalloc_cases A (u32 (ustr.asLen+1)) h with ⟨hnone,hm⟩ | ⟨t,p,d,-,hm,hpos,hlt,ht,hb⟩
  · rw [hm]
    exact ⟨_,0,rfl,.inl ⟨rfl,(Holds.refl h).setErrno _,.inl hnone⟩⟩
  · obtain ⟨u,r,hcopy,hu,-,hcase⟩ := ht.copyIn henv pid mem_cons_self hb (Nat.le_refl _) ustr.str_lt
    simp only [hm,if_neg (Nat.ne_of_gt hpos),hcopy,bind_eq_bind,bind_some]
    rcases hcase with ⟨rfl,hdup⟩ | ⟨⟨e,rfl⟩,i,hi,hnone⟩
    · exact ⟨u,p,rfl,.inr ⟨hpos,hlt,hu,hdup⟩⟩
    · obtain ⟨v,hv,hvs,-⟩ := (hu.setErrno (some (.copy e))).kfree (Nat.ne_of_gt hpos)
      exact ⟨v,0,by simp only [hv,bind_some]; rfl,.inl ⟨rfl,hvs,.inr fun hall => hall i hi hnone⟩⟩

/-! ### The way out of `user_vecdup` -/

/-- The entries of the vector are the strings, and then there is a null pointer. -/
structure IsVector (t : DupState) (v : ℕ) (strs : List ℕ) : Prop where
  entries : ∀ i p, strs[i]? = some p → t.load v (4*i) = some p
  last : t.load v (4*strs.length) = some 0

variable {v : ℕ} {strs : List ℕ}

/-- The loop frees the strings from entry `i` on. -/
theorem Holds.freeEntries (h : Holds U s t (strs ++ v :: own)) (hpos : ∀ p ∈ strs, 0 < p)
    (hentry : ∀ j p, strs[j]? = some p → t.load v (4*(i+j)) = some p)
    (hlast : t.load v (4*(i+strs.length)) = some 0) {fuel : ℕ} (hfuel : strs.length < fuel) :
    ∃ u, t.freeEntries v fuel i = some u ∧ Holds U s u (v :: own) := by
  induction strs generalizing t i fuel with
  | nil =>
    obtain ⟨fuel,rfl⟩ := Nat.exists_eq_succ_of_ne_zero (Nat.ne_of_gt hfuel)
    have hload : t.load v (4*i) = some 0 := hlast
    exact ⟨t,by simp only [DupState.freeEntries,hload,bind_eq_bind,bind_some]; rfl,h⟩
  | cons p strs ih =>
    obtain ⟨fuel,rfl⟩ := Nat.exists_eq_succ_of_ne_zero (Nat.ne_of_gt (Nat.lt_of_le_of_lt (Nat.zero_le _) hfuel))
    have hp : p ≠ 0 := Nat.ne_of_gt (hpos p mem_cons_self)
    have hne : v ≠ p := by
      rintro rfl
      exact (nodup_cons.mp h.heap.nodup).1 (mem_append_right _ mem_cons_self)
    obtain ⟨u,hu,hus,hframe⟩ := h.kfree hp
    obtain ⟨w,hw,hws⟩ := ih (i := i+1) hus (fun q hq => hpos q (mem_cons_of_mem p hq))
      (fun j q hq => by
        rw [load_congr (hframe v hne),Nat.add_right_comm]
        exact hentry (j+1) q hq)
      (by
        rw [load_congr (hframe v hne),Nat.add_right_comm]
        exact hlast)
      (Nat.lt_of_succ_lt_succ hfuel)
    refine ⟨w,?_,hws⟩
    have hload : t.load v (4*i) = some p := hentry 0 p rfl
    simp only [DupState.freeEntries,hload,if_neg hp,hu,bind_eq_bind,bind_some]
    exact hw

/-- `free_vector` frees a vector and its strings. -/
theorem Holds.freeVector (h : Holds U s t (strs ++ v :: own)) (hv : 0 < v)
    (hpos : ∀ p ∈ strs, 0 < p) (hvec : IsVector t v strs) : ∃ u, t.freeVector v = some u ∧ Holds U s u own := by
  obtain ⟨b,hb,hin⟩ := load_inside hvec.last
  obtain ⟨w,hw,hws⟩ := h.freeEntries (i := 0) hpos
    (fun j p hp => by
      rw [Nat.zero_add]
      exact hvec.entries j p hp)
    (by
      rw [Nat.zero_add]
      exact hvec.last)
    (show strs.length < b.size+1 by omega)
  obtain ⟨u,hu,hus,-⟩ := hws.kfree (Nat.ne_of_gt hv)
  refine ⟨u,?_,hus⟩
  simp only [DupState.freeVector,hb,hw,bind_eq_bind,bind_some]
  exact hu

/-- Where the vector is in order, the way out frees everything. -/
theorem Holds.vecFail {temp : ℕ} (h : Holds U s t (strs ++ [v,temp])) (hv : 0 < v) (htemp : 0 < temp)
    (hpos : ∀ p ∈ strs, 0 < p) (hvec : IsVector t v strs) (ret : Option DupErrno) :
    ∃ u, t.vecFail v temp ret = some (u, 0) ∧ Holds U s u [] := by
  obtain ⟨w,hw,hws⟩ := h.freeVector hv hpos hvec
  obtain ⟨u,hu,hus,-⟩ := hws.kfree (Nat.ne_of_gt htemp)
  refine ⟨{ u with ktErrno := ret },?_,hus.setErrno ret⟩
  simp only [DupState.vecFail,if_neg (Nat.ne_of_gt hv),hw,hu,bind_eq_bind,bind_some]
  rfl

/-! ### `user_vecdup` -/

/-- The size of the array for a vector of this length, and that of the vector. -/
def arraySize (len : ℕ) : ℕ := u32 ((len+1)*8)

def vectorSize (len : ℕ) : ℕ := u32 ((len+1)*4)

/-- The strings so far are in the vector and duplicate those of the array, whose bytes are `d`.
The blocks `more` are held besides. -/
structure Filling (U : UserMem) (s t : DupState) (pid len temp kvec : ℕ) (d : ℕ → UInt8) (strs more : List ℕ) :
    Prop where
  holds : Holds U s t (more ++ (strs ++ [kvec,temp]))
  array : t.heap.block temp = some ⟨arraySize len,d⟩
  vector : ∃ k, t.heap.block kvec = some ⟨vectorSize len,k⟩
  inside : 8*strs.length ≤ arraySize len
  entries : ∀ i p, strs[i]? = some p → t.load kvec (4*i) = some p
  pos : ∀ p ∈ strs, 0 < p
  dups : ∀ i p, strs[i]? = some p → Duplicates s t pid (argstrIn d i) p

section Loop

variable {len temp kvec : ℕ} {d : ℕ → UInt8} {strs more : List ℕ}

/-- New blocks leave the vector and the strings alone. -/
theorem Filling.trans (h : Filling U s t pid len temp kvec d strs more) (hu : Holds U t u own) :
    Filling U s u pid len temp kvec d strs (own ++ more) := by
  obtain ⟨k,hk⟩ := h.vector
  have hblock : u.heap.block kvec = t.heap.block kvec := (hu.heap.kept hk).trans hk.symm
  refine ⟨?_,hu.heap.kept h.array,⟨k,hu.heap.kept hk⟩,h.inside,fun i p hp => ?_,h.pos,fun i p hp => ?_⟩
  · rw [append_assoc]
    exact h.holds.trans hu
  · rw [load_congr hblock]
    exact h.entries i p hp
  · obtain ⟨e,he,hgot⟩ := h.dups i p hp
    exact ⟨e,hu.heap.kept he,hgot⟩

/-- The next entry is stored. -/
theorem Filling.store (h : Filling U s t pid len temp kvec d strs more) (hlen : 4*strs.length+4 ≤ vectorSize len)
    (hw : w < 2 ^ 32) : ∃ u, t.store kvec (4*strs.length) w = some u ∧ Filling U s u pid len temp kvec d strs more ∧
      u.load kvec (4*strs.length) = some w ∧ ∀ x, x ≠ kvec → u.heap.block x = t.heap.block x := by
  obtain ⟨k,hk⟩ := h.vector
  have hmem : kvec ∈ more ++ (strs ++ [kvec,temp]) := by simp
  obtain ⟨u,hu,hus,hvec,hload,hother,hframe⟩ :=
    h.holds.store hmem hk hlen hw
  have hnodup := (nodup_append.mp h.holds.heap.nodup).2.1
  have htemp : temp ≠ kvec := by
    rintro rfl
    exact (nodup_cons.mp (nodup_append.mp hnodup).2.1).1 mem_cons_self
  refine ⟨u,hu,⟨hus,(hframe temp htemp).trans h.array,hvec,h.inside,fun i p hp => ?_,h.pos,fun i p hp => ?_⟩,hload,hframe⟩
  · obtain ⟨hi,-⟩ := List.getElem?_eq_some_iff.mp hp
    exact hother (4*i) p (by omega) (h.entries i p hp)
  · refine (h.dups i p hp).congr (hframe p ?_)
    exact (nodup_append.mp hnodup).2.2 p (mem_of_getElem? hp) kvec mem_cons_self

/-- The string that has been stored is one more of the vector. -/
theorem Filling.push (h : Filling U s t pid len temp kvec d strs [p]) (hp : 0 < p) (hin : 8*strs.length+8 ≤ arraySize len)
    (hload : t.load kvec (4*strs.length) = some p) (hdup : Duplicates s t pid (argstrIn d strs.length) p) :
    Filling U s t pid len temp kvec d (strs ++ [p]) [] := by
  have hcases : ∀ i q, (strs ++ [p])[i]? = some q → strs[i]? = some q ∨ i = strs.length ∧ q = p := by
    intro i q hq
    rw [getElem?_append] at hq
    split at hq
    · exact .inl hq
    · obtain ⟨hi,he⟩ := List.getElem?_eq_some_iff.mp hq
      rw [length_singleton] at hi
      refine .inr ⟨by omega,?_⟩
      simpa using he.symm
  refine ⟨h.holds.perm ?_,h.array,h.vector,?_,fun i q hq => ?_,fun q hq => ?_,fun i q hq => ?_⟩
  · rw [nil_append,append_assoc]
    change (p :: (strs ++ [kvec,temp])).Perm (strs ++ p :: [kvec,temp])
    exact perm_middle.symm
  · rw [length_append,length_singleton]
    omega
  · rcases hcases i q hq with hq | ⟨rfl,rfl⟩
    · exact h.entries i q hq
    · exact hload
  · rcases mem_append.mp hq with hq | hq
    · exact h.pos q hq
    · rw [mem_singleton.mp hq]
      exact hp
  · rcases hcases i q hq with hq | ⟨rfl,rfl⟩
    · exact h.dups i q hq
    · exact hdup

/-- Between `s` and a request that the allocator refuses there are no more blocks than this. -/
def Refuses (U : UserMem) (A : Allocator) (s : DupState) : Prop :=
  ∃ t own n, Holds U s t own ∧ own.length ≤ 2 ^ 29+2 ∧ A.malloc t n = none

/-- The strings of the array that are looked at are mapped. -/
def AllMapped (s : DupState) (pid len : ℕ) (d : ℕ → UInt8) : Prop :=
  ∀ i, i < len → 8*i+8 ≤ arraySize len → Mapped s pid (argstrIn d i)

theorem arraySize_lt (len : ℕ) : arraySize len < 2 ^ 32 := by
  unfold arraySize u32
  omega

/-- As long as the array goes, so does the vector. -/
theorem vectorSize_le (h : 8*i+8 ≤ arraySize len) : 4*i+4 ≤ vectorSize len := by
  unfold arraySize vectorSize u32 at *
  omega

/-- The loop fills the vector; or it puts a null pointer after the strings that it has; or it leaves
the array. -/
theorem Filling.dupLoop (A : Allocator) (henv : LookupsOk env) (h : Filling U s t pid len temp kvec d strs [])
    (hn : strs.length+n = len) :
    (∃ u strs', t.dupLoop A env pid temp kvec n strs.length = some (u, true) ∧ Filling U s u pid len temp kvec d strs' [] ∧
      strs'.length = len) ∨
    (∃ u strs', t.dupLoop A env pid temp kvec n strs.length = some (u, false) ∧ Filling U s u pid len temp kvec d strs' [] ∧
      u.load kvec (4*strs'.length) = some 0 ∧ (Refuses U A s ∨ ¬AllMapped s pid len d)) ∨
    t.dupLoop A env pid temp kvec n strs.length = none ∧ 2 ^ 32 ≤ (len+1)*8 ∧ AllMapped s pid len d := by
  -- on the number of strings to do; `Filling` holds before each round
  induction n generalizing t strs with
  | zero => exact .inl ⟨t,strs,rfl,h,hn⟩
  | succ n ih =>
    by_cases hin : 8*strs.length+8 ≤ arraySize len
    · have harg : t.loadArgstr temp strs.length = some (argstrIn d strs.length) := by
        simp only [loadArgstr,h.array,bind_eq_bind,bind_some]
        exact if_pos hin
      obtain ⟨v,p,hv,hcase⟩ := userStrdup_returns A henv h.holds.sys pid (argstrIn d strs.length)
      simp only [DupState.dupLoop,harg,hv,bind_eq_bind,bind_some]
      rcases hcase with ⟨rfl,hvs,hwhy⟩ | ⟨hpos,hlt,hvs,hdup⟩
      · -- the null pointer of the string that fails ends the vector for the way out
        obtain ⟨u,hu,hfill,hload,-⟩ := (h.trans hvs).store (vectorSize_le hin) (show 0 < 2 ^ 32 by decide)
        refine .inr (.inl ⟨u,strs,by rw [hu]; rfl,hfill,hload,hwhy.imp (fun hnone => ?_) fun hun hall => hun ?_⟩)
        · refine ⟨t,_,_,h.holds,?_,hnone⟩
          have hsize := arraySize_lt len
          simp only [nil_append,length_append,length_cons,length_nil]
          omega
        · intro i hi
          rw [h.holds.byteAt]
          exact hall _ (by omega) hin i hi
      · obtain ⟨u,hu,hfill,hload,hframe⟩ := (h.trans hvs).store (vectorSize_le hin) hlt
        have hne : p ≠ kvec := by
          rintro rfl
          obtain ⟨k,hk⟩ := h.vector
          cases (hvs.heap.fresh p mem_cons_self).symm.trans hk
        obtain ⟨e,he,hgot⟩ := hdup
        have hdup' : Duplicates s u pid (argstrIn d strs.length) p :=
          ⟨e,(hframe p hne).trans he,fun i hi => (h.holds.byteAt pid _).symm.trans (hgot i hi)⟩
        have hrest := ih (hfill.push hpos hin hload hdup') (by simp; omega)
        rw [hu,bind_some,if_neg (Nat.ne_of_gt hpos)]
        rwa [length_append] at hrest
    · refine .inr (.inr ⟨?_,?_,fun i hi hsize => ?_⟩)
      · simp only [DupState.dupLoop,loadArgstr,h.array,bind_eq_bind,bind_some]
        rw [if_neg hin]
        rfl
      · unfold arraySize u32 at hin
        omega
      · obtain ⟨p,hp⟩ : ∃ p, strs[i]? = some p := ⟨_,getElem?_eq_getElem (by omega)⟩
        exact (h.dups i p hp).mapped

theorem Filling.isVector (h : Filling U s t pid len temp kvec d strs more)
    (hlast : t.load kvec (4*strs.length) = some 0) : IsVector t kvec strs := ⟨h.entries,hlast⟩

/-- The vector is done: the array is freed. -/
theorem Filling.finish (h : Filling U s t pid len temp kvec d strs []) (htemp : 0 < temp)
    (hlast : t.load kvec (4*strs.length) = some 0) : ∃ u, t.kfree temp = some u ∧ Holds U s u (strs ++ [kvec]) ∧
      IsVector u kvec strs ∧ ∀ i p, strs[i]? = some p → Duplicates s u pid (argstrIn d i) p := by
  have hperm : (strs ++ [kvec,temp]).Perm (temp :: (strs ++ [kvec])) := by
    rw [append_cons]
    exact perm_append_singleton temp (strs ++ [kvec])
  obtain ⟨u,hu,hus,hkept⟩ := (h.holds.perm hperm).kfree (Nat.ne_of_gt htemp)
  have hblock : ∀ p, p ∈ strs ++ [kvec] → u.heap.block p = t.heap.block p := by
    intro p hp
    refine hkept p ?_
    rintro rfl
    exact (nodup_cons.mp (hperm.nodup_iff.mp h.holds.heap.nodup)).1 hp
  have hvec : ∀ i, u.load kvec i = t.load kvec i := fun i => load_congr (hblock kvec (by simp))
  refine ⟨u,hu,hus,⟨fun i p hp => ?_,?_⟩,fun i p hp => ?_⟩
  · rw [hvec]
    exact h.entries i p hp
  · rw [hvec]
    exact hlast
  · exact (h.dups i p hp).congr (hblock p (mem_append_left _ (mem_of_getElem? hp)))

end Loop

/-- The bytes of the array of the user. -/
def argBytes (s : DupState) (pid : ℕ) (uvec : Argvec) (i : ℕ) : UInt8 := (s.mem.byteAt pid (uvec.avVec+i)).getD 0

/-- The array of the user is mapped. -/
def ArrayMapped (s : DupState) (pid : ℕ) (uvec : Argvec) : Prop :=
  ∀ i, i < arraySize uvec.avLen → s.mem.byteAt pid (uvec.avVec+i) ≠ none

variable {d : ℕ → UInt8}

/-- Bytes that agree on the array have the same strings. -/
theorem argstrIn_congr {e : ℕ → UInt8} {len : ℕ} (h : ∀ i, i < arraySize len → d i = e i) (hi : 8*i+8 ≤ arraySize len) :
    argstrIn d i = argstrIn e i := by
  have hstr : decode d (8*i) 4 = decode e (8*i) 4 := decode_congr fun k hk => h _ (by omega)
  have hlen : decode d (8*i+4) 4 = decode e (8*i+4) 4 := decode_congr fun k hk => h _ (by omega)
  simp only [argstrIn,hstr,hlen]

theorem AllMapped.congr {e : ℕ → UInt8} {len : ℕ} (hall : AllMapped s pid len d) (h : ∀ i, i < arraySize len → d i = e i) :
    AllMapped s pid len e := fun i hi hin => argstrIn_congr h hin ▸ hall i hi hin

/-- What `user_vecdup` comes to. -/
inductive VecCase (U : UserMem) (A : Allocator) (env : Env (ℕ → UInt8)) (pid : ℕ) (uvec : Argvec) (s : DupState) : Prop
  /-- Nothing is left of it. -/
  | freed (t : DupState) (hrun : s.userVecdup A env pid uvec = some (t, 0)) (hheld : Holds U s t [])
      (hwhy : Refuses U A s ∨ ArrayMapped s pid uvec ∧ ¬AllMapped s pid uvec.avLen (argBytes s pid uvec))
  /-- The array is not mapped, and the vector is walked as it was allocated. -/
  | unmapped (t u : DupState) (temp kvec : ℕ) (k : ℕ → UInt8) (e : CopyError) (hun : ¬ArrayMapped s pid uvec)
      (hrun : s.userVecdup A env pid uvec = t.vecFail kvec temp (some (.copy e))) (hheld : Holds U s t [kvec,temp])
      (hpos : 0 < kvec) (hmade : A.malloc u (vectorSize uvec.avLen) = some (kvec, k))
      (hblock : t.heap.block kvec = some ⟨vectorSize uvec.avLen,k⟩)
  /-- The loop leaves the array. -/
  | leaves (hmap : ArrayMapped s pid uvec) (hrun : s.userVecdup A env pid uvec = none) (hwrap : 2 ^ 32 ≤ (uvec.avLen+1)*8)
      (hall : AllMapped s pid uvec.avLen (argBytes s pid uvec))
  /-- There is the vector with its strings. -/
  | filled (t : DupState) (v : ℕ) (strs : List ℕ) (hmap : ArrayMapped s pid uvec) (hsize : (uvec.avLen+1)*8 < 2 ^ 32)
      (hrun : s.userVecdup A env pid uvec = some (t, v)) (hpos : 0 < v) (hlen : strs.length = uvec.avLen)
      (hheld : Holds U s t (strs ++ [v])) (hvec : IsVector t v strs) (hstrs : ∀ p ∈ strs, 0 < p)
      (hdups : ∀ i p, strs[i]? = some p → Duplicates s t pid (argstrIn (argBytes s pid uvec) i) p)

theorem userVecdup_cases (A : Allocator) (henv : LookupsOk env) (h : Sys U s.mem) (pid : ℕ) (uvec : Argvec) :
    VecCase U A env pid uvec s := by
  have hrun : s.userVecdup A env pid uvec = s.userVecdup A env pid uvec := rfl
  conv_rhs at hrun => unfold userVecdup
  rcases kmalloc_cases A (arraySize uvec.avLen) h with ⟨hnone,hm⟩ | ⟨t,temp,d0,-,hm,htemp,-,ht,hb⟩
  · unfold arraySize at hm
    rw [hm] at hrun
    exact .freed _ hrun ((Holds.refl h).setErrno _) (.inl ⟨s,[],_,.refl h,by simp,hnone⟩)
  rcases kmalloc_cases A (vectorSize uvec.avLen) ht.sys with ⟨hnone,hm'⟩ | ⟨u,kvec,k,hmade,hm',hkvec,-,hu,hk⟩
  · obtain ⟨v,hv,hvs,-⟩ := ht.kfree (Nat.ne_of_gt htemp)
    refine .freed { v with ktErrno := some .enomem } (hrun.trans ?_) (hvs.setErrno _) (.inl ⟨t,[temp],_,ht,by simp,hnone⟩)
    unfold arraySize at hm
    unfold vectorSize at hm'
    simp only [hm,hm',if_neg (Nat.ne_of_gt htemp),vecFail,if_true,hv,bind_eq_bind,bind_some]
    rfl
  have hheld : Holds U s u [kvec,temp] := ht.trans hu
  obtain ⟨x,r,hcopy,hx,hframe,hcase⟩ :=
    hheld.copyIn henv pid (mem_cons_of_mem _ mem_cons_self) (hu.heap.kept hb) (Nat.le_refl _) uvec.vec_lt
  have hne : kvec ≠ temp := by
    rintro rfl
    exact (nodup_cons.mp hheld.heap.nodup).1 mem_cons_self
  have hvector := (hframe kvec hne).trans hk
  unfold arraySize at hm hcopy
  unfold vectorSize at hm'
  simp only [hm,hm',if_neg (Nat.ne_of_gt htemp),if_neg (Nat.ne_of_gt hkvec),hcopy,bind_eq_bind,
    bind_some] at hrun
  rcases hcase with ⟨rfl,d,hd,hgot⟩ | ⟨⟨e,rfl⟩,i,hi,hnone⟩
  · have hmap : ArrayMapped s pid uvec := by
      intro i hi hnone
      cases (hgot i hi).symm.trans hnone
    have hsame : ∀ i, i < arraySize uvec.avLen → d i = argBytes s pid uvec i := by
      intro i hi
      rw [argBytes,hgot i hi]
      rfl
    have hfill : Filling U s x pid uvec.avLen temp kvec d [] [] :=
      ⟨hx,hd,⟨k,hvector⟩,Nat.zero_le _,by simp,by simp,by simp⟩
    rcases hfill.dupLoop A henv (Nat.zero_add _) with ⟨y,strs,hy,hfill,hfull⟩ | ⟨y,strs,hy,hfill,hlast,hwhy⟩ |
      ⟨hy,hwrap,hall⟩
    · have hsize : (uvec.avLen+1)*8 < 2 ^ 32 := by
        have hin := hfill.inside
        unfold arraySize u32 at hin
        omega
      -- the null pointer goes after the last string
      have hroom : 4*strs.length+4 ≤ vectorSize uvec.avLen := by
        unfold vectorSize u32
        omega
      obtain ⟨z,hz,hfill,hlast,-⟩ := hfill.store hroom (show 0 < 2 ^ 32 by decide)
      obtain ⟨w,hw,hws,hvec,hdups⟩ := hfill.finish htemp hlast
      refine .filled w kvec strs hmap hsize (hrun.trans ?_) hkvec hfull hws hvec hfill.pos fun i p hp => ?_
      · rw [hfull] at hz
        rw [length_nil] at hy
        simp only [hy,bind_some,if_true,hz,hw]
        rfl
      · obtain ⟨hi,-⟩ := List.getElem?_eq_some_iff.mp hp
        rw [← argstrIn_congr hsame (by unfold arraySize u32; omega)]
        exact hdups i p hp
    · obtain ⟨z,hz,hzs⟩ := hfill.holds.vecFail hkvec htemp hfill.pos (hfill.isVector hlast) y.ktErrno
      rw [length_nil] at hy
      refine .freed z (hrun.trans ?_) hzs (hwhy.imp_right fun hun => ⟨hmap,fun hall => hun (hall.congr fun i hi => (hsame i hi).symm)⟩)
      simp only [hy,bind_some]
      exact hz
    · rw [length_nil] at hy
      refine .leaves hmap (hrun.trans ?_) hwrap (hall.congr hsame)
      simp only [hy,bind_none]
  · exact .unmapped x t temp kvec k e (fun hmap => hmap i hi hnone) hrun hx hkvec hmade hvector

/-! ### The two functions -/

/-- `user_strdup` returns NULL and has freed its block, or it returns a block with the string and
a 0. -/
def StrHeld (U : UserMem) (A : Allocator) (env : Env (ℕ → UInt8)) (pid : ℕ) (ustr : Argstr) (s : DupState) : Prop :=
  ∃ t p, s.userStrdup A env pid ustr = some (t, p) ∧
    (p = 0 ∧ Holds U s t [] ∨ 0 < p ∧ Holds U s t [p] ∧ Duplicates s t pid ustr p ∧ Terminated t p)

/-- `user_vecdup` returns NULL and has freed all of its blocks and no other, or it returns a vector
of such strings, which `free_vector` frees. -/
def VecHeld (U : UserMem) (A : Allocator) (env : Env (ℕ → UInt8)) (pid : ℕ) (uvec : Argvec) (s : DupState) : Prop :=
  ∃ t v, s.userVecdup A env pid uvec = some (t, v) ∧
    (v = 0 ∧ Holds U s t [] ∨ 0 < v ∧ ∃ strs, strs.length = uvec.avLen ∧ Holds U s t (strs ++ [v]) ∧ IsVector t v strs ∧
      (∀ i p, strs[i]? = some p →
        0 < p ∧ Duplicates s t pid (argstrIn (argBytes s pid uvec) i) p ∧ Terminated t p) ∧
      ∃ u, t.freeVector v = some u ∧ Holds U s u [])

/-- The string of the user fails, or it has a 0. -/
theorem StrHeld.of_nulIn (A : Allocator) (henv : LookupsOk env) (h : Sys U s.mem) (hnul : Mapped s pid ustr → NulIn s pid ustr) :
    StrHeld U A env pid ustr s := by
  obtain ⟨t,p,ht,⟨hp,hheld,-⟩ | ⟨hpos,-,hheld,hdup⟩⟩ := userStrdup_returns A henv h pid ustr
  · exact ⟨t,p,ht,.inl ⟨hp,hheld⟩⟩
  · exact ⟨t,p,ht,.inr ⟨hpos,hheld,hdup,hdup.terminated_iff.mpr (hnul hdup.mapped)⟩⟩

theorem VecHeld.of_mapped (A : Allocator) (henv : LookupsOk env) (h : Sys U s.mem) {uvec : Argvec} (hmap : ArrayMapped s pid uvec)
    (hcond : ¬AllMapped s pid uvec.avLen (argBytes s pid uvec) ∨ (uvec.avLen+1)*8 < 2 ^ 32 ∧
      ∀ i, i < uvec.avLen → NulIn s pid (argstrIn (argBytes s pid uvec) i)) : VecHeld U A env pid uvec s := by
  cases userVecdup_cases A henv h pid uvec with
  | freed t hrun hheld => exact ⟨t,0,hrun,.inl ⟨rfl,hheld⟩⟩
  | unmapped _ _ _ _ _ _ hun => exact absurd hmap hun
  | leaves _ _ hwrap hall =>
    rcases hcond with hun | ⟨hsize,-⟩
    · exact absurd hall hun
    · omega
  | filled t v strs _ hsize hrun hpos hlen hheld hvec hstrs hdups =>
    have hlt : ∀ {i p}, strs[i]? = some p → i < uvec.avLen := fun hp => hlen ▸ (List.getElem?_eq_some_iff.mp hp).1
    rcases hcond with hun | ⟨-,hnul⟩
    · refine absurd (fun i hi _ => ?_) hun
      obtain ⟨p,hp⟩ : ∃ p, strs[i]? = some p := ⟨_,getElem?_eq_getElem (by omega)⟩
      exact (hdups i p hp).mapped
    · refine ⟨t,v,hrun,.inr ⟨hpos,strs,hlen,hheld,hvec,fun i p hp => ?_,hheld.freeVector hpos hstrs hvec⟩⟩
      exact ⟨hstrs p (mem_of_getElem? hp),hdups i p hp,(hdups i p hp).terminated_iff.mpr (hnul i (hlt hp))⟩

/-! ### An allocator that gives what it has -/

/-- The first address with no block, if there is one; the new block begins with its own address. -/
@[irreducible] def firstFree (s : DupState) (_ : ℕ) : Option (ℕ × (ℕ → UInt8)) :=
  ((List.range (2 ^ 32)).find? fun a => decide (0 < a) && (s.heap.block a).isNone).map fun a => (a, encode 0 0 a 4)

theorem firstFree_eq (h : firstFree s n = some (a, d)) :
    s.heap.block a = none ∧ (0 < a ∧ a < 2 ^ 32) ∧ d = encode 0 0 a 4 := by
  unfold firstFree at h
  obtain ⟨x,hx,he⟩ := map_eq_some_iff.mp h
  cases he
  have hfree := find?_some hx
  rw [Bool.and_eq_true,decide_eq_true_eq,isNone_iff_eq_none] at hfree
  exact ⟨hfree.2,⟨hfree.1,mem_range.mp (mem_of_find?_eq_some hx)⟩,rfl⟩

theorem firstFree_ne_none (hpos : 0 < a) (hlt : a < 2 ^ 32) (hfree : s.heap.block a = none) : firstFree s n ≠ none := by
  unfold firstFree
  rw [Ne,map_eq_none_iff,find?_eq_none]
  intro hall
  refine hall a (mem_range.mpr hlt) ?_
  rw [hfree,decide_eq_true hpos]
  rfl

def giving : Allocator := ⟨firstFree,fun h => (firstFree_eq h).1,fun h => (firstFree_eq h).2.1⟩

/-- The kernel has fewer than 2^31 blocks. -/
def Roomy (s : DupState) : Prop := ∃ l : List ℕ, l.length < 2 ^ 31 ∧ ∀ a, s.heap.block a ≠ none → a ∈ l

theorem exists_notMem_of_length {l : List ℕ} {m : ℕ} (h : l.length+1 < m) : ∃ a, 0 < a ∧ a < m ∧ a ∉ l := by
  by_contra hc
  push Not at hc
  have hsub : List.range m ⊆ 0 :: l := by
    intro a ha
    rcases Nat.eq_zero_or_pos a with rfl | hpos
    · exact mem_cons_self
    · exact mem_cons_of_mem _ (hc a hpos (mem_range.mp ha))
  have hle := (subperm_of_subset nodup_range hsub).length_le
  rw [length_range,length_cons] at hle
  omega

theorem Roomy.not_refuses (h : Roomy s) : ¬Refuses U giving s := by
  rintro ⟨t,own,n,hheld,hown,hnone⟩
  obtain ⟨l,hl,hlive⟩ := h
  obtain ⟨a,hpos,hlt,hnot⟩ := exists_notMem_of_length (l := l ++ own) (m := 2 ^ 32) (by rw [length_append]; omega)
  rw [mem_append,not_or] at hnot
  have hfree : t.heap.block a = none := by
    rw [hheld.heap.frame a hnot.2]
    by_contra hc
    exact hnot.1 (hlive a hc)
  exact firstFree_ne_none hpos hlt hfree hnone

/-- A vector that begins with its own address is freed and then walked on. -/
theorem vecFail_self {temp size : ℕ} (hv : 0 < v) (hlt : v < 2 ^ 32) (hsize : 4 ≤ size)
    (hb : t.heap.block v = some ⟨size,encode 0 0 v 4⟩) (ret : Option DupErrno) : t.vecFail v temp ret = none := by
  obtain ⟨fuel,rfl⟩ := Nat.exists_eq_add_of_le hsize
  have hload : t.load v (4*0) = some v := (load_eq hb (by omega)).trans (congrArg some (decode_encode hlt))
  have hfree : ∃ u, t.kfree v = some u ∧ u.heap.block v = none := by
    refine ⟨_,by rw [DupState.kfree,if_neg (Nat.ne_of_gt hv),Blocks.free,hb]; rfl,?_⟩
    exact Function.update_self ..
  obtain ⟨u,hu,hgone⟩ := hfree
  have hstop : u.load v (4*(0+1)) = none := by
    rw [load,hgone]
    rfl
  have hentries : t.freeEntries v (4+fuel+1) 0 = none := by
    rw [show 4+fuel+1 = fuel+3+1+1 by omega]
    simp only [DupState.freeEntries,hload,if_neg (Nat.ne_of_gt hv),hu,hstop,bind_eq_bind,bind_some,
      bind_none]
  simp only [DupState.vecFail,if_neg (Nat.ne_of_gt hv),DupState.freeVector,hb,hentries,bind_eq_bind,
    bind_some,bind_none]

theorem StrHeld.nulIn (henv : LookupsOk env) (h : Sys U s.mem) (hroom : Roomy s) (hheld : StrHeld U giving env pid ustr s)
    (hmap : Mapped s pid ustr) : NulIn s pid ustr := by
  obtain ⟨t,p,ht,hcase⟩ := hheld
  obtain ⟨t',p',ht',hreturns⟩ := userStrdup_returns giving henv h pid ustr
  cases ht.symm.trans ht'
  rcases hreturns with ⟨rfl,-,hnone | hun⟩ | ⟨hpos,-,-,hdup⟩
  · exact absurd ⟨s,[],_,.refl h,by simp,hnone⟩ (hroom.not_refuses (U := U))
  · exact absurd hmap hun
  · rcases hcase with ⟨hzero,-⟩ | ⟨-,-,-,hend⟩
    · omega
    · exact hdup.terminated_iff.mp hend

theorem VecHeld.mapped (henv : LookupsOk env) (h : Sys U s.mem) (hroom : Roomy s) {uvec : Argvec}
    (hheld : VecHeld U giving env pid uvec s) :
    ArrayMapped s pid uvec ∧ (¬AllMapped s pid uvec.avLen (argBytes s pid uvec) ∨ (uvec.avLen+1)*8 < 2 ^ 32 ∧
      ∀ i, i < uvec.avLen → NulIn s pid (argstrIn (argBytes s pid uvec) i)) := by
  obtain ⟨t,v,ht,hcase⟩ := hheld
  cases userVecdup_cases giving henv h pid uvec with
  | freed _ _ _ hwhy =>
    obtain ⟨hmap,hun⟩ := hwhy.resolve_left hroom.not_refuses
    exact ⟨hmap,.inl hun⟩
  | unmapped u w temp kvec k e hun hrun _ hpos hmade hblock =>
    obtain ⟨-,⟨-,hlt⟩,rfl⟩ := firstFree_eq hmade
    have hsize : 4 ≤ vectorSize uvec.avLen := by
      have harray : 0 < arraySize uvec.avLen := by
        by_contra hc
        exact hun fun i hi => absurd hi (by omega)
      unfold arraySize u32 at harray
      unfold vectorSize u32
      omega
    rw [vecFail_self hpos hlt hsize hblock,ht] at hrun
    cases hrun
  | leaves _ hrun =>
    cases ht.symm.trans hrun
  | filled t' v' strs' hmap hsize hrun hpos hlen' hheld' hvec' _ hdups =>
    cases ht.symm.trans hrun
    rcases hcase with ⟨hzero,-⟩ | ⟨-,strs,hlen,-,-,hstrs,-⟩
    · omega
    · refine ⟨hmap,.inr ⟨hsize,fun i hi => ?_⟩⟩
      obtain ⟨p,hp⟩ : ∃ p, strs[i]? = some p := ⟨_,getElem?_eq_getElem (by omega)⟩
      obtain ⟨-,hdup,hend⟩ := hstrs i p hp
      exact hdup.terminated_iff.mp hend

/-- Whatever the allocator does, `user_strdup` returns NULL with nothing left of it, or a string that
ends in its block: just when a byte of the string is not mapped or one is 0. Whatever it does,
`user_vecdup` returns NULL with nothing left of it, or a vector of such strings: just when its array
is mapped and, of the strings that are in the array by its wrapped size, one is not mapped; or when
the array is mapped, the sizes do not wrap and each string has a 0. -/
theorem user_copies_held (henv : LookupsOk env) (h : Sys U s.mem) (hroom : Roomy s) (pid : ℕ) (ustr : Argstr) (uvec : Argvec) :
    ((∀ A, StrHeld U A env pid ustr s) ↔ (Mapped s pid ustr → NulIn s pid ustr)) ∧
    ((∀ A, VecHeld U A env pid uvec s) ↔
      ArrayMapped s pid uvec ∧ (¬AllMapped s pid uvec.avLen (argBytes s pid uvec) ∨ (uvec.avLen+1)*8 < 2 ^ 32 ∧
        ∀ i, i < uvec.avLen → NulIn s pid (argstrIn (argBytes s pid uvec) i))) := by
  refine ⟨⟨fun hall => (hall giving).nulIn henv h hroom,fun hnul A => .of_nulIn A henv h hnul⟩,
    fun hall => (hall giving).mapped henv h hroom,fun ⟨hmap,hcond⟩ A => .of_mapped A henv h hmap hcond⟩

end Holding

end DupState

/-! ### Runs -/

def emptyArgs : Memory (ℕ → UInt8) := ⟨fun _ => none,fun _ => none,fun _ => none,0,0,0,0,fun _ _ => 0,fun _ => 0⟩

theorem emptyArgs_initial : emptyArgs.Initial := ⟨fun _ => rfl,fun _ => rfl,fun _ => rfl,fun _ => rfl⟩

def calmArgs : Env (ℕ → UInt8) := ⟨fun _ => true,fun _ => true,fun _ => true,fun _ => none,0⟩

theorem calmArgs_ok : LookupsOk calmArgs := fun _ => ⟨rfl,rfl⟩

/-- Two `argstr_t`, of which the first is the string "hi", and the string. -/
def argPage (i : ℕ) : UInt8 := [0x10,0,0x50,0,2,0,0,0,0,0,0,0,0,0,0,0,104,105,0].getD i 0

def argCalls : List (Env (ℕ → UInt8) × Call (ℕ → UInt8)) :=
  [.procCreate,.map 0 none 0x500 1 readWrite privateAnon 0 .hilo,.write 0 0x500 fun _ => argPage].map
    fun c => (calmArgs, c)

def sampleArgs : Memory (ℕ → UInt8) := (run (step sampleUser) Allowed emptyArgs argCalls).getD emptyArgs

theorem sampleArgs_sys : Sys sampleUser sampleArgs :=
  sys_of_exec emptyArgs_initial.sys (Exec.ofRun_getD (by decide +kernel) emptyArgs)

/-- A new block every 0x1000 bytes. It begins with the address of the first one. -/
def nextBlock (s : DupState) (_ : ℕ) : Option (ℕ × (ℕ → UInt8)) :=
  let a := 0x1000*(s.heap.made.length+1)
  if s.heap.block a = none ∧ a < 2 ^ 32 then some (a, encode 0 0 0x1000 4) else none

theorem nextBlock_eq {s : DupState} {n a : ℕ} {d : ℕ → UInt8} (h : nextBlock s n = some (a, d)) :
    s.heap.block a = none ∧ 0 < a ∧ a < 2 ^ 32 := by
  obtain ⟨hc,he⟩ := ite_none_right_eq_some.mp h
  obtain rfl : 0x1000*(s.heap.made.length+1) = a := congrArg Prod.fst (some.inj he)
  exact ⟨hc.1,Nat.mul_pos (by decide) (Nat.succ_pos _),hc.2⟩

def everyPage : Allocator := ⟨nextBlock,fun h => (nextBlock_eq h).1,fun h => (nextBlock_eq h).2⟩

/-- The kernel has a block of its own, at 0x1000. -/
def sampleDup : DupState := ⟨sampleArgs,Blocks.make 0x1000 ⟨4,0⟩ ⟨fun _ => none,[],[]⟩,none⟩

def greeting : Argstr := ⟨0x500010,2,by decide,by decide⟩

def greetings : Argvec := ⟨0x500000,1,by decide,by decide⟩

theorem user_copies_held_sampleDup : DupState.StrHeld sampleUser everyPage calmArgs 0 greeting sampleDup ∧
    DupState.VecHeld sampleUser everyPage calmArgs 0 greetings sampleDup := by
  have hroom : sampleDup.Roomy := by
    refine ⟨[0x1000],by decide,fun a ha => ?_⟩
    by_contra hc
    refine ha ((Blocks.block_make a).trans (if_neg ?_))
    simpa using hc
  have hnul : sampleDup.NulIn 0 greeting := ⟨2,by decide,by decide +kernel⟩
  have hmap : sampleDup.ArrayMapped 0 greetings := by
    unfold DupState.ArrayMapped
    decide +kernel
  obtain ⟨hstr,hvec⟩ := DupState.user_copies_held calmArgs_ok (s := sampleDup) sampleArgs_sys hroom 0 greeting greetings
  refine ⟨hstr.mpr (fun _ => hnul) everyPage,hvec.mpr ⟨hmap,.inr ⟨by decide,fun i hi => ?_⟩⟩ everyPage⟩
  obtain rfl : i = 0 := by
    change i < 1 at hi
    omega
  have hbytes : ∀ i, i < DupState.arraySize greetings.avLen → sampleDup.argBytes 0 greetings i = argPage i := by decide +kernel
  rw [DupState.argstrIn_congr hbytes (by decide)]
  exact hnul

/-- The user says that "hi" has no bytes: one is copied, and the string does not end in its
block. A vector is so long that its sizes wrap to those of one entry: the loop leaves the
array. The array of a vector is not mapped: what the new vector happens to hold is taken for
strings, and the block of the kernel is freed. -/
theorem user_copies_unchecked :
    ((sampleDup.userStrdup everyPage calmArgs 0 ⟨0x500010,0,by decide,by decide⟩).any fun r =>
      decide (0 < r.2 ∧ ¬ r.1.Terminated r.2)) ∧
    (sampleDup.userVecdup everyPage calmArgs 0 ⟨0x500000,0x40000000,by decide,by decide⟩).isNone ∧
    ((sampleDup.userVecdup everyPage calmArgs 0 ⟨0x600000,1,by decide,by decide⟩).any fun r =>
      decide (r.2 = 0 ∧ (sampleDup.heap.block 0x1000).isSome ∧ r.1.heap.block 0x1000 = none)) := by
  decide +kernel

end Csci402.Api
