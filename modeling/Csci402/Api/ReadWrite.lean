import Csci402.Api.Syscall
import Csci402.Fs.Positions

/-! `sys_read` and `sys_write` and their buffer of one page. Nothing on the way from the
argument to the buffer bounds the number of bytes; where it is at most a page, every access
to the buffer is in the page. -/

namespace Csci402.Api

open Lib Lib.Prog Vm Vm.Memory Fs Option List

/-! ### What the copies access -/

section Loops

variable {β : Type} {round : ℕ → ℕ → ℕ → Transfer β → Option (Transfer β × Bool)} {e count fuel c d v : ℕ}
  {x y : Transfer β} {r : ℤ}

/-- The rounds go through the buffer without gaps; a copy that returns 0 has gone through
all of it. -/
theorem copyLoop_touched (hround : ∀ c d k x y b, round c d k x = some (y, b) →
      y.touched = x.touched ++ if b then [(d, k)] else [])
    (h : Transfer.copyLoop round e count fuel c d x = some (y, r)) (hd : d ≤ count) :
    ∃ l j, y.touched = x.touched ++ l ∧ Tiles l d j ∧ j ≤ count ∧
      (r = -1 ∨ r = 0 ∧ (c = v+d → e = v+count → e < 2 ^ 32 → j = count)) := by
  induction fuel generalizing c d x with
  | zero => cases h
  | succ fuel ih =>
    unfold Transfer.copyLoop at h
    split at h
    · obtain ⟨⟨z,b⟩,hz,h⟩ := bind_eq_some_iff.mp h
      have htouched := hround _ _ _ _ _ _ hz
      cases b with
      | false =>
        cases h
        exact ⟨[],d,htouched,rfl,hd,.inl rfl⟩
      | true =>
        obtain ⟨l,j,hl,ht,hj,hr⟩ := ih h (by omega)
        refine ⟨_ :: l,j,by rw [hl,htouched,if_pos rfl,append_assoc]; rfl,⟨rfl,ht⟩,hj,?_⟩
        refine hr.imp_right fun hr => ⟨hr.1,fun hc he he32 => hr.2 ?_ he he32⟩
        rw [hc,u32_add]
        · omega
        · omega
    · cases h
      exact ⟨[],d,by simp,rfl,hd,.inr ⟨rfl,fun hc he _ => by omega⟩⟩

end Loops

section Copies

variable {β : Type} [Zero β] {U : UserMem} {env : Env (ℕ → β)} {pid addr done bytes uaddr nbytes : ℕ} {x y : Transfer β}
  {b : Bool} {r : Except CopyError Unit}

theorem readRound_touched (h : Transfer.readRound env pid addr done bytes x = some (y, b)) :
    y.touched = x.touched ++ if b then [(done, bytes)] else [] := by
  obtain ⟨⟨s,page⟩,-,h⟩ := bind_eq_some_iff.mp h
  cases page with
  | none =>
    cases h
    exact (append_nil _).symm
  | some page =>
    cases h
    rfl

theorem writeRound_touched (h : Transfer.writeRound env pid addr done bytes x = some (y, b)) :
    y.touched = x.touched ++ if b then [(done, bytes)] else [] := by
  obtain ⟨⟨s,found⟩,-,h⟩ := bind_eq_some_iff.mp h
  cases found with
  | none =>
    cases h
    exact (append_nil _).symm
  | some u =>
    cases h
    rfl

/-- A copy has accessed the first `j` of `nbytes` bytes of its buffer. -/
def CopyTouched (uaddr nbytes : ℕ) (l : List Vmarea) (x : Transfer β) (r : Except CopyError Unit) (y : Transfer β) : Prop :=
  ∃ m j, y.touched = x.touched ++ m ∧ Tiles m 0 j ∧ j ≤ nbytes ∧
    (r = .ok () → ∀ U : UserMem, AreasOk U l → uaddr < 2 ^ 32 → j = nbytes)

omit [Zero β] in
/-- Whichever round it makes, a copy goes through its buffer without gaps. -/
theorem CopyTouched.of_copy {round : ℕ → ℕ → ℕ → Transfer β → Option (Transfer β × Bool)} {perm : Prot}
    (hround : ∀ c d k x y b, round c d k x = some (y, b) → y.touched = x.touched ++ if b then [(d, k)] else [])
    (h : copyUser perm (Transfer.copyLoop round (u32 (uaddr+nbytes)) nbytes (nbytes+1) uaddr 0) pid uaddr nbytes x = some (y, r)) :
    CopyTouched uaddr nbytes (x.mem.vmmList pid) x r y := by
  obtain ⟨ok,hperm,h⟩ := bind_eq_some_iff.mp h
  cases ok with
  | false =>
    cases h
    exact ⟨[],0,(append_nil _).symm,rfl,Nat.zero_le _,fun hr => by cases hr⟩
  | true =>
    obtain ⟨⟨z,n⟩,hz,h⟩ := bind_eq_some_iff.mp h
    cases h
    obtain ⟨m,j,hm,ht,hj,hn⟩ := copyLoop_touched (v := uaddr) hround hz (Nat.zero_le _)
    refine ⟨m,j,hm,ht,hj,fun hok U hU hu => ?_⟩
    rcases hn with rfl | ⟨-,hfull⟩
    · cases hok
    · have hsum := sum_lt_of_allSampled hU hu ((rangePerm_eq_true hU).mp hperm)
      have he := u32_add hsum
      exact hfull rfl he (by rw [he]; exact hsum)

theorem copyToUser_touched (h : copyToUser env pid uaddr nbytes x = some (y, r)) :
    CopyTouched uaddr nbytes (x.mem.vmmList pid) x r y := .of_copy (fun _ _ _ _ _ _ => writeRound_touched) h

theorem copyFromUser_touched (h : copyFromUser env pid uaddr nbytes x = some (y, r)) :
    CopyTouched uaddr nbytes (x.mem.vmmList pid) x r y := .of_copy (fun _ _ _ _ _ _ => readRound_touched) h

end Copies

/-! ### What the file operations return -/

variable {F E : Type}

/-- A `read` or `write` returns at most the number of bytes it is asked for. -/
structure Bounded (ops : Ops F E) : Prop where
  read : ∀ fs v pos n, (ops.read fs v pos n).2 ≤ n
  write : ∀ fs v pos n, (ops.write fs v pos n).2 ≤ n

/-- The call fails or returns at most `nbytes`. -/
def AtMost (nbytes : ℕ) (r : Ret) : Prop := ∀ n, r = .ok n → 0 ≤ n ∧ n ≤ nbytes

theorem AtMost.error (nbytes : ℕ) (e : Fs.Errno) : AtMost nbytes (.error e) := by
  intro n hn
  cases hn

theorem AtMost.ofInt {nbytes : ℕ} {n : ℤ} (h : n ≤ nbytes) : AtMost nbytes (.ofInt n) := by
  intro m hm
  unfold Ret.ofInt at hm
  split at hm
  · cases hm
  · cases hm
    exact ⟨by omega,h⟩

variable {ops : Ops F E} {pid : ℕ} {fd : ℤ} {nbytes : ℕ} {s : Vfs F}

theorem doRead_atMost (h : Bounded ops) : Runs (fun r _ => AtMost nbytes r) (fun _ => True) (doRead ops pid fd nbytes) s := by
  unfold doRead
  refine runs_after fun f _ => ?_
  cases f with
  | none => exact AtMost.error _ _
  | some f =>
    refine runs_after fun _ _ => runs_after fun x _ => ?_
    obtain ⟨file,v⟩ := x
    dsimp only
    split
    · exact runs_after fun _ _ => AtMost.error _ _
    split
    · exact runs_after fun _ _ => AtMost.error _ _
    refine runs_after fun t _ => runs_after fun _ _ => ?_
    split
    · exact runs_after fun _ _ => AtMost.ofInt (h.read _ _ _ _)
    · exact runs_after fun _ _ => runs_after fun _ _ => AtMost.ofInt (h.read _ _ _ _)

theorem doWrite_atMost (h : Bounded ops) : Runs (fun r _ => AtMost nbytes r) (fun _ => True) (doWrite ops pid fd nbytes) s := by
  unfold doWrite
  refine runs_after fun f _ => ?_
  cases f with
  | none => exact AtMost.error _ _
  | some f =>
    refine runs_after fun _ _ => runs_after fun x _ => ?_
    obtain ⟨file,v⟩ := x
    dsimp only
    split
    · exact runs_after fun _ _ => AtMost.error _ _
    refine runs_after fun _ _ => runs_after fun y _ => ?_
    obtain ⟨file',v'⟩ := y
    dsimp only
    refine runs_after fun _ _ => runs_after fun t _ => runs_after fun _ _ => runs_after fun _ _ => ?_
    exact runs_after fun _ _ => runs_after fun _ _ => AtMost.ofInt (h.write _ _ _ _)

/-! ### The calls -/

variable {β : Type} {α : Type} {k : Kernel β F} {X : Kernel β F → Prop}

theorem runs_onTransfer {Q : α → Kernel β F → Prop} {f : Transfer β → Option (Transfer β × α)} (hX : X k)
    (hQ : ∀ x a, f k.xfer = some (x, a) → Q a { k with xfer := x }) : Runs Q X (onTransfer f) k := by
  unfold Runs onTransfer
  cases hf : f k.xfer with
  | none => exact hX
  | some y => exact hQ y.1 y.2 hf

theorem runs_fileOp {Q : Ret → Kernel β F → Prop} {io : Io β E} {stopped : ℕ} {data : (ℕ → β) → ℕ → β} {m : Prog (Vfs F) Ret}
    {P : Ret → Prop} (hm : Runs (fun r _ => P r) (fun _ => True) m k.vfs) (hX : ∀ t, (m k.vfs).1 = none →
      X ⟨t,⟨k.xfer.mem,data k.xfer.buf,k.xfer.touched ++ [(0, accessed io nbytes stopped none)]⟩⟩)
    (hQ : ∀ r t, (m k.vfs).1 = some r → P r →
      Q r ⟨t,⟨k.xfer.mem,data k.xfer.buf,k.xfer.touched ++ [(0, accessed io nbytes stopped (some r))]⟩⟩) :
    Runs Q X (fileOp io nbytes stopped data m) k := by
  unfold Runs at hm
  unfold Runs fileOp
  rcases hr : m k.vfs with ⟨_ | r,t⟩
  · rw [hr] at hX
    exact hX t rfl
  · rw [hr] at hm hQ
    exact hQ r t rfl hm

/-- Every access to the buffer was in its page. -/
def InPage (k : Kernel β F) : Prop := ∀ p ∈ k.xfer.touched, p.1+p.2 ≤ pageSize

theorem InPage.snoc {vfs : Vfs F} {x y : Transfer β} (h : InPage ⟨vfs,x⟩) {l : List (ℕ × ℕ)} (hl : y.touched = x.touched ++ l)
    (hle : ∀ p ∈ l, p.1+p.2 ≤ pageSize) (vfs' : Vfs F) : InPage ⟨vfs',y⟩ := by
  intro p hp
  rw [show (⟨vfs',y⟩ : Kernel β F).xfer.touched = x.touched ++ l from hl] at hp
  rcases mem_append.mp hp with hp | hp
  · exact h p hp
  · exact hle p hp

theorem accessed_le (io : Io β E) (stopped : ℕ) (r : Option Ret) : accessed io nbytes stopped r ≤ nbytes := by
  unfold accessed
  split <;> first | exact Nat.min_le_right _ _ | exact Nat.zero_le _

theorem accessed_ok {n : ℤ} (io : Io β E) (stopped : ℕ) (h : AtMost nbytes (.ok n)) :
    accessed io nbytes stopped (some (.ok n)) = n.toNat := by
  have := h n rfl
  unfold accessed
  dsimp only
  omega

section Calls

variable [Zero β] {env : Env (ℕ → β)} {io : Io β E} {a : RwArgs}

omit [Zero β] in
/-- A copy of at most a page stays in the page. -/
theorem CopyTouched.inPage {vfs : Vfs F} {x y : Transfer β} {uaddr n : ℕ} {l : List Vmarea} {r : Except CopyError Unit}
    (h : CopyTouched uaddr n l x r y) (hn : n ≤ pageSize) (hx : InPage ⟨vfs,x⟩) : InPage ⟨vfs,y⟩ := by
  obtain ⟨m,j,hm,ht,hj,-⟩ := h
  refine hx.snoc hm (fun p hp => ?_) vfs
  have := ht.mem_le hp
  omega

omit [Zero β] in
theorem InPage.new (vfs : Vfs F) (mem : Memory (ℕ → β)) (buf : ℕ → β) : InPage (⟨vfs,⟨mem,buf,[]⟩⟩ : Kernel β F) := by
  intro p hp
  cases hp

/-- What is true when `sys_read` returns: it returns the number of bytes that it has copied out of the
buffer, or an error. -/
def ReadDone (pid : ℕ) (args : Except CopyError RwArgs) (k : Kernel β F) (r : SysRet) (t : Kernel β F) : Prop :=
  InPage t ∧ ∀ n : ℤ, r = .ok n → ∃ a, args = .ok a ∧ 0 ≤ n ∧ n ≤ a.nbytes ∧ ∃ m, t.xfer.touched = (0, n.toNat) :: m ∧
    ∀ U : UserMem, AreasOk U (k.xfer.mem.vmmList pid) → a.buf < 2 ^ 32 → Tiles m 0 n.toNat

/-- What is true when `sys_write` returns: it returns the number of bytes that were written from the
buffer, or an error. -/
def WriteDone (args : Except CopyError RwArgs) (r : SysRet) (t : Kernel β F) : Prop :=
  InPage t ∧ ∀ n : ℤ, r = .ok n → ∃ a, args = .ok a ∧ 0 ≤ n ∧ n ≤ a.nbytes ∧ ∃ m, t.xfer.touched = m ++ [(0, n.toNat)]

/-- The operation of a descriptor that is open for reading reads at most a page. -/
def ReadFits (ops : Ops F E) (io : Io β E) (s : Vfs F) (pid : ℕ) (fd : ℤ) (nbytes : ℕ) : Prop :=
  ∀ f file v, IsOpen ops s pid fd f file v → ¬(ops.type v).NoTransfer → file.fMode.read = true →
    accessed io nbytes 0 (some (.ofInt (ops.read s.fs v file.fPos nbytes).2)) ≤ pageSize

omit [Zero β] in
theorem doRead_fits_iff (hproc : (s.procs pid).isSome)
    (hfd : ∀ f, Holds ops s pid fd f → ∃ file v, IsOpen ops s pid fd f file v) (io : Io β E) :
    accessed io nbytes 0 (doRead ops pid fd nbytes s).1 ≤ pageSize ↔ ReadFits ops io s pid fd nbytes := by
  by_cases hholds : ∃ f, Holds ops s pid fd f
  · obtain ⟨f,hf⟩ := hholds
    obtain ⟨file,v,ho⟩ := hfd f hf
    have uniq : ∀ f' file' v', IsOpen ops s pid fd f' file' v' → file' = file ∧ v' = v := by
      rintro f' file' v' ⟨⟨-,-,p,hp,hslot⟩,hfile,hv,-⟩
      obtain ⟨-,-,p',hp',hslot'⟩ := hf
      cases hp.symm.trans hp'
      cases hslot.symm.trans hslot'
      cases hfile.symm.trans ho.isFile
      exact ⟨rfl,some.inj (hv.symm.trans ho.vnode)⟩
    by_cases hd : (ops.type v).NoTransfer
    · refine iff_of_true (by rw [doRead_null ho hd]; exact Nat.zero_le _) fun f' file' v' ho' hd' => ?_
      exact absurd ((uniq f' file' v' ho').2 ▸ hd) hd'
    cases hm : file.fMode.read with
    | false =>
      refine iff_of_true (by rw [doRead_mode ho hd hm]; exact Nat.zero_le _) fun f' file' v' ho' _ hm' => ?_
      rw [(uniq f' file' v' ho').1,hm] at hm'
      cases hm'
    | true =>
      have hres : (doRead ops pid fd nbytes s).1 = some (.ofInt (ops.read s.fs v file.fPos nbytes).2) := by
        rcases hr : ops.read s.fs v file.fPos nbytes with ⟨fs,r⟩
        by_cases hneg : r < 0
        · rw [doRead_fails ho hd hm hr hneg]
        · rw [doRead_moves ho hd hm hr (Int.not_lt.mp hneg),Ret.ofInt,if_neg hneg]
      rw [hres]
      refine ⟨fun hle f' file' v' ho' _ _ => ?_,fun hall => hall f file v ho hd hm⟩
      rw [(uniq f' file' v' ho').1,(uniq f' file' v' ho').2]
      exact hle
  · obtain ⟨p,hp⟩ := isSome_iff_exists.mp hproc
    have hbad : doRead ops pid fd nbytes s = (some (.error .ebadf), s) := by
      refine runs_eq ?_
      unfold doRead
      rw [runs_bind]
      exact runs_slot_none hp (fun f hf => hholds ⟨f,hf⟩) ⟨rfl,rfl⟩
    exact iff_of_true (by rw [hbad]; exact Nat.zero_le _) fun f file v ho => absurd ⟨f,ho.holds⟩ hholds

/-- What the operation has accessed is noted, whatever comes after it. -/
theorem sysRead_touches (hops : Bounded ops) (k : Kernel β F) {n : ℕ}
    (hn : accessed io a.nbytes 0 (doRead ops pid a.fd a.nbytes k.vfs).1 = n) :
    Runs (fun _ t => (0, n) ∈ t.xfer.touched) (fun t => (0, n) ∈ t.xfer.touched) (sysRead ops env io pid (.ok a)) k := by
  unfold sysRead
  dsimp only
  rw [runs_bind]
  unfold newBuffer
  rw [runs_modify,runs_bind]
  refine runs_fileOp (doRead_atMost hops) (fun t hr => ?_) fun r t hr _ => ?_
  · change (doRead ops pid a.fd a.nbytes k.vfs).1 = none at hr
    rw [← hn,hr]
    exact mem_singleton_self _
  · change (doRead ops pid a.fd a.nbytes k.vfs).1 = some r at hr
    rw [hr] at hn
    rw [hn]
    cases r with
    | error e => exact mem_singleton_self _
    | ok readbytes =>
      dsimp only
      rw [runs_bind]
      refine runs_onTransfer (mem_singleton_self _) fun x c hx => ?_
      obtain ⟨m,-,hm,-⟩ := copyToUser_touched hx
      have hmem : (0, n) ∈ x.touched := by
        rw [hm]
        exact mem_append_left _ (mem_singleton_self _)
      cases c <;> exact hmem

theorem sysRead_inPage (hops : Bounded ops) (k : Kernel β F)
    (hacc : accessed io a.nbytes 0 (doRead ops pid a.fd a.nbytes k.vfs).1 ≤ pageSize) :
    Runs (ReadDone pid (.ok a) k) InPage (sysRead ops env io pid (.ok a)) k := by
  unfold sysRead
  dsimp only
  rw [runs_bind]
  unfold newBuffer
  rw [runs_modify,runs_bind]
  have hop : ∀ t n, n ≤ pageSize → InPage (⟨t,⟨k.xfer.mem,io.data,[] ++ [(0, n)]⟩⟩ : Kernel β F) := by
    intro t n hn
    refine (InPage.new k.vfs k.xfer.mem io.page).snoc rfl (fun p hp => ?_) t
    rw [mem_singleton.mp hp]
    omega
  refine runs_fileOp (doRead_atMost hops) (fun t hr => ?_) fun r t hr hle => ?_
  · change (doRead ops pid a.fd a.nbytes k.vfs).1 = none at hr
    rw [hr] at hacc
    exact hop t _ hacc
  change (doRead ops pid a.fd a.nbytes k.vfs).1 = some r at hr
  rw [hr] at hacc
  cases r with
  | error e => exact ⟨hop t _ hacc,fun n hn => by cases hn⟩
  | ok readbytes =>
    have hbytes := hle readbytes rfl
    rw [accessed_ok io 0 hle] at hacc
    dsimp only
    rw [runs_bind,accessed_ok io 0 hle]
    refine runs_onTransfer (hop t _ hacc) fun x c hx => ?_
    have htouched := copyToUser_touched hx
    have hin := htouched.inPage hacc (hop t _ hacc)
    cases c with
    | error e => exact ⟨hin,fun n hn => by cases hn⟩
    | ok u =>
      refine ⟨hin,fun n hn => ?_⟩
      cases hn
      obtain ⟨m,j,hm,ht,-,hj⟩ := htouched
      refine ⟨a,rfl,hbytes.1,hbytes.2,m,hm,fun U hU hb => ?_⟩
      rwa [hj rfl U hU hb] at ht

/-- A copy of more than a page that passes leaves the page. -/
theorem copyFromUser_leaves {U : UserMem} {x y : Transfer β} {r : Except CopyError Unit} (h : Sys U x.mem) (henv : LookupsOk env)
    (ha : a.buf < 2 ^ 32) (hn : pageSize < a.nbytes) (hall : AllSampled (x.mem.vmmList pid) a.buf a.nbytes)
    (hy : copyFromUser env pid a.buf a.nbytes x = some (y, r)) : ∃ p ∈ y.touched, pageSize < p.1+p.2 := by
  have hsum := sum_lt_of_allSampled (h.list pid).ok ha hall
  rw [copyFromUser,copyUser_passed h hall] at hy
  obtain ⟨⟨z,n⟩,hz,he⟩ := map_eq_some_iff.mp hy
  cases he
  obtain ⟨z',n',hz',hcase⟩ := h.vmmapRead (henv.readsOk pid a.buf a.nbytes x) hsum
  cases hz.symm.trans hz'
  obtain ⟨d,hd,hf⟩ : ∃ d, pageSize < d ∧ Fetched U pid a.buf x d z := by
    rcases hcase with ⟨-,hf⟩ | ⟨-,d,hd,hf,hnone⟩
    · exact ⟨_,hn,hf⟩
    · refine ⟨d,?_,hf⟩
      by_contra hc
      -- the first two addresses that are looked at are on the pages of these bytes
      have page : ∀ j, j*pageSize < a.nbytes → (a.buf+d) / pageSize ≠ (a.buf+j*pageSize) / pageSize := by
        intro j hj he
        have hsome := hall j hj
        rw [areaAt,sampled,show u32 ((a.buf+j*pageSize : ℕ) : ℤ) = a.buf+j*pageSize by unfold u32; omega,← he,hnone] at hsome
        cases hsome
      have h₀ := page 0 (by omega)
      have h1 := page 1 (by omega)
      unfold pageSize at *
      omega
  obtain ⟨l,hl,ht⟩ := hf.touched
  obtain ⟨p,hp,he⟩ := ht.exists_last (by omega)
  exact ⟨p,by rw [hl]; exact mem_append_right _ hp,by omega⟩

theorem sysWrite_leaves {U : UserMem} (hops : Bounded ops) (k : Kernel β F) (h : Sys U k.xfer.mem) (henv : LookupsOk env)
    (ha : a.buf < 2 ^ 32) (hn : pageSize < a.nbytes) (hall : AllSampled (k.xfer.mem.vmmList pid) a.buf a.nbytes) :
    Runs (fun _ t => ¬InPage t) (fun t => ¬InPage t) (sysWrite ops env io pid (.ok a)) k := by
  have hx : Sys U (⟨k.xfer.mem,io.page,[]⟩ : Transfer β).mem := h
  obtain ⟨y,r,hy,-⟩ := copyFromUser_returns hx henv pid ha a.nbytes
  obtain ⟨p,hp,hlt⟩ := copyFromUser_leaves hx henv ha hn hall hy
  have leaves : ∀ {vfs : Vfs F} {z : Transfer β} {m : List (ℕ × ℕ)}, z.touched = y.touched ++ m → ¬InPage ⟨vfs,z⟩ := by
    intro vfs z m hz hin
    have := hin p (by rw [show (⟨vfs,z⟩ : Kernel β F).xfer.touched = _ from hz]; exact mem_append_left _ hp)
    omega
  unfold sysWrite
  dsimp only
  rw [runs_bind]
  unfold newBuffer
  rw [runs_modify,runs_bind]
  have hfirst : onTransfer (copyFromUser env pid a.buf a.nbytes) (⟨k.vfs,⟨k.xfer.mem,io.page,[]⟩⟩ : Kernel β F) =
      (some r, ⟨k.vfs,y⟩) := by
    unfold onTransfer
    rw [hy]
  unfold Runs
  rw [hfirst]
  change Runs _ _ _ _
  rw [runs_bind]
  refine runs_onTransfer (leaves (append_nil _).symm) fun z c hz => ?_
  obtain ⟨m,-,hm,-⟩ := copyFromUser_touched hz
  cases c with
  | error e => exact leaves hm
  | ok u =>
    dsimp only
    rw [runs_bind]
    have hop : ∀ t n, ¬InPage (⟨t,⟨z.mem,z.buf,z.touched ++ [(0, n)]⟩⟩ : Kernel β F) := by
      intro t n
      refine leaves (m := m ++ [(0, n)]) ?_
      rw [← append_assoc,← hm]
    refine runs_fileOp (doWrite_atMost hops) (fun t _ => hop t _) fun r t _ _ => ?_
    cases r <;> exact hop t _

theorem sysWrite_inPage (hops : Bounded ops) (hn : a.nbytes ≤ pageSize) (k : Kernel β F) :
    Runs (WriteDone (.ok a)) InPage (sysWrite ops env io pid (.ok a)) k := by
  unfold sysWrite
  dsimp only
  rw [runs_bind]
  unfold newBuffer
  rw [runs_modify,runs_bind]
  have hnew := InPage.new k.vfs k.xfer.mem io.page
  refine runs_onTransfer hnew fun x c hx => ?_
  have hx' := (copyFromUser_touched hx).inPage hn hnew
  rw [runs_bind]
  refine runs_onTransfer hx' fun y c hy => ?_
  have hy' := (copyFromUser_touched hy).inPage hn hx'
  cases c with
  | error e => exact ⟨hy',fun n hn => by cases hn⟩
  | ok u =>
    dsimp only
    rw [runs_bind]
    have hop : ∀ t n, n ≤ a.nbytes → InPage (⟨t,⟨y.mem,y.buf,y.touched ++ [(0, n)]⟩⟩ : Kernel β F) := by
      intro t n hna
      refine hy'.snoc rfl (fun p hp => ?_) t
      rw [mem_singleton.mp hp]
      omega
    refine runs_fileOp (doWrite_atMost hops) (fun t _ => hop t _ (accessed_le io _ _)) fun r t _ hr => ?_
    cases r with
    | error e => exact ⟨hop t _ (accessed_le io _ _),fun n hn => by cases hn⟩
    | ok writebytes =>
      have hle := hr writebytes rfl
      refine ⟨hop t _ (accessed_le io _ _),fun n hn => ?_⟩
      cases hn
      exact ⟨a,rfl,hle.1,hle.2,y.touched,by rw [accessed_ok io _ hr]⟩

/-- A copy that `range_perm` refuses does not get to the buffer. -/
theorem sysWrite_refused {U : UserMem} (k : Kernel β F) (h : Sys U k.xfer.mem)
    (hno : ¬AllSampled (k.xfer.mem.vmmList pid) a.buf a.nbytes) :
    ∃ e, sysWrite ops env io pid (.ok a) k = (some (.error e), ⟨k.vfs,⟨k.xfer.mem,io.page,[]⟩⟩) := by
  have hx : Sys U (⟨k.xfer.mem,io.page,[]⟩ : Transfer β).mem := h
  have hcopy : onTransfer (copyFromUser env pid a.buf a.nbytes) (⟨k.vfs,⟨k.xfer.mem,io.page,[]⟩⟩ : Kernel β F) =
      (some (.error .efault), ⟨k.vfs,⟨k.xfer.mem,io.page,[]⟩⟩) := by
    unfold onTransfer
    rw [show copyFromUser env pid a.buf a.nbytes _ = _ from copyUser_refused hx hno]
  refine ⟨.copy .efault,?_⟩
  unfold sysWrite
  refine (bind_of_returns rfl).trans ((bind_of_returns hcopy).trans (bind_of_returns hcopy))

theorem sysRead_inPage_iff (hops : Bounded ops) (k : Kernel β F) (hproc : (k.vfs.procs pid).isSome)
    (hfd : ∀ f, Holds ops k.vfs pid a.fd f → ∃ file v, IsOpen ops k.vfs pid a.fd f file v) :
    Runs (ReadDone pid (.ok a) k) InPage (sysRead ops env io pid (.ok a)) k ↔ ReadFits ops io k.vfs pid a.fd a.nbytes := by
  rw [← doRead_fits_iff hproc hfd io]
  constructor
  · intro hrun
    have htouch : Runs _ _ (sysRead ops env io pid (.ok a)) k := sysRead_touches hops k rfl
    unfold Runs at hrun htouch
    rcases hm : sysRead ops env io pid (.ok a) k with ⟨_ | r,t⟩ <;> rw [hm] at hrun htouch
    · simpa using hrun _ htouch
    · simpa using hrun.1 _ htouch
  · intro hacc
    exact sysRead_inPage hops k hacc

theorem sysWrite_inPage_iff {U : UserMem} (hops : Bounded ops) (k : Kernel β F) (h : Sys U k.xfer.mem) (henv : LookupsOk env)
    (ha : a.buf < 2 ^ 32) : Runs (WriteDone (.ok a)) InPage (sysWrite ops env io pid (.ok a)) k ↔
      a.nbytes ≤ pageSize ∨ ¬AllSampled (k.xfer.mem.vmmList pid) a.buf a.nbytes := by
  constructor
  · intro hrun
    by_contra hc
    rw [not_or,not_not] at hc
    have hleaves : Runs _ _ (sysWrite ops env io pid (.ok a)) k :=
      sysWrite_leaves hops k h henv ha (Nat.not_le.mp hc.1) hc.2
    unfold Runs at hrun hleaves
    rcases hm : sysWrite ops env io pid (.ok a) k with ⟨_ | r,t⟩ <;> rw [hm] at hrun hleaves
    · exact hleaves hrun
    · exact hleaves hrun.1
  · rintro (hn | hno)
    · exact sysWrite_inPage hops hn k
    · obtain ⟨e,he⟩ : ∃ e, sysWrite ops env io pid (.ok a) k = (some (.error e), _) := sysWrite_refused k h hno
      unfold Runs
      rw [he]
      exact ⟨InPage.new _ _ _,fun n hn => by cases hn⟩

/-- Every access to the buffer is in its page, whether the call returns or not, just where the
operation of `sys_read` reads at most a page, and where no more than a page is asked for of
`sys_write` or `range_perm` refuses the range. -/
theorem buffer_in_page (hops : Bounded ops) (env : Env (ℕ → β)) (io : Io β E) (pid : ℕ) (args : Except CopyError RwArgs)
    (k : Kernel β F) (hk : k.xfer.touched = []) (hproc : (k.vfs.procs pid).isSome)
    (hfd : ∀ fd f, Holds ops k.vfs pid fd f → ∃ file v, IsOpen ops k.vfs pid fd f file v) :
    (Runs (ReadDone pid args k) InPage (sysRead ops env io pid args) k ↔
      ∀ a, args = .ok a → ReadFits ops io k.vfs pid a.fd a.nbytes) ∧
    ((∀ a, args = .ok a → a.nbytes ≤ pageSize) → Runs (WriteDone args) InPage (sysWrite ops env io pid args) k) ∧
    ∀ U : UserMem, Sys U k.xfer.mem → LookupsOk env → (∀ a, args = .ok a → a.buf < 2 ^ 32) →
      (Runs (WriteDone args) InPage (sysWrite ops env io pid args) k ↔
        ∀ a, args = .ok a → a.nbytes ≤ pageSize ∨ ¬AllSampled (k.xfer.mem.vmmList pid) a.buf a.nbytes) := by
  cases args with
  | error e =>
    have hin : InPage k := by
      intro p hp
      rw [hk] at hp
      cases hp
    have hread : ReadDone pid (.error e) k (.error (.copy e)) k := ⟨hin,fun n hn => by cases hn⟩
    have hwrite : WriteDone (.error e) (.error (.copy e)) k := ⟨hin,fun n hn => by cases hn⟩
    exact ⟨iff_of_true hread (by rintro _ ⟨⟩),fun _ => hwrite,fun _ _ _ _ => iff_of_true hwrite (by rintro _ ⟨⟩)⟩
  | ok a =>
    have one : ∀ {P : RwArgs → Prop}, (∀ b, Except.ok (ε := CopyError) a = .ok b → P b) ↔ P a :=
      ⟨fun hb => hb a rfl,fun hp b hb => by cases hb; exact hp⟩
    simp only [one]
    exact ⟨sysRead_inPage_iff hops k hproc (hfd a.fd),fun hn => sysWrite_inPage hops hn k,
      fun U h henv ha => sysWrite_inPage_iff hops k h henv ha⟩

end Calls

/-! ### A process with an open file -/

def sampleKernel : Kernel ℕ Unit := ⟨openVfs,⟨sampleBytes,0,[]⟩⟩

def sampleIo : Io ℕ ℕ := ⟨0,fun i => i,0,fun n _ => n⟩

theorem sampleOps_bounded : Bounded sampleOps := ⟨fun _ _ _ _ => Int.le_refl _,fun _ _ _ _ => Int.le_refl _⟩

/-- No more than seven bytes are left of the file. -/
def shortOps : Ops Unit ℕ := { sampleOps with read := fun _ _ _ n => ((), min n 7) }

theorem shortOps_bounded : Bounded shortOps := ⟨fun _ _ _ n => Int.min_le_left n 7,sampleOps_bounded.write⟩

theorem openVfs_open (fd : ℤ) (f : ℕ) (h : Holds shortOps openVfs 0 fd f) : ∃ file v, IsOpen shortOps openVfs 0 fd f file v := by
  obtain ⟨h0,hlt,p,hp,hf⟩ := h
  cases hp
  dsimp only at hf
  split at hf
  · cases hf
    exact ⟨_,2,⟨h0,hlt,_,rfl,if_pos (by assumption)⟩,rfl,rfl,Nat.le_refl _⟩
  · cases hf

/-- A read of 5000 bytes gets seven. -/
theorem buffer_in_page_sampleKernel : ∃ r t, sysRead shortOps calmBytes sampleIo 0 (.ok ⟨0,0x500ff0,5000⟩) sampleKernel = (some r, t) ∧
    ReadDone 0 (.ok ⟨0,0x500ff0,5000⟩) sampleKernel r t := by
  have hfits : ReadFits shortOps sampleIo sampleKernel.vfs 0 0 5000 := by
    intro f file v _ _ _
    change accessed sampleIo 5000 0 (some (.ofInt 7)) ≤ pageSize
    decide
  have h := (buffer_in_page shortOps_bounded calmBytes sampleIo 0 (.ok ⟨0,0x500ff0,5000⟩) sampleKernel rfl rfl openVfs_open).1.mpr
    fun a ha => by cases ha; exact hfits
  have hsome : (sysRead shortOps calmBytes sampleIo 0 (.ok ⟨0,0x500ff0,5000⟩) sampleKernel).1.isSome := by decide +kernel
  unfold Runs at h
  rcases hm : sysRead shortOps calmBytes sampleIo 0 (.ok ⟨0,0x500ff0,5000⟩) sampleKernel with ⟨_ | r,t⟩ <;> rw [hm] at h hsome
  · cases hsome
  · exact ⟨r,t,rfl,h⟩

/-- A read of 5000 bytes, all of which the file has, writes behind the end of the page. -/
theorem read_overflows_page :
    ((sysRead sampleOps calmBytes sampleIo 0 (.ok ⟨0,0x500000,5000⟩) sampleKernel).1.any fun r => r matches .ok 5000) ∧
    (0, 5000) ∈ (sysRead sampleOps calmBytes sampleIo 0 (.ok ⟨0,0x500000,5000⟩) sampleKernel).2.xfer.touched ∧
    pageSize < 5000 := by
  refine ⟨?_,?_,by decide⟩
  · decide +kernel
  · decide +kernel

end Csci402.Api
