import Csci402.Api.ReadWrite

/-! `sys_getdents`. Each round of its loop copies one entry to the user, and as long as the
entries fit the rounds fill the user's buffer as one write of all of them would. But the loop
looks for room for a byte, not for an entry, and takes a `readdir` that fails for one. -/

namespace Csci402.Api

open Lib Lib.Prog Vm Vm.Memory Fs List

variable {F E : Type} {ops : Ops F E} {v : ℕ} {fs fs' fs1 : F} {pos pos' r : ℤ} {e : E} {es : List E}

/-- Reading the directory from a position on gives these entries and leads to another
position. A `readdir` that gives an entry returns by how much the position moves. -/
inductive Walk (ops : Ops F E) (v : ℕ) : F → ℤ → List E → F → ℤ → Prop
  | nil (fs : F) (pos : ℤ) : Walk ops v fs pos [] fs pos
  | cons {fs fs' fs1 : F} {pos pos' r : ℤ} {e : E} {es : List E} (hread : ops.readdir fs v pos = (fs', r, e)) (hr : 0 < r)
      (hint : int32 (pos+r) = pos+r) (hwalk : Walk ops v fs' (pos+r) es fs1 pos') :
      Walk ops v fs pos (e :: es) fs1 pos'

theorem Walk.int32_eq (h : Walk ops v fs pos es fs' pos') (hpos : int32 pos = pos) : int32 pos' = pos' := by
  induction h with
  | nil => exact hpos
  | cons _ _ hint _ ih => exact ih hint

/-! ### One round -/

section Round

variable {β : Type} [Zero β] {env : Env (ℕ → β)} {io : Io β E} {pid f fuel bytes tail : ℕ} {a : GetdentsArgs}
  {file : File} {k : Kernel β F} {x : Transfer β}

omit [Zero β] in
theorem onVfs_eq {α : Type} {m : Prog (Vfs F) α} {c : α} {t : Vfs F} (h : m k.vfs = (some c, t)) :
    onVfs m k = (some c, { k with vfs := t }) := by
  unfold onVfs
  rw [h]

theorem getdentsLoop_full (h : ¬ bytes < a.count) :
    getdentsLoop ops env io pid a (fuel+1) bytes tail k = (some (.ok (int32 bytes)), k) := by
  unfold getdentsLoop
  rw [if_neg h]
  rfl

theorem getdentsLoop_end (hopen : IsOpen ops k.vfs pid a.fd f file v) (hd : ops.type v = .dir) (h : bytes < a.count)
    (hread : ops.readdir k.vfs.fs v file.fPos = (fs', 0, e)) : getdentsLoop ops env io pid a (fuel+1) bytes tail k =
      (some (.ok (int32 bytes)), { k with vfs := withFile { k.vfs with fs := fs' } f (file.advance 0) }) := by
  unfold getdentsLoop
  rw [if_pos h,bind_of_returns (onVfs_eq (doGetdent_dir hopen hd hread))]
  rfl

theorem getdentsLoop_entry (hopen : IsOpen ops k.vfs pid a.fd f file v) (hd : ops.type v = .dir) (h : bytes < a.count)
    (hread : ops.readdir k.vfs.fs v file.fPos = (fs', r, e)) (hr : r ≠ 0) (hsize : 0 < ops.direntSize) :
    getdentsLoop ops env io pid a (fuel+1) bytes tail k =
      match copyToUser env pid tail ops.direntSize ⟨k.xfer.mem,io.encode e,[]⟩ with
      | none => (none, ⟨withFile { k.vfs with fs := fs' } f (file.advance r),⟨k.xfer.mem,io.encode e,[]⟩⟩)
      | some (x, .error c) => (some (.error (.copy c)), ⟨withFile { k.vfs with fs := fs' } f (file.advance r),x⟩)
      | some (x, .ok ()) => getdentsLoop ops env io pid a fuel (u32 (bytes+ops.direntSize)) (u32 (tail+ops.direntSize))
          ⟨withFile { k.vfs with fs := fs' } f (file.advance r),x⟩ := by
  conv_lhs => unfold getdentsLoop
  rw [if_pos h,bind_of_returns (onVfs_eq (doGetdent_dir hopen hd hread)),if_neg hr]
  dsimp only
  rw [if_neg (by omega)]
  refine (bind_of_returns rfl).trans ((bind_of_returns rfl).trans ?_)
  change Prog.bind _ _ _ = _
  unfold Prog.bind onTransfer
  dsimp only
  rcases copyToUser env pid tail ops.direntSize ⟨k.xfer.mem,io.encode e,[]⟩ with _ | ⟨x,c | u⟩ <;> rfl

omit [Zero β] in
/-- The file stays open when its position moves. -/
theorem isOpen_moved (hopen : IsOpen ops k.vfs pid a.fd f file v) (fs' : F) (pos : ℤ) :
    IsOpen ops (withFile { k.vfs with fs := fs' } f { file with fPos := pos }) pid a.fd f { file with fPos := pos } v :=
  ⟨hopen.holds,withFile_self _ _ _,hopen.vnode,hopen.refs⟩

/-- No error of `readdir` is reported. -/
theorem getdentsLoop_unreported (hd : ops.type v = .dir) (hsize : 0 < ops.direntSize) (err : Fs.Errno)
    (hopen : IsOpen ops k.vfs pid a.fd f file v) : (getdentsLoop ops env io pid a fuel bytes tail k).1 ≠ some (.error (.fs err)) := by
  induction fuel generalizing bytes tail file k with
  | zero => exact fun hc => by cases hc
  | succ fuel ih =>
    by_cases h : bytes < a.count
    · rcases hread : ops.readdir k.vfs.fs v file.fPos with ⟨fs',r,e⟩
      by_cases hr : r = 0
      · subst hr
        rw [getdentsLoop_end hopen hd h hread]
        exact fun hc => by cases hc
      · rw [getdentsLoop_entry hopen hd h hread hr hsize]
        rcases copyToUser env pid tail ops.direntSize ⟨k.xfer.mem,io.encode e,[]⟩ with _ | ⟨x,c | u⟩
        · exact fun hc => by cases hc
        · exact fun hc => by cases hc
        · exact ih (k := ⟨_,x⟩) (isOpen_moved hopen fs' _)
    · rw [getdentsLoop_full h]
      exact fun hc => by cases hc

/-- A round that begins where no entry fits does not leave the number of bytes as it is. -/
theorem getdentsLoop_overruns (hopen : IsOpen ops k.vfs pid a.fd f file v) (hd : ops.type v = .dir) (h : bytes < a.count)
    (hread : (ops.readdir k.vfs.fs v file.fPos).2.1 ≠ 0) (hsize : 0 < ops.direntSize) (hfit : a.count < bytes+ops.direntSize)
    (hwrap : bytes+ops.direntSize < 2 ^ 32) :
    (getdentsLoop ops env io pid a (fuel+1) bytes tail k).1 ≠ some (.ok bytes) := by
  rcases hr : ops.readdir k.vfs.fs v file.fPos with ⟨fs',r,e⟩
  rw [hr] at hread
  rw [getdentsLoop_entry hopen hd h hr hread hsize]
  rcases copyToUser env pid tail ops.direntSize ⟨k.xfer.mem,io.encode e,[]⟩ with _ | ⟨x,c | u⟩
  · exact fun hc => by cases hc
  · exact fun hc => by cases hc
  cases fuel with
  | zero => exact fun hc => by cases hc
  | succ fuel =>
    dsimp only
    rw [u32_add hwrap,getdentsLoop_full (by omega)]
    intro hc
    have hint : int32 (bytes+ops.direntSize : ℕ) = bytes := by simpa using hc
    unfold int32 at hint
    omega

end Round

/-! ### The loop -/

section Loop

variable {β : Type} [Zero β] {U : UserMem} {env : Env (ℕ → β)} {io : Io β E} {pid f fuel c j : ℕ} {a : GetdentsArgs}
  {file : File} {k : Kernel β F} {s : Memory (ℕ → β)} {done rest : List E}

/-- The bytes of the entries, one after the other. -/
def entryBytes (io : Io β E) (size : ℕ) (es : List E) (i : ℕ) : β := (es[i / size]?).elim 0 fun e => io.encode e (i % size)

/-- Each entry is copied to the user, to the place after the one before it. -/
def copyEntries (env : Env (ℕ → β)) (io : Io β E) (pid size : ℕ) : List E → ℕ → Transfer β → Option (Transfer β)
  | [], _, x => some x
  | e :: es, addr, x => do
    let (x, r) ← copyToUser env pid addr size ⟨x.mem,io.encode e,[]⟩
    match r with
    | .error _ => none
    | .ok () => copyEntries env io pid size es (addr+size) x

theorem entryBytes_entry (io : Io β E) {size i : ℕ} (hi : i < size) :
    entryBytes io size (done ++ e :: rest) (done.length*size+i) = io.encode e i := by
  have hdiv : (done.length*size+i) / size = done.length := by
    rw [Nat.mul_comm,Nat.mul_add_div (by omega),Nat.div_eq_of_lt hi,Nat.add_zero]
  have hmod : (done.length*size+i) % size = i := by
    rw [Nat.mul_comm,Nat.mul_add_mod,Nat.mod_eq_of_lt hi]
  unfold entryBytes
  rw [hdiv,hmod,getElem?_append_right (Nat.le_refl _),Nat.sub_self]
  rfl

theorem advance_eq (h : int32 (file.fPos+r) = file.fPos+r) : file.advance r = { file with fPos := file.fPos+r } := by
  unfold File.advance
  rw [h]

/-- The rounds for entries that fit, after `done` have been copied. -/
theorem getdentsLoop_walk (fuel : ℕ) (hd : ops.type v = .dir) (hsize : 0 < ops.direntSize) (hsum : a.dirp+a.count < 2 ^ 32)
    (henv : LookupsOk env) (hm : MappedRange s pid a.dirp a.count) (hes : es = done ++ rest)
    (hroom : es.length*ops.direntSize ≤ a.count) (hopen : IsOpen ops k.vfs pid a.fd f file v)
    (hwalk : Walk ops v k.vfs.fs file.fPos rest fs' pos')
    (hfill : Filled U pid a.dirp a.count (entryBytes io ops.direntSize es) s (a.dirp+done.length*ops.direntSize) k.xfer.mem) :
    ∃ t, getdentsLoop ops env io pid a (rest.length+fuel) (done.length*ops.direntSize) (a.dirp+done.length*ops.direntSize) k =
        getdentsLoop ops env io pid a fuel (es.length*ops.direntSize) (a.dirp+es.length*ops.direntSize) t ∧
      Filled U pid a.dirp a.count (entryBytes io ops.direntSize es) s (a.dirp+es.length*ops.direntSize) t.xfer.mem ∧
      t.vfs = withFile { k.vfs with fs := fs' } f { file with fPos := pos' } ∧
      copyEntries env io pid ops.direntSize rest (a.dirp+done.length*ops.direntSize) k.xfer = some t.xfer := by
  induction rest generalizing done file k with
  | nil =>
    cases hwalk
    rw [append_nil] at hes
    subst hes
    exact ⟨k,by rw [length_nil,Nat.zero_add],hfill,(withFile_eq_self hopen.isFile).symm,rfl⟩
  | cons e rest ih =>
    cases hwalk with
    | cons hread hr hint hwalk =>
    rename_i fs1 r
    have hlen : es.length = done.length+1+rest.length := by
      rw [hes,length_append,length_cons]
      omega
    have hnext : (done.length+1)*ops.direntSize = done.length*ops.direntSize+ops.direntSize := Nat.succ_mul _ _
    have hfit : done.length*ops.direntSize+ops.direntSize ≤ a.count := by
      rw [← hnext]
      exact Nat.le_trans (Nat.mul_le_mul_right _ (by omega)) hroom
    have hbuf : ∀ i, i < ops.direntSize → io.encode e i =
        entryBytes io ops.direntSize es (a.dirp+done.length*ops.direntSize - a.dirp+i) := by
      intro i hi
      rw [Nat.add_sub_cancel_left,hes,entryBytes_entry io hi]
    have hcopy : ∃ x, copyToUser env pid (a.dirp+done.length*ops.direntSize) ops.direntSize ⟨k.xfer.mem,io.encode e,[]⟩ =
        some (x, .ok ()) ∧ Stored U pid a.dirp a.count (entryBytes io ops.direntSize es) s
          (a.dirp+done.length*ops.direntSize) ⟨k.xfer.mem,io.encode e,[]⟩ ops.direntSize x :=
      copyToUser_mapped hfill (henv.writesOk pid _ _ _) (by omega) (by omega) (by omega) hbuf fun y hy hye => hm y (by omega) (by omega)
    obtain ⟨x,hx,hstored⟩ := hcopy
    have hfill' := hstored.filled
    have hdone : (done ++ [e]).length = done.length+1 := by rw [length_append,length_singleton]
    rw [Nat.add_assoc,← hnext,← hdone] at hfill'
    have hes' : es = (done ++ [e]) ++ rest := by
      rw [hes,append_assoc]
      rfl
    have hadv := advance_eq hint
    obtain ⟨t,hloop,hfilled,hvfs,hcopies⟩ := ih (k := ⟨withFile { k.vfs with fs := fs1 } f { file with fPos := file.fPos+r },x⟩)
      hes' (isOpen_moved hopen fs1 _) hwalk hfill'
    refine ⟨t,?_,hfilled,?_,?_⟩
    · rw [← hloop,length_cons,Nat.add_right_comm,getdentsLoop_entry hopen hd (by omega) hread (by omega) hsize,hx,
        hdone,hnext,← Nat.add_assoc,← hadv]
      dsimp only
      rw [u32_add (by omega),u32_add (by omega)]
    · rw [hvfs]
      exact withFile_withFile { k.vfs with fs := fs' } f _ _
    · unfold copyEntries
      rw [hx]
      rw [hdone,hnext,← Nat.add_assoc] at hcopies
      exact hcopies

/-- The next entries have been copied, as many as there are and as fit, their size is returned, and the
position is after them. -/
def Listed (ops : Ops F E) (env : Env (ℕ → β)) (io : Io β E) (pid : ℕ) (a : GetdentsArgs) (k : Kernel β F) (f : ℕ)
    (file : File) (v : ℕ) (y : Option SysRet × Kernel β F) : Prop :=
  ∃ es g g' pos', Walk ops v k.vfs.fs file.fPos es g' pos' ∧ es.length ≤ a.count / ops.direntSize ∧
    (es.length < a.count / ops.direntSize → (ops.readdir g' v pos').2.1 = 0) ∧
    y.1 = some (.ok (es.length*ops.direntSize : ℕ)) ∧
    copyEntries env io pid ops.direntSize es a.dirp k.xfer = some y.2.xfer ∧
    (Apart k.xfer.mem pid a.dirp a.count → ∀ i, i < es.length*ops.direntSize →
      byteSeen env y.2.xfer.mem pid (a.dirp+i) = some (entryBytes io ops.direntSize es i)) ∧
    (InPrivate k.xfer.mem pid a.dirp a.count → ∀ q x, ¬ (q = pid ∧ a.dirp ≤ x ∧ x < a.dirp+es.length*ops.direntSize) →
      byteSeen env y.2.xfer.mem q x = byteSeen env k.xfer.mem q x) ∧
    y.2.vfs = withFile { k.vfs with fs := g } f { file with fPos := pos' }

/-- A `readdir` has failed before the buffer was full, and its error is returned. -/
def Reported (ops : Ops F E) (a : GetdentsArgs) (k : Kernel β F) (file : File) (v : ℕ) (y : Option SysRet × Kernel β F) : Prop :=
  ∃ es g' pos', Walk ops v k.vfs.fs file.fPos es g' pos' ∧ es.length < a.count / ops.direntSize ∧
    (ops.readdir g' v pos').2.1 < 0 ∧ y.1 = some (.error (.fs (.other (ops.readdir g' v pos').2.1.natAbs)))

variable (io) in
/-- The call up to the entries that fit. -/
theorem sysGetdents_walk (h : Sys U k.xfer.mem) (henv : LookupsOk env) (hopen : IsOpen ops k.vfs pid a.fd f file v)
    (hd : ops.type v = .dir) (hsize : 0 < ops.direntSize) (hsum : a.dirp+a.count < 2 ^ 32)
    (hm : MappedRange k.xfer.mem pid a.dirp a.count) (hwalk : Walk ops v k.vfs.fs file.fPos es fs' pos')
    (hroom : es.length*ops.direntSize ≤ a.count) : ∃ t fuel, sysGetdents ops env io pid (.ok a) k =
        getdentsLoop ops env io pid a (fuel+1) (es.length*ops.direntSize) (a.dirp+es.length*ops.direntSize) t ∧
      Filled U pid a.dirp a.count (entryBytes io ops.direntSize es) k.xfer.mem (a.dirp+es.length*ops.direntSize) t.xfer.mem ∧
      t.vfs = withFile { k.vfs with fs := fs' } f { file with fPos := pos' } ∧
      copyEntries env io pid ops.direntSize es a.dirp k.xfer = some t.xfer := by
  have hlen : es.length ≤ a.count := Nat.le_trans (Nat.le_mul_of_pos_right _ hsize) hroom
  have hfill : Filled U pid a.dirp a.count (entryBytes io ops.direntSize es) k.xfer.mem
      (a.dirp+([] : List E).length*ops.direntSize) k.xfer.mem := by
    rw [length_nil,Nat.zero_mul,Nat.add_zero]
    exact .start h
  obtain ⟨t,hloop,hfilled,hvfs,hcopies⟩ := getdentsLoop_walk (a.count - es.length+1) hd hsize hsum henv hm
    (nil_append es).symm hroom hopen hwalk hfill
  rw [length_nil,Nat.zero_mul,Nat.add_zero] at hloop hcopies
  refine ⟨t,a.count - es.length,?_,hfilled,hvfs,hcopies⟩
  rw [← hloop,← Nat.add_assoc,Nat.add_sub_cancel' hlen]
  rfl

/-- What has been copied when the call returns after these entries. -/
theorem Listed.of_filled {y : Option SysRet × Kernel β F} {g : F} (h : Sys U k.xfer.mem) (henv : LookupsOk env)
    (hwalk : Walk ops v k.vfs.fs file.fPos es fs' pos') (hlen : es.length ≤ a.count / ops.direntSize)
    (hend : es.length < a.count / ops.direntSize → (ops.readdir fs' v pos').2.1 = 0)
    (hret : y.1 = some (.ok (es.length*ops.direntSize : ℕ)))
    (hfilled : Filled U pid a.dirp a.count (entryBytes io ops.direntSize es) k.xfer.mem (a.dirp+es.length*ops.direntSize)
      y.2.xfer.mem)
    (hvfs : y.2.vfs = withFile { k.vfs with fs := g } f { file with fPos := pos' })
    (hcopies : copyEntries env io pid ops.direntSize es a.dirp k.xfer = some y.2.xfer) : Listed ops env io pid a k f file v y := by
  refine ⟨es,g,fs',pos',hwalk,hlen,hend,hret,hcopies,fun hap i hi => ?_,fun hpr q x hne => ?_,hvfs⟩
  · rw [hfilled.sys.byteSeen henv,hfilled.written hap (a.dirp+i) (Nat.le_add_right _ _) (Nat.add_lt_add_left hi _),
      Nat.add_sub_cancel_left]
  · rw [hfilled.sys.byteSeen henv,h.byteSeen henv]
    exact hfilled.outside hpr q x hne

theorem int32_eq_iff {n : ℕ} (h : n < 2 ^ 32) : int32 n = n ↔ n < 2 ^ 31 := by
  unfold int32
  omega

omit [Zero β] in
/-- A mapped range ends a page before the address space does. -/
theorem mappedRange_lt (h : Sys U s) (hm : MappedRange s pid a.dirp a.count) (hpos : 0 < a.count) :
    a.dirp+a.count+pageSize ≤ 2 ^ 32 := by
  obtain ⟨area,hlast⟩ := Option.isSome_iff_exists.mp (hm (a.dirp+a.count - 1) (by omega) (by omega))
  obtain ⟨hmem,-,hlt⟩ := vmmapLookup_mem hlast
  have hend := ((h.list pid).ok.bounds area hmem).2
  have hhigh := U.high_lt
  unfold pageSize at hlt ⊢
  omega

/-- For a buffer that is mapped, `sys_getdents` copies the next entries, as many as there are and as
fit, returns their size and leaves the position after them, or reports the error of `readdir`: just
where the directory ends before there is no room for an entry or the entries fill the buffer, and
their size is an `int`. -/
theorem getdents_copies_entries (h : Sys U k.xfer.mem) (henv : LookupsOk env) (io : Io β E)
    (hopen : IsOpen ops k.vfs pid a.fd f file v) (hd : ops.type v = .dir) (hpos : int32 file.fPos = file.fPos)
    (hsize : 0 < ops.direntSize) (hle : ops.direntSize ≤ pageSize) (hsum : a.dirp+a.count < 2 ^ 32)
    (hm : MappedRange k.xfer.mem pid a.dirp a.count) :
    Listed ops env io pid a k f file v (sysGetdents ops env io pid (.ok a) k) ∨
      Reported ops a k file v (sysGetdents ops env io pid (.ok a) k) ↔
    ∃ es g' pos', Walk ops v k.vfs.fs file.fPos es g' pos' ∧ es.length ≤ a.count / ops.direntSize ∧
      es.length*ops.direntSize < 2 ^ 31 ∧ ((ops.readdir g' v pos').2.1 = 0 ∨ es.length*ops.direntSize = a.count) := by
  constructor
  · rintro (⟨es,-,g',pos',hwalk,hlen,hend,hret,-⟩ | ⟨_,_,_,-,-,-,hret⟩)
    · have hroom := (Nat.le_div_iff_mul_le hsize).mp hlen
      obtain ⟨t,fuel,hloop,-,hvfs,-⟩ := sysGetdents_walk io h henv hopen hd hsize hsum hm hwalk hroom
      have hopen' := isOpen_moved hopen g' pos'
      rw [← hvfs] at hopen'
      have hfs : t.vfs.fs = g' := by rw [hvfs]; rfl
      refine ⟨es,g',pos',hwalk,hlen,?_⟩
      rw [hloop] at hret
      by_cases hfull : es.length*ops.direntSize < a.count
      · by_cases hz : (ops.readdir g' v pos').2.1 = 0
        · rcases hread : ops.readdir g' v pos' with ⟨g,r,e⟩
          rw [hread] at hz
          obtain rfl : r = 0 := hz
          rw [getdentsLoop_end hopen' hd hfull (by rw [hfs]; exact hread)] at hret
          have hint : int32 (es.length*ops.direntSize : ℕ) = (es.length*ops.direntSize : ℕ) := by simpa using hret
          exact ⟨(int32_eq_iff (by omega)).mp hint,.inl rfl⟩
        · -- no entry fits any more, and the round that copies one more gives another result
          have hlast : a.count / ops.direntSize ≤ es.length := Nat.le_of_not_lt fun hlt => hz (hend hlt)
          have hover := (Nat.div_lt_iff_lt_mul hsize).mp (Nat.lt_succ_of_le hlast)
          rw [Nat.succ_mul] at hover
          have hend' := mappedRange_lt h hm (by omega)
          exact absurd hret (getdentsLoop_overruns hopen' hd hfull (by rw [hfs]; exact hz) hsize hover (by omega))
      · rw [getdentsLoop_full hfull] at hret
        have hint : int32 (es.length*ops.direntSize : ℕ) = (es.length*ops.direntSize : ℕ) := by simpa using hret
        exact ⟨(int32_eq_iff (by omega)).mp hint,.inr (by omega)⟩
    · exact absurd hret (getdentsLoop_unreported hd hsize _ hopen)
  · rintro ⟨es,g',pos',hwalk,hlen,hint,hend⟩
    have hroom := (Nat.le_div_iff_mul_le hsize).mp hlen
    obtain ⟨t,fuel,hloop,hfilled,hvfs,hcopies⟩ := sysGetdents_walk io h henv hopen hd hsize hsum hm hwalk hroom
    have hopen' := isOpen_moved hopen g' pos'
    rw [← hvfs] at hopen'
    have hfs : t.vfs.fs = g' := by rw [hvfs]; rfl
    have hret := (int32_eq_iff (by omega)).mpr hint
    refine .inl ?_
    rw [hloop]
    by_cases hfull : es.length*ops.direntSize < a.count
    · have hz := hend.resolve_right (by omega)
      rcases hread : ops.readdir g' v pos' with ⟨g,r,e⟩
      rw [hread] at hz
      obtain rfl : r = 0 := hz
      rw [getdentsLoop_end hopen' hd hfull (by rw [hfs]; exact hread),hret]
      refine .of_filled (g := g) h henv hwalk hlen (fun _ => by rw [hread]) rfl hfilled ?_ hcopies
      dsimp only
      rw [advance_eq (by rw [add_zero]; exact hwalk.int32_eq hpos),add_zero,hvfs]
      exact withFile_withFile { k.vfs with fs := g } f _ _
    · rw [getdentsLoop_full hfull,hret]
      refine .of_filled h henv hwalk hlen (fun hlt => ?_) rfl hfilled hvfs hcopies
      have hmore := (Nat.le_div_iff_mul_le hsize).mp (Nat.succ_le_of_lt hlt)
      rw [Nat.succ_mul] at hmore
      omega

end Loop

/-! ### A directory of two entries -/

/-- Vnode 1 is a directory with two entries, told apart by their positions. -/
def dirOps : Ops Unit ℕ := { sampleOps with readdir := fun _ _ pos => ((), if pos < 80 then 40 else 0, pos.toNat) }

/-- The directory is open in the first descriptor. -/
def dirVfs : Vfs Unit := { openVfs with files := fun f => if f = 0 then some ⟨some 1,0,⟨true,false,false⟩,1⟩ else none }

def dirKernel : Kernel ℕ Unit := ⟨dirVfs,⟨sampleBytes,0,[]⟩⟩

theorem dirKernel_open : IsOpen dirOps dirVfs 0 0 0 ⟨some 1,0,⟨true,false,false⟩,1⟩ 1 :=
  ⟨⟨by decide,by decide,_,rfl,rfl⟩,rfl,rfl,Nat.le_refl _⟩

theorem dirOps_walk : Walk dirOps 1 () 0 [0,40] () 80 :=
  .cons rfl (by decide) (by decide) (.cons rfl (by decide) (by decide) (.nil _ _))

theorem getdents_copies_entries_dirKernel :
    Listed dirOps calmBytes sampleIo 0 ⟨0,0x500ff0,120⟩ dirKernel 0 ⟨some 1,0,⟨true,false,false⟩,1⟩ 1
      (sysGetdents dirOps calmBytes sampleIo 0 (.ok ⟨0,0x500ff0,120⟩) dirKernel) ∨
    Reported dirOps ⟨0,0x500ff0,120⟩ dirKernel ⟨some 1,0,⟨true,false,false⟩,1⟩ 1
      (sysGetdents dirOps calmBytes sampleIo 0 (.ok ⟨0,0x500ff0,120⟩) dirKernel) := by
  have hm : MappedRange sampleBytes 0 0x500ff0 120 := by
    intro x hx hxe
    have hpage : x / pageSize = 0x500 ∨ x / pageSize = 0x501 := by
      unfold pageSize
      omega
    rcases hpage with he | he <;> rw [he] <;> rfl
  have hsys : Sys sampleUser dirKernel.xfer.mem := sampleBytes_sys
  exact (getdents_copies_entries (a := ⟨0,0x500ff0,120⟩) hsys calmBytes_ok sampleIo dirKernel_open rfl (by decide) (by decide)
    (by decide) (by decide) hm).mpr ⟨[0,40],(),80,dirOps_walk,by decide,by decide,.inl rfl⟩

/-- A `readdir` that fails after the first entry. -/
def badDirOps : Ops Unit ℕ := { sampleOps with readdir := fun _ _ pos => ((), if pos < 40 then 40 else -5, pos.toNat) }

/-- With a count of 50 bytes, two entries of 40 bytes are written. An error of `readdir` is
counted as an entry, and moves the position back. -/
theorem getdents_overruns_count :
    ((sysGetdents dirOps calmBytes sampleIo 0 (.ok ⟨0,0x500ff0,50⟩) dirKernel).1.any fun r => r matches .ok 80) ∧
    ((sysGetdents badDirOps calmBytes sampleIo 0 (.ok ⟨0,0x500ff0,80⟩) dirKernel).1.any fun r => r matches .ok 80) ∧
    ((sysGetdents badDirOps calmBytes sampleIo 0 (.ok ⟨0,0x500ff0,80⟩) dirKernel).2.vfs.files 0).any fun file =>
      file.fPos = 35 := by
  refine ⟨?_,?_,?_⟩
  · decide +kernel
  · decide +kernel
  · decide +kernel

end Csci402.Api
