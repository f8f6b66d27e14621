import Csci402.Fs.Ledger

/-! What the calls on paths do with vnodes. One ledger counts references, and shows where a
call returns; the other follows the history of the call, and shows that a vnode is used only
while a reference to it is held. -/

namespace Csci402.Fs

open Lib Lib.Prog List

variable {F E : Type} {ops : Ops F E} {s0 s t : Vfs F} {d : ℕ → ℤ} {l l' : List ℕ} {pid v cwd : ℕ} {p q : List Char}

/-! ### Operations on names -/

section Operations

variable {dir : ℕ} {name : List Char} {X : Vfs F → Prop}

theorem runs_dirOp_cases {Q : Ret → Vfs F → Prop} {op : F → ℕ → List Char → F × ℤ}
    (hstop : ops.type dir ≠ .dir → X { s with trace := .use dir :: s.trace })
    (hok : Q (.ofInt (op s.fs dir name).2) { s with trace := .use dir :: s.trace, fs := (op s.fs dir name).1 }) :
    Runs Q X (dirOp ops dir (some name) op) s := by
  unfold dirOp useVnode note
  simp only [runs_bind,runs_modify,runs_assert,runs_need_some,runs_get,runs_pure]
  split
  · exact hok
  next hne =>
    exact hstop hne

theorem runs_create_cases {Q : Except Errno ℕ → Vfs F → Prop}
    (hstop : ops.type dir ≠ .dir → X { s with trace := .use dir :: s.trace })
    (herr : ∀ e, (ops.create s.fs dir name).2 = .error e →
      Q (.error e) { s with trace := .use dir :: s.trace, fs := (ops.create s.fs dir name).1 })
    (hok : ∀ v, (ops.create s.fs dir name).2 = .ok v → Runs (fun _ t => Q (.ok v) { t with trace := .made v :: t.trace }) X
      (gain v) { s with trace := .use dir :: s.trace, fs := (ops.create s.fs dir name).1 }) :
    Runs Q X (create ops dir (some name)) s := by
  unfold create useVnode note
  simp only [runs_bind,runs_modify,runs_assert,runs_need_some,runs_get]
  split
  · split
    next e he =>
      exact herr e he
    next v hv =>
      rw [runs_bind]
      exact hok v hv
  next hne =>
    exact hstop hne

end Operations

/-! ### Counting references -/

/-- Since `s0` the call has been given references to the vnodes in the list, and nothing
else has changed that a descriptor or a process depends on. -/
structure Carries (s0 s : Vfs F) (l : List ℕ) : Prop where
  files : s.files = s0.files
  procs : s.procs = s0.procs
  next : s.nextFile = s0.nextFile ∧ s.nextPid = s0.nextPid
  refs : ∀ x, (s.refs x : ℤ) = s0.refs x+tallyList some l x
  owns : own s.trace = own s0.trace+tallyList some l

theorem Carries.refl (s : Vfs F) : Carries s s [] :=
  ⟨rfl,rfl,⟨rfl,rfl⟩,fun x => by simp,by simp⟩

theorem Carries.took (h : Carries s0 s l) (ht : Took s t d) (hl : tallyList some l' = tallyList some l+d) :
    Carries s0 t l' where
  files := ht.files.trans h.files
  procs := ht.procs.trans h.procs
  next := ⟨ht.next.1.trans h.next.1,ht.next.2.trans h.next.2⟩
  refs x := by
    rw [ht.refs,h.refs,hl,Pi.add_apply]
    omega
  owns := by rw [ht.owns,h.owns,hl,add_assoc]

theorem Carries.more (h : Carries s0 s l) (ht : Took s t (Pi.single v 1)) : Carries s0 t (v :: l) :=
  h.took ht (by rw [tallyList_cons,tally_some,add_comm])

theorem Carries.refs_pos (h : Carries s0 s l) (hv : v ∈ l) : 0 < s.refs v := by
  have hpos : 1 ≤ tallyList some l v := tallyList_pos hv rfl
  have := h.refs v
  omega

theorem Carries.le (h : Carries s0 s l) (x : ℕ) : s0.refs x ≤ s.refs x := by
  have hnn : (0 : ℤ) ≤ tallyList some l x := tallyList_nonneg some l x
  have := h.refs x
  omega

theorem Carries.withFs (h : Carries s0 s l) (f : F) : Carries s0 { s with fs := f } l :=
  ⟨h.files,h.procs,h.next,h.refs,h.owns⟩

/-- A note other than of a reference. -/
theorem Carries.noted (h : Carries s0 s l) {e : Event} (he : own (e :: s.trace) = own s.trace) :
    Carries s0 { s with trace := e :: s.trace } l :=
  ⟨h.files,h.procs,h.next,h.refs,he.trans h.owns⟩

theorem Holding.carries (h : Holding s0 s l) : Carries s0 s l :=
  ⟨h.took.files,h.took.procs,h.took.next,h.took.refs,h.took.owns⟩

/-- The process works in a directory, and there are references to it and to the root. -/
structure Based (ops : Ops F E) (s : Vfs F) (pid cwd : ℕ) : Prop where
  proc : ∃ pr, s.procs pid = some pr ∧ pr.pCwd = cwd
  cwd : ops.type cwd = .dir ∧ 0 < s.refs cwd
  root : ops.type ops.root = .dir ∧ 0 < s.refs ops.root

theorem Based.start (h : Based ops s pid cwd) (p : List Char) :
    ops.type (startOf ops p none cwd) = .dir ∧ 0 < s.refs (startOf ops p none cwd) := by
  unfold startOf
  split
  · exact h.root
  · exact h.cwd

theorem Based.ready (h : Based ops s0 pid cwd) (hs : Owns s0 0) (hc : Carries s0 s l) :
    Ready ops s pid p none (startOf ops p none cwd) where
  proc := by
    obtain ⟨pr,hpr,rfl⟩ := h.proc
    exact ⟨pr,by rw [hc.procs,hpr],rfl⟩
  dir := (h.start p).1
  refs := Nat.lt_of_lt_of_le (h.start p).2 (hc.le _)
  owns := ⟨fun x => by
    rw [hc.owns,Pi.add_apply]
    exact Int.add_nonneg (hs.own x) (tallyList_nonneg some l x),fun x => Int.natCast_nonneg _⟩

theorem Carries.runs_vput (h : Carries s0 s l) (hv : v ∈ l) :
    Runs (fun _ t => Carries s0 t (l.erase v)) (fun _ => False) (vput (some v)) s :=
  Fs.runs_vput (h.refs_pos hv) fun t ht _ => h.took ht (by rw [tallyList_erase hv,tally_some,sub_eq_add_neg])

theorem Carries.runs_lookup {dir : ℕ} {name : List Char} (h : Carries s0 s l) :
    Runs (fun r t => Carries s0 t (held id r ++ l)) (fun _ => False) (lookup ops dir (some name)) s :=
  Fs.runs_lookup (fun _ _ => h) fun _ _ _ _ ht _ => h.more ht

theorem Carries.runs_create {dir : ℕ} {name : List Char} (h : Carries s0 s l) (hd : ¬ ops.type dir ≠ .dir) :
    Runs (fun r t => Carries s0 t (held id r ++ l)) (fun _ => False) (create ops dir (some name)) s := by
  have hnote : Carries s0 { s with trace := .use dir :: s.trace, fs := (ops.create s.fs dir name).1 } l :=
    (h.noted (e := .use dir) rfl).withFs _
  refine runs_create_cases hd (fun e _ => hnote) fun v _ => ?_
  exact runs_gain fun t ht _ => (hnote.more ht).noted rfl

theorem Carries.runs_dirOp {dir : ℕ} {name : List Char} {op : F → ℕ → List Char → F × ℤ} (h : Carries s0 s l)
    (hd : ¬ ops.type dir ≠ .dir) : Runs (fun _ t => Carries s0 t l) (fun _ => False) (dirOp ops dir (some name) op) s :=
  runs_dirOp_cases hd ((h.noted (e := .use dir) rfl).withFs _)

/-- A result of `dir_namev` for the path, from where the process is. -/
def Found (ops : Ops F E) (cwd : ℕ) (p : List Char) (d : DirName) : Prop :=
  ∃ f, dirResult ops f (startOf ops p none cwd) p = .ok d

theorem Found.dir {d : DirName} (h : Found ops cwd p d) : ¬ ops.type d.vnode ≠ .dir := by
  obtain ⟨f,hf⟩ := h
  exact not_not.mpr (dirResult_ok hf).1

theorem Found.base {d : DirName} (h : Found ops cwd p d) : d.base p = (components p).getLast? := by
  obtain ⟨f,hf⟩ := h
  exact base_eq_getLast hf

/-- Without a component the directory that is found is the one where resolution starts. -/
theorem Found.nameless {d : DirName} (h : Found ops cwd p d) (hc : components p = []) :
    d.namelen = 0 ∧ d.vnode = startOf ops p none cwd := by
  obtain ⟨f,hf⟩ := h
  obtain ⟨-,hlen,-,hw,-⟩ := dirResult_ok hf
  rcases components_cases p with ⟨-,hcs⟩ | ⟨h1,h2,-,hd⟩
  · rw [hc] at hcs
    exact absurd hcs.symm (by simp)
  · rw [hd] at hw
    exact ⟨by omega,(Except.ok.inj hw).symm⟩

theorem Found.named {d : DirName} (h : Found ops cwd p d) (hz : d.namelen ≠ 0) : d.base p ≠ none := by
  intro hb
  rw [h.base,getLast?_eq_none_iff] at hb
  exact hz (h.nameless hb).1

theorem Carries.runs_dirNamev (hb : Based ops s0 pid cwd) (hs : Owns s0 0) (h : Carries s0 s l) (hlong : ¬ Overlong ops p) :
    Runs (fun r t => Carries s0 t (held DirName.vnode r ++ l) ∧ ∀ d, r = .ok d → Found ops cwd p d) (fun _ => False)
      (dirNamev ops pid p none) s := by
  refine (dirNamev_spec (hb.ready hs h)).mono ?_ fun t ht => hlong ht.2
  rintro r t ⟨hr,-,ht⟩
  refine ⟨?_,fun d hd => ⟨s.fs,by rw [← hr,hd]⟩⟩
  cases r with
  | error e => exact h.took ht (by simp [gained,held])
  | ok d => exact h.more ht

/-- References are counted; no stop is allowed. -/
def counting (ops : Ops F E) (h : Based ops s0 pid cwd) (hs : Owns s0 0) : Ledger ops pid where
  holds := Carries s0
  stops _ := False
  mayStop := False
  found := Found ops cwd
  halt _ hf := hf
  put hc hv := hc.runs_vput hv
  use hc _ := hc.noted rfl
  look hc := hc.runs_lookup
  make hc _ hd := hc.runs_create hd
  act hc _ hd := hc.runs_dirOp hd
  walk hc hlong := hc.runs_dirNamev h hs hlong
  dir hf := hf.dir
  named hf hz := hf.named hz
  nameless hf hc hz := hz (hf.nameless hc).1

theorem counting_named {h : Based ops s0 pid cwd} {hs : Owns s0 0} (hp : components p ≠ []) :
    (counting ops h hs).Named p := by
  intro d hf hb
  rw [Found.base hf,getLast?_eq_none_iff] at hb
  exact hp hb

/-! ### Where a call stops -/

theorem dirResult_nameless {f : F} {start : ℕ} (hd : ops.type start = .dir) (hc : components p = []) :
    dirResult ops f start p = .ok ⟨0,none,start⟩ := by
  rcases components_cases p with ⟨-,h⟩ | ⟨h1,h2,-,hpart⟩
  · rw [hc] at h
    exact absurd h.symm (by simp)
  · simp [dirResult,h1,h2,hpart,walk,hd]

/-- A call that needs a name stops where the path has none, or where `dir_namev` stops. -/
theorem walk_halts {start : ℕ} {k : Except Errno DirName → Prog (Vfs F) Ret} (h : Ready ops s pid p none start)
    (hn : ¬(components p ≠ [] ∧ ¬Overlong ops p)) (hk : ∀ t, Halts (k (.ok ⟨0,none,start⟩)) t) :
    Halts (dirNamev ops pid p none >>= k) s := by
  by_cases hlong : Overlong ops p
  · obtain ⟨pr,hpr,-⟩ := h.proc
    exact (dirNamev_halts (by rw [hpr]; exact Option.some_ne_none _) hlong).bind
  · have hc : components p = [] := by
      by_contra hc
      exact hn ⟨hc,hlong⟩
    refine (dirNamev_spec h).halts fun r t ht => ?_
    rw [ht.1,dirResult_nameless h.dir hc]
    exact hk t

theorem addEntry_halts {d : DirName} {op : F → ℕ → List Char → F × ℤ} (hd : d.name = none) :
    Halts (addEntry ops d p op) s := by
  have hbase : d.base p = none := by rw [DirName.base,hd]; rfl
  unfold addEntry
  rw [hbase]
  trivial

/-- What `do_link` does with a `from` that it refuses. -/
theorem doLink_refuses (h : Based ops s pid cwd) (hs : Owns s 0) (hlong : ¬Overlong ops p)
    (hno : ∀ v, openResult ops false s.fs (startOf ops p none cwd) p = .ok v → ops.type v = .dir) :
    Runs (fun r t => (∃ e, r = .error e) ∧ Carries s t []) (fun _ => False) (doLink ops pid p q) s := by
  unfold doLink
  refine ((openNamev_spec (h.ready hs (Carries.refl s))).mono (fun _ _ ht => ht) fun _ ht => hlong ht.2).seq ?_
  rintro (e | v) t ht
  · exact ⟨⟨e,rfl⟩,ht.holding.carries⟩
  · refine (ht.holding.runs_vput (by simp [held]) fun t' ht' _ => ht').seq fun _ t' (ht' : Holding s t' _) => ?_
    rw [show held id (.ok v : Except Errno ℕ) = [v] from rfl,erase_cons_head] at ht'
    unfold useVnode note
    rw [runs_bind,runs_modify,if_pos (hno v ht.result.symm)]
    exact ⟨⟨_,rfl⟩,ht'.carries.noted rfl⟩

theorem doLink_halts {v : ℕ} (h : Based ops s pid cwd) (hs : Owns s 0)
    (hv : openResult ops false s.fs (startOf ops p none cwd) p = .ok v) (hne : ops.type v ≠ .dir)
    (hn : ¬(components q ≠ [] ∧ ¬Overlong ops q)) : Halts (doLink ops pid p q) s := by
  unfold doLink
  refine (openNamev_spec (h.ready hs (Carries.refl s))).halts fun r t ht => ?_
  rw [ht.result,hv]
  have hold := ht.holding
  rw [ht.result,hv] at hold
  refine (hold.runs_vput (X := fun _ => True) (v := v) (by simp [held]) fun t' ht' _ => ht').halts
    fun _ t' (ht' : Holding s t' _) => ?_
  rw [show held id (.ok v : Except Errno ℕ) = [v] from rfl,erase_cons_head] at ht'
  unfold useVnode note
  refine (runs_modify (E := fun _ => True) (Q := fun _ u => Carries s u []) |>.mpr (ht'.carries.noted rfl)).halts
    fun _ u hu => ?_
  rw [if_neg hne]
  exact walk_halts (h.ready hs hu) hn fun _ => trivial

/-- The calls that change names. -/
def ChangesNames : Call → Prop
  | .mknod _ _ _ | .mkdir _ | .rmdir _ | .unlink _ | .link _ _ | .rename _ _ => True
  | _ => False

/-- Where a call on a path finds a name to work on: the path has a component (for `do_mkdir`
it may instead lead to the root), and its first component is not too long. `do_mknod` looks at
the mode first, and `do_link` at what is at `from`. -/
def Names (ops : Ops F E) (f : F) (cwd : ℕ) : Call → Prop
  | .mknod p mode _ => mode = .chr ∨ mode = .blk → components p ≠ [] ∧ ¬ Overlong ops p
  | .rmdir p | .unlink p => components p ≠ [] ∧ ¬ Overlong ops p
  | .mkdir p => (components p ≠ [] ∨ startOf ops p none cwd = ops.root) ∧ ¬ Overlong ops p
  | .link p q | .rename p q => ¬ Overlong ops p ∧
    ∀ v, openResult ops false f (startOf ops p none cwd) p = .ok v → ops.type v ≠ .dir →
      components q ≠ [] ∧ ¬ Overlong ops q
  | _ => True

theorem body_carries (h : Based ops s pid cwd) (hs : Owns s 0) {c : Call} (hc : ChangesNames c) (hn : Names ops s.fs cwd c) :
    Runs (fun _ t => Carries s t []) (fun _ => False) (body ops pid c) s := by
  have h0 : (counting ops h hs).holds s [] := Carries.refl s
  have free : ∀ {s' : Vfs F} {l : List ℕ} {v : ℕ}, (counting ops h hs).holds s' l →
      Runs (fun _ t => (counting ops h hs).holds t l) (counting ops h hs).stops (useVnode v) s' :=
    fun hc => Carries.noted hc rfl
  cases c with
  | mknod p mode devid =>
    by_cases hm : mode = .chr ∨ mode = .blk
    · exact Ledger.doMknod h0 (counting_named (hn hm).1) (hn hm).2
    · change Runs _ _ (doMknod ops pid p mode devid) s
      rw [doMknod,if_pos (not_or.mp hm)]
      exact Carries.refl s
  | rmdir p => exact Ledger.doRmdir h0 (counting_named hn.1) hn.2
  | unlink p => exact Ledger.doUnlink h0 (counting_named hn.1) hn.2
  | mkdir p =>
    refine Ledger.doMkdir h0 ?_ hn.2
    intro d hf hb hroot
    rw [Found.base hf,getLast?_eq_none_iff] at hb
    obtain ⟨hz,hv⟩ := Found.nameless hf hb
    rcases hn.1 with hp | hst
    · exact hp hb
    · exact hroot ⟨hz,hv.trans hst⟩
  | link p q =>
    by_cases hq : components q ≠ [] ∧ ¬Overlong ops q
    · exact (Ledger.doLink free h0 (counting_named hq.1) hn.1 hq.2).mono (fun _ _ ht => ht.1) fun _ ht => ht
    · exact (doLink_refuses h hs hn.1 fun v hv => by_contra fun hd => hq (hn.2 v hv hd)).mono (fun _ _ ht => ht.2)
        fun _ ht => ht
  | rename p q =>
    by_cases hq : components q ≠ [] ∧ ¬Overlong ops q
    · exact Ledger.doRename free h0 counting_named (counting_named hq.1) hn.1 hq.2
    · refine (doLink_refuses h hs hn.1 fun v hv => by_contra fun hd => hq (hn.2 v hv hd)).seq ?_
      rintro - t ⟨⟨e,rfl⟩,ht⟩
      exact ht
  | _ => exact hc.elim

/-- Everywhere else the call stops. -/
theorem body_halts (h : Based ops s pid cwd) (hs : Owns s 0) {c : Call} (hn : ¬Names ops s.fs cwd c) :
    Halts (body ops pid c) s := by
  have hready : ∀ p, Ready ops s pid p none (startOf ops p none cwd) := fun p => h.ready hs (Carries.refl s)
  have hproc : s.procs pid ≠ none := by
    obtain ⟨pr,hpr,-⟩ := h.proc
    rw [hpr]
    exact Option.some_ne_none _
  have hlink : ∀ p q, ¬Names ops s.fs cwd (.link p q) → Halts (doLink ops pid p q) s := by
    intro p q hn
    by_cases hlong : Overlong ops p
    · unfold doLink openNamev
      exact (dirNamev_halts hproc hlong).bind.bind
    · simp only [Names,hlong,not_false_eq_true,true_and,not_forall] at hn
      obtain ⟨v,hv,hne,hq⟩ := hn
      exact doLink_halts h hs hv hne hq
  cases c with
  | mknod p mode devid =>
    simp only [Names,Classical.not_imp] at hn
    change Halts (doMknod ops pid p mode devid) s
    rw [doMknod,if_neg (by tauto)]
    exact walk_halts (hready p) hn.2 fun t => addEntry_halts rfl
  | mkdir p =>
    change Halts (doMkdir ops pid p) s
    unfold doMkdir
    by_cases hlong : Overlong ops p
    · exact (dirNamev_halts hproc hlong).bind
    · simp only [Names,hlong,not_false_eq_true,and_true,not_or,not_not] at hn
      refine walk_halts (hready p) (fun hp => hp.1 hn.1) fun t => ?_
      dsimp only
      rw [if_neg (by simp [hn.2])]
      exact addEntry_halts rfl
  | rmdir p => exact walk_halts (hready p) hn fun t => trivial
  | unlink p => exact walk_halts (hready p) hn fun t => trivial
  | link p q => exact hlink p q hn
  | rename p q => exact (hlink p q hn).bind
  | _ => exact absurd trivial hn

/-- A call on a path returns just if it has a name to work on, and then gives back every reference. -/
theorem path_calls_return {c : Call} (h : Based ops s pid cwd) (hc : ChangesNames c) :
    ((∃ r t, syscall ops pid c s = (some r, t)) ↔ Names ops s.fs cwd c) ∧
    ∀ r t, syscall ops pid c s = (some r, t) → t.refs = s.refs ∧ t.files = s.files ∧ t.procs = s.procs := by
  have hb : Based ops { s with trace := [] } pid cwd := ⟨h.proc,h.cwd,h.root⟩
  have hnames : ∀ r t, syscall ops pid c s = (some r, t) → Names ops s.fs cwd c := by
    intro r t hrun
    by_contra hn
    exact (body_halts hb (owns_nil rfl) hn).not_returns hrun
  refine ⟨⟨fun ⟨r,t,hrun⟩ => hnames r t hrun,fun hn => ?_⟩,fun r t hrun => ?_⟩
  · obtain ⟨r,t,hrun,-⟩ := (body_carries hb (owns_nil rfl) hc hn).returns
    exact ⟨r,t,hrun⟩
  · obtain ⟨r',t',hrun',ht⟩ := (body_carries hb (owns_nil rfl) hc (hnames r t hrun)).returns
    cases hrun.symm.trans hrun'
    refine ⟨?_,ht.files,ht.procs⟩
    funext x
    have := ht.refs x
    simp only [tallyList_nil,Pi.zero_apply,add_zero] at this
    omega

theorem sampleVfs_based : Based sampleOps sampleVfs 0 0 := ⟨⟨_,rfl,rfl⟩,⟨rfl,by decide⟩,⟨rfl,by decide⟩⟩

theorem path_calls_return_sampleVfs : (∃ r t, syscall sampleOps 0 (.rename ['/'] []) sampleVfs = (some r, t)) ∧
    ¬∃ r t, syscall sampleOps 0 (.rename ['f'] []) sampleVfs = (some r, t) := by
  have hok := path_calls_return (c := .rename ['/'] []) sampleVfs_based trivial
  have hbad := path_calls_return (c := .rename ['f'] []) sampleVfs_based trivial
  refine ⟨hok.1.mpr ⟨?_,fun v hv hd => ?_⟩,fun hr => ?_⟩
  · rintro ⟨-,c,hc,-⟩
    cases hc
  · cases hv
    exact absurd rfl hd
  · exact ((hbad.1.mp hr).2 2 rfl (by decide)).1 rfl

/-- `lookup` is given no name by `do_unlink`, and `name_match` none by `do_rmdir`. -/
theorem nameless_path_stops : (syscall sampleOps 0 (.unlink ['/']) sampleVfs).1 = none ∧
    (syscall sampleOps 0 (.rmdir []) sampleVfs).1 = none :=
  ⟨rfl,rfl⟩

/-! ### Following the history -/

/-- References are counted in any state, and where `b` is true the call has used vnodes only
while it owned them. -/
structure Follows (b : Prop) (s0 s : Vfs F) (l : List ℕ) : Prop where
  carries : Carries s0 s l
  start : 0 ≤ own s0.trace
  safe : b → Safe s.trace

variable {b : Prop}

theorem Follows.refl (h : s.trace = []) : Follows b s s [] :=
  ⟨Carries.refl s,by rw [h]; exact le_rfl,fun _ => by rw [h]; trivial⟩

theorem Follows.own_pos (h : Follows b s0 s l) (hv : v ∈ l) : 0 < own s.trace v := by
  have hpos : 1 ≤ tallyList some l v := tallyList_pos hv rfl
  have hstart : 0 ≤ own s0.trace v := h.start v
  rw [h.carries.owns,Pi.add_apply]
  omega

theorem Follows.withFs (h : Follows b s0 s l) (f : F) : Follows b s0 { s with fs := f } l :=
  ⟨h.carries.withFs f,h.start,h.safe⟩

theorem Follows.used (h : Follows b s0 s l) (hv : b → v ∈ l) : Follows b s0 { s with trace := .use v :: s.trace } l :=
  ⟨h.carries.noted rfl,h.start,fun hb => ⟨h.own_pos (hv hb),h.safe hb⟩⟩

theorem Follows.runs_use (h : Follows b s0 s l) (hv : v ∈ l) :
    Runs (fun _ t => Follows b s0 t l) (fun t => b → Safe t.trace) (useVnode v) s :=
  h.used fun _ => hv

theorem Follows.took (h : Follows b s0 s l) (ht : Took s t d) (hl : tallyList some l' = tallyList some l+d) :
    Follows b s0 t l' :=
  ⟨h.carries.took ht hl,h.start,fun hb => ht.safe (h.safe hb)⟩

theorem Follows.runs_gain {Q : Unit → Vfs F → Prop} {X : Vfs F → Prop} (h : Follows b s0 s l)
    (k : ∀ t, Follows b s0 t (v :: l) → Q () t) : Runs Q X (gain v) s :=
  Fs.runs_gain fun t ht _ => k t (h.took ht (by rw [tallyList_cons,tally_some,add_comm]))

theorem Follows.runs_vput (h : Follows b s0 s l) (hv : v ∈ l) :
    Runs (fun _ t => Follows b s0 t (l.erase v)) (fun t => b → Safe t.trace) (vput (some v)) s :=
  Fs.runs_vput (h.carries.refs_pos hv) fun t ht _ => h.took ht (by rw [tallyList_erase hv,tally_some,sub_eq_add_neg])

theorem Follows.runs_lookup {dir : ℕ} {name : List Char} (h : Follows b s0 s l) :
    Runs (fun r t => Follows b s0 t (held id r ++ l)) (fun t => b → Safe t.trace) (lookup ops dir (some name)) s :=
  Fs.runs_lookup (fun _ _ => h) fun _ t _ _ ht _ => h.took ht (by simp [held,add_comm])

theorem Follows.runs_create {dir : ℕ} {name : List Char} (h : Follows b s0 s l) (hv : dir ∈ l) :
    Runs (fun r t => Follows b s0 t (held id r ++ l)) (fun t => b → Safe t.trace) (create ops dir (some name)) s := by
  have hu := h.used fun _ => hv
  refine runs_create_cases (fun _ => hu.safe) (fun e _ => hu.withFs _) fun v _ => ?_
  refine (hu.withFs _).runs_gain fun t ht => ?_
  exact ⟨ht.carries.noted rfl,ht.start,ht.safe⟩

theorem Follows.runs_dirOp {dir : ℕ} {name : List Char} {op : F → ℕ → List Char → F × ℤ} (h : Follows b s0 s l)
    (hv : dir ∈ l) : Runs (fun _ t => Follows b s0 t l) (fun t => b → Safe t.trace) (dirOp ops dir (some name) op) s := by
  have hu := h.used fun _ => hv
  exact runs_dirOp_cases (fun _ => hu.safe) (hu.withFs _)

theorem Follows.runs_dirLoop {limit n fast curBase : ℕ} {cur : Option ℕ} (h : Follows b s0 s (cur.toList ++ l)) :
    Runs (fun r t => Follows b s0 t (match r with | .ok x => x.2.toList ++ l | .error _ => l)) (fun t => b → Safe t.trace)
      (dirLoop ops p limit n fast curBase cur) s := by
  induction n generalizing fast curBase cur s with
  | zero => exact h.safe
  | succ n ih =>
    unfold dirLoop
    split
    · dsimp only
      split
      · -- a component that is too long
        cases cur with
        | none => exact h.safe
        | some v =>
          refine (h.runs_vput (by simp)).seq fun _ t ht => ?_
          rwa [Option.toList_some,singleton_append,erase_cons_head] at ht
      · have huse : Runs (fun _ t => Follows b s0 t (cur.toList ++ l)) (fun t => b → Safe t.trace) (useIf cur) s := by
          cases cur with
          | none => exact h
          | some v => exact h.used (by simp)
        refine huse.seq fun _ t ht => ?_
        refine ht.runs_lookup.seq fun r t1 ht1 => ?_
        have hput : Runs (fun _ t => Follows b s0 t (held id r ++ l)) (fun t => b → Safe t.trace) (vputIf cur) t1 := by
          cases cur with
          | none => exact ht1
          | some v =>
            refine Fs.runs_vput (ht1.carries.refs_pos (by simp)) fun t2 ht2 _ => ht1.took ht2 ?_
            rw [tallyList_append,tallyList_append,tallyList_append,Option.toList_some,tallyList_cons,tallyList_nil,
              tally_some]
            abel
        refine hput.seq fun _ t2 ht2 => ?_
        cases r with
        | error e => exact ht2
        | ok w => exact ih (show Follows b s0 t2 ((some w).toList ++ l) from ht2)
    · exact h

theorem Follows.runs_dirNamev {base : Option ℕ} (h : Follows b s0 s l) :
    Runs (fun r t => Follows b s0 t (held DirName.vnode r ++ l)) (fun t => b → Safe t.trace) (dirNamev ops pid p base) s := by
  unfold dirNamev
  rw [runs_bind,runs_get,runs_bind,runs_need]
  cases s.procs pid with
  | none => exact h.safe
  | some pr =>
    dsimp only [Option.elim]
    split
    · exact h
    refine (Follows.runs_dirLoop (show Follows b s0 s ((none : Option ℕ).toList ++ l) from h)).seq ?_
    rintro (e | ⟨w,_ | v⟩) t ht
    · exact ht
    · change Follows b s0 t l at ht
      dsimp only
      unfold vref
      rw [runs_bind,runs_bind,runs_get,runs_bind,runs_assert]
      split
      · exact ht.runs_gain fun u hu => hu
      · exact ht.safe
    · change Follows b s0 t (v :: l) at ht
      have hu := ht.used (v := v) (by simp)
      dsimp only
      rw [runs_bind]
      split
      · refine (hu.runs_vput (by simp)).seq fun _ u hu' => ?_
        rwa [erase_cons_head] at hu'
      · exact hu

/-- The history is followed; a call may stop anywhere. -/
def following (ops : Ops F E) (pid : ℕ) (b : Prop) (s0 : Vfs F) : Ledger ops pid where
  holds := Follows b s0
  stops t := b → Safe t.trace
  mayStop := True
  found _ _ := True
  halt h _ := h.safe
  put h hv := h.runs_vput hv
  use h hv := h.runs_use hv
  look h := h.runs_lookup
  make h hv _ := h.runs_create hv
  act h hv _ := h.runs_dirOp hv
  walk h _ := h.runs_dirNamev.mono (fun _ _ ht => ⟨ht,fun _ _ => trivial⟩) fun _ ht => ht
  dir _ _ := trivial
  named _ _ _ := trivial
  nameless _ _ _ := trivial

theorem Follows.openNamev {creat : Bool} (h : Follows b s0 s l) :
    Runs (fun r t => Follows b s0 t (held id r ++ l)) (fun t => b → Safe t.trace) (openNamev ops pid p creat none) s :=
  (Ledger.openNamev (L := following ops pid b s0) h fun _ => trivial).mono (fun _ _ ht => ht.1) fun _ ht => ht

/-! ### What is not in the history -/

theorem keeps_slot_update (fd : ℕ) (x : Option ℕ) : Keeps Vfs.trace (setSlot pid fd x : Prog (Vfs F) Unit) :=
  Keeps.modify fun _ => rfl

theorem keeps_modFile (f : ℕ) (g : File → File) : Keeps Vfs.trace (modFile f g : Prog (Vfs F) Unit) :=
  Keeps.modify fun _ => rfl

theorem keeps_dropRef (v : ℕ) : Keeps Vfs.trace (dropRef v : Prog (Vfs F) Unit) :=
  Keeps.get.bind fun _ => Keeps.assert.bind fun _ => Keeps.modify fun _ => rfl

theorem keeps_newFile : Keeps Vfs.trace (newFile : Prog (Vfs F) ℕ) := by
  refine Keeps.get.bind fun _ => Keeps.bind ?_ fun _ => Keeps.pure _
  exact Keeps.modify fun _ => rfl

theorem keeps_getEmptyFd : Keeps Vfs.trace (getEmptyFd ops pid : Prog (Vfs F) (Option ℕ)) :=
  Keeps.get.bind fun _ => (Keeps.need _).bind fun _ => Keeps.pure _

theorem keeps_fput (f : ℕ) : Keeps Vfs.trace (fput f : Prog (Vfs F) Unit) := by
  refine Keeps.get.bind fun _ => (Keeps.need _).bind fun file => Keeps.assert.bind fun _ => ?_
  split
  · refine Keeps.bind ?_ fun _ => ?_
    · exact Keeps.modify fun _ => rfl
    cases file.fVnode with
    | none => exact Keeps.pure _
    | some v => exact keeps_dropRef v
  · exact keeps_modFile f _

/-- A step that does not touch the history. -/
theorem runs_of_keeps {α : Type} {m : Prog (Vfs F) α} {tr : List Event} (h : s.trace = tr) (hs : Safe tr)
    (hm : Keeps Vfs.trace m) : Runs (fun _ t => t.trace = tr) (fun t => True → Safe t.trace) m s :=
  hm.runs (fun _ _ ht => ht.trans h) fun t ht _ => by rw [ht,h]; exact hs

theorem doChdir_safe (h : s.trace = []) :
    Runs (fun _ t => Safe t.trace) (fun t => True → Safe t.trace) (doChdir ops pid p) s := by
  unfold doChdir
  refine (Follows.refl h).openNamev.seq ?_
  rintro (e | v) t ht
  · exact ht.safe trivial
  refine (ht.runs_use (v := v) (by simp [held])).seq fun _ t' hu => ?_
  split
  · exact (hu.runs_vput (by simp [held])).seq fun _ u hu => hu.safe trivial
  · rw [runs_bind,runs_get]
    refine (runs_of_keeps rfl (hu.safe trivial) (Keeps.need _)).seq fun pr t1 ht1 => ?_
    refine (runs_of_keeps ht1 (hu.safe trivial) (keeps_dropRef _)).seq fun _ t2 ht2 => ?_
    rw [runs_bind,runs_modify,runs_pure]
    dsimp only
    rw [ht2]
    exact hu.safe trivial

theorem doOpen_safe {oflags : OFlags} (h : s.trace = []) :
    Runs (fun _ t => Safe t.trace) (fun t => True → Safe t.trace) (doOpen ops pid p oflags) s := by
  have hnil : Safe [] := trivial
  unfold doOpen
  split
  · rw [runs_pure,h]
    exact hnil
  refine (runs_of_keeps h hnil keeps_getEmptyFd).seq ?_
  rintro (_ | newfd) t ht
  · rw [runs_pure,ht]
    exact hnil
  refine (runs_of_keeps ht hnil keeps_newFile).seq fun f t1 ht1 => ?_
  refine (runs_of_keeps ht1 hnil (keeps_slot_update newfd _)).seq fun _ t2 ht2 => ?_
  refine (runs_of_keeps ht2 hnil (keeps_modFile f _)).seq fun _ t3 ht3 => ?_
  -- once the vnode has been put, or given to the file, nothing is used any more
  have hclose : ∀ {u : Vfs F} {e : Errno}, Safe u.trace → Runs (fun _ t => Safe t.trace) (fun t => True → Safe t.trace)
      (do fput f; setSlot pid newfd none; return (.error e : Ret)) u := by
    intro u e hu
    refine (runs_of_keeps rfl hu (keeps_fput f)).seq fun _ u1 hu1 => ?_
    refine (runs_of_keeps hu1 hu (keeps_slot_update newfd _)).seq fun _ u2 hu2 => ?_
    rw [runs_pure,hu2]
    exact hu
  refine (Follows.refl ht3).openNamev.seq ?_
  rintro (e | v) t4 ht4
  · exact hclose (ht4.safe trivial)
  refine (ht4.runs_use (v := v) (by simp [held])).seq fun _ t5 hu => ?_
  split
  · exact (hu.runs_vput (by simp [held])).seq fun _ u hu => hclose (hu.safe trivial)
  · exact hu.safe trivial

/-! ### Vnodes are used while they are held -/

/-- The path resolves to a vnode. -/
def Resolves (ops : Ops F E) (s : Vfs F) (pid : ℕ) (p : List Char) : Prop :=
  ∃ v t, openNamev ops pid p false none { s with trace := [] } = (some (.ok v), t)

/-- The calls that resolve a path. -/
def OnPath : Call → Prop
  | .mknod _ _ _ | .mkdir _ | .rmdir _ | .unlink _ | .stat _ | .chdir _ | .openFile _ _ | .link _ _ | .rename _ _ => True
  | _ => False

/-- The call is not `do_link` or `do_rename` with a `from` that is there. -/
def Careful (ops : Ops F E) (s : Vfs F) (pid : ℕ) : Call → Prop
  | .link old _ | .rename old _ => ¬ Resolves ops s pid old
  | _ => True

theorem doLink_safe (hr : ¬ Resolves ops s pid p) :
    Runs (fun r t => Safe t.trace ∧ ∃ e, r = .error e) (fun t => True → Safe t.trace) (doLink ops pid p q)
      { s with trace := [] } := by
  have hopen : Runs _ _ (openNamev ops pid p false none) { s with trace := [] } :=
    (Follows.refl (b := True) rfl).openNamev
  unfold doLink
  rw [runs_bind]
  unfold Runs at hopen ⊢
  rcases hm : openNamev ops pid p false none { s with trace := [] } with ⟨_ | _ | v,t⟩
  · rw [hm] at hopen
    exact hopen
  · rw [hm] at hopen
    exact ⟨hopen.safe trivial,_,rfl⟩
  · exact absurd ⟨v,t,hm⟩ hr

/-! A use of a vnode that is not held stays in the history. -/

/-- Some vnode has been used that was not held. -/
def Spoilt (s : Vfs F) : Prop := ¬ Safe s.trace

theorem spoilt_note (e : Event) : Preserves Spoilt (note e : Prog (Vfs F) Unit) := by
  refine Preserves.modify fun s h hs => h ?_
  cases e with
  | use v => exact hs.2
  | _ => exact hs

theorem spoilt_keeps {α : Type} {m : Prog (Vfs F) α} (h : Keeps Vfs.trace m) : Preserves Spoilt m :=
  Preserves.keeps (P := fun tr => ¬ Safe tr) h

theorem spoilt_gain (v : ℕ) : Preserves Spoilt (gain v : Prog (Vfs F) Unit) :=
  Preserves.bind (.modify fun _ h => h) fun _ => spoilt_note _

theorem spoilt_vput (vn : Option ℕ) : Preserves Spoilt (vput vn : Prog (Vfs F) Unit) :=
  (Preserves.need _).bind fun v => (spoilt_keeps (keeps_dropRef v)).bind fun _ => spoilt_note _

theorem spoilt_useIf (vn : Option ℕ) : Preserves Spoilt (useIf vn : Prog (Vfs F) Unit) := by
  cases vn with
  | none => exact .pure _
  | some v => exact spoilt_note _

theorem spoilt_vputIf (vn : Option ℕ) : Preserves Spoilt (vputIf vn : Prog (Vfs F) Unit) := by
  cases vn with
  | none => exact .pure _
  | some v => exact spoilt_vput _

theorem spoilt_lookup (dir : ℕ) (name : Option (List Char)) : Preserves Spoilt (lookup ops dir name) := by
  refine (Preserves.need _).bind fun name => ?_
  split
  · exact .pure _
  · refine Preserves.get.bind fun s => ?_
    split
    · exact .pure _
    · exact (spoilt_gain _).bind fun _ => .pure _

theorem spoilt_dirOp (dir : ℕ) (name : Option (List Char)) (op : F → ℕ → List Char → F × ℤ) :
    Preserves Spoilt (dirOp ops dir name op) := by
  refine (spoilt_note _).bind fun _ => Preserves.assert.bind fun _ => (Preserves.need _).bind fun name =>
    Preserves.get.bind fun s => Preserves.bind ?_ fun _ => .pure _
  exact .modify fun _ h => h

theorem spoilt_dirLoop {limit n fast curBase : ℕ} {cur : Option ℕ} :
    Preserves Spoilt (dirLoop ops p limit n fast curBase cur) := by
  induction n generalizing fast curBase cur with
  | zero => exact fun _ h => h
  | succ n ih =>
    unfold dirLoop
    split
    · dsimp only
      split
      · exact (spoilt_vput _).bind fun _ => .pure _
      · refine (spoilt_useIf _).bind fun _ => (spoilt_lookup _ _).bind fun code => (spoilt_vputIf _).bind fun _ => ?_
        cases code with
        | error e => exact .pure _
        | ok v => exact ih
    · exact .pure _

theorem spoilt_dirNamev {base : Option ℕ} : Preserves Spoilt (dirNamev ops pid p base) := by
  refine Preserves.get.bind fun s => (Preserves.need _).bind fun pr => ?_
  dsimp only
  split
  · exact .pure _
  refine spoilt_dirLoop.bind ?_
  rintro (e | ⟨w,_ | v⟩)
  · exact .pure _
  · exact (Preserves.get.bind fun _ => Preserves.assert.bind fun _ => spoilt_gain _).bind fun _ => .pure _
  · refine (spoilt_note _).bind fun _ => ?_
    split
    · exact (spoilt_vput _).bind fun _ => .pure _
    · exact .pure _

theorem spoilt_doUnlink : Preserves Spoilt (doUnlink ops pid p) := by
  refine spoilt_dirNamev.bind ?_
  rintro (e | d)
  · exact .pure _
  refine (spoilt_note _).bind fun _ => (spoilt_lookup _ _).bind ?_
  rintro (e | v)
  · exact (spoilt_vput _).bind fun _ => .pure _
  refine (spoilt_note _).bind fun _ => ?_
  split
  · exact (spoilt_vput _).bind fun _ => (spoilt_vput _).bind fun _ => .pure _
  · exact (spoilt_dirOp _ _ _).bind fun _ => (spoilt_vput _).bind fun _ => (spoilt_vput _).bind fun _ => .pure _

/-- `do_link` uses the vnode of `from` when it has put it. -/
theorem doLink_spoils (hr : Resolves ops s pid p) :
    Runs (fun _ => Spoilt) Spoilt (doLink ops pid p q) { s with trace := [] } := by
  obtain ⟨v,t,hm⟩ := hr
  have hopen : Runs _ _ (openNamev ops pid p false none) { s with trace := [] } :=
    (Follows.refl (b := True) rfl).openNamev
  have hres : Runs (fun r u => r = .ok v ∧ Follows True { s with trace := [] } u [v]) Spoilt (openNamev ops pid p false none)
      { s with trace := [] } := by
    unfold Runs at hopen ⊢
    rw [hm] at hopen ⊢
    exact ⟨rfl,hopen⟩
  unfold doLink
  refine hres.seq ?_
  rintro - u ⟨rfl,hu⟩
  refine (Fs.runs_vput (Q := fun _ t => own t.trace v = 0) (hu.carries.refs_pos (by simp)) fun t ht _ => ?_).seq fun _ t ht => ?_
  · rw [ht.owns,hu.carries.owns]
    simp [own]
  -- the first use of the vnode
  refine (runs_modify (Q := fun _ => Spoilt) |>.mpr fun hs => ?_).seq fun _ t' ht' => runs_always.mpr ?_
  · have hpos : 0 < own t.trace v := hs.1
    omega
  refine (?_ : Preserves Spoilt _) t' ht'
  split
  · exact .pure _
  refine spoilt_dirNamev.bind ?_
  rintro (e | d)
  · exact .pure _
  refine (spoilt_note _).bind fun _ => (spoilt_lookup _ _).bind ?_
  rintro (e | w)
  · refine (spoilt_note _).bind fun _ => ?_
    split
    · exact (spoilt_vput _).bind fun _ => .pure _
    · exact (spoilt_note _).bind fun _ => (spoilt_dirOp _ _ _).bind fun _ => (spoilt_vput _).bind fun _ => .pure _
  · exact (spoilt_vput _).bind fun _ => (spoilt_vput _).bind fun _ => .pure _

/-- While a call runs, it uses the vnodes that path resolution gave it only as long as it has
not put them, whether it returns or stops, just if it is not `do_link` or `do_rename` with a `from`
that is there. -/
theorem vnodes_used_while_held {c : Call} (hp : OnPath c) :
    Safe (syscall ops pid c s).2.trace ↔ Careful ops s pid c := by
  have h : (following ops pid True { s with trace := [] }).holds { s with trace := [] } [] := Follows.refl rfl
  have hsafe : ∀ (r : Ret) t, Follows True { s with trace := [] } t [] → Safe t.trace := fun _ _ ht => ht.safe trivial
  have holds : ∀ {m : Prog (Vfs F) Ret}, Runs (fun _ t => Safe t.trace) (fun t => True → Safe t.trace) m { s with trace := [] } →
      Safe (m { s with trace := [] }).2.trace := fun hm =>
    runs_always.mp (hm.mono (fun _ _ ht => ht) fun _ ht => ht trivial)
  change Safe (body ops pid c { s with trace := [] }).2.trace ↔ _
  cases c with
  | mknod p mode devid =>
    exact iff_of_true (holds ((Ledger.doMknod h (fun _ _ _ => trivial) fun _ => trivial).mono hsafe fun _ ht => ht)) trivial
  | mkdir p =>
    exact iff_of_true (holds ((Ledger.doMkdir h (fun _ _ _ _ => trivial) fun _ => trivial).mono hsafe fun _ ht => ht)) trivial
  | rmdir p =>
    exact iff_of_true (holds ((Ledger.doRmdir h (fun _ _ _ => trivial) fun _ => trivial).mono hsafe fun _ ht => ht)) trivial
  | unlink p =>
    exact iff_of_true (holds ((Ledger.doUnlink h (fun _ _ _ => trivial) fun _ => trivial).mono hsafe fun _ ht => ht)) trivial
  | stat p => exact iff_of_true (holds ((Ledger.doStat h fun _ => trivial).mono hsafe fun _ ht => ht)) trivial
  | chdir p => exact iff_of_true (holds (doChdir_safe rfl)) trivial
  | openFile p oflags => exact iff_of_true (holds (doOpen_safe rfl)) trivial
  | link p q =>
    refine ⟨fun hs hr => runs_always.mp (doLink_spoils hr) hs,fun hr => holds ?_⟩
    exact (doLink_safe hr).mono (fun _ _ ht => ht.1) fun _ ht => ht
  | rename p q =>
    refine ⟨fun hs hr => ?_,fun hr => holds ((doLink_safe hr).seq ?_)⟩
    · refine (runs_always (P := Spoilt)).mp ((doLink_spoils (q := q) hr).seq ?_) hs
      rintro (e | n) t ht
      · exact ht
      · exact runs_always.mpr (spoilt_doUnlink t ht)
    · rintro r t ⟨ht,e,rfl⟩
      exact ht
  | _ => exact hp.elim

theorem vnodes_used_while_held_sampleVfs :
    (syscall sampleOps 0 (.unlink ['d', '/', 'f']) sampleVfs).1 = some (.ok 0) ∧
      Safe (syscall sampleOps 0 (.unlink ['d', '/', 'f']) sampleVfs).2.trace :=
  ⟨rfl,(vnodes_used_while_held (c := .unlink ['d', '/', 'f']) trivial).mpr trivial⟩

/-- `do_link` reads the mode of the vnode of `from`, and links it, after its `vput`. -/
theorem link_uses_vnode_after_vput : (syscall sampleOps 0 (.link ['f'] ['g']) sampleVfs).1 = some (.ok 0) ∧
    ¬ Safe (syscall sampleOps 0 (.link ['f'] ['g']) sampleVfs).2.trace := by
  refine ⟨rfl,fun h => ?_⟩
  have h' : Safe [.put 0,.use 0,.use 2,.use 0,.use 0,.got 0,.use 2,.put 2,.put 0,.got 2,.use 0,.got 0] := h
  simp [Safe,own] at h'

end Csci402.Fs
