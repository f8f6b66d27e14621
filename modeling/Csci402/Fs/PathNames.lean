import Csci402.Fs.Resolve

/-! What path names mean. `dir_namev` resolves the components of a path one after another,
wherever the slashes are; components that are too long and slashes at the end are treated
as they should be except in one case each. -/

namespace Csci402.Fs

open Lib Lib.Prog List

variable {F E : Type} {ops : Ops F E} {s t : Vfs F} {f : F} {pid start v : ℕ} {p q : List Char} {base : Option ℕ}
  {d : DirName} {cs : List (List Char)}

/-- The components are looked up one after another. -/
def resolve (ops : Ops F E) (f : F) : ℕ → List (List Char) → Except Errno ℕ
  | v, [] => .ok v
  | v, c :: cs =>
    if ops.type v ≠ .dir then .error .enotdir
    else match ops.lookup f v c with
      | .error e => .error e
      | .ok w => resolve ops f w cs

theorem walk_eq_resolve (h : ∀ c ∈ cs, c.length ≤ ops.nameLen) : walk ops f v cs = resolve ops f v cs := by
  induction cs generalizing v with
  | nil => rfl
  | cons c cs ih =>
    rw [walk,resolve,if_neg (Nat.not_lt.mpr (h c (by simp)))]
    split
    · rfl
    · cases ops.lookup f v c with
      | error e => rfl
      | ok w => exact ih fun c' hc' => h c' (by simp [hc'])

/-- A component that is too long is an error, wherever it is. -/
theorem walk_of_long (h : ∃ c ∈ cs, ops.nameLen < c.length) : ∃ e, walk ops f v cs = .error e := by
  induction cs generalizing v with
  | nil =>
    obtain ⟨c,hc,-⟩ := h
    cases hc
  | cons c cs ih =>
    rw [walk]
    split
    · exact ⟨_,rfl⟩
    next hc =>
      split
      · exact ⟨_,rfl⟩
      · cases ops.lookup f v c with
        | error e => exact ⟨e,rfl⟩
        | ok w =>
          obtain ⟨c',hc',hlong⟩ := h
          rcases mem_cons.mp hc' with rfl | hc'
          · exact absurd hlong hc
          · exact ih ⟨c',hc',hlong⟩

/-! ### The components of a path -/

theorem components_cases (p : List Char) :
    baseStart p < baseEnd p ∧ components p = dirPart p ++ [slice p (baseStart p) (baseEnd p)] ∨
      baseEnd p = 0 ∧ baseStart p = 0 ∧ components p = [] ∧ dirPart p = [] := by
  by_cases h : baseStart p < baseEnd p
  · exact .inl ⟨h,components_base h⟩
  · obtain ⟨hc,hs⟩ := components_of_not_base (Nat.not_lt.mp h)
    have hd : dirPart p = [] := by
      rw [dirPart,hs,slice_self]
      exact segments_nil
    exact .inr ⟨by omega,hs,hc,hd⟩

theorem dropLast_components (p : List Char) : (components p).dropLast = dirPart p := by
  rcases components_cases p with ⟨-,h⟩ | ⟨-,-,h,hd⟩
  · rw [h,dropLast_concat]
  · rw [h,hd]
    rfl

theorem length_base (p : List Char) : (slice p (baseStart p) (baseEnd p)).length = baseEnd p - baseStart p :=
  length_slice (baseStart_spec p).1 (baseEnd_spec p).1

theorem dirResult_short (f : F) (start : ℕ) (h : ∀ c ∈ components p, c.length ≤ ops.nameLen) :
    dirResult ops f start p = match resolve ops f start (components p).dropLast with
      | .error e => .error e
      | .ok v =>
        if ops.type v ≠ .dir then .error .enotdir
        else .ok ⟨baseEnd p - baseStart p,if 0 < baseEnd p - baseStart p then some (baseStart p) else none,v⟩ := by
  have hlen : ¬ ops.nameLen < baseEnd p - baseStart p := by
    rcases components_cases p with ⟨-,hc⟩ | ⟨h1,h2,-⟩
    · have := h (slice p (baseStart p) (baseEnd p)) (by simp [hc])
      rw [length_base] at this
      exact Nat.not_lt.mpr this
    · omega
  have hdir : ∀ c ∈ dirPart p, c.length ≤ ops.nameLen := by
    rw [← dropLast_components]
    exact fun c hc => h c (dropLast_subset _ hc)
  rw [dropLast_components]
  cases hr : resolve ops f start (dirPart p) with
  | error e => simp only [dirResult,if_neg hlen,walk_eq_resolve hdir,hr]
  | ok v => simp only [dirResult,if_neg hlen,walk_eq_resolve hdir,hr]

theorem base_eq_getLast (h : dirResult ops f start p = .ok d) : d.base p = (components p).getLast? := by
  obtain ⟨-,hlen,hname,-⟩ := dirResult_ok h
  by_cases hz : d.namelen = 0
  · have hc : components p = [] := by
      rcases components_cases p with ⟨hlt,-⟩ | ⟨-,-,hc,-⟩
      · omega
      · exact hc
    rw [DirName.base,hname,if_neg (by omega),hc]
    rfl
  · have hc : components p = dirPart p ++ [slice p (baseStart p) (baseEnd p)] := by
      rcases components_cases p with ⟨-,hc⟩ | ⟨h1,h2,-⟩
      · exact hc
      · omega
    rw [dirResult_base h hz,hc,getLast?_concat]

/-- What the pair of the name and its length stands for: the last component in its place. -/
def LastComponent (p : List Char) (d : DirName) : Prop :=
  match (components p).getLast? with
  | none => d.namelen = 0 ∧ d.name = none
  | some c => d.namelen = c.length ∧ ∃ pre post, p = pre ++ c ++ post ∧ d.name = some pre.length ∧
      (∀ x ∈ post, x = '/') ∧ (pre = [] ∨ pre.getLast? = some '/')

theorem lastComponent_of_ok (h : dirResult ops f start p = .ok d) : LastComponent p d := by
  obtain ⟨-,hlen,hname,-⟩ := dirResult_ok h
  unfold LastComponent
  rcases components_cases p with ⟨hlt,hc⟩ | ⟨h1,h2,hc,-⟩
  · rw [hc,getLast?_concat]
    refine ⟨by rw [length_base,hlen],slice p 0 (baseStart p),slice p (baseEnd p) p.length,path_split p,?_,?_,?_⟩
    · rw [hname,if_pos (by omega),length_slice (Nat.zero_le _) (Nat.le_trans (baseStart_spec p).1 (baseEnd_spec p).1)]
      rfl
    · intro x hx
      obtain ⟨k,hk1,hk2,-,rfl⟩ := mem_slice hx
      exact (baseEnd_spec p).2.1 k hk1 hk2
    · by_cases h0 : baseStart p = 0
      · left
        rw [h0,slice_self]
      · right
        rw [slice_append (Nat.zero_le _) (show baseStart p - 1 ≤ baseStart p by omega),
          slice_slash (Nat.pos_of_ne_zero h0),getLast?_concat]
  · rw [hc]
    exact ⟨by omega,by rw [hname,if_neg (by omega)]⟩

/-! ### `dir_namev` -/

/-- What `dir_namev` hands out, without the place of the name in the path. -/
def outcome (p : List Char) (r : Except Errno DirName) : Except Errno (ℕ × Option (List Char)) :=
  r.map fun d => (d.vnode, d.base p)

/-- It depends on the components only. -/
theorem outcome_dirResult (h : ∀ c ∈ components p, c.length ≤ ops.nameLen) :
    outcome p (dirResult ops f start p) = match resolve ops f start (components p).dropLast with
      | .error e => .error e
      | .ok v => if ops.type v ≠ .dir then .error .enotdir else .ok (v, (components p).getLast?) := by
  have hshort := dirResult_short f start h
  cases hr : resolve ops f start (components p).dropLast with
  | error e =>
    rw [hr] at hshort
    rw [hshort]
    rfl
  | ok v =>
    rw [hr] at hshort
    dsimp only at hshort ⊢
    split at hshort
    next hd =>
      rw [hshort,if_pos hd]
      rfl
    next hd =>
      rw [if_neg hd,← base_eq_getLast hshort,hshort]
      rfl

theorem Ready.not_overlong (h : ∀ c ∈ components p, c.length ≤ ops.nameLen) : ¬ Overlong ops p := by
  rintro ⟨-,c,hc,hlong⟩
  have hmem : c ∈ dirPart p := mem_of_mem_head? hc
  rw [← dropLast_components] at hmem
  exact absurd hlong (Nat.not_lt.mpr (h c (dropLast_subset _ hmem)))

theorem dirNamev_returns (h : Ready ops s pid p base start) (hno : ¬ Overlong ops p) :
    ∃ t, dirNamev ops pid p base s = (some (dirResult ops s.fs start p), t) ∧
      Took s t (gained DirName.vnode (dirResult ops s.fs start p)) := by
  obtain ⟨r,t,hr,rfl,-,ht⟩ := ((dirNamev_spec h).mono (fun _ _ hq => hq) fun t ht => hno ht.2).returns
  exact ⟨t,hr,ht⟩

theorem refs_of_took (h : Took s t (Pi.single v 1)) (x : ℕ) : t.refs x = s.refs x+if x = v then 1 else 0 := by
  have := h.refs x
  rw [Pi.single_apply] at this
  split at this <;> split <;> omega

theorem refs_of_took_zero (h : Took s t 0) : t.refs = s.refs := by
  funext x
  have := h.refs x
  simp only [Pi.zero_apply,add_zero] at this
  omega

/-- `dir_namev` resolves the components before the last one, returns the directory they lead
to with one reference more, and the last component in its place; or it fails and leaves no
reference. Only the components matter. -/
theorem dir_namev_resolves (h : Ready ops s pid p base start) (hshort : ∀ c ∈ components p, c.length ≤ ops.nameLen) :
    (∀ v, resolve ops s.fs start (components p).dropLast = .ok v → ops.type v = .dir →
      ∃ d t, dirNamev ops pid p base s = (some (.ok d), t) ∧ d.vnode = v ∧ LastComponent p d ∧
        ∀ x, t.refs x = s.refs x+if x = v then 1 else 0) ∧
    ((∀ v, resolve ops s.fs start (components p).dropLast = .ok v → ops.type v ≠ .dir) →
      ∃ e t, dirNamev ops pid p base s = (some (.error e), t) ∧ t.refs = s.refs) ∧
    ∀ q, components q = components p → (charAt q 0 = '/' ↔ charAt p 0 = '/') →
      ∃ r r' t t', dirNamev ops pid p base s = (some r, t) ∧ dirNamev ops pid q base s = (some r', t') ∧
        outcome q r' = outcome p r ∧ t'.refs = t.refs := by
  obtain ⟨t,hrun,ht⟩ := dirNamev_returns h (Ready.not_overlong hshort)
  have hres := dirResult_short s.fs start hshort
  refine ⟨fun v hv hd => ?_,fun hno => ?_,fun q hq hfirst => ?_⟩
  · rw [hv] at hres
    dsimp only at hres
    rw [if_neg (not_not.mpr hd)] at hres
    have hlast := lastComponent_of_ok hres
    rw [hres] at hrun ht
    exact ⟨_,t,hrun,rfl,hlast,refs_of_took ht⟩
  · obtain ⟨e,he⟩ : ∃ e, dirResult ops s.fs start p = .error e := by
      cases hr : resolve ops s.fs start (components p).dropLast with
      | error e =>
        rw [hr] at hres
        exact ⟨e,hres⟩
      | ok v =>
        rw [hr] at hres
        dsimp only at hres
        rw [if_pos (hno v hr)] at hres
        exact ⟨_,hres⟩
    rw [he] at hrun ht
    exact ⟨e,t,hrun,refs_of_took_zero ht⟩
  · have hq' : ∀ c ∈ components q, c.length ≤ ops.nameLen := by rwa [hq]
    have hready : Ready ops s pid q base start := by
      obtain ⟨pr,hpr,hst⟩ := h.proc
      refine ⟨⟨pr,hpr,?_⟩,h.dir,h.refs,h.owns⟩
      rw [hst,startOf,startOf]
      simp only [hfirst]
    obtain ⟨t',hrun',ht'⟩ := dirNamev_returns hready (Ready.not_overlong hq')
    have hsame : outcome q (dirResult ops s.fs start q) = outcome p (dirResult ops s.fs start p) := by
      rw [outcome_dirResult hshort,outcome_dirResult hq',hq]
    refine ⟨_,_,t,t',hrun,hrun',hsame,?_⟩
    have hgain : gained DirName.vnode (dirResult ops s.fs start q) = gained DirName.vnode (dirResult ops s.fs start p) := by
      cases hp : dirResult ops s.fs start p <;> cases hqr : dirResult ops s.fs start q <;> rw [hp,hqr] at hsame
      · rfl
      · cases hsame
      · cases hsame
      · simp only [outcome,Except.map,Except.ok.injEq,Prod.mk.injEq] at hsame
        simp only [gained,hsame.1]
    rw [hgain] at ht'
    funext x
    have h1 := ht.refs x
    have h2 := ht'.refs x
    omega

/-! ### Components that are too long -/

/-- `dir_namev` stops at a first component that is too long, if the last one is not. -/
theorem overlong_iff : Overlong ops p ↔ (∃ c ∈ (components p).head?, ops.nameLen < c.length) ∧
    ∀ l ∈ (components p).getLast?, l.length ≤ ops.nameLen := by
  rcases components_cases p with ⟨-,hc⟩ | ⟨-,-,hc,hd⟩
  · rw [Overlong,FirstLong,hc,getLast?_concat,head?_append,← length_base]
    simp only [Option.mem_def,Option.some.injEq,forall_eq']
    cases dirPart p with
    | nil => simp
    | cons c cs => simp [and_comm]
  · simp [Overlong,FirstLong,hc,hd]

theorem dirResult_long (h : ∃ c ∈ components p, ops.nameLen < c.length) : ∃ e, dirResult ops f start p = .error e := by
  unfold dirResult
  split
  · exact ⟨_,rfl⟩
  rename_i hlen
  obtain ⟨c,hcm,hcl⟩ := h
  have hmem : c ∈ dirPart p := by
    rcases components_cases p with ⟨-,hc⟩ | ⟨-,-,hc,-⟩
    · rw [hc] at hcm
      rcases mem_append.mp hcm with hm | hm
      · exact hm
      · rw [mem_singleton.mp hm,length_base] at hcl
        exact absurd hcl hlen
    · rw [hc] at hcm
      cases hcm
  obtain ⟨e,he⟩ := walk_of_long (f := f) (v := start) ⟨c,hmem,hcl⟩
  rw [he]
  exact ⟨e,rfl⟩

/-- A component that is too long is an error and leaves no reference, just if it is not the
first one with a last one after it that is short. -/
theorem overlong_component_is_error (h : Ready ops s pid p base start)
    (hlong : ∃ c ∈ components p, ops.nameLen < c.length) :
    (∃ e t, dirNamev ops pid p base s = (some (.error e), t) ∧ t.refs = s.refs) ↔
      ((∃ c ∈ (components p).head?, ops.nameLen < c.length) → ∃ l ∈ (components p).getLast?, ops.nameLen < l.length) := by
  have hiff : ¬Overlong ops p ↔
      ((∃ c ∈ (components p).head?, ops.nameLen < c.length) → ∃ l ∈ (components p).getLast?, ops.nameLen < l.length) := by
    rw [overlong_iff]
    push Not
    rfl
  rw [← hiff]
  constructor
  · rintro ⟨e,t,hrun,-⟩ hover
    obtain ⟨pr,hpr,-⟩ := h.proc
    exact (dirNamev_halts (by rw [hpr]; exact Option.some_ne_none _) hover).not_returns hrun
  · intro hno
    obtain ⟨t,hrun,ht⟩ := dirNamev_returns h hno
    obtain ⟨e,he⟩ : ∃ e, dirResult ops s.fs start p = .error e := dirResult_long hlong
    rw [he] at hrun ht
    exact ⟨e,t,hrun,refs_of_took_zero ht⟩

/-! ### Slashes at the end -/

/-- The last component is not there, and the directory that `dir_namev` finds makes the file. -/
def Creates (ops : Ops F E) (f : F) (start : ℕ) (p : List Char) : Prop :=
  ∃ d name e v, dirResult ops f start p = .ok d ∧ d.base p = some name ∧ ops.lookup f d.vnode name = .error e ∧
    (ops.create f d.vnode name).2 = .ok v

theorem openResult_creates (h : Creates ops f start p) : ∃ dir name v, openResult ops true f start p = .ok v ∧
    (ops.create f dir name).2 = .ok v := by
  obtain ⟨d,name,e,v,hd,hb,he,hc⟩ := h
  refine ⟨d.vnode,name,v,?_,hc⟩
  simp only [openResult,hd,hb,he,if_true,hc]

/-- Any other vnode with a slash behind it is a directory. -/
theorem openResult_slash {creat : Bool} (hr : openResult ops creat f start p = .ok v) (hslash : charAt p (p.length - 1) = '/')
    (hno : ¬(creat = true ∧ Creates ops f start p)) : ops.type v = .dir := by
  unfold openResult at hr
  split at hr
  · cases hr
  rename_i d hd
  split at hr
  · cases hr
    exact (dirResult_ok hd).1
  rename_i name hb
  split at hr
  next e he =>
    split at hr
    next hc =>
      exact absurd ⟨hc,d,name,e,v,hd,hb,he,hr⟩ hno
    · cases hr
  · split at hr
    · cases hr
    next hdir =>
      cases hr
      exact not_not.mp fun hne => hdir ⟨hslash,hne⟩

/-- A path with a slash at the end names a directory, just if no file is created for it. -/
theorem trailing_slash_names_directory {creat : Bool} (h : Ready ops s pid p base start)
    (hshort : ∀ c ∈ components p, c.length ≤ ops.nameLen) (hslash : p.getLast? = some '/')
    (hreg : ∀ f dir name v, (ops.create f dir name).2 = .ok v → ops.type v = .reg) :
    (∃ r t, openNamev ops pid p creat base s = (some r, t) ∧ match r with
      | .ok v => ops.type v = .dir
      | .error _ => created t.trace = created s.trace ∧ t.refs = s.refs) ↔
    ¬(creat = true ∧ Creates ops s.fs start p) := by
  have hspec : Runs (Opened ops creat start p s) _ _ s := openNamev_spec h
  obtain ⟨r,t,hrun,hopen⟩ := (hspec.mono (fun _ _ hq => hq) fun t ht => Ready.not_overlong hshort ht.2).returns
  constructor
  · rintro ⟨r',t',hrun',hr⟩ ⟨rfl,hc⟩
    rw [hrun] at hrun'
    cases hrun'
    obtain ⟨dir,name,v,hres,hv⟩ := openResult_creates hc
    obtain rfl := hopen.result.trans hres
    exact absurd (show ops.type v = .dir from hr) (by rw [hreg _ _ _ _ hv]; decide)
  · intro hno
    refine ⟨r,t,hrun,?_⟩
    cases r with
    | error e => exact ⟨hopen.made e rfl,refs_of_took_zero (by simpa [held] using hopen.holding.took)⟩
    | ok v =>
      refine openResult_slash hopen.result.symm ?_ hno
      rw [getLast?_eq_getElem?] at hslash
      rw [charAt,getD_eq_getElem?_getD,hslash]
      rfl

/-! ### A small tree -/

/-- A directory with a directory `d` and a file `f`; new files get the number 3. -/
def sampleOps : Ops Unit ℕ where
  nameLen := 28
  nfiles := 4
  direntSize := 40
  root := 0
  type v := if v < 2 then .dir else .reg
  vnLen _ _ := 0
  lookup _ dir name := if dir = 0 ∧ name = ['d'] then .ok 1 else if name = ['f'] then .ok 2 else .error (.other 2)
  create _ _ _ := ((), .ok 3)
  mknod _ _ _ _ _ := ((), 0)
  mkdir _ _ _ := ((), 0)
  rmdir _ _ _ := ((), 0)
  unlink _ _ _ := ((), 0)
  link _ _ _ _ := ((), 0)
  stat _ _ := 0
  read _ _ _ n := ((), n)
  write _ _ _ n := ((), n)
  readdir _ _ _ := ((), 0, 0)
  nameMatch name s _ := name = s

/-- One process, with the root as its working directory. -/
def sampleVfs : Vfs Unit where
  fs := ()
  refs v := if v = 0 then 2 else 0
  files _ := none
  procs pid := if pid = 0 then some ⟨fun _ => none,0⟩ else none
  nextFile := 0
  nextPid := 1
  trace := []

theorem owns_nil (h : s.trace = []) : Owns s 0 :=
  ⟨fun x => by rw [h]; exact Int.le_refl 0,fun x => Int.natCast_nonneg _⟩

theorem sampleVfs_ready (p : List Char) : Ready sampleOps sampleVfs 0 p none 0 := by
  refine ⟨⟨_,rfl,?_⟩,rfl,by decide,owns_nil rfl⟩
  unfold startOf
  split <;> rfl

theorem dir_namev_resolves_sampleVfs : ∃ d t,
    dirNamev sampleOps 0 ['/', '/', 'd', '/', '/', 'f', '/'] none sampleVfs = (some (.ok d), t) ∧ d.vnode = 1 ∧
      LastComponent ['/', '/', 'd', '/', '/', 'f', '/'] d ∧
      ∀ x, t.refs x = sampleVfs.refs x+if x = 1 then 1 else 0 :=
  (dir_namev_resolves (sampleVfs_ready _) (by decide)).1 1 (by rfl) rfl

theorem overlong_component_is_error_sampleVfs : ∃ e t,
    dirNamev sampleOps 0 ('d' :: '/' :: List.replicate 29 'a' ++ ['/', 'f']) none sampleVfs = (some (.error e), t) ∧
      t.refs = sampleVfs.refs :=
  (overlong_component_is_error (sampleVfs_ready _) (by decide)).mpr (by
    rintro ⟨c,hc,hlong⟩
    cases hc
    exact absurd hlong (by decide))

/-- The assertion of `vput` fails for a first component of 29 characters. -/
theorem overlong_first_component_stops :
    (∃ c ∈ components (List.replicate 29 'a' ++ ['/', 'f']), sampleOps.nameLen < c.length) ∧
      (dirNamev sampleOps 0 (List.replicate 29 'a' ++ ['/', 'f']) none sampleVfs).1 = none :=
  ⟨by decide,by rfl⟩

theorem trailing_slash_names_directory_sampleVfs : ∃ r t,
    openNamev sampleOps 0 ['d', '/'] true none sampleVfs = (some r, t) ∧ match r with
      | .ok v => sampleOps.type v = .dir
      | .error _ => created t.trace = created sampleVfs.trace ∧ t.refs = sampleVfs.refs :=
  (trailing_slash_names_directory (sampleVfs_ready _) (by decide) rfl (by
    intro f dir name v hv
    cases hv
    rfl)).mpr (by
      rintro ⟨-,d,name,e,v,hd,hb,he,-⟩
      cases hd
      cases hb
      cases he)

/-- With `O_CREAT`, `x/` makes and opens a regular file. -/
theorem trailing_slash_creates_file : ∃ v t, openNamev sampleOps 0 ['x', '/'] true none sampleVfs = (some (.ok v), t) ∧
    sampleOps.type v = .reg ∧ created t.trace = [v] :=
  ⟨3,_,rfl,rfl,rfl⟩

end Csci402.Fs
