import Csci402.Vm.Registered

/-! The `vmmap_t` objects. A process gets one from `proc_create` and gives it back in
`proc_cleanup`. But `do_fork` puts the clone of the parent's map in the place of the one that
`proc_create` has made for the child, and that one is never destroyed: after any run there is
one map for every process that has not exited, and one more for every fork. -/

namespace Csci402.Vm

open Lib Function Option List
open Memory (Call Allowed Sys)

variable {D : Type} {U : UserMem} {env : Env D} {pid q m p : ℕ}

/-- A `vmmap_t`. The areas of the map of a process are in the memory, and other maps have
none. -/
structure Vmmap where
  vmmProc : Option ℕ
  deriving DecidableEq, Repr

/-- The memory and the maps that have been created and not destroyed. -/
structure Spaces (D : Type) where
  mem : Memory D
  maps : ℕ → Option Vmmap
  /-- `p_vmmap`, which stays as it is when the process exits. -/
  pVmmap : ℕ → Option ℕ
  nextMap : ℕ

namespace Spaces

/-! ### The functions -/

/-- `vmmap_create`; the new map is `nextMap`. -/
def vmmapCreate (s : Spaces D) : Spaces D :=
  { s with maps := update s.maps s.nextMap (some ⟨none⟩), nextMap := s.nextMap+1 }

def setVmmProc (m : ℕ) (proc : Option ℕ) (s : Spaces D) : Spaces D :=
  { s with maps := update s.maps m ((s.maps m).map fun map => { map with vmmProc := proc }) }

/-- `vmmap_clone`; the areas are those of the child in `Memory.doFork`. -/
def vmmapClone (m : ℕ) (s : Spaces D) : Option (Spaces D) := do
  let map ← s.maps m
  return s.vmmapCreate.setVmmProc s.nextMap map.vmmProc

/-- The end of `vmmap_destroy`, when the areas are gone. -/
def vmmapDestroy (m : ℕ) (s : Spaces D) : Option (Spaces D) := do
  let _ ← s.maps m
  return { s with maps := update s.maps m none }

def setPVmmap (pid m : ℕ) (s : Spaces D) : Spaces D :=
  { s with pVmmap := update s.pVmmap pid (some m) }

def procCreate (s : Spaces D) : Spaces D :=
  { (s.vmmapCreate.setPVmmap s.mem.nextPid s.nextMap).setVmmProc s.nextMap (some s.mem.nextPid) with
    mem := s.mem.procCreate }

def doFork (U : UserMem) (pid : ℕ) (s : Spaces D) : Option (Spaces D) := do
  let childProcess := s.mem.nextPid
  let mem ← s.mem.doFork U pid
  let s := s.procCreate
  let childVmMap := s.nextMap
  let s ← s.vmmapClone (← s.pVmmap pid)
  let s := s.setVmmProc childVmMap (some childProcess)
  return { s.setPVmmap childProcess childVmMap with mem := mem }

/-- `proc_cleanup`, in the memory `mem` without the areas of the process. -/
def procCleanup (pid : ℕ) (mem : Memory D) (s : Spaces D) : Option (Spaces D) := do
  let s ← s.vmmapDestroy (← s.pVmmap pid)
  return { s with mem := mem }

def doExit (env : Env D) (pid : ℕ) (s : Spaces D) : Option (Spaces D) :=
  (s.mem.doExit env pid).bind fun mem => s.procCleanup pid mem

/-- The calls of the memory; a page fault can end the process. -/
def step [Zero D] (U : UserMem) (s : Spaces D) : Env D × Call D → Option (Spaces D)
  | (_, .procCreate) => some s.procCreate
  | (_, .fork pid) => s.doFork U pid
  | (env, .exit pid) => s.doExit env pid
  | (env, .pagefault pid vaddr cause) =>
    (s.mem.handlePagefault env pid vaddr cause).bind fun mem =>
      if (mem.procs pid).isSome then some { s with mem := mem } else s.procCleanup pid mem
  | c => (s.mem.step U c).map fun mem => { s with mem := mem }

/-! ### What they change -/

variable {s t : Spaces D} {spares : Finset ℕ}

theorem maps_vmmapCreate (s : Spaces D) (x : ℕ) :
    s.vmmapCreate.maps x = if x = s.nextMap then some ⟨none⟩ else s.maps x := update_apply ..

theorem maps_setVmmProc (m : ℕ) (proc : Option ℕ) (s : Spaces D) (x : ℕ) :
    (s.setVmmProc m proc).maps x = if x = m then (s.maps m).map fun _ => ⟨proc⟩ else s.maps x := update_apply ..

theorem pVmmap_setPVmmap (s : Spaces D) (q : ℕ) :
    (s.setPVmmap pid m).pVmmap q = if q = pid then some m else s.pVmmap q := update_apply ..

theorem maps_procCreate (s : Spaces D) (x : ℕ) :
    s.procCreate.maps x = if x = s.nextMap then some ⟨some s.mem.nextPid⟩ else s.maps x := by
  change (((s.vmmapCreate.setPVmmap s.mem.nextPid s.nextMap).setVmmProc s.nextMap (some s.mem.nextPid)).maps x) = _
  rw [maps_setVmmProc]
  change (if x = s.nextMap then (s.vmmapCreate.maps s.nextMap).map _ else s.vmmapCreate.maps x) = _
  rw [maps_vmmapCreate,maps_vmmapCreate,if_pos rfl]
  split
  · rfl
  · rfl

theorem pVmmap_procCreate (s : Spaces D) (q : ℕ) :
    s.procCreate.pVmmap q = if q = s.mem.nextPid then some s.nextMap else s.pVmmap q := update_apply ..

theorem vmmapClone_eq_some (ht : s.vmmapClone m = some t) : t = { s with
    maps := t.maps, nextMap := s.nextMap+1 } ∧ (s.maps m).isSome ∧ ∃ proc, ∀ x,
      t.maps x = if x = s.nextMap then some ⟨proc⟩ else s.maps x := by
  obtain ⟨map,hmap,ht⟩ := bind_eq_some_iff.mp ht
  cases ht
  refine ⟨rfl,isSome_of_eq_some hmap,map.vmmProc,fun x => ?_⟩
  rw [maps_setVmmProc,maps_vmmapCreate,maps_vmmapCreate,if_pos rfl]
  split
  · rfl
  · rfl

/-- The maps of `do_fork`: that of `proc_create`, which is lost, and the clone. -/
theorem doFork_eq_some (ht : s.doFork U pid = some t) : s.mem.doFork U pid = some t.mem ∧ t.nextMap = s.nextMap+2 ∧
    (∀ q, t.pVmmap q = if q = s.mem.nextPid then some (s.nextMap+1) else s.pVmmap q) ∧
    ∀ x, t.maps x = if x = s.nextMap+1 then some ⟨some s.mem.nextPid⟩ else s.procCreate.maps x := by
  obtain ⟨mem,hmem,ht⟩ := bind_eq_some_iff.mp ht
  obtain ⟨m,-,ht⟩ := bind_eq_some_iff.mp ht
  obtain ⟨s1,hs1,ht⟩ := bind_eq_some_iff.mp ht
  obtain ⟨he,-,proc,hmaps⟩ := vmmapClone_eq_some hs1
  cases ht
  refine ⟨hmem,by rw [he]; rfl,fun q => ?_,fun x => ?_⟩
  · change (setPVmmap _ _ (s1.setVmmProc _ _)).pVmmap q = _
    rw [pVmmap_setPVmmap]
    change (if _ then _ else s1.pVmmap q) = _
    rw [he]
    change (if _ then _ else s.procCreate.pVmmap q) = _
    rw [pVmmap_procCreate]
    split
    · rfl
    · rfl
  · change (s1.setVmmProc s.procCreate.nextMap (some s.mem.nextPid)).maps x = _
    rw [maps_setVmmProc,hmaps,hmaps,if_pos rfl]
    change (if x = s.nextMap+1 then _ else if x = s.nextMap+1 then _ else _) = _
    split
    · rfl
    · rfl

theorem procCleanup_eq_some {mem : Memory D} (ht : s.procCleanup pid mem = some t) :
    ∃ m, s.pVmmap pid = some m ∧ (s.maps m).isSome ∧
      t = { s with mem := mem, maps := update s.maps m none } := by
  obtain ⟨m,hm,ht⟩ := bind_eq_some_iff.mp ht
  obtain ⟨s1,hs1,ht⟩ := bind_eq_some_iff.mp ht
  obtain ⟨map,hmap,hs1⟩ := bind_eq_some_iff.mp hs1
  cases hs1
  cases ht
  exact ⟨m,hm,isSome_of_eq_some hmap,rfl⟩

/-- The memory goes on as it does without the maps. -/
theorem step_mem [Zero D] {c : Env D × Call D} (hst : step U s c = some t) : s.mem.step U c = some t.mem := by
  have hmap : ∀ {c}, (s.mem.step U c).map (fun mem => { s with mem := mem }) = some t → s.mem.step U c = some t.mem := by
    intro c h
    obtain ⟨mem,hmem,rfl⟩ := map_eq_some_iff.mp h
    exact hmem
  obtain ⟨env,c⟩ := c
  cases c with
  | procCreate =>
    cases hst
    rfl
  | fork pid => exact (doFork_eq_some hst).1
  | exit pid =>
    obtain ⟨mem,hmem,ht⟩ := bind_eq_some_iff.mp hst
    obtain ⟨m,-,-,rfl⟩ := procCleanup_eq_some ht
    exact hmem
  | pagefault pid vaddr cause =>
    obtain ⟨mem,hmem,ht⟩ := bind_eq_some_iff.mp hst
    split at ht
    · cases ht
      exact hmem
    · obtain ⟨m,-,-,rfl⟩ := procCleanup_eq_some ht
      exact hmem
  | _ => exact hmap hst

/-! ### Which processes there are -/

/-- The calls that neither make a process nor end one. -/
def Ordinary : Call D → Prop
  | .procCreate | .fork _ | .exit _ | .pagefault .. => False
  | _ => True

section Live

variable {s t : Memory D}

theorem vmmapMap_live (h : Sys U s) {file : Option ℕ} {lopage n : ℕ} {prot : Prot} {flags : MapFlags} {off : ℕ} {dir : Dir}
    {r : Except Errno ℕ} (hlive : s.live pid) (hf : Memory.Mappable env s file) (hn : n < 2 ^ 32)
    (ht : Memory.vmmapMap U env pid file lopage n prot flags off dir s = some (t, r)) (q : ℕ) :
    t.live q ↔ s.live q := by
  obtain ⟨t',r',ht',-,-,hcase⟩ := h.map env dir prot hlive hf hn (Memory.vmmapMap_args hn (h.list pid) ht)
  cases ht'.symm.trans ht
  rcases hcase with ⟨-,rfl⟩ | ⟨lo,o,rfl,hm,-⟩
  · rfl
  · exact hm.edits.live q

variable [Zero D]

theorem step_live {c : Env D × Call D} (h : Sys U s) (hc : Allowed s c) (ho : Ordinary c.2)
    (hst : s.step U c = some t) (q : ℕ) : t.live q ↔ s.live q := by
  have hmapless : Memory.Mapless c.2 → (t.live q ↔ s.live q) := fun hm => (h.mapless hm hst).live q
  obtain ⟨env,c⟩ := c
  cases c with
  | procCreate => cases ho
  | fork pid => cases ho
  | exit pid => cases ho
  | pagefault pid vaddr cause => cases ho
  | map pid file lopage npages prot flags off dir =>
    obtain ⟨⟨t',r⟩,ht,rfl⟩ := map_eq_some_iff.mp hst
    exact vmmapMap_live h hc.1 hc.2.2 hc.2.1 ht q
  | remove pid lopage npages => exact (Memory.vmmapRemove_areas (h.list pid) hc hst).edits.live q
  | mmap pid addr len prot flags file off =>
    obtain ⟨⟨t',r⟩,ht,rfl⟩ := map_eq_some_iff.mp hst
    rcases Memory.doMmap_cases ht with rfl | ⟨f,hfile,ht⟩
    · rfl
    · exact vmmapMap_live h hc.1 (hfile hc.2.2) (Nat.lt_of_le_of_lt (Memory.pagesOf_lt hc.2.1) (by decide)) ht q
  | munmap pid addr len =>
    obtain ⟨⟨t',r⟩,ht,rfl⟩ := map_eq_some_iff.mp hst
    rcases Memory.doMunmap_cases ht with rfl | ⟨hn,hrem⟩
    · rfl
    · exact (Memory.vmmapRemove_areas (h.list pid) (Nat.lt_trans (hn hc) (by decide)) hrem).edits.live q
  | brk pid addr =>
    obtain ⟨⟨t',r⟩,ht,rfl⟩ := map_eq_some_iff.mp hst
    exact (Memory.doBrk_areas (h.list pid) ht).1.live q
  | _ => exact hmapless trivial

/-- A page fault ends the process or leaves all of them. -/
theorem pagefault_live (h : Sys U s) {vaddr : ℕ} {cause : Memory.Cause}
    (ht : s.handlePagefault env pid vaddr cause = some t) :
    (∀ q, t.live q ↔ q ≠ pid ∧ s.live q) ∨ t.live pid ∧ ∀ q, t.live q ↔ s.live q := by
  rcases h.pagefault_lookup ht with ⟨s1,hsys,he,hs1⟩ | ⟨a,o,s1,f,ha,-,-,hsys,hl,rfl⟩
  · obtain ⟨-,-,hex⟩ := Memory.of_returns (hsys.exit env pid) he
    have hlive : ∀ q, s1.live q ↔ s.live q := by
      rcases hs1 with rfl | ⟨_,_,_,_,hl⟩
      · exact fun _ => Iff.rfl
      · exact hl.adds.clears.live
    exact .inl fun q => (hex.live q).trans (and_congr_right fun _ => hlive q)
  · have hlive : ∀ q, (s1.ptMap pid (vaddr / pageSize) f cause.write).live q ↔ s.live q := fun q =>
      Memory.live_modProc.trans (hl.adds.clears.live q)
    exact .inr ⟨(hlive pid).mpr (Memory.live_of_mem (vmmapLookup_mem ha).1),hlive⟩

end Live

/-! ### Who has which map -/

/-- Each process that has not exited has a map of its own and one that has exited has none;
besides those there are the maps in `spares`. -/
structure Housed (spares : Finset ℕ) (s : Spaces D) : Prop where
  own : ∀ q, s.mem.live q → ∃ m, s.pVmmap q = some m ∧ s.maps m = some ⟨some q⟩
  maps : ∀ m, (s.maps m).isSome ↔ m ∈ spares ∨ ∃ q, s.mem.live q ∧ s.pVmmap q = some m
  apart : ∀ q m, s.mem.live q → s.pVmmap q = some m → m ∉ spares
  gone : ∀ q m, ¬ s.mem.live q → s.pVmmap q = some m → m < s.nextMap ∧ s.maps m = none
  below : ∀ m, (s.maps m).isSome → m < s.nextMap

theorem Housed.owner (h : Housed spares s) (hq : s.mem.live q) (hm : s.pVmmap q = some m) : s.maps m = some ⟨some q⟩ := by
  obtain ⟨m',hm',hmap⟩ := h.own q hq
  cases hm.symm.trans hm'
  exact hmap

theorem Housed.inj (h : Housed spares s) (hq : s.mem.live q) (hp : s.mem.live p) (hm : s.pVmmap q = some m)
    (hm' : s.pVmmap p = some m) : q = p := by
  have he := (h.owner hq hm).symm.trans (h.owner hp hm')
  simpa using he

theorem Housed.same (h : Housed spares s) {mem : Memory D} (hl : ∀ q, mem.live q ↔ s.mem.live q) :
    Housed spares { s with mem := mem } where
  own q hq := h.own q ((hl q).mp hq)
  maps m := by
    rw [h.maps]
    simp only [hl]
  apart q m hq := h.apart q m ((hl q).mp hq)
  gone q m hq := h.gone q m (mt (hl q).mpr hq)
  below := h.below

/-- A process comes with a new map. -/
theorem Housed.enter (h : Housed spares s) (hp : ¬ s.mem.live p) (hl : ∀ q, t.mem.live q ↔ q = p ∨ s.mem.live q)
    (hm : s.nextMap ≤ m) (hspare : m ∉ spares) (hn : m < t.nextMap)
    (hmaps : ∀ x, t.maps x = if x = m then some ⟨some p⟩ else s.maps x)
    (hptr : ∀ q, t.pVmmap q = if q = p then some m else s.pVmmap q) : Housed spares t := by
  have hold : ∀ x, (s.maps x).isSome → x ≠ m := fun x hx => Nat.ne_of_lt (Nat.lt_of_lt_of_le (h.below x hx) hm)
  have hne : ∀ q, s.mem.live q → q ≠ p := by
    rintro q hq rfl
    exact hp hq
  have hptr' : ∀ q, s.mem.live q → t.pVmmap q = s.pVmmap q := fun q hq => by rw [hptr,if_neg (hne q hq)]
  have hnext : s.nextMap < t.nextMap := Nat.lt_of_le_of_lt hm hn
  refine ⟨fun q hq => ?_,fun x => ?_,fun q x hq hx => ?_,fun q x hq hx => ?_,fun x hx => ?_⟩
  · rcases (hl q).mp hq with rfl | hq
    · exact ⟨m,by rw [hptr,if_pos rfl],by rw [hmaps,if_pos rfl]⟩
    · obtain ⟨y,hy,hmap⟩ := h.own q hq
      exact ⟨y,by rw [hptr' q hq,hy],by rw [hmaps,if_neg (hold y (by rw [hmap]; rfl)),hmap]⟩
  · by_cases hx : x = m
    · rw [hx,hmaps,if_pos rfl]
      exact ⟨fun _ => .inr ⟨p,(hl p).mpr (.inl rfl),by rw [hptr,if_pos rfl]⟩,fun _ => rfl⟩
    · rw [hmaps,if_neg hx,h.maps]
      refine or_congr_right ⟨fun ⟨q,hq,hy⟩ => ⟨q,(hl q).mpr (.inr hq),by rw [hptr' q hq,hy]⟩,fun ⟨q,hq,hy⟩ => ?_⟩
      rcases (hl q).mp hq with rfl | hq
      · rw [hptr,if_pos rfl] at hy
        exact absurd (some.inj hy).symm hx
      · exact ⟨q,hq,by rw [← hptr' q hq,hy]⟩
  · rcases (hl q).mp hq with rfl | hq
    · rw [hptr,if_pos rfl] at hx
      cases hx
      exact hspare
    · rw [hptr' q hq] at hx
      exact h.apart q x hq hx
  · obtain ⟨hqp,hqs⟩ := not_or.mp (mt (hl q).mpr hq)
    rw [hptr,if_neg hqp] at hx
    obtain ⟨hlt,hnone⟩ := h.gone q x hqs hx
    exact ⟨Nat.lt_trans hlt hnext,by rw [hmaps,if_neg (Nat.ne_of_lt (Nat.lt_of_lt_of_le hlt hm)),hnone]⟩
  · rw [hmaps] at hx
    split at hx
    next he =>
      rw [he]
      exact hn
    · exact Nat.lt_trans (h.below x hx) hnext

/-- A map is made that no process keeps. -/
theorem Housed.spare (h : Housed spares s) (map : Vmmap) : Housed (insert s.nextMap spares)
    { s with maps := update s.maps s.nextMap (some map), nextMap := s.nextMap+1 } := by
  have hold : ∀ x, (s.maps x).isSome → x ≠ s.nextMap := fun x hx => Nat.ne_of_lt (h.below x hx)
  have howned : ∀ q m, s.mem.live q → s.pVmmap q = some m → m ≠ s.nextMap := fun q m hq hm =>
    hold m (by rw [h.owner hq hm]; rfl)
  refine ⟨fun q hq => ?_,fun x => ?_,fun q m hq hm => ?_,fun q m hq hm => ?_,fun x hx => ?_⟩
  · obtain ⟨m,hm,hmap⟩ := h.own q hq
    exact ⟨m,hm,(update_of_ne (howned q m hq hm) ..).trans hmap⟩
  · by_cases hx : x = s.nextMap
    · simp [hx]
    · simp [hx,h.maps]
  · rw [Finset.mem_insert,not_or]
    exact ⟨howned q m hq hm,h.apart q m hq hm⟩
  · obtain ⟨hlt,hnone⟩ := h.gone q m hq hm
    exact ⟨Nat.lt_succ_of_lt hlt,(update_of_ne (Nat.ne_of_lt hlt) ..).trans hnone⟩
  · by_cases hx' : x = s.nextMap
    · rw [hx']
      exact Nat.lt_succ_self _
    · change ((update s.maps s.nextMap (some map)) x).isSome at hx
      rw [update_of_ne hx'] at hx
      exact Nat.lt_succ_of_lt (h.below x hx)

/-- A process goes with its map. -/
theorem Housed.leave (h : Housed spares s) (hp : s.mem.live p) (hm : s.pVmmap p = some m) {mem : Memory D}
    (hl : ∀ q, mem.live q ↔ q ≠ p ∧ s.mem.live q) :
    Housed spares { s with mem := mem, maps := update s.maps m none } := by
  have hother : ∀ q x, q ≠ p ∧ s.mem.live q → s.pVmmap q = some x → x ≠ m := by
    rintro q x ⟨hne,hq⟩ hx rfl
    exact hne (h.inj hq hp hx hm)
  refine ⟨fun q hq => ?_,fun x => ?_,fun q x hq => h.apart q x ((hl q).mp hq).2,fun q x hq hx => ?_,fun x hx => ?_⟩
  · obtain ⟨x,hx,hmap⟩ := h.own q ((hl q).mp hq).2
    exact ⟨x,hx,(update_of_ne (hother q x ((hl q).mp hq) hx) ..).trans hmap⟩
  · by_cases hx : x = m
    · subst hx
      simp only [update_self,isSome_none,Bool.false_eq_true,false_iff,not_or,not_exists]
      exact ⟨h.apart p x hp hm,fun q hq => hother q x ((hl q).mp hq.1) hq.2 rfl⟩
    · change ((update s.maps m none) x).isSome ↔ _
      rw [update_of_ne hx,h.maps]
      refine or_congr_right (exists_congr fun q => ?_)
      rw [hl]
      refine ⟨fun ⟨hq,hy⟩ => ⟨⟨?_,hq⟩,hy⟩,fun ⟨hq,hy⟩ => ⟨hq.2,hy⟩⟩
      rintro rfl
      exact hx (some.inj (hy.symm.trans hm))
  · by_cases hqp : q = p
    · subst hqp
      cases hm.symm.trans hx
      exact ⟨h.below m (by rw [h.owner hp hm]; rfl),update_self ..⟩
    · obtain ⟨hlt,hnone⟩ := h.gone q x (fun hc => hq ((hl q).mpr ⟨hqp,hc⟩)) hx
      refine ⟨hlt,?_⟩
      change update s.maps m none x = none
      rw [update_apply,hnone,ite_self]
  · change ((update s.maps m none) x).isSome at hx
    by_cases hx' : x = m
    · simp [hx'] at hx
    · rw [update_of_ne hx'] at hx
      exact h.below x hx

/-! ### Runs -/

/-- Whether a call is a fork. -/
def isFork : Env D × Call D → Bool
  | (_, .fork _) => true
  | _ => false

/-- The new process is not there yet. -/
theorem not_live_nextPid (h : Sys U s.mem) : ¬ s.mem.live s.mem.nextPid := fun hc =>
  Nat.lt_irrefl _ (h.heap.holders.pid_lt _ hc)

theorem Housed.procCreate (h : Housed spares s) (hsys : Sys U s.mem) : Housed spares s.procCreate := by
  refine h.enter (not_live_nextPid hsys) (fun q => ?_) (Nat.le_refl _) (fun hc => ?_) (Nat.lt_succ_self _) (maps_procCreate s)
    (pVmmap_procCreate s)
  · by_cases hq : q = s.mem.nextPid
    · subst hq
      simp [Spaces.procCreate,Memory.procCreate,Memory.live]
    · simp [Spaces.procCreate,Memory.procCreate,Memory.live,hq]
  · exact Nat.lt_irrefl _ (h.below _ ((h.maps _).mpr (.inl hc)))

theorem Housed.doFork (h : Housed spares s) (hsys : Sys U s.mem) (hlive : s.mem.live pid) (ht : s.doFork U pid = some t) :
    Housed (insert s.nextMap spares) t := by
  obtain ⟨hmem,hnext,hptr,hmaps⟩ := doFork_eq_some ht
  obtain ⟨-,hf⟩ := Memory.of_returns (hsys.fork hlive) hmem
  refine (h.spare ⟨some s.mem.nextPid⟩).enter (not_live_nextPid hsys) hf.live (Nat.le_refl _) (fun hc => ?_)
    (by rw [hnext]; exact Nat.lt_succ_self _) (fun x => ?_) hptr
  · rcases Finset.mem_insert.mp hc with hc | hc
    · exact absurd hc (Nat.succ_ne_self _)
    · exact absurd (h.below _ ((h.maps _).mpr (.inl hc))) (Nat.not_lt.mpr (Nat.le_succ _))
  · rw [hmaps,maps_procCreate]
    refine if_congr Iff.rfl rfl ?_
    exact (update_apply ..).symm

theorem Housed.procCleanup (h : Housed spares s) {mem : Memory D} (hl : ∀ q, mem.live q ↔ q ≠ p ∧ s.mem.live q)
    (ht : s.procCleanup p mem = some t) : Housed spares t := by
  obtain ⟨m,hm,hsome,rfl⟩ := procCleanup_eq_some ht
  -- the map is there, so the process has not exited before
  have hp : s.mem.live p := by
    by_contra hc
    rw [(h.gone p m hc hm).2] at hsome
    cases hsome
  exact h.leave hp hm hl

section Runs

variable [Zero D]

theorem Housed.step {c : Env D × Call D} (h : Housed spares s) (hsys : Sys U s.mem) (hc : Allowed s.mem c)
    (hst : Spaces.step U s c = some t) :
    ∃ spares', Housed spares' t ∧ spares'.card = spares.card+if isFork c then 1 else 0 := by
  have hord : Ordinary c.2 → (s.mem.step U c).map (fun mem => { s with mem := mem }) = some t → Housed spares t := by
    intro ho ht
    obtain ⟨mem,hmem,rfl⟩ := map_eq_some_iff.mp ht
    exact h.same (step_live hsys hc ho hmem)
  obtain ⟨env,c⟩ := c
  cases c with
  | procCreate =>
    cases hst
    exact ⟨spares,h.procCreate hsys,rfl⟩
  | fork pid =>
    refine ⟨insert s.nextMap spares,h.doFork hsys hc hst,Finset.card_insert_of_notMem fun hmem => ?_⟩
    exact Nat.lt_irrefl _ (h.below _ ((h.maps _).mpr (.inl hmem)))
  | exit pid =>
    obtain ⟨mem,hmem,ht⟩ := bind_eq_some_iff.mp hst
    obtain ⟨-,-,hex⟩ := Memory.of_returns (hsys.exit env pid) hmem
    exact ⟨spares,h.procCleanup hex.live ht,rfl⟩
  | pagefault pid vaddr cause =>
    obtain ⟨mem,hmem,ht⟩ := bind_eq_some_iff.mp hst
    refine ⟨spares,?_,rfl⟩
    split at ht
    next hp =>
      cases ht
      rcases pagefault_live hsys hmem with hl | ⟨-,hl⟩
      · exact absurd rfl ((hl pid).mp hp).1
      · exact h.same hl
    next hp =>
      rcases pagefault_live hsys hmem with hl | ⟨hp',-⟩
      · exact h.procCleanup hl ht
      · exact absurd hp' hp
  | _ => exact ⟨spares,hord trivial hst,rfl⟩

/-- No process and no map yet. -/
structure Initial (s : Spaces D) : Prop where
  mem : s.mem.Initial
  maps : ∀ m, s.maps m = none
  pVmmap : ∀ q, s.pVmmap q = none

theorem housed_of_exec {s0 : Spaces D} {cs : List (Env D × Call D)} (h0 : s0.Initial)
    (h : Exec (Spaces.step U) (fun s c => Allowed s.mem c) s0 cs s) :
    Sys U s.mem ∧ ∃ spares, Housed spares s ∧ spares.card = cs.countP isFork := by
  induction h with
  | nil =>
    refine ⟨h0.mem.sys,∅,⟨fun q hq => ?_,fun m => ?_,fun q m hq => ?_,fun q m _ hm => ?_,fun m hm => ?_⟩,rfl⟩
    · simp [Memory.live,h0.mem.procs] at hq
    · simp [h0.maps,h0.pVmmap]
    · simp [Memory.live,h0.mem.procs] at hq
    · simp [h0.pVmmap] at hm
    · simp [h0.maps] at hm
  | snoc _ hc hst ih =>
    obtain ⟨hsys,spares,hh,hcard⟩ := ih
    obtain ⟨spares',hh',hcard'⟩ := hh.step hsys hc hst
    refine ⟨(hsys.step hc (step_mem hst)).sys,spares',hh',?_⟩
    rw [hcard',hcard,countP_append,countP_singleton]

omit [Zero D] in
/-- A process that has not exited can fork and can exit. -/
theorem Housed.completes (h : Housed spares s) (hsys : Sys U s.mem) (hlive : s.mem.live pid) (env : Env D) :
    (s.doFork U pid).isSome ∧ (s.doExit env pid).isSome := by
  obtain ⟨m,hm,hmap⟩ := h.own pid hlive
  obtain ⟨mem,hmem,-⟩ := hsys.fork hlive
  obtain ⟨mem',hmem',-⟩ := hsys.exit env pid
  have hptr : s.procCreate.pVmmap pid = some m := by
    rw [pVmmap_procCreate,if_neg (Nat.ne_of_lt (hsys.heap.holders.pid_lt pid hlive)),hm]
  have hclone : s.procCreate.maps m = some ⟨some pid⟩ := by
    rw [maps_procCreate,if_neg (Nat.ne_of_lt (h.below m (by rw [hmap]; rfl))),hmap]
  constructor
  · simp [Spaces.doFork,hmem,hptr,vmmapClone,hclone]
  · simp [doExit,hmem',Spaces.procCleanup,hm,vmmapDestroy,hmap]

/-- After any run, a process that has not exited has a map that points back to it. There are
no other maps exactly if the run has no fork: each fork leaves one. -/
theorem spaces_of_run (U : UserMem) {s0 : Spaces D} {cs : List (Env D × Call D)} (h0 : s0.Initial)
    (h : Exec (step U) (fun s c => Allowed s.mem c) s0 cs s) :
    (∀ q, s.mem.live q → ∃ m, s.pVmmap q = some m ∧ s.maps m = some ⟨some q⟩) ∧
    ((∀ m, (s.maps m).isSome ↔ ∃ q, s.mem.live q ∧ s.pVmmap q = some m) ↔ ∀ c ∈ cs, isFork c = false) ∧
    (∃ spares : Finset ℕ, spares.card = cs.countP isFork ∧
      (∀ m, (s.maps m).isSome ↔ m ∈ spares ∨ ∃ q, s.mem.live q ∧ s.pVmmap q = some m) ∧
      ∀ q m, s.mem.live q → s.pVmmap q = some m → m ∉ spares) ∧
    ∀ q, s.mem.live q → ∀ env, (s.doFork U q).isSome ∧ (s.doExit env q).isSome := by
  obtain ⟨hsys,spares,hh,hcard⟩ := housed_of_exec h0 h
  refine ⟨hh.own,?_,⟨spares,hcard,hh.maps,hh.apart⟩,fun q hq env => hh.completes hsys hq env⟩
  have hnone : (∀ c ∈ cs, isFork c = false) ↔ spares = ∅ := by
    rw [← Finset.card_eq_zero,hcard,countP_eq_zero]
    simp
  rw [hnone]
  constructor
  · intro hall
    by_contra hne
    obtain ⟨m,hm⟩ := Finset.nonempty_iff_ne_empty.mpr hne
    obtain ⟨q,hq,hptr⟩ := (hall m).mp ((hh.maps m).mpr (.inl hm))
    exact hh.apart q m hq hptr hm
  · rintro rfl m
    simpa using hh.maps m

end Runs

/-! ### Samples -/

def emptySpaces : Spaces ℕ := ⟨emptyMemory,fun _ => none,fun _ => none,0⟩

theorem emptySpaces_initial : emptySpaces.Initial := ⟨emptyMemory_initial,fun _ => rfl,fun _ => rfl⟩

/-- Two processes are made, and the first maps a page and exits. -/
def lodgersCalls : List (Env ℕ × Call ℕ) :=
  [.procCreate,.procCreate,.map 0 none 0x500 1 readWrite privateAnon 0 .hilo,.exit 0].map fun c => (calmEnv, c)

def lodgersSpaces : Spaces ℕ := (run (step sampleUser) (fun s c => Allowed s.mem c) emptySpaces lodgersCalls).getD emptySpaces

theorem spaces_of_run_lodgersSpaces :
    Exec (step sampleUser) (fun s c => Allowed s.mem c) emptySpaces lodgersCalls lodgersSpaces ∧
    lodgersSpaces.maps 1 = some ⟨some 1⟩ ∧ lodgersSpaces.maps 0 = none ∧
    ∀ m, (lodgersSpaces.maps m).isSome ↔ ∃ q, lodgersSpaces.mem.live q ∧ lodgersSpaces.pVmmap q = some m := by
  have h : Exec (step sampleUser) (fun s c => Allowed s.mem c) emptySpaces lodgersCalls lodgersSpaces :=
    Exec.ofRun_getD (by decide +kernel) _
  obtain ⟨-,hiff,-⟩ := spaces_of_run sampleUser emptySpaces_initial h
  exact ⟨h,by decide +kernel,by decide +kernel,hiff.mpr (by decide +kernel)⟩

/-- A process forks, and both exit. -/
def leaversCalls : List (Env ℕ × Call ℕ) := [.procCreate,.fork 0,.exit 1,.exit 0].map fun c => (calmEnv, c)

def leaversSpaces : Spaces ℕ := (run (step sampleUser) (fun s c => Allowed s.mem c) emptySpaces leaversCalls).getD emptySpaces

/-- No process is left, but a map is. -/
theorem map_left_by_fork :
    Exec (step sampleUser) (fun s c => Allowed s.mem c) emptySpaces leaversCalls leaversSpaces ∧
    (∀ q, ¬ leaversSpaces.mem.live q) ∧ leaversSpaces.maps 1 = some ⟨some 1⟩ ∧ leaversSpaces.pVmmap 1 = some 2 := by
  have h : Exec (step sampleUser) (fun s c => Allowed s.mem c) emptySpaces leaversCalls leaversSpaces :=
    Exec.ofRun_getD (by decide +kernel) _
  have hnext : leaversSpaces.mem.nextPid = 2 := by decide +kernel
  have hgone : ∀ q < 2, (leaversSpaces.mem.procs q).isSome = false := by decide +kernel
  refine ⟨h,fun q hq => ?_,by decide +kernel,by decide +kernel⟩
  have hlt := (housed_of_exec emptySpaces_initial h).1.heap.holders.pid_lt q hq
  rw [Memory.live,hgone q (hnext ▸ hlt)] at hq
  cases hq

end Spaces

end Csci402.Vm
