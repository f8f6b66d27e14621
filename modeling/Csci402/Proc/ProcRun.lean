import Csci402.Proc.ProcCalls

/-! Runs of the process functions from boot. As long as no process exits while it has
children, every call returns and the list of children of each process is a ring of exactly
the processes whose parent it is. A process that does exit with children links them into
the list of the init process but does not unlink them from its own, whose head then points
into another list; an init process that does so loops for ever over its own list. -/

namespace Csci402.Proc.Kernel

open Lib Function Option List

variable {P : Type} {max : ℤ} {left : P → Prop} {s t : Kernel P} {p q new : P} {xs : List P}
  [DecidableEq P]

/-- The kernel at boot: the idle process runs, and there is no other. -/
structure Initial (max : ℤ) (s : Kernel P) : Prop where
  sched : s.sched.Initial
  idle : s.proc s.curproc = some ⟨0,none,.running,0⟩
  others : ∀ p, p ≠ s.curproc → s.proc p = none
  list : s.procList = [s.curproc]
  links : ChildRing s.links s.curproc []
  used : s.used s.curproc = true
  pids : 0 ≤ s.nextPid ∧ s.nextPid < max
  pc : ∀ p, s.pc p = .user

omit [DecidableEq P] in
theorem Initial.inv (h : Initial max s) : KInv (fun _ => False) s := by
  have hproc : ∀ p, (s.proc p).isSome → p = s.curproc := by
    intro p hp
    by_contra hne
    simp [h.others p hne] at hp
  have hpar : ∀ q p, s.parent q ≠ some p := by
    intro q p hq
    have := hproc q (isSome_of_parent hq)
    subst this
    simp [parent,h.idle] at hq
  refine ⟨h.sched.inv,⟨by simp [h.list],fun p => ?_,fun p hp _ => ?_,fun p hp => hp.elim,fun p hp => ?_⟩,
    fun p r hr => ?_,fun p hp _ => ?_⟩
  · rw [h.list,mem_singleton]
    exact ⟨fun e => by simp [e,h.idle],hproc p⟩
  · rw [h.list,mem_singleton] at hp
    subst hp
    exact ⟨[],h.links,fun q => by simp [hpar q]⟩
  · rcases hp with hp | ⟨q,hq⟩
    · exact hproc p hp ▸ h.used
    · exact absurd hq (hpar q p)
  · obtain rfl := hproc p (by simp [show s.proc p = some r from hr])
    cases h.idle.symm.trans hr
    simp [(h.sched.free _).1]
  · by_cases hne : p = s.curproc
    · simp [hne,h.idle]
    · simp [(h.sched.new p hne).1] at hp

/-! ### Calls return -/

omit [DecidableEq P] in
/-- The search for a pid ends after one round at the latest. -/
theorem getidFrom_isSome {n : ℕ} {pid : ℤ}
    (hn : ∃ d : ℕ, 0 < d ∧ d ≤ n ∧ (pid+d) % max = s.nextPid) : (getidFrom max s n pid).isSome := by
  induction n generalizing pid with
  | zero => omega
  | succ n ih =>
    obtain ⟨d,hd,hdn,hp⟩ := hn
    simp only [getidFrom]
    split
    · split
      · rfl
      next hne =>
        have hd1 : d ≠ 1 := by
          rintro rfl
          exact hne (by simpa using hp)
        refine ih ⟨d - 1,by omega,by omega,?_⟩
        rw [← hp,Int.emod_add_emod]
        congr 1
        omega
    · rfl

omit [DecidableEq P] in
theorem procGetid_isSome (hmax : 0 ≤ s.nextPid ∧ s.nextPid < max) : (procGetid max s).isSome := by
  rw [procGetid,isSome_map]
  refine getidFrom_isSome ⟨max.toNat,by omega,Nat.le_refl _,?_⟩
  rw [Int.toNat_of_nonneg (by omega),Int.add_emod_right]
  exact Int.emod_eq_of_lt hmax.1 hmax.2

omit [DecidableEq P] in
theorem nextPid_range {pid nextPid : ℤ} (hmax : 0 ≤ s.nextPid ∧ s.nextPid < max)
    (h : procGetid max s = some (pid, nextPid)) : 0 ≤ nextPid ∧ nextPid < max := by
  obtain ⟨_,-,he⟩ := map_eq_some_iff.mp h
  cases he
  split
  · exact hmax
  · exact ⟨Int.emod_nonneg _ (by omega),Int.emod_lt_of_pos _ (by omega)⟩

theorem KInv.procCreate_isSome (h : KInv left s) (hmax : 0 ≤ s.nextPid ∧ s.nextPid < max)
    (hs : s.sched.switching = false) (hn : s.used new = false) (hpid : PidOk max s) :
    (procCreate max new s).isSome := by
  obtain ⟨r,hr,-,hcur,hl⟩ := h.cur hs
  obtain ⟨⟨pid,nextPid⟩,hg⟩ := isSome_iff_exists.mp (procGetid_isSome hmax)
  obtain ⟨k,hk,-⟩ := create_links h.tree hcur hl hn
  obtain ⟨hidle,hinit⟩ := hpid _ hg r hr
  have h1 : ¬ (pid = 0 ∧ s.procList ≠ []) := fun hc => hc.2 (hidle hc.1)
  have h2 : ¬ (pid = 1 ∧ r.pPid ≠ 0) := fun hc => hc.2 (hinit hc.1)
  simp only [procCreate,hg,hr,bind_eq_bind,bind_some,if_neg h1,if_neg h2,hk]
  rfl

/-- A fork returns when the process can be made and the caller and its thread run. -/
theorem doFork_isSome {r : ProcT P} (h : s.sched.Inv) (hs : s.sched.switching = false)
    (hn : s.sched.started new = false) (hr : s.proc s.curproc = some r) (hstate : r.pState = .running)
    (hrun : (s.sched.thr s.curproc).ktState = .run) (hc : (procCreate max new s).isSome) :
    (doFork max new s).isSome := by
  obtain ⟨s1,hs1⟩ := isSome_iff_exists.mp hc
  obtain ⟨pid,nextPid,k,-,-,rfl⟩ := procCreate_eq_some hs1
  obtain ⟨sched,hclone⟩ : ∃ sched, s.sched.kthreadClone s.sched.curthr new = some sched :=
    ⟨_,if_pos hrun⟩
  obtain ⟨hi,hq,-,hsw⟩ := h.clone hs hn hclone
  obtain ⟨sched',hstart,-⟩ := hi.start (t := new) hsw (by rw [hq.started]; exact hn)
  simp [doFork,hr,hstate,hs1,Kernel.created,hclone,startThread,hstart]

theorem KInv.doFork_isSome (h : KInv left s) (hmax : 0 ≤ s.nextPid ∧ s.nextPid < max)
    (hs : s.sched.switching = false) (hn : Unused s new) (hpid : PidOk max s)
    (hrun : (s.sched.thr s.curproc).ktState = .run) : (doFork max new s).isSome := by
  obtain ⟨r,hr,hstate,-⟩ := h.cur hs
  exact Kernel.doFork_isSome h.sched hs hn.2 hr hstate hrun (h.procCreate_isSome hmax hs hn.1 hpid)

/-- Every parent is a process that runs; it is so as long as nobody exits with children. -/
def ParentsRun (s : Kernel P) : Prop := ∀ q p, s.parent q = some p → ∃ r, s.proc p = some r ∧ r.pState = .running

theorem KInv.doExit_isSome (h : KInv left s) (hp : ParentsRun s) {status : ℤ} (hs : s.sched.switching = false)
    (hx : MayExit s) (hc : children s.curproc s = some []) : (doExit status s).isSome := by
  obtain ⟨r,hr,-,hcur,hl⟩ := h.cur hs
  obtain ⟨init,hi⟩ := ne_none_iff_exists'.mp hx.2.1
  obtain ⟨xs,hxs,hring,hm⟩ := h.children_eq hs
  cases hc.symm.trans hxs
  obtain ⟨w,hw⟩ := ne_none_iff_exists'.mp (hx.2.2 r hr).2
  obtain ⟨r',hr',-⟩ := hp s.curproc w (by simp [parent,hr,hw])
  have hbegin : exitBegin status s = some { killed status s with
      pc := update s.pc s.curproc .cleanup } := by
    rw [exitBegin_eq status h.sched hs hx hr hi,Ring.next_head hring]
    simp [reparent,killed]
    rfl
  obtain ⟨sched,hsched,-⟩ := (h.sched.leaving hs hx.1).2.threadExited (.pWait w) hs
  have hsched' : (killed status s).sched.procThreadExited (.pWait w) = some sched := hsched
  have hcur' : { killed status s with pc := update s.pc s.curproc .cleanup }.curproc = s.curproc := rfl
  have hproc : (killed status s).proc s.curproc = some { r with pStatus := status, pState := .dead } := by
    simp [killed,hr]
  have hparent : ((killed status s).proc w).isSome := by
    rw [proc_killed_isSome,hr']
    rfl
  obtain ⟨r1,hr1⟩ := isSome_iff_exists.mp hparent
  simp only [doExit,hbegin,bind_some,exitEnd,hcur',hproc,bind_eq_bind,hw,hr1,hsched']
  rfl

/-! ### The tree -/

/-- No process exits while it has children. -/
def ChildlessExit (s : Kernel P) : Act P → Prop
  | .exit _ => children s.curproc s = some []
  | _ => True

theorem KInv.step_isSome (h : KInv left s) (hp : ParentsRun s) (hmax : 0 ≤ s.nextPid ∧ s.nextPid < max) {a : Act P}
    (hw : a.whole = true) (ha : Enabled max s a) (hc : ChildlessExit s a) : (step max s a).isSome := by
  cases a with
  | create new => exact h.procCreate_isSome hmax ha.1.1 ha.2.1.1 ha.2.2
  | start p =>
    obtain ⟨r,hr⟩ := ne_none_iff_exists'.mp ha.2.2
    obtain ⟨sched,hsched,-⟩ := h.sched.start ha.1.1 ha.2.1
    simp [step,startThread,hr,hsched]
  | fork new => exact h.doFork_isSome hmax ha.1.1 ha.2.1 ha.2.2.1 ha.2.2.2
  | waitpid pid =>
    obtain ⟨_,w,-,-,hwait,-⟩ := h.waitpid max ha.1 pid
    simp [step,hwait]
  | exit status => exact h.doExit_isSome hp ha.1.1 ha.2 hc
  | exitBegin status => cases hw
  | exitEnd => cases hw
  | yield =>
    obtain ⟨sched,hsched,-⟩ := h.sched.yield ha.1
    simp [step,schedule,Sched.step,hsched]
  | block w => simp [step,schedule,Sched.step,h.sched.sleepOn (.other w) ha.1]
  | wakeup w =>
    obtain ⟨_,u,-,-,hwake⟩ := h.sched.wakeup ha
    simp [step,schedule,Sched.step,hwake]
  | resume =>
    obtain ⟨t,ht,-,hsome⟩ := h.resume max ha.1 ha.2
    simp [step,ht,hsome]

theorem ChildlessExit.initAlone {a : Act P} (h : ChildlessExit s a) : InitAlone s a := by
  cases a with
  | exit status => exact fun _ => h
  | _ => trivial

/-- What a step keeps when nobody exits with children. -/
theorem Effect.parentsRun {a : Act P} (h : KInv left s) (hp : ParentsRun s) (he : Effect max left s a t)
    (hc : ChildlessExit s a) : ParentsRun t := by
  cases he with
  | scheduled moves => exact hp
  | @created new pid nextPid k _ awake unused number tree fresh moves =>
    intro q p hq
    have hq : (Kernel.created new pid nextPid k s).parent q = some p := hq
    have hrun : ∃ r, s.proc p = some r ∧ r.pState = .running := by
      rw [parent_created] at hq
      split at hq
      · cases hq
        obtain ⟨r,hr,hrun,-⟩ := h.cur awake
        exact ⟨r,hr,hrun⟩
      · exact hp q p hq
    obtain ⟨r,hr,hrun⟩ := hrun
    have hne : p ≠ new := by
      rintro rfl
      simp [h.tree.proc_unused unused] at hr
    exact ⟨r,by simpa [Kernel.created,hne] using hr,hrun⟩
  | @reaped _ q k label child dead tree =>
    intro z p hz
    have hz : (disposed q k s).parent z = some p := hz
    rw [parent_disposed] at hz
    split at hz
    · cases hz
    · obtain ⟨r,hr,hrun⟩ := hp z p hz
      have hne : p ≠ q := by
        rintro rfl
        obtain ⟨r',hr',hd⟩ := dead
        cases hr.symm.trans hr'
        simp [hrun] at hd
      exact ⟨r,by simpa [disposed,hne] using hr,hrun⟩
  | asleep label list found running awake => exact hp
  | echild label => exact hp
  | @exited status init _ xs k _ _ label awake initproc hx leaves parent tree grows =>
    subst label
    obtain ⟨ys,hys,-,hy⟩ := h.children_eq awake
    cases hys.symm.trans hc
    have hxs : xs = [] := eq_nil_iff_forall_not_mem.mpr fun q hq => not_mem_nil ((hy q).mpr ((hx q).mp hq))
    subst hxs
    intro q p hq
    have hq : s.parent q = some p := by
      rw [← parent_killed status q]
      simpa [handed,Kernel.parent] using hq
    obtain ⟨r,hr,hrun⟩ := hp q p hq
    have hne : p ≠ s.curproc := by
      rintro rfl
      exact not_mem_nil ((hx q).mpr hq)
    exact ⟨r,by simpa [handed,killed,hne] using hr,hrun⟩

theorem Effect.nextPid {a : Act P} (hmax : 0 ≤ s.nextPid ∧ s.nextPid < max) (he : Effect max left s a t) :
    0 ≤ t.nextPid ∧ t.nextPid < max := by
  cases he with
  | created awake unused number tree fresh moves => exact nextPid_range hmax number
  | _ => exact hmax

/-- The steps of a run in which exits are whole and nobody exits with children. -/
def ChildlessRun (max : ℤ) (s : Kernel P) (a : Act P) : Prop :=
  a.whole = true ∧ Enabled max s a ∧ ChildlessExit s a

theorem childless_of_exec {s0 : Kernel P} {as : List (Act P)} (h0 : Initial max s0)
    (h : Exec (step max) (ChildlessRun max) s0 as s) :
    KInv (fun _ => False) s ∧ ParentsRun s ∧ 0 ≤ s.nextPid ∧ s.nextPid < max := by
  induction h with
  | nil =>
    refine ⟨h0.inv,fun q p hq => ?_,h0.pids⟩
    by_cases hqc : q = s0.curproc
    · simp [parent,hqc,h0.idle] at hq
    · simp [parent,h0.others q hqc] at hq
  | snoc _ hok hst ih =>
    obtain ⟨hinv,hp,hpid⟩ := ih
    obtain ⟨hw,ha,hc⟩ := hok
    have heff := hinv.effect hw ha hc.initAlone hst
    obtain ⟨left',hinv',hleft⟩ := heff.inv hinv
    have hnone : left' = fun _ => False := by
      funext q
      refine propext ⟨fun hq => ?_,False.elim⟩
      rcases hleft q hq with hf | ⟨⟨status,rfl⟩,z,hz⟩
      · exact hf
      · obtain ⟨xs,hxs,-,hx⟩ := hinv.children_eq ha.1.1
        cases hxs.symm.trans hc
        exact not_mem_nil ((hx z).mpr hz)
    exact ⟨hnone ▸ hinv',heff.parentsRun hinv hp hc,heff.nextPid hpid⟩

/-- Every call returns, and the list of children of each process is well formed and holds
exactly the processes whose parent it is, each once. -/
theorem process_tree {s0 : Kernel P} {as : List (Act P)} (h0 : Initial max s0)
    (h : Exec (step max) (ChildlessRun max) s0 as s) : (∀ a, ChildlessRun max s a → ∃ t, step max s a = some t) ∧
      ∀ p ∈ s.procList, ∃ xs, ChildRing s.links p xs ∧
        ∀ q, q ∈ xs ↔ q ∈ s.procList ∧ s.parent q = some p := by
  obtain ⟨hinv,hp,hpid⟩ := childless_of_exec h0 h
  refine ⟨fun a ha => ?_,fun p hm => ?_⟩
  · exact isSome_iff_exists.mp (hinv.step_isSome hp hpid ha.1 ha.2.1 ha.2.2)
  · obtain ⟨xs,hr,hx⟩ := hinv.tree.ring p hm id
    refine ⟨xs,hr,fun q => (hx q).trans ⟨fun hq => ⟨?_,hq⟩,And.right⟩⟩
    exact (hinv.tree.mem q).mpr (isSome_of_parent hq)

instance : ∀ a : Act P, Decidable (ChildlessExit s a) := by
  rintro ⟨⟩ <;> unfold ChildlessExit <;> infer_instance

instance (max : ℤ) (s : Kernel P) (a : Act P) : Decidable (ChildlessRun max s a) :=
  inferInstanceAs (Decidable (_ ∧ _ ∧ _))

/-- The kernel at boot, with the idle process `idle`. -/
def bootWith (idle : P) : Kernel P where
  sched :=
    { thr := fun _ => ⟨.run,false,none,true⟩
      queue := fun _ => ⟨[],0⟩
      curthr := idle
      switching := false
      started := fun t => t == idle
      exited := fun _ => false
      stamp := fun _ => 0
      clock := 0 }
  proc p := if p = idle then some ⟨0,none,.running,0⟩ else none
  links := listInit (.children idle) ⟨fun _ => none,fun _ => none⟩
  procList := [idle]
  procInitproc := none
  nextPid := 1
  pc _ := .user
  used p := p == idle

theorem bootWith_initial (idle : P) (hmax : 1 < max) : Initial max (bootWith idle) where
  sched := ⟨by simp [bootWith],by simp [bootWith],by simp [bootWith],fun _ => rfl⟩
  idle := by simp [bootWith,curproc]
  others p hp := if_neg hp
  list := rfl
  links := childRing_listInit _ _
  used := by simp [bootWith,curproc]
  pids := ⟨Int.one_nonneg,hmax⟩
  pc _ := rfl

/-- The idle process, process 0, at boot. -/
def bootKernel : Kernel (Fin 5) := bootWith 0

theorem bootKernel_initial : Initial 64 bootKernel := bootWith_initial 0 (by decide)

/-- The idle process creates the init process and waits for it; that one forks process 2,
which exits and is waited for. -/
def childlessActs : List (Act (Fin 5)) :=
  [.create 1,.start 1,.waitpid (-1),.resume,.fork 2,.waitpid (-1),.resume,.exit 5,.resume,.waitpid (-1)]

theorem process_tree_childlessActs : ∃ s, Exec (step 64) (ChildlessRun 64) bootKernel childlessActs s ∧
    s.procList = [0,1] ∧ ∃ xs, ChildRing s.links 0 xs ∧ ∀ q, q ∈ xs ↔ q ∈ s.procList ∧ s.parent q = some 0 := by
  have h : Exec (step 64) (ChildlessRun 64) bootKernel childlessActs _ := Exec.ofRun rfl
  exact ⟨_,h,rfl,(process_tree bootKernel_initial h).2 0 (by decide)⟩

/-! ### Exits with children -/

/-- The steps of a run in which exits are whole. -/
def WholeRun (max : ℤ) (s : Kernel P) (a : Act P) : Prop := a.whole = true ∧ Enabled max s a

instance (max : ℤ) (s : Kernel P) (a : Act P) : Decidable (WholeRun max s a) :=
  inferInstanceAs (Decidable (_ ∧ _))

/-- The links of `x` and of `y`, the last child, chase each other: the loop takes `x` to the
end of the list, behind `y`, and then `y` behind `x`. -/
theorem reparent_self {x y : P} {n : ℕ} (hxy : x ≠ y) (hnext : s.links.next (.child x) = some (.child y))
    (hlast : s.links.prev (.children p) = some (.child y)) : reparent p (.children p) n (.child x) s = none := by
  induction n generalizing x y s with
  | zero => rfl
  | succ n ih =>
    cases hp : s.proc p with
    | none => simp [reparent,hnext,hp]
    | some r =>
      cases hx : s.proc x with
      | none => simp [reparent,hnext,hp,listInsertTail,hlast,modProc,hx]
      | some r' =>
        simp only [reparent,hnext,hp,listInsertTail,hlast,modProc,hx,reduceCtorEq,if_false,
          bind_eq_bind,bind_some,map_some]
        refine ih hxy.symm ?_ ?_
        · simp [Links.insert]
        · simp [Links.insert]

/-- The init process has forked process 2, which has forked process 3. -/
def orphaningActs : List (Act (Fin 5)) :=
  [.create 1,.start 1,.waitpid (-1),.resume,.fork 2,.waitpid (-1),.resume,.fork 3,.exit 0]

/-- The init process has forked processes 2 and 3. -/
def initActs : List (Act (Fin 5)) :=
  [.create 1,.start 1,.waitpid (-1),.resume,.fork 2,.fork 3]

/-- A process that has exited with a child has a list that is not well formed, and the exit of
an init process with two children does not return. -/
theorem exit_with_children : (∃ s, Exec (step 64) (WholeRun 64) bootKernel orphaningActs s ∧ 2 ∈ s.procList ∧
      ¬ ∃ xs, ChildRing s.links 2 xs) ∧
    ∃ s, Exec (step 64) (WholeRun 64) bootKernel initActs s ∧ WholeRun 64 s (.exit 0) ∧
      children 1 s = some [2,3] ∧ step 64 s (.exit 0) = none ∧
      ∀ n, reparent 1 (.children 1) n (.child 2) (killed 0 s) = none := by
  have h : Exec (step 64) (WholeRun 64) bootKernel orphaningActs _ := Exec.ofRun rfl
  have h' : Exec (step 64) (WholeRun 64) bootKernel initActs _ := Exec.ofRun rfl
  refine ⟨⟨_,h,by decide,?_⟩,_,h',by decide,rfl,rfl,fun n => reparent_self (by decide) rfl rfl⟩
  -- the head of the list points to process 3, whose link does not point back
  rintro ⟨xs,hr⟩
  have hseg := Ring.seg hr
  cases xs with
  | nil => exact absurd hseg.1 (by decide)
  | cons x xs =>
    obtain ⟨hnext,hprev⟩ := hseg.1
    have hx : some (PLink.child (3 : Fin 5)) = some (.child x) := hnext
    cases hx
    exact absurd hprev (by decide)

end Csci402.Proc.Kernel
