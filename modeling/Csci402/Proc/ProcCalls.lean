import Csci402.Proc.ProcTree
import Csci402.Proc.SchedHistory

/-! What the calls on processes do. The loop of `do_waitpid` stops at the first child that
is asked for. A step of a kernel with the invariants has one of a few effects, each of
them given by the state it leads to; what the later results say about runs is read off
these effects. Exits are whole here: nothing blocks between the two parts. -/

namespace Csci402.Proc.Kernel

open Lib Function Option List

variable {P : Type} {max : ℤ} {left : P → Prop} {s t : Kernel P} {p q new : P} {xs : List P}

/-- The process is one that `do_waitpid pid` asks for. -/
def wanted (pid : ℤ) (s : Kernel P) (q : P) : Bool :=
  (s.proc q).any fun r => r.pPid = pid ∨ pid = -1

theorem wanted_any (hq : (s.proc q).isSome) : wanted (-1) s q = true := by
  obtain ⟨r,hr⟩ := isSome_iff_exists.mp hq
  simp [wanted,hr]

variable [DecidableEq P] {m : ℕ}

/-- The loop of `do_waitpid` over what lies ahead. -/
theorem waitFrom_eq {h : PLink P} {pid : ℤ} (hahead : Ahead s.links h xs) (hh : ∀ x, h ≠ .child x)
    (hproc : ∀ x ∈ xs, (s.proc x).isSome) (hm : xs.length < m) :
    waitFrom pid h m ((xs.map .child).headD h) s = match xs.find? (wanted pid s) with
      | none => some (.echild, { s with pc := update s.pc s.curproc .user })
      | some q => (s.proc q).bind fun r => visit pid q r s := by
  induction xs generalizing m with
  | nil =>
    obtain ⟨m,rfl⟩ := Nat.exists_eq_succ_of_ne_zero (Nat.ne_of_gt hm)
    simp [waitFrom]
  | cons x xs ih =>
    obtain ⟨m,rfl⟩ := Nat.exists_eq_succ_of_ne_zero (Nat.ne_of_gt (Nat.zero_lt_of_lt hm))
    obtain ⟨r,hr⟩ := isSome_iff_exists.mp (hproc x mem_cons_self)
    have hrest := ih hahead.2 (fun y hy => hproc y (mem_cons_of_mem x hy)) (Nat.lt_of_succ_lt_succ hm)
    have hstep : waitFrom pid h (m+1) (((x :: xs).map .child).headD h) s =
        if r.pPid = pid ∨ pid = -1 then visit pid x r s
        else waitFrom pid h m ((xs.map .child).headD h) s := by
      simp only [map_cons,headD_cons,waitFrom,if_neg (hh x).symm,hahead.1,hr,
        bind_eq_bind,bind_some]
    rw [hstep]
    by_cases hw : r.pPid = pid ∨ pid = -1
    · have hfind : (x :: xs).find? (wanted pid s) = some x :=
        find?_cons_of_pos (by simpa [wanted,hr] using hw)
      simp [if_pos hw,hfind,hr]
    · have hfind : (x :: xs).find? (wanted pid s) = xs.find? (wanted pid s) :=
        find?_cons_of_neg (by simpa [wanted,hr] using hw)
      rw [if_neg hw,hrest,hfind]

theorem TreeInv.doWaitpid_eq (h : TreeInv left s) (pid : ℤ)
    (hr : ChildRing s.links s.curproc xs) (hm : ∀ q, q ∈ xs ↔ s.parent q = some s.curproc) :
    doWaitpid pid s = match xs.find? (wanted pid s) with
      | none => some (.echild, { s with pc := update s.pc s.curproc .user })
      | some q => (s.proc q).bind fun r => visit pid q r s := by
  have hlen := h.length_le hr hm
  have hr' : ChildRing s.links s.curproc ([] ++ xs) := hr
  rw [doWaitpid,Ring.next_head hr,bind_eq_bind,bind_some]
  exact waitFrom_eq hr'.ahead nofun (fun x hx => isSome_of_parent ((hm x).mp hx)) (by omega)

/-! ### The effects of a step -/

/-- The scheduler has moved threads, but none that waits for a child, and has started only
threads of the processes `ok`. -/
structure Moves (ok : P → Prop) (s s' : Sched P (WaitQ P)) : Prop where
  inv : s'.Inv
  started : ∀ p, s'.started p = true → s.started p = true ∨ ok p
  exited : s'.exited = s.exited
  waiting : ∀ p, s'.queue (.wait (.pWait p)) = s.queue (.wait (.pWait p))

/-- The current process is dead, with the given status, and its thread is about to leave. -/
def killed (status : ℤ) (s : Kernel P) : Kernel P :=
  { s with
    sched := s.sched.leaving
    proc := fun q => if q = s.curproc then
      (s.proc q).map fun r => { r with pStatus := status, pState := .dead } else s.proc q }

/-- What the step `a` can do to a kernel; `left` is as for the tree. -/
inductive Effect (max : ℤ) (left : P → Prop) (s : Kernel P) (a : Act P) : Kernel P → Prop
  | scheduled {sched : Sched P (WaitQ P)} (moves : Moves (fun p => (s.proc p).isSome) s.sched sched) :
      Effect max left s a { s with sched }
  | created {new : P} {pid nextPid : ℤ} {k : Links (PLink P)} {sched : Sched P (WaitQ P)}
      (awake : s.sched.switching = false) (unused : s.used new = false) (number : procGetid max s = some (pid, nextPid)) (tree : TreeInv left (created new pid nextPid k s))
      (fresh : s.sched.exited new = false) (moves : Moves (· = new) s.sched sched) :
      Effect max left s a { created new pid nextPid k s with sched }
  | reaped {pid : ℤ} {q : P} {k : Links (PLink P)} (label : a = .waitpid pid) (child : s.parent q = some s.curproc) (dead : IsDead s q)
      (tree : TreeInv left (disposed q k s)) :
      Effect max left s a { disposed q k s with pc := update s.pc s.curproc .user }
  | asleep {pid : ℤ} {q : P} {xs : List P} (label : a = .waitpid pid) (list : children s.curproc s = some xs)
      (found : xs.find? (wanted pid s) = some q) (running : ¬ IsDead s q) (awake : s.sched.switching = false) :
      Effect max left s a { s with
        sched := s.sched.slept (.pWait s.curproc) .sleep
        pc := update s.pc s.curproc (.waitpid pid) }
  | echild {pid : ℤ} (label : a = .waitpid pid) : Effect max left s a { s with pc := update s.pc s.curproc .user }
  | exited {status : ℤ} {init w : P} {xs : List P} {k : Links (PLink P)} {sched : Sched P (WaitQ P)}
      {left' : P → Prop} (label : a = .exit status) (awake : s.sched.switching = false) (initproc : s.procInitproc = some init)
      (children : ∀ q, q ∈ xs ↔ s.parent q = some s.curproc) (leaves : s.sched.Leaves (.pWait w) sched)
      (parent : (handed init xs k (killed status s)).parent s.curproc = some w)
      (tree : TreeInv left' (handed init xs k (killed status s)))
      (grows : ∀ q, left' q → left q ∨ q = s.curproc ∧ xs ≠ []) :
      Effect max left s a { handed init xs k (killed status s) with
        sched
        pc := update s.pc s.curproc .exited }

/-- The invariant of kernels in which exits are whole. -/
structure KInv (left : P → Prop) (s : Kernel P) : Prop where
  sched : s.sched.Inv
  tree : TreeInv left s
  dead : ∀ p, ∀ r ∈ s.proc p, r.pState = .dead ↔ s.sched.exited p = true
  live : ∀ p, s.sched.started p = true → s.sched.exited p = false → (s.proc p).isSome

omit [DecidableEq P] in
/-- The current process is alive while control is in it. -/
theorem KInv.cur (h : KInv left s) (hs : s.sched.switching = false) :
    ∃ r, s.proc s.curproc = some r ∧ r.pState = .running ∧ s.curproc ∈ s.procList ∧ ¬ left s.curproc := by
  obtain ⟨hst,hx,-⟩ := (h.sched.threads s.curproc).running ⟨hs,rfl⟩
  have hx : s.sched.exited s.curproc = false := by simpa using hx
  obtain ⟨r,hr⟩ := isSome_iff_exists.mp (h.live _ hst hx)
  have hrun : r.pState = .running := by
    have := h.dead s.curproc r hr
    cases hp : r.pState with
    | running => rfl
    | dead => simp [hp,hx] at this
  refine ⟨r,hr,hrun,(h.tree.mem _).mpr (by simp [hr]),h.tree.not_left hr hrun⟩

/-! ### New processes -/

theorem procCreate_eq_some (he : procCreate max new s = some t) :
    ∃ pid nextPid k, procGetid max s = some (pid, nextPid) ∧
      listInsertTail (.children s.curproc) (.child new)
        (listInit (.child new) (listInit (.children new) s.links)) = some k ∧
      t = created new pid nextPid k s := by
  simp only [procCreate,bind_eq_bind,bind_eq_some_iff] at he
  obtain ⟨⟨pid,nextPid⟩,hpid,cur,-,he⟩ := he
  split at he
  · cases he
  · split at he
    · cases he
    · obtain ⟨k,hk,he⟩ := bind_eq_some_iff.mp he
      exact ⟨pid,nextPid,k,hpid,hk,(some.inj he).symm⟩

theorem KInv.created (h : KInv left s) (hs : s.sched.switching = false) (hn : s.used new = false)
    (he : procCreate max new s = some t) :
    ∃ pid nextPid k, procGetid max s = some (pid, nextPid) ∧ t = created new pid nextPid k s ∧
      TreeInv left t := by
  obtain ⟨-,-,-,hcur,hl⟩ := h.cur hs
  obtain ⟨pid,nextPid,k,hpid,hk,rfl⟩ := procCreate_eq_some he
  obtain ⟨k',hk',hnew,hrings⟩ := create_links h.tree hcur hl hn
  cases hk.symm.trans hk'
  exact ⟨pid,nextPid,k,hpid,rfl,h.tree.created hl hcur hn hnew hrings⟩

omit [DecidableEq P] in
theorem KInv.fresh (h : KInv left s) (hn : s.sched.started new = false) : s.sched.exited new = false := by
  have := ((h.sched.threads new).new (by simp [hn])).1
  simpa using this

theorem KInv.create (h : KInv left s) (hs : s.sched.switching = false) (hn : Unused s new)
    (he : procCreate max new s = some t) : Effect max left s (.create new) t := by
  obtain ⟨pid,nextPid,k,hpid,rfl,htree⟩ := h.created hs hn.1 he
  exact .created hs hn.1 hpid htree (h.fresh hn.2) ⟨h.sched,fun p hp => .inl hp,rfl,fun _ => rfl⟩

theorem Moves.start {sched sched' : Sched P (WaitQ P)} (h : sched.Inv) (hs : sched.switching = false)
    (hp : sched.started p = false) (he : sched.schedMakeRunnable p = some sched') : Moves (· = p) sched sched' := by
  obtain ⟨s',he',hi,ha⟩ := h.start hs hp
  cases he.symm.trans he'
  rw [Sched.schedMakeRunnable_eq ((h.threads p).new (by simp [hp])).2.2] at he
  refine ⟨hi,fun q hq => ?_,?_,fun q => (ha (.pWait q)).queue⟩
  · cases he
    by_cases hqp : q = p
    · exact .inr hqp
    · exact .inl (by simpa [hqp] using hq)
  · cases he
    rfl

theorem startThread_eq_some (h : s.sched.Inv) (hs : s.sched.switching = false) (hp : s.sched.started p = false)
    (he : startThread p s = some t) :
    ∃ sched, (s.proc p).isSome ∧ Moves (· = p) s.sched sched ∧ t = { s with sched } := by
  simp only [startThread,bind_eq_bind,bind_eq_some_iff] at he
  obtain ⟨r,hr,sched,hsched,he⟩ := he
  exact ⟨sched,by rw [hr]; rfl,Moves.start h hs hp hsched,(some.inj he).symm⟩

theorem KInv.start (h : KInv left s) (hs : s.sched.switching = false) (hp : s.sched.started p = false)
    (he : startThread p s = some t) : Effect max left s (.start p) t := by
  obtain ⟨sched,hproc,hm,rfl⟩ := startThread_eq_some h.sched hs hp he
  refine .scheduled ⟨hm.inv,fun q hq => (hm.started q hq).imp_right ?_,hm.exited,hm.waiting⟩
  rintro rfl
  exact hproc

theorem doFork_eq_some (h : s.sched.Inv) (hs : s.sched.switching = false) (hn : s.sched.started new = false)
    (he : doFork max new s = some t) :
    ∃ pid nextPid k sched, procCreate max new s = some (created new pid nextPid k s) ∧
      Moves (· = new) s.sched sched ∧ t = { created new pid nextPid k s with sched } := by
  simp only [doFork,bind_eq_bind,bind_eq_some_iff] at he
  obtain ⟨cur,-,he⟩ := he
  split at he
  · cases he
  · simp only [bind_eq_some_iff,startThread,bind_eq_bind] at he
    obtain ⟨s1,hs1,sched1,hclone,r,-,sched2,hstart,he⟩ := he
    cases he
    obtain ⟨pid,nextPid,k,-,-,rfl⟩ := procCreate_eq_some hs1
    obtain ⟨hi,hq,hqueue,hsw⟩ := h.clone hs hn hclone
    have hm := Moves.start hi hsw (by rw [hq.started]; exact hn) hstart
    refine ⟨pid,nextPid,k,sched2,hs1,⟨hm.inv,fun p hp => ?_,hm.exited.trans hq.exited,fun p => ?_⟩,rfl⟩
    · rw [← hq.started]
      exact hm.started p hp
    · rw [hm.waiting p,hqueue]

theorem KInv.fork (h : KInv left s) (hs : s.sched.switching = false) (hn : Unused s new)
    (he : doFork max new s = some t) : Effect max left s (.fork new) t := by
  obtain ⟨pid,nextPid,k,sched,hcreate,hm,rfl⟩ := doFork_eq_some h.sched hs hn.2 he
  obtain ⟨pid',nextPid',k',hpid,heq,htree⟩ := h.created hs hn.1 hcreate
  rw [heq] at htree ⊢
  exact .created hs hn.1 hpid htree (h.fresh hn.2) hm

/-! ### Waiting -/

theorem KInv.children_eq (h : KInv left s) (hs : s.sched.switching = false) :
    ∃ xs, children s.curproc s = some xs ∧ ChildRing s.links s.curproc xs ∧
      ∀ q, q ∈ xs ↔ s.parent q = some s.curproc := by
  obtain ⟨-,-,-,hcur,hl⟩ := h.cur hs
  exact h.tree.children_eq hcur hl

/-- `do_waitpid` returns, and what it does is decided by the first child that is asked for. -/
theorem KInv.waitpid (max : ℤ) (h : KInv left s) (hs : s.sched.switching = false) (pid : ℤ) :
    ∃ xs w, children s.curproc s = some xs ∧ (∀ q, q ∈ xs ↔ s.parent q = some s.curproc) ∧
      doWaitpid pid s = some w ∧ Effect max left s (.waitpid pid) w.2 ∧
      match xs.find? (wanted pid s) with
      | none => w.1 = .echild
      | some q => ∃ r, s.proc q = some r ∧ w.1 = if r.pState = .dead then .reaped q r.pPid r.pStatus else .asleep := by
  obtain ⟨-,-,-,hcur,hl⟩ := h.cur hs
  obtain ⟨xs,hx,hring,hm⟩ := h.children_eq hs
  have heq := h.tree.doWaitpid_eq pid hring hm
  cases hf : xs.find? (wanted pid s) with
  | none =>
    rw [hf] at heq
    exact ⟨xs,_,hx,hm,heq,.echild rfl,by rw [hf]⟩
  | some q =>
    have hq := (hm q).mp (mem_of_find?_eq_some hf)
    obtain ⟨r,hr⟩ := isSome_iff_exists.mp (isSome_of_parent hq)
    rw [hf] at heq
    simp only [hr,bind_some,visit] at heq
    by_cases hd : r.pState = .dead
    · obtain ⟨k,hk,htree⟩ := h.tree.disposed hcur hl hq
      rw [if_pos hd,hk] at heq
      exact ⟨xs,_,hx,hm,heq,.reaped rfl hq ⟨r,hr,hd⟩ htree,by rw [hf]; exact ⟨r,hr,by rw [if_pos hd]⟩⟩
    · rw [if_neg hd,h.sched.sleepOn _ hs] at heq
      refine ⟨xs,_,hx,hm,heq,.asleep rfl hx hf ?_ hs,by rw [hf]; exact ⟨r,hr,by rw [if_neg hd]⟩⟩
      rintro ⟨r',hr',hd'⟩
      cases hr.symm.trans hr'
      exact hd hd'

/-! ### Exit -/

theorem parent_killed (status : ℤ) (q : P) : (killed status s).parent q = s.parent q := by
  unfold parent killed
  by_cases hq : q = s.curproc
  · cases hp : s.proc s.curproc <;> simp [hq,hp]
  · simp [hq]

theorem proc_killed_isSome (status : ℤ) (q : P) : ((killed status s).proc q).isSome = (s.proc q).isSome := by
  unfold killed
  by_cases hq : q = s.curproc
  · simp [hq]
  · simp [hq]

theorem TreeInv.killed (h : TreeInv left s) (status : ℤ) : TreeInv left (killed status s) := by
  refine h.of_same (fun q => ?_) (fun q hd r hr => ?_) rfl rfl rfl rfl
  · simp only [Kernel.killed]
    split <;> simp [comp_def]
  · simp only [Kernel.killed] at hr
    split at hr
    · obtain ⟨r',-,rfl⟩ := map_eq_some_iff.mp hr
      rfl
    · exact hd r hr

variable {init : P}

/-- The first part of an exit, when its assertions hold. -/
theorem exitBegin_eq (status : ℤ) {r : ProcT P} (h : s.sched.Inv) (hs : s.sched.switching = false)
    (hx : MayExit s) (hr : s.proc s.curproc = some r) (hi : s.procInitproc = some init) :
    exitBegin status s = (s.links.next (.children s.curproc)).bind fun first =>
      (reparent init (.children s.curproc) (s.procList.length+1) first (killed status s)).map fun s =>
        { s with pc := update s.pc s.curproc .cleanup } := by
  obtain ⟨hl,-,hpid⟩ := hx
  obtain ⟨hpid,hpar⟩ := hpid r hr
  have hneg : ¬ (r.pPid < 1 ∨ r.pPproc = none) := by
    rintro (hlt | hnone)
    · omega
    · exact hpar hnone
  have hkill : update s.proc s.sched.curthr (some { r with pStatus := status, pState := .dead }) =
      (killed status s).proc := by
    funext q
    by_cases hq : q = s.curproc
    · rw [curproc] at hq hr
      simp [Kernel.killed,curproc,hq,hr]
    · rw [curproc] at hq
      simp [Kernel.killed,curproc,hq]
  have hcur : s.sched.leaving.curthr = s.sched.curthr := rfl
  rw [curproc] at hr
  simp only [exitBegin,curproc,(h.leaving hs hl).1,bind_eq_bind,bind_some,hi,hcur,hr,hneg,
    if_false,modProc,map_some,hkill]
  cases s.links.next (.children s.sched.curthr) with
  | none => rfl
  | some first =>
    simp only [bind_some,map_eq_bind,Kernel.killed,hi]
    rfl

/-- A process hands its children on only if the init process is there. -/
theorem isSome_of_reparent {x : P} {h : PLink P} (hh : ∀ x, h ≠ .child x)
    (he : reparent init h m (.child x) s = some t) : (s.proc init).isSome := by
  cases m with
  | zero => cases he
  | succ m =>
    simp only [reparent,if_neg (hh x).symm,bind_eq_bind,bind_eq_some_iff] at he
    obtain ⟨_,-,r,hr,-⟩ := he
    simp [hr]

/-- The reparenting loop in a kernel whose current process has been marked as dead. -/
theorem TreeInv.reparented (h : TreeInv left s) (hcur : (s.proc s.curproc).isSome)
    (hdead : ∀ r ∈ s.proc s.curproc, r.pState = .dead) (hr : ChildRing s.links s.curproc xs)
    (hx : ∀ q, q ∈ xs ↔ s.parent q = some s.curproc) (hi : s.procInitproc = some init)
    (hne : xs ≠ [] → init ≠ s.curproc) (hm : xs.length < m)
    (he : reparent init (.children s.curproc) m ((xs.map .child).headD (.children s.curproc)) s = some t) :
    ∃ k left', t = Kernel.handed init xs k s ∧ TreeInv left' t ∧
      ∀ q, left' q → left q ∨ q = s.curproc ∧ xs ≠ [] := by
  have hr' : ChildRing s.links s.curproc ([] ++ xs) := hr
  cases hxs : xs with
  | nil =>
    subst hxs
    obtain ⟨m,rfl⟩ := Nat.exists_eq_succ_of_ne_zero (Nat.ne_of_gt hm)
    have ht : t = s := by simpa [Kernel.reparent] using he.symm
    subst ht
    exact ⟨t.links,left,by simp [Kernel.handed],h,fun q hq => .inl hq⟩
  | cons x xs' =>
    have hxne : xs ≠ [] := by simp [hxs]
    have hinit : (s.proc init).isSome := by
      rw [hxs] at he
      exact isSome_of_reparent (h := .children s.curproc) (by rintro _ ⟨⟩) he
    have hil : ¬ left init := fun hl => (h.gone init hl).2.1 hi
    obtain ⟨ys,hry,hy⟩ := h.ring init ((h.mem init).mpr hinit) hil
    have hdis : ∀ q ∈ ys, q ∉ xs := fun q hq hq' => by
      rw [hy] at hq
      rw [hx,hq] at hq'
      exact hne hxne (some.inj hq')
    have hnd : (ys ++ xs).Nodup :=
      nodup_append.mpr ⟨hry.nodup,hr.nodup,fun a ha b hb e => hdis a ha (e ▸ hb)⟩
    obtain ⟨k,hk,hring,hsame⟩ := reparent_eq hry hr'.ahead (by rintro _ ⟨⟩) hnd hinit
      (fun q hq => isSome_of_parent ((hx q).mp hq)) hm
    cases he.symm.trans hk
    rw [← hxs]
    exact ⟨k,_,rfl,h.handed hcur hdead hx hi (hne hxne) hinit hy hring hsame,
      fun q hq => hq.imp_right fun e => ⟨e,hxne⟩⟩

variable {status : ℤ}

/-- A whole exit, of any process but an init process that has children. -/
theorem KInv.exit (h : KInv left s) (hs : s.sched.switching = false) (hx : MayExit s)
    (halone : s.procInitproc = some s.curproc → ∀ q, s.parent q ≠ some s.curproc)
    (he : doExit status s = some t) : Effect max left s (.exit status) t := by
  obtain ⟨r,hr,-,hcur,hl⟩ := h.cur hs
  obtain ⟨init,hi⟩ := ne_none_iff_exists'.mp hx.2.1
  obtain ⟨xs,hring,hm⟩ := h.tree.ring _ hcur hl
  obtain ⟨s1,hs1,he⟩ := bind_eq_some_iff.mp he
  rw [exitBegin_eq status h.sched hs hx hr hi,Ring.next_head hring,bind_some] at hs1
  obtain ⟨s2,hs2,rfl⟩ := map_eq_some_iff.mp hs1
  have hmk : ∀ q, q ∈ xs ↔ (killed status s).parent q = some s.curproc := by
    simpa only [parent_killed] using hm
  have hdead : ∀ r ∈ (killed status s).proc s.curproc, r.pState = .dead := by
    simp [Kernel.killed,hr]
  have hne : xs ≠ [] → init ≠ s.curproc := by
    rintro hxs rfl
    obtain ⟨x,hxm⟩ := exists_mem_of_ne_nil xs hxs
    exact halone hi x ((hm x).mp hxm)
  have hlen := h.tree.length_le hring hm
  have hcur' : ((killed status s).proc s.curproc).isSome := by rw [proc_killed_isSome,hr]; rfl
  obtain ⟨k,left',rfl,htree,hgrows⟩ := (h.tree.killed status).reparented hcur' hdead hring hmk hi hne
    (Nat.lt_succ_of_le hlen) hs2
  simp only [exitEnd,bind_eq_bind,bind_eq_some_iff] at he
  obtain ⟨r',hr',w,hw,_,-,sched,hsched,he⟩ := he
  cases he
  have hpar : (handed init xs k (killed status s)).parent s.curproc = some w := by
    have hr' : (handed init xs k (killed status s)).proc s.curproc = some r' := hr'
    rw [parent,hr',bind_some,hw]
  have hpc : update (update s.pc s.curproc .cleanup) s.curproc .exited =
      update s.pc s.curproc .exited := update_idem ..
  have heff : Effect max left s (.exit status) { handed init xs k (killed status s) with
      sched, pc := update s.pc s.curproc .exited } :=
    .exited rfl hs hi hm (h.sched.leaves hs hx.1 hsched) hpar htree hgrows
  rw [← hpc] at heff
  exact heff

/-! ### The scheduler -/

section Scheduler

variable (ok : P → Prop) {sched sched' : Sched P (WaitQ P)}

theorem Moves.yield (h : sched.Inv) (hs : sched.switching = false) (he : sched.step .yield = some sched') :
    Moves ok sched sched' := by
  have he : (sched.schedMakeRunnable sched.curthr).map Sched.schedSwitch = some sched' := he
  obtain ⟨s',he',hi,ha⟩ := h.yield hs
  have hq := h.quiet_yield hs he
  cases he.symm.trans he'
  exact ⟨hi,fun p hp => .inl (hq.started ▸ hp),hq.exited,fun p => (ha _).queue⟩

theorem Moves.block {w : ℕ} (h : sched.Inv) (hs : sched.switching = false)
    (he : sched.step (.sleepOn (.other w)) = some sched') : Moves ok sched sched' := by
  have he : sched.schedSleepOn (.other w) = some sched' := he
  obtain ⟨hi,ha⟩ := h.sleep (.other w) hs (k := .sleep) (.inl rfl)
  cases he.symm.trans (h.sleepOn _ hs)
  exact ⟨hi,fun p hp => .inl hp,rfl,fun p => (ha (.pWait p) nofun).queue⟩

theorem Moves.wakeup {w : ℕ} (h : sched.Inv) (hw : (sched.queue (.wait (.other w))).tqList ≠ [])
    (he : sched.step (.wakeupOn (.other w)) = some sched') : Moves ok sched sched' := by
  obtain ⟨_,u,-,hu,hwake⟩ := h.wakeup hw
  have hq := h.quiet_moved hu (Kthread.withState .run)
  rw [Sched.step,hwake] at he
  cases he
  exact ⟨h.moved hu _ fun _ => ⟨rfl,rfl⟩,fun p hp => .inl (hq.started ▸ hp),hq.exited,
    fun p => (Sched.Apart.moved (w := .pWait p) h.queues hu (by rintro ⟨⟩) _).queue⟩

/-- The thread that control goes to is on the run queue, so on no other queue. -/
theorem Moves.resume (h : sched.Inv) (hs : sched.switching = true) (hr : (sched.queue .runq).tqList ≠ []) :
    ∃ u, sched.step .resume = some (sched.switched u) ∧ (sched.thr u).ktWchan = some .runq ∧
      Moves ok sched (sched.switched u) := by
  obtain ⟨u,hu,hw,hi⟩ := h.resume hs hr
  refine ⟨u,hu,hw,hi,fun p hp => .inl hp,rfl,fun p => ?_⟩
  have hm : u ∉ (sched.queue (.wait (.pWait p))).tqList := by simp [h.queues.mem,hw]
  simp [Sched.switched,Sched.unlink,erase_of_not_mem hm]

end Scheduler

theorem KInv.resume (max : ℤ) (h : KInv left s) (hs : s.sched.switching = true)
    (hr : (s.sched.queue .runq).tqList ≠ []) :
    ∃ t, schedule .resume s = some t ∧ Effect max left s .resume t ∧ (t.proc t.curproc).isSome := by
  obtain ⟨u,hu,hw,hm⟩ := Moves.resume (fun p => (s.proc p).isSome) h.sched hs hr
  have hst := h.sched.started_of_queued (t := u) (by simp [hw])
  have hx : s.sched.exited u = false := by
    by_contra hx
    simpa [hw] using (h.sched.threads u).gone (by simpa using hx)
  exact ⟨{ s with sched := s.sched.switched u },by rw [schedule,hu]; rfl,.scheduled hm,h.live u hst hx⟩

/-! ### Steps -/

/-- The label is not that of a part of an exit. -/
def Act.whole : Act P → Bool
  | .exitBegin _ | .exitEnd => false
  | _ => true

/-- The init process does not exit while it has children, as `proc_cleanup` asks. -/
def InitAlone (s : Kernel P) : Act P → Prop
  | .exit _ => s.procInitproc = some s.curproc → children s.curproc s = some []
  | _ => True

theorem KInv.effect (h : KInv left s) {a : Act P} (hw : a.whole = true) (ha : Enabled max s a)
    (hi : InitAlone s a) (he : step max s a = some t) : Effect max left s a t := by
  cases a with
  | create new => exact h.create ha.1.1 ha.2.1 he
  | start p => exact h.start ha.1.1 ha.2.1 he
  | fork new => exact h.fork ha.1.1 ha.2.1 he
  | waitpid pid =>
    obtain ⟨xs,w,-,-,hwait,heff,-⟩ := h.waitpid max ha.1 pid
    rw [step,hwait,map_some] at he
    exact some.inj he ▸ heff
  | exit status =>
    refine h.exit ha.1.1 ha.2 (fun hinit q hq => ?_) he
    obtain ⟨xs,hx,-,hm⟩ := h.children_eq ha.1.1
    cases hx.symm.trans (hi hinit)
    exact not_mem_nil ((hm q).mpr hq)
  | exitBegin status => cases hw
  | exitEnd => cases hw
  | yield =>
    obtain ⟨sched,hsched,rfl⟩ := map_eq_some_iff.mp he
    exact .scheduled (.yield _ h.sched ha.1 hsched)
  | block w =>
    obtain ⟨sched,hsched,rfl⟩ := map_eq_some_iff.mp he
    exact .scheduled (.block _ h.sched ha.1 hsched)
  | wakeup w =>
    obtain ⟨sched,hsched,rfl⟩ := map_eq_some_iff.mp he
    exact .scheduled (.wakeup _ h.sched ha hsched)
  | resume =>
    obtain ⟨u,hu,heff,hsome⟩ := h.resume max ha.1 ha.2
    rw [step,hu,bind_some,if_pos hsome] at he
    cases he
    exact heff

/-! ### What every effect keeps -/

/-- After an exit the current process is dead, and the others are what they were. -/
theorem pState_exited {k : Links (PLink P)} {r : ProcT P}
    (hr : (handed init xs k (killed status s)).proc p = some r) :
    ∃ r0, s.proc p = some r0 ∧ r.pState = if p = s.curproc then .dead else r0.pState := by
  have hkilled : ∃ r1, (killed status s).proc p = some r1 ∧ r.pState = r1.pState := by
    simp only [handed] at hr
    split at hr
    · obtain ⟨r1,hr1,rfl⟩ := map_eq_some_iff.mp hr
      exact ⟨r1,hr1,rfl⟩
    · exact ⟨r,hr,rfl⟩
  obtain ⟨r1,hr1,he⟩ := hkilled
  simp only [killed] at hr1
  split at hr1
  next hp =>
    obtain ⟨r0,hr0,rfl⟩ := map_eq_some_iff.mp hr1
    exact ⟨r0,hr0,by rw [he,if_pos hp]⟩
  next hp =>
    exact ⟨r1,hr1,by rw [he,if_neg hp]⟩

theorem proc_exited_isSome {k : Links (PLink P)} (p : P) :
    ((handed init xs k (killed status s)).proc p).isSome = (s.proc p).isSome := by
  have hk := proc_killed_isSome (s := s) status p
  simp only [handed]
  split
  · rw [isSome_map,hk]
  · exact hk

theorem Effect.inv {a : Act P} (h : KInv left s) (he : Effect max left s a t) : ∃ left', KInv left' t ∧
      ∀ q, left' q → left q ∨ (∃ status, a = .exit status) ∧ ∃ z, s.parent z = some s.curproc := by
  cases he with
  | scheduled moves =>
    refine ⟨left,⟨moves.inv,h.tree.of_same (fun _ => rfl) (fun _ hd => hd) rfl rfl rfl rfl,?_,fun p hp hx => ?_⟩,
      fun q => .inl⟩
    · rw [moves.exited]
      exact h.dead
    · rw [moves.exited] at hx
      exact (moves.started p hp).elim (fun hp => h.live p hp hx) id
  | @created new pid _ _ _ _ unused _ tree fresh moves =>
    refine ⟨left,⟨moves.inv,tree.of_same (fun _ => rfl) (fun _ hd => hd) rfl rfl rfl rfl,fun p r hr => ?_,
      fun p hp hx => ?_⟩,fun q => .inl⟩
    · rw [moves.exited]
      by_cases hpn : p = new
      · subst hpn
        have hr : r = ⟨pid,some s.curproc,.running,0⟩ := by simpa [Kernel.created,eq_comm] using hr
        simp [hr,fresh]
      · exact h.dead p r (by simpa [Kernel.created,hpn] using hr)
    · rw [moves.exited] at hx
      by_cases hpn : p = new
      · simp [Kernel.created,hpn]
      · simpa [Kernel.created,hpn] using h.live p ((moves.started p hp).resolve_right hpn) hx
  | @reaped _ q _ _ child dead tree =>
    refine ⟨left,⟨h.sched,tree.of_same (fun _ => rfl) (fun _ hd => hd) rfl rfl rfl rfl,fun p r hr => ?_,
      fun p hp hx => ?_⟩,fun q => .inl⟩
    · have hpq : p ≠ q := by
        rintro rfl
        simp [Kernel.disposed] at hr
      exact h.dead p r (by simpa [Kernel.disposed,hpq] using hr)
    · -- a dead process has no thread that could still run
      have hpq : p ≠ q := by
        rintro rfl
        obtain ⟨r,hr,hd⟩ := dead
        exact Bool.false_ne_true (hx.symm.trans ((h.dead p r hr).mp hd))
      simpa [Kernel.disposed,hpq] using h.live p hp hx
  | asleep _ list found running awake =>
    refine ⟨left,⟨(h.sched.sleep _ awake (.inl rfl)).1,?_,h.dead,h.live⟩,fun q => .inl⟩
    exact h.tree.of_same (fun _ => rfl) (fun _ hd => hd) rfl rfl rfl rfl
  | echild _ =>
    refine ⟨left,⟨h.sched,?_,h.dead,h.live⟩,fun q => .inl⟩
    exact h.tree.of_same (fun _ => rfl) (fun _ hd => hd) rfl rfl rfl rfl
  | @exited status _ _ xs k sched left' label _ initproc children leaves parent tree grows =>
    have hexited : ∀ p, sched.exited p = if p = s.curproc then true else s.sched.exited p := fun p => by
      rw [leaves.exited,update_apply]
      rfl
    refine ⟨left',⟨leaves.inv,tree.of_same (fun _ => rfl) (fun _ hd => hd) rfl rfl rfl rfl,fun p r hr => ?_,
      fun p hp hx => ?_⟩,fun q hq => (grows q hq).imp_right fun hg => ⟨⟨status,label⟩,?_⟩⟩
    · obtain ⟨r0,hr0,hstate⟩ := pState_exited (k := k) hr
      rw [hexited,hstate]
      by_cases hp : p = s.curproc
      · simp [hp]
      · simpa [hp] using h.dead p r0 hr0
    · rw [hexited] at hx
      split at hx
      · cases hx
      · rw [leaves.started] at hp
        exact (proc_exited_isSome (k := k) p).trans (h.live p hp hx)
    · obtain ⟨z,hz⟩ := exists_mem_of_ne_nil xs hg.2
      exact ⟨z,(children z).mp hz⟩

end Csci402.Proc.Kernel
