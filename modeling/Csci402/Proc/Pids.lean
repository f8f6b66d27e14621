import Mathlib.Data.List.Nodup
import Csci402.Proc.Cleanup

/-! Process identifiers. `_proc_getid` goes round the table from `next_pid` on and returns the
first pid that no process on the list has, or -1 when it is back where it began. As long as
a process is made only while the table has room, the pids on the list are different numbers
of the table and `do_fork` returns that of the child. Nobody looks at the -1: `proc_create`
on a full table makes a process with that pid. -/

namespace Csci402.Proc.Kernel

open Lib Function Option List

variable {P : Type} {max : ℤ} {s t : Kernel P} {p q new : P} {a : Act P}

def pidOf (s : Kernel P) (p : P) : Option ℤ := (s.proc p).map ProcT.pPid

/-- A process on the list has the pid. -/
def InUse (s : Kernel P) (pid : ℤ) : Prop := ∃ p ∈ s.procList, s.pidOf p = some pid

variable {pid : ℤ}

theorem isSome_of_pidOf (h : s.pidOf p = some pid) : (s.proc p).isSome := by
  rw [← isSome_map (f := ProcT.pPid)]
  exact isSome_of_eq_some h

/-! ### The search -/

theorem getidFrom_succ (max : ℤ) (s : Kernel P) (n : ℕ) (pid : ℤ) :
    getidFrom max s (n+1) pid = some pid ∧ ¬ InUse s pid ∨
      InUse s pid ∧ getidFrom max s (n+1) pid =
        if (pid+1) % max = s.nextPid then some (-1) else getidFrom max s n ((pid+1) % max) := by
  by_cases h : InUse s pid
  · exact .inr ⟨h,if_pos h⟩
  · exact .inl ⟨if_neg h,h⟩

variable {n : ℕ}

/-- A pid that the search finds is one of the table, and no process has it. -/
theorem getidFrom_free {r : ℤ} (hpid : 0 ≤ pid ∧ pid < max)
    (h : getidFrom max s n pid = some r) : r = -1 ∨ (0 ≤ r ∧ r < max) ∧ ¬ InUse s r := by
  induction n generalizing pid with
  | zero => cases h
  | succ n ih =>
    rcases getidFrom_succ max s n pid with ⟨he,hfree⟩ | ⟨-,he⟩
    · cases h.symm.trans he
      exact .inr ⟨hpid,hfree⟩
    · rw [he] at h
      split at h
      · cases h
        exact .inl rfl
      · exact ih ⟨Int.emod_nonneg _ (by omega),Int.emod_lt_of_pos _ (by omega)⟩ h

/-- The pids that are reached from `i` in fewer steps than lead back to `i` are all there are. -/
theorem covers_of_return {i : ℤ} {d : ℕ} {Q : ℤ → Prop} (hi : 0 ≤ i ∧ i < max) (hd : 0 < d)
    (hback : (i+d) % max = i) (hQ : ∀ j : ℕ, j < d → Q ((i+j) % max)) {x : ℤ} (hx : 0 ≤ x ∧ x < max) : Q x := by
  have hpos : 0 < max := by omega
  have hmod : (i+d) % max = i % max := by rw [hback,Int.emod_eq_of_lt hi.1 hi.2]
  have hdvd : max ∣ (d : ℤ) := by
    have hsub := Int.emod_eq_emod_iff_emod_sub_eq_zero.mp hmod
    rw [show i+(d : ℤ) - i = d by omega] at hsub
    exact Int.dvd_of_emod_eq_zero hsub
  have hle : max ≤ d := Int.le_of_dvd (by omega) hdvd
  -- the distance from `i` to `x` round the table
  have h0 := Int.emod_nonneg (x - i) (Int.ne_of_gt hpos)
  have h1 := Int.emod_lt_of_pos (x - i) hpos
  have hj := hQ ((x - i) % max).toNat (by omega)
  rwa [Int.toNat_of_nonneg h0,Int.add_emod_emod,show i+(x - i) = x by omega,
    Int.emod_eq_of_lt hx.1 hx.2] at hj

/-- The search gives up only when it has found every pid of the table in use; `d` of them have
been tried. -/
theorem getidFrom_exhausted {d : ℕ} (hnext : 0 ≤ s.nextPid ∧ s.nextPid < max)
    (htried : ∀ j : ℕ, j < d → InUse s ((s.nextPid+j) % max))
    (h : getidFrom max s n ((s.nextPid+d) % max) = some (-1)) (hpid : 0 ≤ pid ∧ pid < max) : InUse s pid := by
  induction n generalizing d with
  | zero => cases h
  | succ n ih =>
    rcases getidFrom_succ max s n ((s.nextPid+d) % max) with ⟨he,-⟩ | ⟨huse,he⟩
    · have hpos := Int.emod_nonneg (s.nextPid+d) (show max ≠ 0 by omega)
      have hneg := some.inj (h.symm.trans he)
      omega
    · have htried' : ∀ j : ℕ, j < d+1 → InUse s ((s.nextPid+j) % max) := fun j hj => by
        rcases Nat.lt_succ_iff_lt_or_eq.mp hj with hj | rfl
        · exact htried j hj
        · exact huse
      have hround : ((s.nextPid+d) % max+1) % max = (s.nextPid+(d+1 : ℕ)) % max := by
        rw [Int.emod_add_emod]
        congr 1
        omega
      rw [he,hround] at h
      split at h
      next hback =>
        exact covers_of_return hnext d.succ_pos hback htried' hpid
      · exact ih htried' h

variable {nextPid : ℤ}

/-- What `_proc_getid` returns: a pid of the table that is free, or -1 when there is none. -/
theorem procGetid_cases (hnext : 0 ≤ s.nextPid ∧ s.nextPid < max) (h : procGetid max s = some (pid, nextPid)) :
    (0 ≤ pid ∧ pid < max) ∧ ¬ InUse s pid ∨ pid = -1 ∧ ∀ x, 0 ≤ x ∧ x < max → InUse s x := by
  obtain ⟨r,hr,he⟩ := map_eq_some_iff.mp h
  cases he
  rcases getidFrom_free hnext hr with rfl | hfree
  · refine .inr ⟨rfl,fun x hx => ?_⟩
    have hstart : getidFrom max s max.toNat ((s.nextPid+(0 : ℕ)) % max) = some (-1) := by
      rwa [show s.nextPid+(0 : ℕ) = s.nextPid by omega,Int.emod_eq_of_lt hnext.1 hnext.2]
    exact getidFrom_exhausted hnext (fun j hj => absurd hj j.not_lt_zero) hstart hx
  · exact .inl hfree

/-- The pids of the table. -/
def table (max : ℤ) : List (Option ℤ) := (List.range max.toNat).map fun i : ℕ => some (i : ℤ)

theorem table_nodup : (table max).Nodup := by
  refine nodup_range.map fun i j hij => ?_
  exact Int.ofNat.inj (some.inj hij)

theorem mem_table {x : Option ℤ} : x ∈ table max ↔ ∃ n : ℤ, x = some n ∧ 0 ≤ n ∧ n < max := by
  simp only [table,List.mem_map,mem_range]
  constructor
  · rintro ⟨i,hi,rfl⟩
    exact ⟨i,rfl,by omega,by omega⟩
  · rintro ⟨n,rfl,h0,h1⟩
    exact ⟨n.toNat,by omega,by rw [Int.toNat_of_nonneg h0]⟩

theorem table_length : (table max).length = max.toNat := by
  rw [table,length_map,length_range]

/-- When every pid is in use there are as many processes as pids. -/
theorem le_length_of_inUse (h : ∀ x, 0 ≤ x ∧ x < max → InUse s x) : max ≤ s.procList.length := by
  have hsub : table max ⊆ s.procList.map s.pidOf := by
    intro x hx
    obtain ⟨n,rfl,hn⟩ := mem_table.mp hx
    obtain ⟨p,hp,hpid⟩ := h n hn
    exact List.mem_map.mpr ⟨p,hp,hpid⟩
  have hle := (subperm_of_subset table_nodup hsub).length_le
  rw [table_length,length_map] at hle
  omega

/-! ### The invariant -/

structure PidInv (max : ℤ) (s : Kernel P) : Prop where
  next : 0 ≤ s.nextPid ∧ s.nextPid < max
  nodup : (s.procList.map s.pidOf).Nodup
  range : ∀ p ∈ s.procList, ∃ n, s.pidOf p = some n ∧ 0 ≤ n ∧ n < max
  used : ∀ p, (s.proc p).isSome → s.used p = true
  heads : ∀ p, (s.proc p).isSome → (s.links.prev (.children p)).isSome

theorem PidInv.subset (h : PidInv max s) : s.procList.map s.pidOf ⊆ table max := by
  intro x hx
  obtain ⟨p,hp,rfl⟩ := List.mem_map.mp hx
  exact mem_table.mpr (h.range p hp)

theorem PidInv.unlisted (h : PidInv max s) (hn : s.used new = false) : new ∉ s.procList := by
  intro hm
  obtain ⟨n,hn',-⟩ := h.range new hm
  have := h.used new (isSome_of_pidOf hn')
  rw [hn] at this
  cases this

theorem PidInv.injective (h : PidInv max s) (hp : p ∈ s.procList) (hq : q ∈ s.procList)
    (he : s.pidOf p = s.pidOf q) : p = q :=
  inj_on_of_nodup_map h.nodup hp hq he

/-- When there are as many processes as pids, every pid is in use. -/
theorem PidInv.inUse_of_full (h : PidInv max s) (hfull : max ≤ s.procList.length)
    (hpid : 0 ≤ pid ∧ pid < max) : InUse s pid := by
  by_contra hfree
  have hnd : (some pid :: s.procList.map s.pidOf).Nodup := by
    refine nodup_cons.mpr ⟨fun hm => ?_,h.nodup⟩
    obtain ⟨p,hp,he⟩ := List.mem_map.mp hm
    exact hfree ⟨p,hp,he⟩
  have hsub : some pid :: s.procList.map s.pidOf ⊆ table max :=
    cons_subset.mpr ⟨mem_table.mpr ⟨pid,rfl,hpid⟩,h.subset⟩
  have hle := (subperm_of_subset hnd hsub).length_le
  rw [length_cons,length_map,table_length] at hle
  omega

theorem PidInv.getid_room (h : PidInv max s) (hroom : s.procList.length < max)
    (hg : procGetid max s = some (pid, nextPid)) : (0 ≤ pid ∧ pid < max) ∧ ¬ InUse s pid := by
  rcases procGetid_cases h.next hg with hfree | ⟨-,hall⟩
  · exact hfree
  · have := le_length_of_inUse hall
    omega

/-! ### Steps -/

/-- The heads of lists that are linked in stay so. -/
def KeepsHeads (k k' : Links (PLink P)) : Prop :=
  ∀ p, (k.prev (.children p)).isSome → (k'.prev (.children p)).isSome

/-- The processes on the list and their pids stay as they are. -/
structure KeepsPids (s t : Kernel P) : Prop where
  list : t.procList = s.procList
  next : t.nextPid = s.nextPid
  pid : ∀ p, t.pidOf p = s.pidOf p
  used : t.used = s.used
  heads : KeepsHeads s.links t.links

theorem KeepsPids.of_eq (hproc : t.proc = s.proc) (hlist : t.procList = s.procList) (hnext : t.nextPid = s.nextPid)
    (hused : t.used = s.used) (hlinks : t.links = s.links) : KeepsPids s t :=
  ⟨hlist,hnext,fun p => by rw [pidOf,pidOf,hproc],hused,fun p hp => by rwa [hlinks]⟩

theorem KeepsPids.trans {u : Kernel P} (h : KeepsPids s t) (h' : KeepsPids t u) : KeepsPids s u :=
  ⟨h'.list.trans h.list,h'.next.trans h.next,fun p => (h'.pid p).trans (h.pid p),h'.used.trans h.used,
    fun p hp => h'.heads p (h.heads p hp)⟩

variable [DecidableEq P]

theorem KeepsHeads.listInit (h : PLink P) (k : Links (PLink P)) : KeepsHeads k (listInit h k) := by
  intro p hp
  by_cases hh : PLink.children p = h
  · simp [Kernel.listInit,hh]
  · simpa [Kernel.listInit,hh] using hp

variable {k : Links (PLink P)}

theorem KeepsHeads.insertTail {h n : PLink P} {k' : Links (PLink P)} (he : listInsertTail h n k = some k') :
    KeepsHeads k k' := by
  obtain ⟨last,-,rfl⟩ := map_eq_some_iff.mp he
  intro p hp
  by_cases hh : PLink.children p = h
  · simp [Links.insert,hh]
  · by_cases hn : PLink.children p = n
    · simp [Links.insert,hn,update_apply]
      split <;> rfl
    · rwa [Links.insert_prev_of_ne hn hh]

theorem KeepsHeads.remove {k' : Links (PLink P)} (he : listRemove (.child q) k = some k') : KeepsHeads k k' := by
  simp only [listRemove,bind_eq_bind,bind_eq_some_iff] at he
  obtain ⟨a,-,b,-,he⟩ := he
  cases he
  intro p hp
  by_cases hb : PLink.children p = b
  · have hne : b ≠ .child q := by
      rintro rfl
      cases hb
    simp [Links.remove,hb,hne]
  · rwa [Links.remove_prev_of_ne (by rintro ⟨⟩) hb]

theorem modProc_pids {f : ProcT P → ProcT P} (hf : ∀ r, (f r).pPid = r.pPid) (he : modProc q f s = some t) :
    KeepsPids s t := by
  obtain ⟨r,hr,rfl⟩ := map_eq_some_iff.mp he
  refine ⟨rfl,rfl,fun p => ?_,rfl,fun _ => id⟩
  by_cases hp : p = q
  · subst hp
    simp [pidOf,hr,hf]
  · simp [pidOf,hp]

theorem reparent_pids {init : P} {h link : PLink P} (he : reparent init h n link s = some t) : KeepsPids s t := by
  induction n generalizing link s with
  | zero => cases he
  | succ n ih =>
    simp only [reparent] at he
    split at he
    · cases he
      exact .of_eq rfl rfl rfl rfl rfl
    · cases link with
      | children p => cases he
      | child x =>
        simp only [bind_eq_bind,bind_eq_some_iff] at he
        obtain ⟨next,-,_,-,k,hk,s1,hs1,he⟩ := he
        have hlinks : KeepsPids s { s with links := k } := ⟨rfl,rfl,fun _ => rfl,rfl,.insertTail hk⟩
        exact (hlinks.trans (modProc_pids (by intro; rfl) hs1)).trans (ih he)

theorem exitBegin_pids {status : ℤ} (he : exitBegin status s = some t) : KeepsPids s t := by
  simp only [exitBegin,bind_eq_bind,bind_eq_some_iff] at he
  obtain ⟨sched,-,init,-,r,-,he⟩ := he
  split at he
  · cases he
  · simp only [bind_eq_some_iff] at he
    obtain ⟨s1,hs1,first,-,s2,hs2,he⟩ := he
    cases he
    have hsched : KeepsPids s { s with sched } := .of_eq rfl rfl rfl rfl rfl
    have hdead := modProc_pids (by intro; rfl) hs1
    exact ((hsched.trans hdead).trans (reparent_pids hs2)).trans (.of_eq rfl rfl rfl rfl rfl)

theorem exitEnd_pids (he : exitEnd s = some t) : KeepsPids s t := by
  simp only [exitEnd,bind_eq_bind,bind_eq_some_iff] at he
  obtain ⟨r,-,w,-,_,-,sched,-,he⟩ := he
  cases he
  exact .of_eq rfl rfl rfl rfl rfl

/-- What a step can do to the list of processes. -/
inductive Renumbers (max : ℤ) (s : Kernel P) (a : Act P) : Kernel P → Prop
  | kept {t : Kernel P} (keeps : KeepsPids s t) : Renumbers max s a t
  | created {new : P} {pid nextPid : ℤ} {k : Links (PLink P)} {sched : Sched P (WaitQ P)}
      (label : a = .create new ∨ a = .fork new) (unused : s.used new = false)
      (number : procGetid max s = some (pid, nextPid)) (heads : KeepsHeads s.links k)
      (head : (k.prev (.children new)).isSome) : Renumbers max s a { created new pid nextPid k s with sched }
  | disposed {q : P} {k : Links (PLink P)} {pc : P → Pc} (heads : KeepsHeads s.links k) :
      Renumbers max s a { disposed q k s with pc }

theorem Renumbers.create {sched : Sched P (WaitQ P)}
    (label : a = .create new ∨ a = .fork new) (hn : s.used new = false)
    (he : procCreate max new s = some (Kernel.created new pid nextPid k s)) :
    Renumbers max s a { Kernel.created new pid nextPid k s with sched } := by
  obtain ⟨pid',nextPid',k',hg,hk,heq⟩ := procCreate_eq_some he
  rw [heq]
  have hinsert := KeepsHeads.insertTail hk
  refine .created label hn hg (fun p hp => hinsert p ?_) (hinsert new ?_)
  · exact KeepsHeads.listInit _ _ p (KeepsHeads.listInit _ _ p hp)
  · exact KeepsHeads.listInit _ _ new (by simp [listInit])

theorem Renumbers.waitpid {w : Waited P × Kernel P} (he : doWaitpid pid s = some w) : Renumbers max s a w.2 := by
  obtain ⟨first,-,he⟩ := bind_eq_some_iff.mp he
  rcases waitFrom_cases he with rfl | ⟨q,r,-,-,hv⟩
  · exact .kept (.of_eq rfl rfl rfl rfl rfl)
  · rw [visit] at hv
    split at hv
    · simp only [dispose,bind_eq_bind,bind_eq_some_iff] at hv
      obtain ⟨s1,⟨k,hk,hs1⟩,hv⟩ := hv
      cases hs1
      cases hv
      exact .disposed (.remove hk)
    · obtain ⟨sched,-,hv⟩ := bind_eq_some_iff.mp hv
      cases hv
      exact .kept (.of_eq rfl rfl rfl rfl rfl)

theorem Renumbers.schedule {c : Sched.Call P (WaitQ P)} (he : schedule c s = some t) : Renumbers max s a t := by
  obtain ⟨sched,-,rfl⟩ := map_eq_some_iff.mp he
  exact .kept (.of_eq rfl rfl rfl rfl rfl)

theorem CInv.renumbers (h : CInv s) (ha : Enabled max s a) (he : Kernel.step max s a = some t) : Renumbers max s a t := by
  cases a with
  | create new =>
    obtain ⟨pid,nextPid,k,-,-,rfl⟩ := procCreate_eq_some he
    exact .create (.inl rfl) ha.2.1.1 he
  | start p =>
    obtain ⟨sched,-,-,rfl⟩ := startThread_eq_some h.sched ha.1.1 ha.2.1 he
    exact .kept (.of_eq rfl rfl rfl rfl rfl)
  | fork new =>
    obtain ⟨pid,nextPid,k,sched,hc,-,rfl⟩ := doFork_eq_some h.sched ha.1.1 ha.2.1.2 he
    exact .create (.inr rfl) ha.2.1.1 hc
  | waitpid pid =>
    obtain ⟨w,hw,rfl⟩ := map_eq_some_iff.mp he
    exact .waitpid hw
  | exit status =>
    obtain ⟨s1,hs1,hend⟩ := bind_eq_some_iff.mp he
    exact .kept ((exitBegin_pids hs1).trans (exitEnd_pids hend))
  | exitBegin status => exact .kept (exitBegin_pids he)
  | exitEnd => exact .kept (exitEnd_pids he)
  | yield | block w | wakeup w => exact .schedule he
  | resume =>
    obtain ⟨s1,hs1,he⟩ := bind_eq_some_iff.mp he
    split at he
    · cases he
      exact .schedule hs1
    · cases he

omit [DecidableEq P] in
theorem PidInv.kept (h : PidInv max s) (hk : KeepsPids s t) : PidInv max t := by
  have hpid : t.pidOf = s.pidOf := funext hk.pid
  have hsome : ∀ p, (t.proc p).isSome → (s.proc p).isSome := fun p hp => by
    have := congrArg Option.isSome (hk.pid p)
    rw [pidOf,pidOf,isSome_map,isSome_map] at this
    rwa [← this]
  refine ⟨hk.next ▸ h.next,?_,?_,fun p hp => ?_,fun p hp => ?_⟩
  · rw [hk.list,hpid]
    exact h.nodup
  · rw [hk.list,hpid]
    exact h.range
  · rw [hk.used]
    exact h.used p (hsome p hp)
  · exact hk.heads p (h.heads p (hsome p hp))

theorem pidOf_created (pid nextPid : ℤ) (k : Links (PLink P)) (p : P) :
    (created new pid nextPid k s).pidOf p = if p = new then some pid else s.pidOf p := by
  unfold pidOf created
  by_cases hp : p = new
  · simp [hp]
  · simp [hp]

theorem map_pidOf_created (pid nextPid : ℤ) (k : Links (PLink P)) (hn : new ∉ s.procList) :
    (created new pid nextPid k s).procList.map (created new pid nextPid k s).pidOf =
      s.procList.map s.pidOf ++ [some pid] := by
  have hold : s.procList.map (created new pid nextPid k s).pidOf = s.procList.map s.pidOf := by
    refine map_congr_left fun p hp => ?_
    rw [pidOf_created,if_neg]
    rintro rfl
    exact hn hp
  have hlist : (created new pid nextPid k s).procList = s.procList ++ [new] := rfl
  rw [hlist,map_append,hold,map_singleton,pidOf_created,if_pos rfl]

theorem PidInv.created {sched : Sched P (WaitQ P)} (h : PidInv max s)
    (hn : s.used new = false) (hg : procGetid max s = some (pid, nextPid)) (hroom : s.procList.length < max)
    (hk : KeepsHeads s.links k) (hnew : (k.prev (.children new)).isSome) :
    PidInv max { Kernel.created new pid nextPid k s with sched } := by
  have hnew' := h.unlisted hn
  obtain ⟨hpid,hfree⟩ := h.getid_room hroom hg
  have hsome : ∀ p, p ≠ new → ((Kernel.created new pid nextPid k s).proc p).isSome → (s.proc p).isSome :=
    fun p hp hs => by simpa [Kernel.created,hp] using hs
  refine ⟨nextPid_range h.next hg,?_,fun p hp => ?_,fun p hp => ?_,fun p hp => ?_⟩
  · have hmap := map_pidOf_created pid nextPid k hnew'
    have hnd : (s.procList.map s.pidOf ++ [some pid]).Nodup := by
      refine nodup_append.mpr ⟨h.nodup,nodup_singleton _,fun x hx y hy hxy => hfree ?_⟩
      obtain ⟨p,hp,hpp⟩ := List.mem_map.mp hx
      exact ⟨p,hp,by rw [hpp,hxy,mem_singleton.mp hy]⟩
    rw [← hmap] at hnd
    exact hnd
  · have hpid' : (Kernel.created new pid nextPid k s).pidOf p = _ := pidOf_created pid nextPid k p
    rcases mem_append.mp (show p ∈ s.procList ++ [new] from hp) with hm | hm
    · obtain ⟨n,hn',hr⟩ := h.range p hm
      have hpn : p ≠ new := fun e => hnew' (e ▸ hm)
      rw [if_neg hpn] at hpid'
      exact ⟨n,hpid'.trans hn',hr⟩
    · rw [if_pos (mem_singleton.mp hm)] at hpid'
      exact ⟨pid,hpid',hpid⟩
  · by_cases hpn : p = new
    · simp [Kernel.created,hpn]
    · simpa [Kernel.created,hpn] using h.used p (hsome p hpn hp)
  · by_cases hpn : p = new
    · subst hpn
      exact hnew
    · exact hk p (h.heads p (hsome p hpn hp))

theorem PidInv.disposed {pc : P → Pc} (h : PidInv max s) (hk : KeepsHeads s.links k) :
    PidInv max { Kernel.disposed q k s with pc } := by
  have hnd : s.procList.Nodup := List.Nodup.of_map _ h.nodup
  have hpid : ∀ p ∈ s.procList.erase q, (Kernel.disposed q k s).pidOf p = s.pidOf p := fun p hp => by
    have hpq : p ≠ q := (hnd.mem_erase_iff.mp hp).1
    simp [pidOf,Kernel.disposed,hpq]
  have hsome : ∀ p, ((Kernel.disposed q k s).proc p).isSome → (s.proc p).isSome := fun p hp => by
    by_cases hpq : p = q
    · simp [Kernel.disposed,hpq] at hp
    · simpa [Kernel.disposed,hpq] using hp
  refine ⟨h.next,?_,fun p hp => ?_,fun p hp => h.used p (hsome p hp),
    fun p hp => hk p (h.heads p (hsome p hp))⟩
  · have hmap : (s.procList.erase q).map (Kernel.disposed q k s).pidOf = (s.procList.erase q).map s.pidOf :=
      map_congr_left hpid
    have hsub : ((s.procList.erase q).map s.pidOf).Nodup :=
      h.nodup.sublist (erase_sublist.map _)
    rw [← hmap] at hsub
    exact hsub
  · obtain ⟨n,hn,hr⟩ := h.range p (mem_of_mem_erase hp)
    exact ⟨n,(hpid p hp).trans hn,hr⟩

/-- A process is made only when the table has room for it. -/
def HasRoom (max : ℤ) (s : Kernel P) : Act P → Prop
  | .create _ | .fork _ => s.procList.length < max
  | _ => True

def RoomRun (max : ℤ) (s : Kernel P) (a : Act P) : Prop := Enabled max s a ∧ HasRoom max s a

theorem PidInv.step (h : PidInv max s) (hc : CInv s) (ha : RoomRun max s a)
    (he : Kernel.step max s a = some t) : PidInv max t := by
  cases hc.renumbers ha.1 he with
  | kept keeps => exact h.kept keeps
  | created label unused number heads head =>
    refine h.created unused number ?_ heads head
    rcases label with rfl | rfl <;> exact ha.2
  | disposed heads => exact h.disposed heads

theorem Initial.pidInv (h : Initial max s) : PidInv max s := by
  have hidle : s.pidOf s.curproc = some 0 := by rw [pidOf,h.idle]; rfl
  have hcur : ∀ p, (s.proc p).isSome → p = s.curproc := fun p hp => by
    by_contra hne
    simp [h.others p hne] at hp
  refine ⟨h.pids,by simp [h.list],fun p hp => ?_,fun p hp => ?_,fun p hp => ?_⟩
  · rw [h.list,mem_singleton] at hp
    have := h.pids
    exact ⟨0,by rw [hp,hidle],by omega,by omega⟩
  · rw [hcur p hp]
    exact h.used
  · rw [hcur p hp,Ring.prev_head h.links]
    rfl

/-! ### Forks -/

/-- What `do_fork` returns: the pid that the child got. -/
def doForkPid (procMaxCount : ℤ) (new : P) (s : Kernel P) : Option (ℤ × Kernel P) := do
  let s ← doFork procMaxCount new s
  let child ← s.proc new
  return (child.pPid, s)

/-- `sys_fork`: its result, the `kt_errno` that it stores, and the state. -/
def sysFork (procMaxCount : ℤ) (new : P) (s : Kernel P) : Option (ℤ × Option ℤ × Kernel P) := do
  let (ret, s) ← doForkPid procMaxCount new s
  return if ret < 0 then (-1, some (-ret), s) else (ret, none, s)

theorem PidInv.procCreate_isSome {r : ProcT P} (h : PidInv max s) (hr : s.proc s.curproc = some r)
    (hpid : PidOk max s) : (procCreate max new s).isSome := by
  obtain ⟨⟨pid,nextPid⟩,hg⟩ := isSome_iff_exists.mp (procGetid_isSome h.next)
  have hhead := h.heads s.curproc (by rw [hr]; rfl)
  obtain ⟨last,hlast⟩ := isSome_iff_exists.mp
    (KeepsHeads.listInit (.child new) _ _ (KeepsHeads.listInit (.children new) _ _ hhead))
  obtain ⟨hidle,hinit⟩ := hpid _ hg r hr
  have h₁ : ¬ (pid = 0 ∧ s.procList ≠ []) := fun hc => hc.2 (hidle hc.1)
  have h2 : ¬ (pid = 1 ∧ r.pPid ≠ 0) := fun hc => hc.2 (hinit hc.1)
  simp only [procCreate,hg,hr,bind_eq_bind,bind_some,if_neg h₁,if_neg h2,listInsertTail,
    hlast,map_some]
  rfl

/-- What a fork that returns has done. -/
theorem doForkPid_eq (hs : s.sched.Inv) (ha : Enabled max s (.fork new)) (he : doFork max new s = some t) :
    ∃ pid nextPid, procGetid max s = some (pid, nextPid) ∧ doForkPid max new s = some (pid, t) ∧
      t.procList = s.procList ++ [new] ∧ t.parent new = some s.curproc ∧
      ∀ p, t.pidOf p = if p = new then some pid else s.pidOf p := by
  obtain ⟨pid,nextPid,k,sched,hc,-,rfl⟩ := doFork_eq_some hs ha.1.1 ha.2.1.2 he
  obtain ⟨pid',nextPid',k',hg,-,heq⟩ := procCreate_eq_some hc
  rw [heq] at he ⊢
  refine ⟨pid',nextPid',hg,?_,rfl,?_,fun p => ?_⟩
  · simp [doForkPid,he,created]
  · exact (parent_created pid' nextPid' k' new).trans (if_pos rfl)
  · exact pidOf_created pid' nextPid' k' p

theorem PidInv.fork {r : ProcT P} (h : PidInv max s) (hs : s.sched.Inv) (ha : RoomRun max s (.fork new))
    (hr : s.proc s.curproc = some r) (hrun : r.pState = .running) :
    ∃ pid t, doForkPid max new s = some (pid, t) ∧ sysFork max new s = some (pid, none, t) ∧
      (0 ≤ pid ∧ pid < max) ∧ new ∉ s.procList ∧ t.procList = s.procList ++ [new] ∧
      t.parent new = some s.curproc ∧ ∀ p ∈ t.procList, t.pidOf p = some pid ↔ p = new := by
  obtain ⟨⟨huser,hunused,hok,hstate⟩,hroom⟩ := ha
  obtain ⟨t,ht⟩ := isSome_iff_exists.mp
    (doFork_isSome hs huser.1 hunused.2 hr hrun hstate (h.procCreate_isSome hr hok))
  obtain ⟨pid,nextPid,hg,hpid,hlist,hparent,hpids⟩ := doForkPid_eq hs ⟨huser,hunused,hok,hstate⟩ ht
  obtain ⟨hrange,hfree⟩ := h.getid_room hroom hg
  refine ⟨pid,t,hpid,?_,hrange,h.unlisted hunused.1,hlist,hparent,fun p hp => ?_⟩
  · have hneg : ¬ pid < 0 := by omega
    simp [sysFork,hpid,hneg]
  · rw [hpids]
    by_cases hpn : p = new
    · simp [hpn]
    · -- no other process has the number
      rw [hlist,mem_append,mem_singleton] at hp
      rw [if_neg hpn]
      exact ⟨fun he => absurd ⟨p,hp.resolve_right hpn,he⟩ hfree,fun he => absurd he hpn⟩

/-! ### Runs -/

theorem Renumbers.next (hnext : 0 ≤ s.nextPid ∧ s.nextPid < max) (h : Renumbers max s a t) :
    0 ≤ t.nextPid ∧ t.nextPid < max := by
  cases h with
  | kept keeps =>
    rw [keeps.next]
    exact hnext
  | created label unused number heads head => exact nextPid_range hnext number
  | disposed heads => exact hnext

theorem next_of_exec {s0 : Kernel P} {as : List (Act P)} (h₀ : Initial max s0)
    (h : Exec (step max) (Enabled max) s0 as s) : CInv s ∧ 0 ≤ s.nextPid ∧ s.nextPid < max := by
  induction h with
  | nil => exact ⟨h₀.cinv,h₀.pids⟩
  | snoc _ ha hst ih => exact ⟨ih.1.step ha hst,(ih.1.renumbers ha hst).next ih.2⟩

theorem pidInv_of_exec {s0 : Kernel P} {as : List (Act P)} (h₀ : Initial max s0)
    (h : Exec (step max) (RoomRun max) s0 as s) : CInv s ∧ PidInv max s := by
  induction h with
  | nil => exact ⟨h₀.cinv,h₀.pidInv⟩
  | snoc _ ha hst ih => exact ⟨ih.1.step ha.1 hst,ih.2.step ih.1 ha hst⟩

/-- The search for a pid ends in every run. In a run that makes no process while the table is
full, the pids on the list are different numbers of the table, and a fork by a process that
runs returns the pid of the child, which no other process has. -/
theorem pids_unique {s0 : Kernel P} {as : List (Act P)} (h₀ : Initial max s0)
    (h : Exec (step max) (Enabled max) s0 as s) : (procGetid max s).isSome ∧
      (Exec (step max) (RoomRun max) s0 as s →
        s.procList.Nodup ∧
        (∀ p ∈ s.procList, ∃ pid, s.pidOf p = some pid ∧ 0 ≤ pid ∧ pid < max) ∧
        (∀ p ∈ s.procList, ∀ q ∈ s.procList, s.pidOf p = s.pidOf q → p = q) ∧
        ∀ new r, RoomRun max s (.fork new) → s.proc s.curproc = some r → r.pState = .running →
          ∃ pid t, doForkPid max new s = some (pid, t) ∧ sysFork max new s = some (pid, none, t) ∧
            (0 ≤ pid ∧ pid < max) ∧ new ∉ s.procList ∧ t.procList = s.procList ++ [new] ∧
            t.parent new = some s.curproc ∧ ∀ p ∈ t.procList, t.pidOf p = some pid ↔ p = new) := by
  refine ⟨procGetid_isSome (next_of_exec h₀ h).2,fun hroom => ?_⟩
  obtain ⟨hc,hinv⟩ := pidInv_of_exec h₀ hroom
  exact ⟨List.Nodup.of_map _ hinv.nodup,hinv.range,fun p hp q hq => hinv.injective hp hq,
    fun new r ha hr hrun => hinv.fork hc.sched ha hr hrun⟩

instance (max : ℤ) (s : Kernel P) : ∀ a : Act P, Decidable (HasRoom max s a) := by
  rintro ⟨⟩ <;> unfold HasRoom <;> infer_instance

instance (max : ℤ) (s : Kernel P) (a : Act P) : Decidable (RoomRun max s a) := inferInstanceAs (Decidable (_ ∧ _))

/-- In a table of three `next_pid` has come round before the last fork. -/
theorem pids_unique_childlessActs : ∃ s pid t, Exec (step 3) (RoomRun 3) bootKernel childlessActs s ∧
    doForkPid 3 3 s = some (pid, t) ∧ t.procList = [0,1,3] ∧ ∀ p ∈ t.procList, t.pidOf p = some pid ↔ p = 3 := by
  obtain ⟨s,r,h,hlist,ha,hr,hrun⟩ : ∃ s r, Exec (step 3) (RoomRun 3) bootKernel childlessActs s ∧
      s.procList = [0,1] ∧ RoomRun 3 s (.fork 3) ∧ s.proc s.curproc = some r ∧ r.pState = .running := by
    have h : Exec (step 3) (RoomRun 3) bootKernel childlessActs _ := Exec.ofRun rfl
    exact ⟨_,_,h,rfl,by decide,rfl,rfl⟩
  obtain ⟨-,-,-,hfork⟩ := (pids_unique (bootWith_initial 0 (by decide)) (h.weaken fun _ _ _ => And.left)).2 h
  obtain ⟨pid,t,hpid,-,-,-,hlist',-,hall⟩ := hfork 3 r ha hr hrun
  exact ⟨s,pid,t,h,hpid,by rw [hlist',hlist]; rfl,hall⟩

/-! ### A full table -/

/-- A process that can fork: there are `n` processes, and the names from `n` on are free. -/
structure Forking (n : ℕ) (s : Kernel ℕ) : Prop where
  user : InUser s
  thread : (s.sched.thr s.curproc).ktState = .run
  caller : s.curproc < n
  length : s.procList.length = n
  free : ∀ p, n ≤ p → Unused s p
  idle : InUse s 0
  init : InUse s 1

theorem Forking.enabled {s : Kernel ℕ} (h : Forking n s) (hnext : 0 ≤ s.nextPid ∧ s.nextPid < max) :
    Enabled max s (.fork n) := by
  refine ⟨h.user,h.free n (Nat.le_refl n),fun r hr cur _ => ?_,h.thread⟩
  have hne : r.1 ≠ 0 ∧ r.1 ≠ 1 := by
    rcases procGetid_cases hnext (show procGetid max s = some (r.1, r.2) from hr) with ⟨-,hfree⟩ | ⟨he,-⟩
    · exact ⟨fun e => hfree (e ▸ h.idle),fun e => hfree (e ▸ h.init)⟩
    · omega
  exact ⟨fun e => absurd e hne.1,fun e => absurd e hne.2⟩

/-- The thread that forks goes on as it was. -/
theorem doFork_caller (he : doFork max new s = some t) (hne : s.curproc ≠ new) :
    t.sched.switching = s.sched.switching ∧ t.curproc = s.curproc ∧ t.pc s.curproc = s.pc s.curproc ∧
      t.sched.thr s.curproc = s.sched.thr s.curproc := by
  simp only [doFork,bind_eq_bind,bind_eq_some_iff] at he
  obtain ⟨cur,-,he⟩ := he
  split at he
  · cases he
  · simp only [bind_eq_some_iff,startThread,bind_eq_bind] at he
    obtain ⟨s1,hs1,sched1,hclone,r,-,sched2,hstart,he⟩ := he
    cases he
    obtain ⟨pid,nextPid,k,-,-,rfl⟩ := procCreate_eq_some hs1
    simp only [Sched.kthreadClone] at hclone
    split at hclone
    · cases hclone
      obtain ⟨hsw,hcur,hthr⟩ := Sched.schedMakeRunnable_frame hstart
      refine ⟨hsw,hcur,update_of_ne hne _ _,(hthr s.curproc hne).trans ?_⟩
      exact update_of_ne hne _ _
    · cases hclone

/-- A fork leaves the processes that were there and their pids. -/
theorem InUse.fork {left : P → Prop} {x : ℤ} (h : InUse s x) (hk : KInv left s) (ha : Enabled max s (.fork new))
    (he : doFork max new s = some t) : InUse t x := by
  obtain ⟨p,hp,hx⟩ := h
  obtain ⟨pid,nextPid,-,-,hlist,-,hpids⟩ := doForkPid_eq hk.sched ha he
  have hpn : p ≠ new := by
    rintro rfl
    simp [pidOf,hk.tree.proc_unused ha.2.1.1] at hx
  exact ⟨p,by rw [hlist]; exact mem_append_left _ hp,by rw [hpids,if_neg hpn,hx]⟩

theorem Forking.next {left : ℕ → Prop} {s t : Kernel ℕ} (h : Forking n s) (hk : KInv left s)
    (ha : Enabled max s (.fork n)) (he : doFork max n s = some t) : Forking (n+1) t := by
  obtain ⟨hsw,hcur,hpc,hthr⟩ := doFork_caller he (Nat.ne_of_lt h.caller)
  have hidle := h.idle.fork hk ha he
  have hinit := h.init.fork hk ha he
  obtain ⟨pid,nextPid,k,sched,-,hm,rfl⟩ := doFork_eq_some hk.sched ha.1.1 ha.2.1.2 he
  have hlist : (created n pid nextPid k s).procList = s.procList ++ [n] := rfl
  refine ⟨⟨hsw.trans h.user.1,?_⟩,?_,?_,?_,fun p hp => ⟨?_,?_⟩,hidle,hinit⟩
  · rw [hcur,hpc]
    exact h.user.2
  · rw [hcur,hthr]
    exact h.thread
  · rw [hcur]
    exact Nat.lt_succ_of_lt h.caller
  · simp [hlist,h.length]
  · exact (update_of_ne (Nat.ne_of_gt hp) _ _).trans (h.free p (Nat.le_of_succ_le hp)).1
  · have hold := (h.free p (Nat.le_of_succ_le hp)).2
    have hnew := hm.started p
    rw [hold] at hnew
    by_contra hst
    rcases hnew (by simpa using hst) with hf | rfl
    · cases hf
    · exact Nat.not_succ_le_self _ hp

/-- Runs in which nobody exits with children and no process is made on a full table. -/
def CalmRun (max : ℤ) (s : Kernel P) (a : Act P) : Prop := ChildlessRun max s a ∧ HasRoom max s a

instance (max : ℤ) (s : Kernel P) (a : Act P) : Decidable (CalmRun max s a) := inferInstanceAs (Decidable (_ ∧ _))

/-- The idle process has made the init process. -/
def initKernel (nextPid : ℤ) : Kernel ℕ :=
  created 1 1 nextPid ((listInit (.child 1) (listInit (.children 1) (bootWith 0).links)).insert
    (.children 0) (.child 1) (.children 0)) (bootWith 0)

theorem create_initKernel (hmax : 1 < max) :
    CalmRun max (bootWith 0) (.create 1) ∧ step max (bootWith 0) (.create 1) = some (initKernel (2 % max)) := by
  have hfree : ¬ InUse (bootWith 0) 1 := by
    rintro ⟨p,hp,he⟩
    cases mem_singleton.mp hp
    cases he
  obtain ⟨m,hm⟩ : ∃ m, max.toNat = m+1 := ⟨max.toNat - 1,by omega⟩
  have hg : procGetid max (bootWith 0) = some (1, 2 % max) := by
    rw [procGetid,hm]
    rcases getidFrom_succ max (bootWith 0) m 1 with ⟨he,-⟩ | ⟨hu,-⟩
    · exact congrArg _ he
    · exact absurd hu hfree
  refine ⟨⟨⟨rfl,⟨⟨rfl,rfl⟩,⟨rfl,rfl⟩,fun r hr cur hcur => ?_⟩,trivial⟩,hmax⟩,?_⟩
  · cases hg.symm.trans hr
    cases hcur
    exact ⟨fun e => absurd e Int.one_ne_zero,fun _ => rfl⟩
  · simp only [step,procCreate,hg]
    rfl

/-- The idle process waits, and the init process runs. -/
theorem forking_init (hmax : 1 < max) :
    ∃ s, Exec (step max) (CalmRun max) (bootWith 0) [.create 1,.start 1,.waitpid (-1),.resume] s ∧ Forking 2 s := by
  obtain ⟨hok,hcreate⟩ := create_initKernel hmax
  generalize 2 % max = next at hcreate
  have hrest : Exec (step max) (CalmRun max) (initKernel next) [.start 1,.waitpid (-1),.resume] _ := Exec.ofRun rfl
  refine ⟨_,(Exec.one hok hcreate).append hrest,⟨rfl,rfl⟩,rfl,Nat.lt_succ_self 1,rfl,fun p hp => ?_,
    ⟨0,mem_cons_self,rfl⟩,⟨1,mem_cons_of_mem _ mem_cons_self,rfl⟩⟩
  obtain ⟨m,rfl⟩ := Nat.exists_eq_add_of_le' hp
  exact ⟨rfl,rfl⟩

/-- One more fork. -/
theorem Forking.fork {s : Kernel ℕ} {as : List (Act ℕ)} (h : Forking n s) (hmax : 1 < max)
    (hrun : Exec (step max) (ChildlessRun max) (bootWith 0) as s) :
    ∃ t, ChildlessRun max s (.fork n) ∧ doFork max n s = some t ∧ Forking (n+1) t ∧
      ∀ x, InUse s x → InUse t x := by
  obtain ⟨hk,-,hnext⟩ := childless_of_exec (bootWith_initial 0 hmax) hrun
  have ha := h.enabled hnext
  obtain ⟨t,ht⟩ := isSome_iff_exists.mp (hk.doFork_isSome hnext ha.1.1 ha.2.1 ha.2.2.1 ha.2.2.2)
  exact ⟨t,⟨rfl,ha,trivial⟩,ht,h.next hk ha ht,fun x hx => hx.fork hk ha ht⟩

/-- The init process forks until there are `n + 2` processes. -/
theorem forking_exec (hn : n+2 ≤ max) :
    ∃ as s, Exec (step max) (CalmRun max) (bootWith 0) as s ∧ Forking (n+2) s := by
  induction n with
  | zero =>
    obtain ⟨s,hs,hf⟩ := forking_init (show 1 < max by omega)
    exact ⟨_,s,hs,hf⟩
  | succ n ih =>
    obtain ⟨as,s,hs,hf⟩ := ih (by omega)
    obtain ⟨t,hok,ht,hf',-⟩ := hf.fork (by omega) (hs.weaken fun _ _ _ => And.left)
    have hroom : HasRoom max s (.fork (n+2)) := by
      show (s.procList.length : ℤ) < max
      rw [hf.length]
      omega
    exact ⟨_,t,hs.snoc ⟨hok,hroom⟩ ht,hf'⟩

/-- A fork when every pid is in use makes a process with pid -1. -/
theorem Forking.fork_full {s : Kernel ℕ} {as : List (Act ℕ)} (h : Forking n s) (hmax : 1 < max)
    (hrun : Exec (step max) (ChildlessRun max) (bootWith 0) as s) (hall : ∀ x, 0 ≤ x ∧ x < max → InUse s x) :
    ∃ t, ChildlessRun max s (.fork n) ∧ step max s (.fork n) = some t ∧ Forking (n+1) t ∧
      (∀ x, 0 ≤ x ∧ x < max → InUse t x) ∧ doForkPid max n s = some (-1, t) ∧
      t.procList = s.procList ++ [n] ∧ ∀ p, t.pidOf p = if p = n then some (-1) else s.pidOf p := by
  obtain ⟨hk,-,hnext⟩ := childless_of_exec (bootWith_initial 0 hmax) hrun
  obtain ⟨t,hok,ht,hf,hkeep⟩ := h.fork hmax hrun
  obtain ⟨pid,nextPid,hg,hpid,hlist,-,hpids⟩ := doForkPid_eq hk.sched hok.2.1 ht
  have hneg : pid = -1 := by
    rcases procGetid_cases hnext hg with ⟨hr,hfree⟩ | ⟨he,-⟩
    · exact absurd (hall pid hr) hfree
    · exact he
  subst hneg
  exact ⟨t,hok,ht,hf,fun x hx => hkeep x (hall x hx),hpid,hlist,hpids⟩

/-- Whatever the size of the table: when it is full, two more forks of the init process both
return -1 and make two processes with that pid. -/
theorem forks_of_full_table (n : ℕ) : ∃ as s t u p q,
    Exec (step (n+2)) (Enabled (n+2)) (bootWith 0) as s ∧ (s.procList.length : ℤ) = n+2 ∧
    Enabled (n+2) s (.fork p) ∧ doForkPid (n+2) p s = some (-1, t) ∧
    Enabled (n+2) t (.fork q) ∧ doForkPid (n+2) q t = some (-1, u) ∧
    p ≠ q ∧ u.procList = s.procList ++ [p,q] ∧ u.pidOf p = some (-1) ∧ u.pidOf q = some (-1) := by
  have hmax : (1 : ℤ) < n+2 := by omega
  obtain ⟨as,s,hs,hf⟩ := forking_exec (show (n : ℤ)+2 ≤ n+2 from Int.le_refl _)
  have hchild : Exec (step (n+2)) (ChildlessRun (n+2)) (bootWith 0) as s := hs.weaken fun _ _ _ => And.left
  have hroom : Exec (step (n+2)) (RoomRun (n+2)) (bootWith 0) as s :=
    hs.weaken fun _ _ _ h => ⟨h.1.2.1,h.2⟩
  have hinv := (pidInv_of_exec (bootWith_initial 0 hmax) hroom).2
  have hall : ∀ x, 0 ≤ x ∧ x < (n : ℤ)+2 → InUse s x := fun x hx =>
    hinv.inUse_of_full (by rw [hf.length]; omega) hx
  obtain ⟨t,hok,ht,hf',hall',hpid,hlist,hpids⟩ := hf.fork_full hmax hchild hall
  obtain ⟨u,hok',-,-,-,hpid',hlist',hpids'⟩ := hf'.fork_full hmax (hchild.snoc hok ht) hall'
  refine ⟨as,s,t,u,n+2,n+3,hchild.weaken fun _ _ _ h => h.2.1,by rw [hf.length]; omega,hok.2.1,hpid,
    hok'.2.1,hpid',by omega,?_,?_,?_⟩
  · rw [hlist',hlist,append_assoc]
    rfl
  · rw [hpids',if_neg (by omega),hpids,if_pos rfl]
  · rw [hpids',if_pos rfl]

/-- A table of four, say. -/
theorem fork_full_table : ∃ as s t u p q, Exec (step 4) (Enabled 4) (bootWith 0) as s ∧ s.procList.length = 4 ∧
    Enabled 4 s (.fork p) ∧ doForkPid 4 p s = some (-1, t) ∧ Enabled 4 t (.fork q) ∧ doForkPid 4 q t = some (-1, u) ∧
    p ≠ q ∧ u.procList = s.procList ++ [p,q] ∧ u.pidOf p = some (-1) ∧ u.pidOf q = some (-1) := by
  obtain ⟨as,s,t,u,p,q,hs,hlen,hrest⟩ := forks_of_full_table 2
  exact ⟨as,s,t,u,p,q,hs,Int.ofNat.inj hlen,hrest⟩

end Csci402.Proc.Kernel
