import Mathlib.Algebra.Order.Ring.Int
import Csci402.Vm.FirstFit
import Csci402.Vm.View

/-! Copy-on-write isolation. A private area is its process's own: what is written there is
seen there and nowhere else, also by the processes forked off. A shared area stays one
for all the processes that inherit it. -/

namespace Csci402.Vm

namespace Memory

open Lib Option

variable {D : Type} [Zero D] {U : UserMem} {s t u : Memory D} {env : Env D} {pid q v w o n x : ℕ}
  {a b : Vmarea} {store : D → D}

/-- What a read lookup returns for the page. -/
def seen (env : Env D) (s : Memory D) (pid vfn : ℕ) : Option D := (readPage env pid vfn s).bind Prod.snd

theorem Sys.seen (h : Sys U s) (henv : LookupsOk env) (pid v : ℕ) : seen env s pid v = s.view pid v := by
  obtain ⟨t,ht,-⟩ := h.readPage_returns (henv.succeeds pid v false s)
  rw [Memory.seen,ht]
  rfl

/-! ### Who sees a write -/

omit [Zero D] in
/-- Pages of user memory are told apart by their place in the object. -/
theorem page_inj (h : AreasOk U (s.vmmList pid)) (hq : AreasOk U (s.vmmList q))
    (ha : vmmapLookup (s.vmmList pid) v = some a) (hb : vmmapLookup (s.vmmList q) w = some b)
    (hab : ∀ i, b.page i = a.page i) (he : b.page w = a.page v) : w = v := by
  have hH := U.high_lt
  obtain ⟨ha,-,hv⟩ := vmmapLookup_mem ha
  obtain ⟨hb,-,hw⟩ := vmmapLookup_mem hb
  have h1 := (h.bounds a ha).2
  have h2 := (hq.bounds b hb).2
  rw [hab] at he
  unfold Vmarea.page u32 at he
  omega

theorem Wrote.view_self (hw : Wrote s t o n store) (hb : vmmapLookup (s.vmmList q) w = some b)
    (hbo : b.vmaObj = some o) (hn : b.page w = n) : t.view q w = some (store (s.content o n)) := by
  rw [← hw.lists q] at hb
  exact view_of_lookup hb hbo (by rw [hn]; exact hw.self)

theorem Wrote.view_other (hw : Wrote s t o n store) (h : Sys U s) (h' : Sys U t)
    (hne : ∀ b x, vmmapLookup (s.vmmList q) w = some b → b.vmaObj = some x → b.page w ≠ n ∨ ¬ Under s.under x o) :
    t.view q w = s.view q w := by
  cases hb : vmmapLookup (s.vmmList q) w with
  | none => rw [h.view_eq_none.mpr hb,h'.view_eq_none.mpr (by rw [hw.lists]; exact hb)]
  | some b =>
    obtain ⟨x,xob,hbx,-⟩ := h.area_obj (vmmapLookup_mem hb).1
    rw [view_of_lookup hb hbx rfl]
    exact view_of_lookup (by rw [hw.lists]; exact hb) hbx (hw.other x _ (hne b x hb hbx))

/-- Nothing is over the object of a private area and no other area has it, so a page of it
is seen in one place. -/
theorem Sys.wrote_private (h : Sys U s) (h' : Sys U t) (ha : vmmapLookup (s.vmmList pid) v = some a)
    (hpriv : a.isShared = false) (ho : a.vmaObj = some o) (hw : Wrote s t o (a.page v) store)
    (hne : ¬ (q = pid ∧ w = v)) : t.view q w = s.view q w := by
  have hmem := (vmmapLookup_mem ha).1
  refine hw.view_other h h' fun b x hb hbx => ?_
  by_contra hc
  rw [not_or,not_ne_iff,not_not] at hc
  obtain ⟨hpage,hunder⟩ := hc
  obtain rfl : x = o := hunder.eq_of_top (h.owned.top pid a hmem hpriv o ho)
  obtain ⟨rfl,hpages⟩ := h.owned.sole pid a hmem hpriv x ho q b (vmmapLookup_mem hb).1 hbx
  exact hne ⟨rfl,page_inj (h.list q).ok (h.list q).ok ha hb hpages hpage⟩

/-- What is written to a private area is seen in one place. -/
theorem Sys.write_private (h : Sys U s) (henv : LookupsOk env) (ha : vmmapLookup (s.vmmList pid) v = some a)
    (hpriv : a.isShared = false) (store : D → D) :
    ∃ t, Memory.writePage env pid v store s = some (t, some ()) ∧ Sys U t ∧
      (∃ d, s.view pid v = some d ∧ t.view pid v = some (store d)) ∧
      ∀ q w, ¬ (q = pid ∧ w = v) → t.view q w = s.view q w := by
  obtain ⟨t,ht⟩ := h.writePage_returns (henv.succeeds pid v true s) store
  rw [ha] at ht
  obtain ⟨h',⟨hr,-⟩ | ⟨-,a',o,ha',ho,hw⟩⟩ := h.writePage_wrote ht
  · cases hr
  cases ha.symm.trans ha'
  exact ⟨t,ht,h',⟨_,view_of_lookup ha ho rfl,hw.view_self ha ho rfl⟩,fun q w hne =>
    h.wrote_private h' ha hpriv ho hw hne⟩

/-- What is written to a shared area is seen wherever the page of the object is mapped. -/
theorem Sys.write_seen (h : Sys U s) (henv : LookupsOk env) (ha : vmmapLookup (s.vmmList pid) v = some a)
    (store : D → D) :
    ∃ t, Memory.writePage env pid v store s = some (t, some ()) ∧ Sys U t ∧ ∃ d, s.view pid v = some d ∧
      ∀ q w, trans (s.vmmList q) w = some (a.target v) → t.view q w = some (store d) := by
  obtain ⟨t,ht⟩ := h.writePage_returns (henv.succeeds pid v true s) store
  rw [ha] at ht
  obtain ⟨h',⟨hr,-⟩ | ⟨-,a',o,ha',ho,hw⟩⟩ := h.writePage_wrote ht
  · cases hr
  cases ha.symm.trans ha'
  refine ⟨t,ht,h',_,view_of_lookup ha ho rfl,fun q w hqw => ?_⟩
  obtain ⟨b,hb,he⟩ := map_eq_some_iff.mp hqw
  have hbo : b.vmaObj = some o := (congrArg Prod.fst he).trans ho
  exact hw.view_self hb hbo (congrArg (fun y => y.2.1) he)

/-! ### Who inherits an area -/

/-- The calls of processes that fork, read, write, unmap and exit. -/
def Inherits : Call D → Prop
  | .fork _ | .exit _ | .remove .. | .munmap .. | .lookup .. | .read .. | .write .. => True
  | _ => False

/-- A process is of the family when it is forked off by one that is. -/
def heirs (s : Memory D) (F : Set ℕ) : Env D × Call D → Set ℕ
  | (_, .fork pid) => {q | q ∈ F ∨ q = s.nextPid ∧ pid ∈ F}
  | _ => F

def familyStep (U : UserMem) (x : Memory D × Set ℕ) (c : Env D × Call D) : Option (Memory D × Set ℕ) :=
  (step U x.1 c).map fun t => (t, heirs x.1 x.2 c)

def FamilyOk (x : Memory D × Set ℕ) (c : Env D × Call D) : Prop := Allowed x.1 c ∧ Inherits c.2

/-- A process of the family has the page where the first one had it, or has it no more. -/
structure Family (U : UserMem) (v : ℕ) (target : Option ℕ × ℕ × Prot × MapFlags) (x : Memory D × Set ℕ) : Prop where
  sys : Sys U x.1
  same : ∀ q ∈ x.2, trans (x.1.vmmList q) v = none ∨ trans (x.1.vmmList q) v = some target
  born : ∀ q ∈ x.2, q < x.1.nextPid

variable {target : Option ℕ × ℕ × Prot × MapFlags} {F : Set ℕ}

omit [Zero D] in
theorem Family.keep (h : Family U v target (s, F)) (h' : Sys U t)
    (htr : ∀ q, trans (t.vmmList q) v = none ∨ trans (t.vmmList q) v = trans (s.vmmList q) v)
    (hp : t.nextPid = s.nextPid) : Family U v target (t, F) where
  sys := h'
  same q hq := by
    rcases htr q with he | he
    · exact .inl he
    · change trans (t.vmmList q) v = none ∨ trans (t.vmmList q) v = some target
      rw [he]
      exact h.same q hq
  born q hq := by
    change q < t.nextPid
    rw [hp]
    exact h.born q hq

omit [Zero D] in
theorem Removed.trans_or {lo hi : ℕ} (h : Removed U pid lo hi s t) (q v : ℕ) :
    trans (t.vmmList q) v = none ∨ trans (t.vmmList q) v = trans (s.vmmList q) v := by
  by_cases hq : q = pid
  · rw [hq,h.trans_eq]
    split
    · exact .inl rfl
    · exact .inr rfl
  · exact .inr (by rw [h.edits.vmmList q hq])

omit [Zero D] in
/-- The areas of the family after a fork: a shared area is the same for the child. -/
theorem Forked.trans_shared (hf : Forked U pid s t) (h : Sys U s) (side : ℕ) (hs : side < 2)
    (hq : q = if side = 0 then pid else s.nextPid) (hsh : target.2.2.2.shared = true ∧ target.2.2.2.priv = false)
    (htr : trans (s.vmmList pid) v = none ∨ trans (s.vmmList pid) v = some target) :
    trans (t.vmmList q) v = none ∨ trans (t.vmmList q) v = some target := by
  cases ha : vmmapLookup (t.vmmList q) v with
  | none => exact .inl (by rw [trans,ha]; rfl)
  | some a =>
    obtain ⟨p,hp,hps,hpe,he⟩ := (hf.lookup hs hq).2 v a ha
    obtain ⟨b,hb,-,hfl,hsame,hnew⟩ := mem_forkedAreas hp
    have hspan : b.vmaStart ≤ v ∧ v < b.vmaEnd := by
      cases hbs : b.isShared with
      | true =>
        rw [hsame hbs] at hps hpe
        exact ⟨hps,hpe⟩
      | false =>
        obtain ⟨j,rfl,-⟩ := hnew hbs
        exact ⟨hps,hpe⟩
    have hbt : trans (s.vmmList pid) v = some (b.target v) :=
      (trans_eq_some (h.list pid).ok).mpr ⟨b,hb,hspan.1,hspan.2,rfl⟩
    rcases htr with hn | htr
    · rw [hbt] at hn
      cases hn
    · cases hbt.symm.trans htr
      rw [hsame (by simpa [Vmarea.isShared,Vmarea.target] using hsh)] at he
      exact .inr (by rw [trans,ha,map_some,he])

omit [Zero D] in
theorem Family.fork (h : Family U v target (s, F))
    (hsh : target.2.2.2.shared = true ∧ target.2.2.2.priv = false) (hlive : s.live pid) (h' : Sys U t)
    (hf : Forked U pid s t) : Family U v target (t, {q | q ∈ F ∨ q = s.nextPid ∧ pid ∈ F}) where
  sys := h'
  same q hq := by
    have hpid := h.sys.heap.holders.pid_lt pid hlive
    by_cases hqc : q = s.nextPid
    · have hmem : pid ∈ F := by
        rcases hq with hq | hq
        · exact absurd (h.born q hq) (by rw [hqc]; exact Nat.lt_irrefl _)
        · exact hq.2
      exact hf.trans_shared h.sys 1 (by omega) hqc hsh (h.same pid hmem)
    · have hmem : q ∈ F := hq.resolve_right fun hc => hqc hc.1
      by_cases hqp : q = pid
      · subst hqp
        exact hf.trans_shared h.sys 0 (by omega) rfl hsh (h.same q hmem)
      · change trans (t.vmmList q) v = none ∨ trans (t.vmmList q) v = some target
        rw [hf.other q hqp hqc]
        exact h.same q hmem
  born q hq := by
    change q < t.nextPid
    rw [hf.nextPid]
    rcases hq with hq | ⟨rfl,-⟩
    · exact Nat.lt_succ_of_lt (h.born q hq)
    · exact Nat.lt_succ_self _

theorem Family.step {x y : Memory D × Set ℕ} {c : Env D × Call D}
    (h : Family U v target x) (hsh : target.2.2.2.shared = true ∧ target.2.2.2.priv = false) (hc : FamilyOk x c)
    (hxy : familyStep U x c = some y) : Family U v target y := by
  obtain ⟨s,F⟩ := x
  obtain ⟨env,c⟩ := c
  obtain ⟨t,hst,rfl⟩ := map_eq_some_iff.mp hxy
  obtain ⟨hal,hin⟩ := hc
  have hsys := (h.sys.step hal hst).sys
  have hacc : Mapless c → Family U v target (t, F) := fun hm => by
    have hcl := h.sys.mapless hm hst
    exact h.keep hsys (fun q => .inr (by rw [hcl.vmmList])) hcl.nextPid
  cases c with
  | fork pid =>
    obtain ⟨-,hf⟩ := of_returns (h.sys.fork hal) hst
    exact h.fork hsh hal hsys hf
  | exit pid =>
    obtain ⟨-,-,hex⟩ := of_returns (h.sys.exit env pid) hst
    refine h.keep hsys (fun q => ?_) hex.nextPid
    rw [hex.vmmList]
    split
    · exact .inl rfl
    · exact .inr rfl
  | remove pid lo n =>
    obtain ⟨-,-,hrem⟩ := of_returns (h.sys.remove env pid hal) hst
    exact h.keep hsys (fun q => hrem.trans_or q v) hrem.edits.nextPid
  | munmap pid addr len =>
    obtain ⟨⟨t',r⟩,ht,rfl⟩ := map_eq_some_iff.mp hst
    rcases doMunmap_cases ht with rfl | ⟨hn,hst⟩
    · exact h
    · obtain ⟨-,-,hrem⟩ := of_returns (h.sys.remove env pid (Nat.lt_trans (hn hal) (by decide))) hst
      exact h.keep hsys (fun q => hrem.trans_or q v) hrem.edits.nextPid
  | lookup | read | write => exact hacc trivial
  | _ => exact absurd hin id

theorem Family.run {x y : Memory D × Set ℕ} {cs : List (Env D × Call D)}
    (h : Family U v target x) (hsh : target.2.2.2.shared = true ∧ target.2.2.2.priv = false)
    (hrun : Exec (familyStep U) FamilyOk x cs y) : Family U v target y :=
  hrun.invariant h fun _ _ _ h hc hst => h.step hsh hc hst

/-! ### Isolation -/

/-- The parent and the child of a fork see what the parent saw. -/
def ForkShows (U : UserMem) (env : Env D) (s : Memory D) (pid : ℕ) : Prop :=
  ∃ t, doFork U pid s = some t ∧ ∀ v, seen env t s.nextPid v = seen env t pid v ∧ seen env t pid v = seen env s pid v

/-- A write to the page is seen there, and nothing else changes for anyone. -/
def WriteIsolated (env : Env D) (s : Memory D) (pid v : ℕ) (store : D → D) : Prop :=
  ∃ t, writePage env pid v store s = some (t, some ()) ∧
    (∃ d, seen env s pid v = some d ∧ seen env t pid v = some (store d)) ∧
    ∀ q w, ¬ (q = pid ∧ w = v) → seen env t q w = seen env s q w

/-- A write to the page by one of the family is seen by all that still have the page. -/
def WriteShared (env : Env D) (s : Memory D) (F : Set ℕ) (pid v : ℕ) (store : D → D) : Prop :=
  ∃ t, writePage env pid v store s = some (t, some ()) ∧ ∃ d, seen env s pid v = some d ∧
    ∀ q ∈ F, (vmmapLookup (s.vmmList q) v).isSome → seen env t q v = some (store d)

def OthersSeeTheSame (env : Env D) (pid : ℕ) (s t : Memory D) : Prop :=
  ∀ q w, q ≠ pid → seen env t q w = seen env s q w

theorem Sys.fork_shows (h : Sys U s) (henv : LookupsOk env) (hlive : s.live pid) : ForkShows U env s pid := by
  obtain ⟨t,ht,h',hf⟩ := h.fork hlive
  have hparent := hf.view h h' (q := pid) 0 (by omega) rfl
  have hchild := hf.view h h' (q := s.nextPid) 1 (by omega) rfl
  refine ⟨t,ht,fun v => ?_⟩
  rw [h'.seen henv,h'.seen henv,h.seen henv,hparent,hchild]
  exact ⟨rfl,rfl⟩

theorem Sys.write_isolated (h : Sys U s) (henv : LookupsOk env) (ha : vmmapLookup (s.vmmList pid) v = some a)
    (hpriv : a.isShared = false) (store : D → D) : WriteIsolated env s pid v store := by
  obtain ⟨t,ht,h',hself,hother⟩ := h.write_private henv ha hpriv store
  refine ⟨t,ht,?_,fun q w hne => ?_⟩
  · rw [h.seen henv,h'.seen henv]
    exact hself
  · rw [h.seen henv,h'.seen henv]
    exact hother q w hne

theorem Family.write_shared (h : Family U v target (s, F))
    (henv : LookupsOk env) (hp : pid ∈ F) (hv : (vmmapLookup (s.vmmList pid) v).isSome) (store : D → D) :
    WriteShared env s F pid v store := by
  have htarget : ∀ q ∈ F, (vmmapLookup (s.vmmList q) v).isSome → trans (s.vmmList q) v = some target := by
    intro q hq hqv
    refine (h.same q hq).resolve_left fun hn => ?_
    rw [trans,map_eq_none_iff] at hn
    rw [hn] at hqv
    cases hqv
  obtain ⟨a,ha⟩ := isSome_iff_exists.mp hv
  have hat : a.target v = target := by
    have := htarget pid hp hv
    rw [trans,ha] at this
    exact some.inj this
  obtain ⟨t,ht,h',d,hd,hall⟩ := h.sys.write_seen henv ha store
  refine ⟨t,ht,d,?_,fun q hq hqv => ?_⟩
  · rw [h.sys.seen henv]
    exact hd
  · rw [h'.seen henv]
    exact hall q v (by rw [hat]; exact htarget q hq hqv)

theorem Shrinks.others (hs : Shrinks s t) (h : Sys U s) (h' : Sys U t) (henv : LookupsOk env)
    (hl : ∀ q, q ≠ pid → t.vmmList q = s.vmmList q) : OthersSeeTheSame env pid s t := by
  intro q w hq
  rw [h.seen henv,h'.seen henv]
  exact hs.toKeeps.view h h' (by rw [hl q hq])

/-- In every state that the calls reach, forks copy what is seen, private areas are
isolated, shared areas are shared by all who inherit them, and no process takes anything
from another. -/
theorem copy_on_write_isolation {s0 : Memory D} {cs : List (Env D × Call D)} (h0 : Initial s0)
    (hrun : Exec (step U) Allowed s0 cs s) (henv : LookupsOk env) : (∀ pid, s.live pid → ForkShows U env s pid) ∧
    (∀ pid v a, vmmapLookup (s.vmmList pid) v = some a → a.isShared = false →
      ∀ store, WriteIsolated env s pid v store) ∧
    (∀ pid v a, vmmapLookup (s.vmmList pid) v = some a → a.isShared = true →
      ∀ cs' u F, Exec (familyStep U) FamilyOk (s, {pid}) cs' (u, F) →
        ∀ p ∈ F, (vmmapLookup (u.vmmList p) v).isSome → ∀ store, WriteShared env u F p v store) ∧
    ∀ pid,
      (∀ lo n, lo+n < 2 ^ 32 → ∃ t, vmmapRemove U env pid lo n s = some t ∧ OthersSeeTheSame env pid s t) ∧
      (∀ addr len, addr < 2 ^ 32 → len < 2 ^ 32 →
        ∃ t r, doMunmap U env pid addr len s = some (t, r) ∧ OthersSeeTheSame env pid s t) ∧
      ∃ t, doExit env pid s = some t ∧ OthersSeeTheSame env pid s t := by
  have h := sys_of_exec h0.sys hrun
  refine ⟨fun pid hlive => h.fork_shows henv hlive,fun pid v a ha hpriv store => h.write_isolated henv ha hpriv store,
    fun pid v a ha hsh cs' u F hrun' p hp hv store => ?_,fun pid => ⟨fun lo n hn => ?_,fun addr len ha hl => ?_,?_⟩⟩
  · have hstart : Family U v (a.target v) (s, {pid}) := by
      refine ⟨h,fun q hq => ?_,fun q hq => ?_⟩
      · cases hq
        exact .inr (by rw [trans,ha]; rfl)
      · cases hq
        exact h.heap.holders.pid_lt pid (live_of_mem (vmmapLookup_mem ha).1)
    have hflags : (a.target v).2.2.2.shared = true ∧ (a.target v).2.2.2.priv = false := by
      simpa [Vmarea.isShared,Vmarea.target] using hsh
    exact (hstart.run hflags hrun').write_shared henv hp hv store
  · obtain ⟨t,ht,h',hs,hrem⟩ := h.remove env pid hn
    exact ⟨t,ht,hs.others h h' henv hrem.edits.vmmList⟩
  · obtain ⟨t,r,ht,h',hs,rfl | hrem⟩ := h.munmap env pid ha hl
    · exact ⟨t,r,ht,fun _ _ _ => rfl⟩
    · exact ⟨t,r,ht,hs.others h h' henv hrem.edits.vmmList⟩
  · obtain ⟨t,ht,h',hs,hex⟩ := h.exit env pid
    exact ⟨t,ht,hs.others h h' henv fun q hq => by rw [hex.vmmList,if_neg hq]⟩

end Memory

theorem calmEnv_lookupsOk : Memory.LookupsOk calmEnv := fun _ => ⟨rfl,rfl⟩

def sharedAnon : MapFlags := ⟨true,false,true,true⟩

open Memory in
/-- A process has a private and a shared area and has written to the private one. -/
def sharingCalls : List (Env ℕ × Call ℕ) :=
  [.procCreate,.map 0 none 0x500 4 readWrite privateAnon 0 .hilo,.map 0 none 0x600 4 readWrite sharedAnon 0 .hilo,
    .write 0 0x501 fun _ => 7].map fun c => (calmEnv, c)

open Memory Lib in
theorem copy_on_write_isolation_sharingCalls : ∃ s, Exec (step sampleUser) Allowed emptyMemory sharingCalls s ∧
    ForkShows sampleUser calmEnv s 0 ∧ WriteIsolated calmEnv s 0 0x501 (fun _ => 8) ∧
    ∃ u, Exec (familyStep sampleUser) FamilyOk (s, {0}) [(calmEnv, .fork 0)] (u, {q | q ∈ ({0} : Set ℕ) ∨ q = 1 ∧ 0 ∈ ({0} : Set ℕ)}) ∧
      WriteShared calmEnv u {q | q ∈ ({0} : Set ℕ) ∨ q = 1 ∧ 0 ∈ ({0} : Set ℕ)} 1 0x601 fun _ => 10 := by
  obtain ⟨s,h,hlive,⟨a,ha,hpriv⟩,⟨b,hb,hsh⟩,u,hu⟩ : ∃ s,
      Exec (step sampleUser) Allowed emptyMemory sharingCalls s ∧ (s.procs 0).isSome ∧
      (∃ a, vmmapLookup (s.vmmList 0) 0x501 = some a ∧ a.isShared = false) ∧
      (∃ b, vmmapLookup (s.vmmList 0) 0x601 = some b ∧ b.isShared = true) ∧
      ∃ u, (doFork sampleUser 0 s = some u ∧ s.nextPid = 1) ∧ (vmmapLookup (u.vmmList 1) 0x601).isSome := by
    have h : Exec (step sampleUser) Allowed emptyMemory sharingCalls _ := Exec.ofRun rfl
    exact ⟨_,h,rfl,⟨_,rfl,rfl⟩,⟨_,rfl,rfl⟩,_,⟨rfl,rfl⟩,by decide⟩
  obtain ⟨⟨hfork,hpid⟩,hv⟩ := hu
  obtain ⟨h1,h2,h3,-⟩ := copy_on_write_isolation emptyMemory_initial h calmEnv_lookupsOk
  have hstep : familyStep sampleUser (s, {0}) (calmEnv, .fork 0) =
      some (u, {q | q ∈ ({0} : Set ℕ) ∨ q = 1 ∧ 0 ∈ ({0} : Set ℕ)}) := by
    rw [← hpid]
    exact congrArg (Option.map _) hfork
  have hrun : Exec (familyStep sampleUser) FamilyOk (s, {0}) [(calmEnv, .fork 0)] _ := Exec.one ⟨hlive,trivial⟩ hstep
  exact ⟨s,h,h1 0 hlive,h2 0 _ a ha hpriv _,u,hrun,h3 0 _ b hb hsh _ _ _ hrun 1 (.inr ⟨rfl,rfl⟩) hv _⟩

end Csci402.Vm
