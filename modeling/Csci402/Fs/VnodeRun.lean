import Csci402.Fs.VnodeSteps
import Mathlib.Data.Fintype.Basic

/-! Runs of the vnode cache from an empty one: which vnodes are on the list and for how long,
and who wakes the threads that wait for one. -/

namespace Csci402.Fs.Cache

open Lib

variable {F I V G T : Type} {s s0 t : Cache F I V G T} {a : Act F I V G T} {v : V} {vn : Vnode F I G T}
  {as : List (Act F I V G T)}

/-- No vnode has been asked for. -/
structure Initial (s : Cache F I V G T) : Prop where
  vnode : ∀ v, s.vnode v = none
  inuse : s.inuse = []
  page : ∀ g, s.page g = none
  pc : ∀ x, s.pc x = .user
  active : ∀ v, s.active v = 0

theorem Initial.inv (h : Initial s) : Inv s := by
  refine ⟨?_,fun v => ?_,fun v _ _ _ hv => ?_,fun v _ hv => ?_,fun v _ => h.active v,fun g v => ?_,
    fun v _ hv => ?_,fun x v hx => ?_,fun x _ v hx => ?_,fun v x => ?_⟩
  · simp [h.inuse]
  · simp [h.inuse,h.vnode]
  · simp [h.vnode] at hv
  · simp [h.vnode] at hv
  · simp [h.page,h.vnode]
  · simp [h.vnode] at hv
  · simp [Handles,h.pc] at hx
  · simp [Handles,h.pc] at hx
  · simp [h.vnode,h.pc]

variable [DecidableEq F] [DecidableEq I] [DecidableEq V] [DecidableEq G] [DecidableEq T]

instance (s : Cache F I V G T) (v : V) : Decidable (QuietPages s v) :=
  inferInstanceAs (Decidable (∀ vn ∈ s.vnode v, ∀ g ∈ vn.mmoRespages, ∀ pf ∈ s.page g, pf.pfBusy = false))

instance (s : Cache F I V G T) : ∀ a, Decidable (Enabled s a) := by
  rintro ⟨⟩ <;> unfold Enabled <;> infer_instance

/-- A step that was taken is one that the invariant describes. -/
theorem Inv.stepped_of_step (h : Inv s) (ha : Enabled s a) (hs : Cache.step s a = some t) : Stepped s a t := by
  obtain ⟨t',ht',hstep⟩ := h.step ha
  exact Option.some.inj (ht'.symm.trans hs) ▸ hstep

theorem Initial.inv_of_exec (h0 : Initial s0) (h : Exec step Enabled s0 as s) : Inv s :=
  h.invariant h0.inv fun _ _ _ hinv ha hs => (hinv.stepped_of_step ha hs).inv

/-! ### Identity and lifetime -/

omit [DecidableEq F] [DecidableEq I] [DecidableEq V] [DecidableEq G] [DecidableEq T] in
theorem Inv.active_vnode (h : Inv s) (hv : 0 < s.active v) :
    v ∈ s.inuse ∧ ∃ vn, s.vnode v = some vn ∧ vn.vnBusy = false ∧ 1+vn.vnNrespages ≤ vn.vnRefcount := by
  obtain ⟨vn,hvn,hb⟩ := h.idle_of_active hv
  have hr := ((h.ok v vn hvn).idle hb).1
  exact ⟨(h.mem v).mpr (by simp [hvn]),vn,hvn,hb,by omega⟩

omit [DecidableEq F] [DecidableEq I] [DecidableEq V] [DecidableEq G] [DecidableEq T] in
/-- A vnode has no reference just while a thread brings it in or takes it away. -/
theorem Inv.refcount_zero (h : Inv s) (hv : s.vnode v = some vn) : vn.vnRefcount = 0 ↔ ∃ x, s.Handles x v := by
  have hok := h.ok v vn hv
  rw [← h.busy v vn hv]
  refine ⟨fun hr => ?_,fun hb => (hok.busy hb).1⟩
  by_contra hb
  have := (hok.idle (by simpa using hb)).2
  omega

omit [DecidableEq F] [DecidableEq I] [DecidableEq V] [DecidableEq G] [DecidableEq T] in
/-- The step that takes the last reference is the one after which the vnode is taken away. -/
theorem Stepped.reaches_zero (hs : Inv s) (h : Stepped s a t) {vn' : Vnode F I G T} (hv : s.vnode v = some vn)
    (hr : 0 < vn.vnRefcount) (hv' : t.vnode v = some vn') : vn'.vnRefcount = 0 ↔ ∃ x, t.pc x = .deleting v := by
  have hno : ∀ x, ¬ s.Handles x v := fun x hx => by
    have := (hs.refcount_zero hv).mpr ⟨x,hx⟩
    omega
  rw [h.inv.refcount_zero hv']
  refine exists_congr fun x => ⟨?_,.inr⟩
  rintro (hread | hdel)
  · rcases h.reading x v hread with hx | hnone
    · exact absurd (.inl hx) (hno x)
    · rw [hv] at hnone
      cases hnone
  · exact hdel

/-- In every state that callers can bring the cache to:
the list holds the vnodes there are, no two with one identity;
a vnode with an active reference is on the list, not busy, and has more references than pages;
every call returns, so none of the assertions fails;
a vnode without a reference is one that a thread brings in or takes away;
a vnode that a call leaves without a reference is taken away by a thread from then on;
and a vnode leaves the list, and is freed, when that thread has deleted it, and at no other step. -/
theorem vnode_lifetime (h0 : Initial s0) (h : Exec step Enabled s0 as s) :
    (s.inuse.Nodup ∧ (∀ v, v ∈ s.inuse ↔ (s.vnode v).isSome) ∧
      ∀ v w vn wn, s.vnode v = some vn → s.vnode w = some wn → vn.vnFs = wn.vnFs → vn.vnVno = wn.vnVno → v = w) ∧
    (∀ v, 0 < s.active v →
      v ∈ s.inuse ∧ ∃ vn, s.vnode v = some vn ∧ vn.vnBusy = false ∧ 1+vn.vnNrespages ≤ vn.vnRefcount) ∧
    (∀ v vn, s.vnode v = some vn →
      (vn.vnRefcount = 0 ↔ ∃ x, s.pc x = .reading v ∨ s.pc x = .deleting v)) ∧
    ∀ a, Enabled s a → ∃ t, step s a = some t ∧
      (∀ v vn vn', s.vnode v = some vn → 0 < vn.vnRefcount → t.vnode v = some vn' →
        (vn'.vnRefcount = 0 ↔ ∃ x, t.pc x = .deleting v)) ∧
      ∀ v ∈ s.inuse, v ∉ t.inuse ↔ ∃ x, a = .deleteDone x ∧ s.pc x = .deleting v := by
  have hinv := h0.inv_of_exec h
  refine ⟨⟨hinv.nodup,hinv.mem,hinv.unique⟩,fun v hv => hinv.active_vnode hv,
    fun v vn hv => hinv.refcount_zero hv,fun a ha => ?_⟩
  obtain ⟨t,ht,hstep⟩ := hinv.step ha
  exact ⟨t,ht,fun v vn vn' hv hr hv' => hstep.reaches_zero hinv hv hr hv',hstep.removed⟩

/-- An empty cache for two threads and two vnodes. -/
def smallCache : Cache Unit ℕ (Fin 2) (Fin 2) (Fin 2) := ⟨fun _ => none,[],fun _ => none,fun _ => .user,fun _ => 0⟩

theorem smallCache_initial : Initial smallCache := ⟨fun _ => rfl,rfl,fun _ => rfl,fun _ => rfl,fun _ => rfl⟩

/-- A vnode with a page and two references is put, by a call that finds it unlinked. -/
theorem vnode_lifetime_vput : ∃ s t,
    Exec step Enabled smallCache [.vget 0 () 7 (some 0),.readDone 0,.pframeAlloc 0 1] s ∧
    0 < s.active 0 ∧ 0 ∈ s.inuse ∧ Enabled s (.vput 0 0 false) ∧ step s (.vput 0 0 false) = some t ∧
    t.pc 0 = .deleting 0 ∧ ∀ vn', t.vnode 0 = some vn' → vn'.vnRefcount = 0 := by
  have h : Exec step Enabled smallCache [.vget 0 () 7 (some 0),.readDone 0,.pframeAlloc 0 1] _ := Exec.ofRun rfl
  obtain ⟨-,hactive,-,hstep⟩ := vnode_lifetime smallCache_initial h
  obtain ⟨t,ht,hzero,-⟩ := hstep (.vput 0 0 false) (by decide)
  have hpc : t.pc 0 = .deleting 0 := by
    cases ht
    rfl
  exact ⟨_,t,h,by decide,(hactive 0 (by decide)).1,by decide,ht,hpc,
    fun vn' hv' => (hzero 0 _ vn' rfl (by decide) hv').mpr ⟨0,hpc⟩⟩

/-! ### Waking -/

/-- `vget` is not asked, by a new call or one that begins its search again, for a vnode that
another thread is bringing in. -/
def NotBeingRead (s : Cache F I V G T) : Act F I V G T → Prop
  | .vget _ fs vno _ => ∀ y v, s.pc y = .reading v → ∀ vn ∈ s.vnode v, ¬ (vn.vnFs = fs ∧ vn.vnVno = vno)
  | _ => True

def QuietRun (s : Cache F I V G T) (a : Act F I V G T) : Prop := Enabled s a ∧ NotBeingRead s a

/-- Threads wait for vnodes that are being taken away only. -/
def Quiet (s : Cache F I V G T) : Prop :=
  ∀ v vn, s.vnode v = some vn → vn.vnWaitq ≠ [] → ∃ x, s.pc x = .deleting v

omit [DecidableEq F] [DecidableEq I] [DecidableEq V] [DecidableEq G] [DecidableEq T] in
theorem Stepped.quiet (h : Stepped s a t) (hs : Inv s) (hq : Quiet s) (ha : NotBeingRead s a) : Quiet t := by
  intro v vn' hv' hne
  have hdel : ∃ x, s.pc x = .deleting v := by
    rcases h.waiting v vn' hv' hne with ⟨x,fs,vno,new,rfl,vn,hv,hb,hfs,hvno⟩ | ⟨vn,hv,hw⟩
    · -- the vnode is busy, and not because it is being read
      obtain ⟨y,hread | hdel⟩ := (hs.busy v vn hv).mp hb
      · exact absurd ⟨hfs,hvno⟩ (ha y v hread vn hv)
      · exact ⟨y,hdel⟩
    · exact hq v vn hv hw
  obtain ⟨x,hx⟩ := hdel
  refine ⟨x,(h.deleting x v hx).resolve_left fun hf => ?_⟩
  -- otherwise the step would have freed the vnode
  have hmem : v ∈ s.inuse := (hs.mem v).mpr (hs.handled x v (.inr hx))
  exact (h.removed v hmem).mpr hf ((h.inv.mem v).mpr (by simp [hv']))

/-- When `vget` is never asked for a vnode that another thread is bringing in, a thread sleeps
in `vget` only on a vnode that is there and busy. -/
theorem asleep_only_while_busy (h0 : Initial s0) (h : Exec step QuietRun s0 as s) {x : T} {fs : F} {vno : I}
    (hx : s.pc x = .asleep fs vno v) : ∃ vn, s.vnode v = some vn ∧ x ∈ vn.vnWaitq ∧ vn.vnBusy = true := by
  have hboth : Inv s ∧ Quiet s := by
    clear hx
    induction h with
    | nil =>
      refine ⟨h0.inv,fun v vn hv => ?_⟩
      rw [h0.vnode] at hv
      cases hv
    | snoc _ ha hs ih =>
      have hstep := ih.1.stepped_of_step ha.1 hs
      exact ⟨hstep.inv,hstep.quiet ih.1 ih.2 ha.2⟩
  obtain ⟨hinv,hq⟩ := hboth
  obtain ⟨vn,hv,hmem⟩ := (hinv.queue v x).mpr ⟨fs,vno,hx⟩
  obtain ⟨y,hy⟩ := hq v vn hv (List.ne_nil_of_mem hmem)
  exact ⟨vn,hv,hmem,(hinv.busy v vn hv).mpr ⟨y,.inr hy⟩⟩

instance [Fintype V] [Fintype T] (s : Cache F I V G T) : ∀ a, Decidable (NotBeingRead s a) := by
  rintro ⟨⟩ <;> unfold NotBeingRead <;> infer_instance

instance [Fintype V] [Fintype T] (s : Cache F I V G T) (a : Act F I V G T) : Decidable (QuietRun s a) :=
  inferInstanceAs (Decidable (_ ∧ _))

/-- A thread asks for a vnode that another one takes away. -/
theorem asleep_only_while_busy_deleting : ∃ s,
    Exec step QuietRun smallCache [.vget 0 () 7 (some 0),.readDone 0,.vput 0 0 true,.vget 1 () 7 none] s ∧
    s.pc 1 = .asleep () 7 0 ∧ ∃ vn, s.vnode 0 = some vn ∧ 1 ∈ vn.vnWaitq ∧ vn.vnBusy = true := by
  have h : Exec step QuietRun smallCache
    [.vget 0 () 7 (some 0),.readDone 0,.vput 0 0 true,.vget 1 () 7 none] _ := Exec.ofRun rfl
  refine ⟨_,h,rfl,?_⟩
  apply asleep_only_while_busy smallCache_initial h
  show _ = Pc.asleep () 7 0
  rfl

/-- Two threads ask for the same vnode, and the one that brings it in does not wake the other. -/
theorem reader_wakes_nobody : ∃ s,
    Exec step Enabled smallCache [.vget 0 () 7 (some 0),.vget 1 () 7 none,.readDone 0] s ∧
    s.pc 1 = .asleep () 7 0 ∧ ∃ vn, s.vnode 0 = some vn ∧ 1 ∈ vn.vnWaitq ∧ vn.vnBusy = false := by
  have h : Exec step Enabled smallCache [.vget 0 () 7 (some 0),.vget 1 () 7 none,.readDone 0] _ := Exec.ofRun rfl
  exact ⟨_,h,rfl,_,rfl,by decide,rfl⟩

end Csci402.Fs.Cache
