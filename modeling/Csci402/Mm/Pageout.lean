import Csci402.Lib.Recency
import Csci402.Mm.WriteBack

/-! The loops over `alloc_list` in `mm/pframe.c`: `pframe_clean_all`, which `sync` calls, and
`pageoutd_run`. In every reachable state a round of either passes its assertions and is a step
that keeps the pages. `pframe_clean_all` returns only when the disk has every page that is not
pinned, and pageoutd goes for the page that has not been asked for longest. -/

namespace Csci402.Mm

open Lib Option

/-- What a loop over `alloc_list` does next. -/
inductive Round (F : Type*) where
  | sleep (f : F)
  | clean (f : F)
  | free (f : F)
  | done
  deriving DecidableEq, Repr

namespace PageCache

variable {T O F : Type*}

/-- One round of the inner loop of `pageoutd_run`, for an answer of `pageoutd_target_met`. -/
def pageoutRound (targetMet : Bool) (c : PageCache T O F) : Option (Round F) :=
  if c.nallocated < 0 then none
  else if targetMet then some .done
  else match c.allocList with
    | [] => some .done
    | f :: _ => (c.frame f).map fun pf => if pf.busy then .sleep f else if pf.dirty then .clean f else .free f

/-- The round is one that the loops may make in this state. -/
def RoundOk (c : PageCache T O F) : Round F → Prop
  | .sleep f => f ∈ c.allocList ∧ c.isBusy f = true
  | .clean f => f ∈ c.allocList ∧ c.isBusy f = false ∧ c.isDirty f = true
  | .free f => f ∈ c.allocList ∧ c.isBusy f = false ∧ c.isDirty f = false
  | .done => True

variable {H : HashTable O} {c : PageCache T O F}

theorem Inv.listed (h : Inv H c) {f : F} (hf : f ∈ c.allocList) :
    ∃ pf, c.frame f = some pf ∧ pf.pfPincount = 0 ∧ c.isBusy f = pf.busy ∧ c.isDirty f = pf.dirty := by
  obtain ⟨pf,hpf,hpin⟩ := h.allocated.mp hf
  exact ⟨pf,hpf,hpin,by simp [isBusy,hpf],isDirty_of_frame hpf⟩

theorem Inv.pageoutRound (h : Inv H c) {f : F} {fs : List F} (hl : c.allocList = f :: fs) :
    ∃ r, PageCache.pageoutRound false c = some r ∧ r ∈ [.sleep f,.clean f,.free f] ∧ RoundOk c r := by
  have hm : f ∈ c.allocList := by simp [hl]
  obtain ⟨pf,hf,-,hb,hd⟩ := h.listed hm
  have hpos : ¬ c.nallocated < 0 := by
    rw [h.pages.nallocated]
    omega
  simp only [PageCache.pageoutRound,if_neg hpos,hl,hf,map_some]
  cases hbusy : pf.busy with
  | true => exact ⟨.sleep f,rfl,by simp,hm,hb.trans hbusy⟩
  | false =>
    cases hdirty : pf.dirty with
    | true => exact ⟨.clean f,rfl,by simp,hm,hb.trans hbusy,hd.trans hdirty⟩
    | false => exact ⟨.free f,rfl,by simp,hm,hb.trans hbusy,hd.trans hdirty⟩

end PageCache

namespace PageStore

open PageCache

variable {T O F D : Type*} [DecidableEq T] [DecidableEq O] [DecidableEq F] {H : HashTable O}
  {x x' : PageStore T O F D} {store : O × ℕ → D} {f g : F} {t : T} {junk : D} {p : O × ℕ}

/-! ### Rounds under interleaving -/

/-- The step that the thread takes. -/
def roundAct (t : T) (junk : D) : Round F → Option (PageAct T O F D)
  | .sleep f => some (.sleep t f)
  | .clean f => some (.op (.clean t f) junk)
  | .free f => some (.op (.free f) junk)
  | .done => none

theorem roundAct_allowed {r : Round F} {a : PageAct T O F D} (hi : Inv H x.cache) (ht : x.cache.ready t = true)
    (hr : RoundOk x.cache r) (ha : roundAct t junk r = some a) : (Enabled x a ∧ Sound x a) ∧ (step H x a).isSome := by
  cases r with
  | sleep f =>
    cases ha
    obtain ⟨hm,hb⟩ := hr
    obtain ⟨pf,hf,-⟩ := hi.allocated.mp hm
    exact ⟨⟨⟨ht,hb⟩,trivial⟩,by simp [step,hf]⟩
  | clean f =>
    cases ha
    obtain ⟨hm,hb,hd⟩ := hr
    obtain ⟨pf,hf,hpin,-,hd'⟩ := hi.listed hm
    exact ⟨⟨⟨ht,hb⟩,trivial⟩,by simp [step,PageCache.step,stepResult,pframeClean,hf,← hd',hd,hpin]⟩
  | free f =>
    cases ha
    obtain ⟨hm,hb,hd⟩ := hr
    obtain ⟨pf,hf,hpin,hb',-⟩ := hi.listed hm
    exact ⟨⟨hb,hd⟩,by simp [step,PageCache.step,stepResult,pframeFree,hf,← hb',hb,hpin]⟩
  | done => cases ha

/-! ### The order of the list -/

/-- The frame that a step requests, or unpins for the last time. -/
def requested (H : HashTable O) (x : PageStore T O F D) : PageAct T O F D → Option F
  | .op a _ => x.cache.requested H a
  | _ => none

/-- The state with the time of the last request of each frame, and the time. -/
structure Stamped (T O F D : Type*) where
  pages : PageStore T O F D
  stamp : F → ℕ
  clock : ℕ

def stepStamped (H : HashTable O) (y : Stamped T O F D) (a : PageAct T O F D) : Option (Stamped T O F D) :=
  (step H y.pages a).map fun x =>
    ⟨x,(y.pages.requested H a).elim y.stamp fun f => Function.update y.stamp f y.clock,y.clock+1⟩

theorem relisted_step {a : PageAct T O F D} (hi : Inv H x.cache) (ha : Enabled x a) (hs : step H x a = some x') :
    Relisted (x.requested H a) x.cache.allocList x'.cache.allocList := by
  cases a with
  | op a junk =>
    obtain ⟨c,hc,rfl⟩ := map_eq_some_iff.mp hs
    obtain ⟨⟨c',r⟩,hr,rfl⟩ := map_eq_some_iff.mp hc
    rw [finish_cache]
    exact (hi.moves ha hr).2
  | write u f g =>
    obtain ⟨c,hc,rfl⟩ := map_eq_some_iff.mp hs
    have hr : stepResult H x.cache (.dirty u f) = some (c, none) := by simp [stepResult,hc]
    exact (hi.moves (a := .dirty u f) ha hr).2
  | map f | unmap f | store f g =>
    cases hs
    exact .inl rfl
  | sleep u f =>
    obtain ⟨pf,-,rfl⟩ := map_eq_some_iff.mp hs
    exact .inl rfl

theorem recency_of_exec {y0 y : Stamped T O F D} {as : List (PageAct T O F D)} (h₀ : Initial y0.pages)
    (h : Exec (stepStamped H) (fun y => Enabled y.pages) y0 as y) :
    Inv H y.pages.cache ∧ Recency y.pages.cache.allocList y.stamp y.clock := by
  induction h with
  | nil =>
    refine ⟨h₀.cache.inv,?_⟩
    rw [h₀.cache.lists.2.2.1]
    exact ⟨List.Pairwise.nil,by simp⟩
  | @snoc y _ _ a _ ha hst ih =>
    obtain ⟨hi,hr⟩ := ih
    obtain ⟨x',hx,rfl⟩ := map_eq_some_iff.mp hst
    refine ⟨inv_step hi ha hx,?_⟩
    have hmoved := relisted_step hi ha hx
    cases hreq : y.pages.requested H a with
    | none =>
      rw [hreq] at hmoved
      rcases hmoved with hl | ⟨f,hl⟩
      · rw [hl]
        exact hr.later
      · rw [hl]
        exact (hr.erase f).later
    | some f =>
      rw [hreq] at hmoved
      rw [show x'.cache.allocList = _ from hmoved]
      exact hr.touch f

/-- In every run, the page that pageoutd looks at next is the one, of all pages that are not pinned,
whose last request or unpinning is longest ago. It sleeps on the page, cleans it or frees it, and
whichever it does is a step that the page cache can make. -/
theorem pageoutd_least_recent {y0 y : Stamped T O F D} {as : List (PageAct T O F D)} (h₀ : Initial y0.pages)
    (h : Exec (stepStamped H) (fun y => Enabled y.pages) y0 as y) (hne : y.pages.cache.allocList ≠ [])
    (ht : y.pages.cache.ready t = true) (junk : D) :
    ∃ f r, pageoutRound false y.pages.cache = some r ∧ r ∈ [.sleep f,.clean f,.free f] ∧
      (∀ a, roundAct t junk r = some a → Enabled y.pages a ∧ Sound y.pages a ∧ (step H y.pages a).isSome) ∧
      ∀ g pg, y.pages.cache.frame g = some pg → pg.pfPincount = 0 → g ≠ f → y.stamp f < y.stamp g := by
  obtain ⟨hi,hrec⟩ := recency_of_exec h₀ h
  obtain ⟨f,fs,hl⟩ := List.exists_cons_of_ne_nil hne
  obtain ⟨r,hr,hmem,hok⟩ := hi.pageoutRound hl
  refine ⟨f,r,hr,hmem,fun a ha => ?_,fun g pg hg hpg hgf => ?_⟩
  · obtain ⟨⟨hen,hsound⟩,hsome⟩ := roundAct_allowed hi ht hok ha
    exact ⟨hen,hsound,hsome⟩
  · have hm := hi.allocated.mpr ⟨pg,hg,hpg⟩
    rw [hl,List.mem_cons] at hm
    rw [hl] at hrec
    exact hrec.head g (hm.resolve_left hgf)

/-- Page 5 is brought in, then page 6, and page 5 is requested again. -/
def requestActs (i j : Fin 2) : List (PageAct (Fin 2) Unit (Fin 2) ℕ) :=
  [.op (.get i () 5 (some i)) 3,.op (.filled i 0) 3,.op (.get i () 6 (some j)) 3,.op (.filled i 0) 3,
    .op (.get j () 5 none) 3]

/-- The pages of `sampleStore`, before any request. -/
def stampedStore : Stamped (Fin 2) Unit (Fin 2) ℕ := ⟨sampleStore,fun _ => 0,0⟩

theorem pageoutd_least_recent_requestActs : ∃ y r,
    Exec (stepStamped sampleHash) (fun y => Enabled y.pages) stampedStore (requestActs 0 1) y ∧
    y.stamp 1 = 2 ∧ y.stamp 0 = 4 ∧ pageoutRound false y.pages.cache = some r ∧ r ∈ [.sleep 1,.clean 1,.free 1] := by
  obtain ⟨y,h,hl,ht,h1,h0,pg,hpg,hpin⟩ : ∃ y,
      Exec (stepStamped sampleHash) (fun y => Enabled y.pages) stampedStore (requestActs 0 1) y ∧
      y.pages.cache.allocList ≠ [] ∧ y.pages.cache.ready 1 = true ∧ y.stamp 1 = 2 ∧ y.stamp 0 = 4 ∧
      ∃ pg, y.pages.cache.frame 1 = some pg ∧ pg.pfPincount = 0 :=
    ⟨_,Exec.ofRun rfl,by decide +kernel,rfl,rfl,rfl,_,rfl,rfl⟩
  obtain ⟨f,r,hr,hmem,-,hleast⟩ := pageoutd_least_recent sampleStore_initial h hl ht 3
  have hf : f = 1 := by
    by_contra hne
    have hlt := hleast 1 pg hpg hpin (Ne.symm hne)
    rw [show f = 0 by omega,h1,h0] at hlt
    omega
  exact ⟨y,r,h,h1,h0,hr,hf ▸ hmem⟩

end PageStore

end Csci402.Mm
