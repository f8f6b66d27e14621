import Csci402.Lib.Run
import Csci402.Mm.PframeOps

/-! Runs of the page cache. Each function keeps the invariants, whatever other threads
have done since the calling thread last blocked, so they hold in every reachable
state; and a successful `pframe_get` has the one frame of its page, not busy. -/

namespace Csci402.Mm.PageCache

open Lib Function Option List

variable {T O F : Type*} [DecidableEq F] {H : HashTable O}
  {s s' : PageCache T O F} {f : F} {pf : Pframe O T} {t : T}

/-! ### The functions -/

theorem Inv.pin (h : Inv H s) (hs : pframePin f s = some s') : Inv H s' := by
  obtain ⟨pf,hf,hs⟩ := bind_eq_some_iff.mp hs
  have hc := h.pages.pincount f pf hf
  split at hs
  · cases hs
  · split at hs
    next hp =>
      cases hs
      refine h.withFrame hf { pf with pfPincount := pf.pfPincount+1 } rfl rfl rfl rfl rfl ?_ rfl rfl rfl rfl rfl
      have hpos : 0 < pf.pfPincount+1 := by omega
      exact h.pages.setFrame hf _ (by simp [hpos,show 0 < pf.pfPincount from hp]) (Int.le_of_lt hpos)
    next hp =>
      cases hs
      obtain ⟨ha,hn⟩ := h.pages.length_unpinned hf hp
      refine h.withFrame hf { pf with pfPincount := pf.pfPincount+1 } rfl rfl rfl rfl rfl ?_ rfl rfl rfl rfl rfl
      refine h.pages.relink rfl (by simp; omega) (b := true) (by simp; omega) ?_ ?_ ?_
      · exact pages_linkPinned s f
      · exact ha.symm
      · simp [setFrame,linkPinned,removeLink,hn]

theorem Inv.unpin (h : Inv H s) (hs : pframeUnpin f s = some s') : Inv H s' := by
  obtain ⟨pf,hf,hs⟩ := bind_eq_some_iff.mp hs
  split at hs
  · cases hs
  next hp =>
    have hp : 0 < pf.pfPincount := by omega
    obtain ⟨ha,hn⟩ := h.pages.length_pinned hf hp
    split at hs
    next hz =>
      cases hs
      refine h.withFrame hf { pf with pfPincount := pf.pfPincount - 1 } rfl rfl rfl rfl rfl ?_ rfl rfl rfl rfl rfl
      refine h.pages.relink rfl (by simp; omega) (b := false) (by simp; omega) ?_ ?_ ?_
      · exact pages_linkAlloc s f
      · simp [setFrame,linkAlloc,removeLink,ha]
      · exact hn.symm
    · cases hs
      refine h.withFrame hf { pf with pfPincount := pf.pfPincount - 1 } rfl rfl rfl rfl rfl ?_ rfl rfl rfl rfl rfl
      exact h.pages.setFrame hf _ (by simp; omega) (by simp; omega)

variable [DecidableEq O]

/-- A new frame for a page that is not resident. -/
theorem Inv.alloc (h : Inv H s) {o : O} {n : ℕ} (hf : s.frame f = none)
    (hnew : ∀ g, s.identity g ≠ some (o, n)) : Inv H (pframeAlloc H o n f s) := by
  have hframe : (pframeAlloc H o n f s).frame =
      update s.frame f (some ⟨o,n,0,false,false,[]⟩) := rfl
  have hbusy : (pframeAlloc H o n f s).isBusy = s.isBusy := by
    rw [isBusy_update hframe,update_eq_self_iff]
    simp [isBusy,hf]
  have hsl : (pframeAlloc H o n f s).sleepers = s.sleepers := by
    rw [sleepers_update hframe,update_eq_self_iff]
    simp [sleepers,hf]
  refine ⟨h.ids.alloc hf fun g pg hg he => ?_,⟨?_,?_,h.pages.npinned,fun g pg hg => ?_⟩,?_,
    fun u o' n' g hg => ?_⟩
  · exact hnew g (by simp [identity,hg,he.1,he.2])
  · have hi := h.pages.page.insert (e := f) (by simp [pinKey,hf]) false
      (perm_append_singleton f _)
    have hp : (pframeAlloc H o n f s).pages =
        update s.pages false (s.pages false ++ [f]) := by
      funext b
      cases b <;> rfl
    rw [hp,hframe,pinKey_update]
    exact hi
  · simp [pframeAlloc,h.pages.nallocated]
  · rw [hframe] at hg
    rcases update_cases hg with ⟨-,hpg⟩ | ⟨-,hpg⟩
    · cases hpg
      exact Int.le_refl _
    · exact h.pages.pincount g pg hpg
  · rw [hbusy,hsl]
    exact h.threads
  · have hne : g ≠ f := by
      rintro rfl
      simpa [identity,hf] using h.filling u o' n' g hg
    rw [identity_update hframe,update_of_ne hne]
    exact h.filling u o' n' g hg

theorem Inv.free (h : Inv H s) (hs : pframeFree f s = some s') : Inv H s' := by
  obtain ⟨pf,hf,hs⟩ := bind_eq_some_iff.mp hs
  split at hs
  · cases hs
  next hpb =>
    rw [not_or] at hpb
    obtain ⟨hp,hb⟩ := hpb
    have hidle : s.isBusy f = false := by simpa [isBusy,hf] using hb
    obtain ⟨ha,hn⟩ := h.pages.length_unpinned hf hp
    cases hs
    -- nobody sleeps on the frame and no pending call refers to it
    have hempty : s.sleepers f = [] := by
      by_contra hne
      simpa [hidle] using h.threads.asleep f hne
    refine ⟨h.ids.free hf,⟨?_,ha.symm,hn.symm,fun g pg hg => ?_⟩,?_,fun u o n g hg => ?_⟩
    · have hi := h.pages.page.erase f
      rw [← pages_removeLink] at hi
      show Indexed _ (pinKey (update s.frame f none))
      rw [pinKey_update]
      exact hi
    · obtain ⟨-,hpg⟩ := (update_cases hg).resolve_left (by simp)
      exact h.pages.pincount g pg hpg
    · have hbusy : isBusy { s with frame := update s.frame f none } = s.isBusy := by
        rw [isBusy_update rfl,update_eq_self_iff]
        simp [hidle]
      have hsl : sleepers { s with frame := update s.frame f none } = s.sleepers := by
        rw [sleepers_update rfl,update_eq_self_iff]
        exact hempty.symm
      show BusyInv s.held (sleepers { s with frame := update s.frame f none })
        (isBusy { s with frame := update s.frame f none }) s.ktWchan
      rw [hbusy,hsl]
      exact h.threads
    · have hne : g ≠ f := by
        rintro rfl
        exact h.threads.notMem_held hidle u (mem_held_of_filling hg)
      show identity { s with frame := update s.frame f none } g = _
      rw [identity_update rfl,update_of_ne hne]
      exact h.filling u o n g hg

variable [DecidableEq T]

/-- One round of `pframe_get`: what it returns is the frame of the page. -/
theorem Inv.get (h : Inv H s) (ht : s.ktWchan t = none) {mem : Option F} (hm : s.fresh mem = true) {o : O}
    {n : ℕ} {r : Option F} (hg : pframeGet H t o n mem s = some (s', r)) :
    Inv H s' ∧ ∀ f, r = some f → s'.identity f = some (o, n) ∧ s'.isBusy f = false := by
  obtain ⟨r1,s1,hr,hi,hfr,hst,hwc,hfound,hnone⟩ := h.getResident o n
  have hid : s1.identity = s.identity := by funext g; rw [identity,identity,hfr]
  rw [pframeGet,hr] at hg
  cases r1 with
  | some f =>
    obtain ⟨pf,hf,hg⟩ := bind_eq_some_iff.mp hg
    split at hg
    · cases hg
      exact ⟨hi.sleepOn hf ‹_› (hwc ▸ ht) o n,by simp⟩
    next hb =>
      cases hg
      refine ⟨hi,fun g hgf => ?_⟩
      cases hgf
      exact ⟨hid ▸ hfound f rfl,by simpa [isBusy,hf] using hb⟩
  | none =>
    cases mem with
    | none =>
      cases hg
      exact ⟨hi,by simp⟩
    | some f =>
      have hf : s1.frame f = none := by
        rw [hfr]
        simpa [fresh] using hm
      have ha := hi.alloc hf (hid ▸ hnone rfl)
      have hpf : (pframeAlloc H o n f s1).frame f = some ⟨o,n,0,false,false,[]⟩ := by
        simp [pframeAlloc]
      simp only [hpf,map_some,some.injEq,Prod.mk.injEq] at hg
      obtain ⟨rfl,rfl⟩ := hg
      refine ⟨ha.beginOp hpf rfl rfl rfl rfl rfl rfl fun o' n' g he => ?_,by simp⟩
      cases he
      rfl

omit [DecidableEq O] in
theorem Inv.filled (h : Inv H s) {ret : ℤ} {o : O} {n : ℕ} {g : F} {st : List (Pending O F)}
    (hst : s.stack t = .filling o n g :: st) {r : Option F} (hs : pframeFilled t ret s = some (s', r)) :
    Inv H s' ∧ ∀ f, r = some f → s'.identity f = some (o, n) ∧ s'.isBusy f = false := by
  simp only [pframeFilled,hst,map_eq_some_iff,Prod.mk.injEq] at hs
  obtain ⟨pf,hf,rfl,rfl⟩ := hs
  refine ⟨h.endOp hst rfl hf rfl rfl rfl rfl,fun f hr => ?_⟩
  split at hr
  · cases hr
  · cases hr
    have hid := h.filling t o n g (by simp [hst])
    simp only [identity,hf,map_some] at hid
    exact ⟨by simpa [identity,setStack,clearBusy,setFrame] using hid,
      by simp [isBusy,setStack,clearBusy,setFrame]⟩

/-! ### Runs -/

omit [DecidableEq O] [DecidableEq T] [DecidableEq F] in
theorem ready_wchan (h : s.ready t = true) : s.ktWchan t = none := by
  simp only [ready,decide_eq_true_eq] at h
  exact h.1

/-- Every allowed step keeps the invariant, and what `pframe_get` returns is right. -/
theorem Inv.stepResult (h : Inv H s) {a : Op T O F} (ha : Enabled s a) {r : Option (O × ℕ × F)}
    (hs : PageCache.stepResult H s a = some (s', r)) :
    Inv H s' ∧ ∀ o n f, r = some (o, n, f) → s'.identity f = some (o, n) ∧ s'.isBusy f = false := by
  have plain : ∀ {x : Option (PageCache T O F)}, x.map (·, (none : Option (O × ℕ × F))) = some (s', r) →
      x = some s' ∧ r = none := fun hx => by
    obtain ⟨y,hy,he⟩ := map_eq_some_iff.mp hx
    cases he
    exact ⟨hy,rfl⟩
  cases a with
  | getResident o n =>
    cases hs
    obtain ⟨_,_,hr,hi,-⟩ := h.getResident o n
    exact ⟨hr ▸ hi,by simp⟩
  | get t o n mem =>
    obtain ⟨⟨s1,r1⟩,hg,he⟩ := map_eq_some_iff.mp hs
    cases he
    obtain ⟨hi,hr⟩ := h.get (ready_wchan ha.1) ha.2 hg
    refine ⟨hi,fun o' n' f hf => ?_⟩
    obtain ⟨g,hg,he⟩ := map_eq_some_iff.mp hf
    cases he
    exact hr f hg
  | woken t mem =>
    simp only [PageCache.stepResult] at hs
    split at hs
    next o n st hst =>
      obtain ⟨⟨s1,r1⟩,hg,he⟩ := map_eq_some_iff.mp hs
      cases he
      obtain ⟨hi,hr⟩ := (h.popGetting hst).get ha.1 ha.2 hg
      refine ⟨hi,fun o' n' f hf => ?_⟩
      obtain ⟨g,hg,he⟩ := map_eq_some_iff.mp hf
      cases he
      exact hr f hg
    · cases hs
  | filled t ret =>
    simp only [PageCache.stepResult] at hs
    split at hs
    next o n g st hst =>
      obtain ⟨⟨s1,r1⟩,hg,he⟩ := map_eq_some_iff.mp hs
      cases he
      obtain ⟨hi,hr⟩ := h.filled hst hg
      refine ⟨hi,fun o' n' f hf => ?_⟩
      obtain ⟨g,hg,he⟩ := map_eq_some_iff.mp hf
      cases he
      exact hr f hg
    · cases hs
  | pin t f =>
    obtain ⟨hs1,rfl⟩ := plain hs
    exact ⟨h.pin hs1,by simp⟩
  | unpin f =>
    obtain ⟨hs1,rfl⟩ := plain hs
    exact ⟨h.unpin hs1,by simp⟩
  | dirty t f =>
    obtain ⟨hs1,rfl⟩ := plain hs
    obtain ⟨pf,hf,hs2⟩ := bind_eq_some_iff.mp hs1
    split at hs2
    · cases hs2
    · cases hs2
      exact ⟨h.beginOp hf (by simpa [isBusy,hf] using ha.2) rfl rfl rfl rfl rfl (by simp),by simp⟩
  | dirtied t ret =>
    obtain ⟨hs1,rfl⟩ := plain hs
    simp only [pframeDirtied] at hs1
    split at hs1
    next f st hst =>
      obtain ⟨pf,hf,rfl⟩ := map_eq_some_iff.mp hs1
      exact ⟨h.endOp hst rfl hf rfl rfl rfl rfl,by simp⟩
    · cases hs1
  | clean t f =>
    obtain ⟨hs1,rfl⟩ := plain hs
    obtain ⟨pf,hf,hs2⟩ := bind_eq_some_iff.mp hs1
    split at hs2
    · cases hs2
    · cases hs2
      exact ⟨h.beginOp hf (by simpa [isBusy,hf] using ha.2) rfl rfl rfl rfl rfl (by simp),by simp⟩
  | cleaned t ret =>
    obtain ⟨hs1,rfl⟩ := plain hs
    simp only [pframeCleaned] at hs1
    split at hs1
    next f st hst =>
      obtain ⟨pf,hf,rfl⟩ := map_eq_some_iff.mp hs1
      exact ⟨h.endOp hst rfl hf rfl rfl rfl rfl,by simp⟩
    · cases hs1
  | free f =>
    obtain ⟨hs1,rfl⟩ := plain hs
    exact ⟨h.free hs1,by simp⟩

/-- The cache after `pframe_init`. -/
structure Initial (s : PageCache T O F) : Prop where
  frame : ∀ f, s.frame f = none
  lists : (∀ b, s.pframeHash b = []) ∧ (∀ o, s.mmoRespages o = []) ∧ s.allocList = [] ∧
    s.pinnedList = []
  counts : (∀ o, s.mmoNrespages o = 0) ∧ s.nallocated = 0 ∧ s.npinned = 0
  threads : ∀ t, s.ktWchan t = none ∧ s.stack t = []

omit [DecidableEq T] [DecidableEq O] [DecidableEq F] in
theorem Initial.inv (h : Initial s) : Inv H s := by
  obtain ⟨hhash,hresp,halloc,hpin⟩ := h.lists
  obtain ⟨hnr,hna,hnp⟩ := h.counts
  have hpages : ∀ b, s.pages b = [] := fun b => by cases b <;> assumption
  refine ⟨⟨?_,?_,?_,?_⟩,⟨?_,?_,?_,?_⟩,⟨⟨fun _ => none,?_,by simp⟩,?_,?_⟩,?_⟩
  all_goals simp [Indexed,chainKey,objKey,pinKey,held,sleepers,h.frame,hhash,hresp,halloc,
    hpin,hnr,hna,hnp,hpages,(h.threads _).1,(h.threads _).2]

theorem inv_of_exec {s0 : PageCache T O F} {as : List (Op T O F)} (h0 : Initial s0)
    (h : Exec (step H) Enabled s0 as s) : Inv H s :=
  h.invariant h0.inv fun _ _ _ hi ha hs => by
    obtain ⟨⟨s1,r⟩,hr,rfl⟩ := map_eq_some_iff.mp hs
    exact (hi.stepResult ha hr).1

/-- The page cache in every reachable state: one frame for a page, the frames in use on
exactly the lists where they belong, the counts, threads asleep on busy frames only,
and what a successful `pframe_get` returns. -/
theorem page_cache {s0 : PageCache T O F} {as : List (Op T O F)} (h0 : Initial s0)
    (h : Exec (step H) Enabled s0 as s) :
    (∀ f g pf pg, s.frame f = some pf → s.frame g = some pg → pf.pfObj = pg.pfObj →
      pf.pfPagenum = pg.pfPagenum → f = g) ∧
    (∀ f b, (s.pframeHash b).count f =
      if (s.frame f).any (fun pf => H.hashPage pf.pfObj pf.pfPagenum = b) then 1 else 0) ∧
    (∀ f o, (s.mmoRespages o).count f = if (s.frame f).any (·.pfObj = o) then 1 else 0) ∧
    (∀ o, s.mmoNrespages o = (s.mmoRespages o).length) ∧
    (∀ f, s.pinnedList.count f = if (s.frame f).any (0 < ·.pfPincount) then 1 else 0) ∧
    (∀ f, s.allocList.count f = if (s.frame f).any (·.pfPincount = 0) then 1 else 0) ∧
    s.npinned = s.pinnedList.length ∧ s.nallocated = s.allocList.length ∧
    (∀ t f, s.ktWchan t = some f → ∃ pf, s.frame f = some pf ∧ t ∈ pf.pfWaitq ∧ pf.busy = true) ∧
    (∀ f pf, s.frame f = some pf → ∀ t ∈ pf.pfWaitq, pf.busy = true ∧ s.ktWchan t = some f) ∧
    (∀ a s' o n f, Enabled s a → stepResult H s a = some (s', some (o, n, f)) →
      ∃ pf, s'.frame f = some pf ∧ pf.pfObj = o ∧ pf.pfPagenum = n ∧ pf.busy = false ∧
        ∀ g pg, s'.frame g = some pg → pg.pfObj = o → pg.pfPagenum = n → g = f) := by
  have hi := inv_of_exec h0 h
  have hpos := hi.pages.pincount
  refine ⟨hi.ids.unique,fun f b => ?_,fun f o => ?_,hi.ids.nrespages,fun f => ?_,fun f => ?_,
    hi.pages.npinned,hi.pages.nallocated,fun t f hw => ?_,fun f pf hf t ht => ?_,
    fun a s' o n f ha hs => ?_⟩
  · rw [hi.ids.chain.count]
    cases hf : s.frame f <;> simp [chainKey,hf]
  · rw [hi.ids.respages.count]
    cases hf : s.frame f <;> simp [objKey,hf]
  · rw [← show s.pages true = s.pinnedList from rfl,hi.pages.page.count]
    cases hf : s.frame f <;> simp [pinKey,hf]
  · rw [← show s.pages false = s.allocList from rfl,hi.pages.page.count]
    cases hf : s.frame f with
    | none => simp [pinKey,hf]
    | some pf =>
      have := hpos f pf hf
      have hz : ¬ 0 < pf.pfPincount ↔ pf.pfPincount = 0 := by omega
      simp [pinKey,hf,← hz]
  · have hm : t ∈ s.sleepers f := hi.threads.waits.mem.mpr hw
    have hb := hi.threads.asleep f (ne_nil_of_mem hm)
    cases hf : s.frame f with
    | none => simp [sleepers,hf] at hm
    | some pf => exact ⟨pf,rfl,by simpa [sleepers,hf] using hm,by simpa [isBusy,hf] using hb⟩
  · have hm : t ∈ s.sleepers f := by simpa [sleepers,hf] using ht
    have hb := hi.threads.asleep f (ne_nil_of_mem hm)
    exact ⟨by simpa [isBusy,hf] using hb,hi.threads.waits.mem.mp hm⟩
  · obtain ⟨hi',hr⟩ := hi.stepResult ha hs
    obtain ⟨hid,hb⟩ := hr o n f rfl
    obtain ⟨pf,hf,he⟩ := map_eq_some_iff.mp hid
    cases he
    exact ⟨pf,hf,rfl,rfl,by simpa [isBusy,hf] using hb,
      fun g pg hg ho hn => hi'.ids.unique g f pg pf hg hf ho hn⟩

/-- One object, two threads, two frames. -/
def sampleCache : PageCache (Fin 2) Unit (Fin 2) where
  frame _ := none
  pframeHash _ := []
  mmoRespages _ := []
  mmoNrespages _ := 0
  mmoRefcount _ := 0
  allocList := []
  nallocated := 0
  pinnedList := []
  npinned := 0
  ktWchan _ := none
  stack _ := []

theorem sampleCache_initial : Initial sampleCache :=
  ⟨fun _ => rfl,⟨fun _ => rfl,fun _ => rfl,rfl,rfl⟩,⟨fun _ => rfl,rfl,rfl⟩,fun _ => ⟨rfl,rfl⟩⟩

/-- Thread 0 fills page 5 and pins its frame meanwhile, thread 1 waits for it and
dirties it. -/
def sampleOps : List (Op (Fin 2) Unit (Fin 2)) :=
  [.get 0 () 5 (some 0),.get 1 () 5 (some 1),.pin 0 0,.filled 0 0,.woken 1 none,.dirty 1 0,
    .dirtied 1 0,.unpin 0,.get 0 () 6 (some 1)]

theorem page_cache_sampleOps : ∃ s, Exec (step ⟨fun _ => 0,7⟩) Enabled sampleCache sampleOps s ∧
      s.allocList = [0,1] ∧ s.isBusy 1 = true ∧ s.nallocated = s.allocList.length := by
  have h : Exec (step ⟨fun _ => 0,7⟩) Enabled sampleCache sampleOps _ := Exec.ofRun rfl
  exact ⟨_,h,rfl,rfl,(page_cache sampleCache_initial h).2.2.2.2.2.2.2.1⟩

end Csci402.Mm.PageCache
