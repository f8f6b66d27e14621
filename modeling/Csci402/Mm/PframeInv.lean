import Csci402.Lib.Indexed
import Csci402.Mm.Pframe

/-! The invariants of the page cache. The first part ties the four lists and the four
counts to the frames in use and makes the frame of a page unique; the second says that
a busy frame is kept busy by one pending call and that threads sleep on busy frames
only. Each elementary change of the state keeps both. -/

namespace Csci402.Mm.PageCache

open Lib Function

variable {T O F : Type*}

/-- Where the links of a frame are, by the frame's fields. -/
def chainKey (H : HashTable O) (fr : F → Option (Pframe O T)) (f : F) : Option ℕ :=
  (fr f).map fun pf => H.hashPage pf.pfObj pf.pfPagenum

def objKey (fr : F → Option (Pframe O T)) (f : F) : Option O := (fr f).map (·.pfObj)

def pinKey (fr : F → Option (Pframe O T)) (f : F) : Option Bool :=
  (fr f).map fun pf => decide (0 < pf.pfPincount)

/-- The two lists that `pf_link` can be in, by whether the frame is pinned. -/
def pages (s : PageCache T O F) : Bool → List F
  | true => s.pinnedList
  | false => s.allocList

/-- The containers that know a frame by its identity. -/
structure IdInv (H : HashTable O) (fr : F → Option (Pframe O T)) (hash : ℕ → List F)
    (resp : O → List F) (nresp : O → ℤ) : Prop where
  chain : Indexed hash (chainKey H fr)
  respages : Indexed resp (objKey fr)
  nrespages : ∀ o, nresp o = (resp o).length
  unique : ∀ f g pf pg, fr f = some pf → fr g = some pg →
    pf.pfObj = pg.pfObj → pf.pfPagenum = pg.pfPagenum → f = g

/-- The two lists of pages and their sizes. -/
structure PageInv (s : PageCache T O F) : Prop where
  page : Indexed s.pages (pinKey s.frame)
  nallocated : s.nallocated = s.allocList.length
  npinned : s.npinned = s.pinnedList.length
  pincount : ∀ f pf, s.frame f = some pf → 0 ≤ pf.pfPincount

/-- The frames that the pending calls of a thread keep busy. -/
def held (s : PageCache T O F) (t : T) : List F := (s.stack t).filterMap Pending.frame

/-- The threads that sleep on a frame. -/
def sleepers (s : PageCache T O F) (f : F) : List T := (s.frame f).elim [] (·.pfWaitq)

/-- A pending call keeps its frame busy, no two of them the same frame, and threads
sleep on busy frames only. -/
structure BusyInv (held : T → List F) (sleepers : F → List T) (busy : F → Bool) (wchan : T → Option F) : Prop where
  owner : ∃ owner, Indexed held owner ∧ ∀ f, owner f ≠ none → busy f = true
  waits : Indexed sleepers wchan
  asleep : ∀ f, sleepers f ≠ [] → busy f = true

/-- The identity of a frame in use. -/
def identity (s : PageCache T O F) (f : F) : Option (O × ℕ) :=
  (s.frame f).map fun pf => (pf.pfObj, pf.pfPagenum)

structure Inv (H : HashTable O) (s : PageCache T O F) : Prop where
  ids : IdInv H s.frame s.pframeHash s.mmoRespages s.mmoNrespages
  pages : PageInv s
  threads : BusyInv s.held s.sleepers s.isBusy s.ktWchan
  filling : ∀ t o n f, .filling o n f ∈ s.stack t → s.identity f = some (o, n)

variable [DecidableEq F] {H : HashTable O}
  {s : PageCache T O F} {f : F} {pf pf' : Pframe O T}

/-! ### The lists -/

/-- The three keys after the record of one frame has been changed. -/
theorem map_update {β : Type*} (fr : F → Option (Pframe O T)) (f : F) (r : Option (Pframe O T)) (g : Pframe O T → β) :
    (fun x => (update fr f r x).map g) =
      update (fun x => (fr x).map g) f (r.map g) := by
  funext x
  by_cases hx : x = f
  · subst hx; simp
  · simp [hx]

theorem chainKey_update (fr : F → Option (Pframe O T)) (f : F) (r : Option (Pframe O T)) :
    chainKey H (update fr f r) = update (chainKey H fr) f
      (r.map fun pf => H.hashPage pf.pfObj pf.pfPagenum) := map_update fr f r _

theorem objKey_update (fr : F → Option (Pframe O T)) (f : F) (r : Option (Pframe O T)) :
    objKey (update fr f r) = update (objKey fr) f (r.map (·.pfObj)) :=
  map_update fr f r _

theorem pinKey_update (fr : F → Option (Pframe O T)) (f : F) (r : Option (Pframe O T)) :
    pinKey (update fr f r) = update (pinKey fr) f
      (r.map fun pf => decide (0 < pf.pfPincount)) := map_update fr f r _

theorem update_cases {fr : F → Option (Pframe O T)} {r : Option (Pframe O T)} {g : F}
    {pg : Pframe O T} (h : update fr f r g = some pg) : g = f ∧ r = some pg ∨ g ≠ f ∧ fr g = some pg := by
  by_cases hg : g = f
  · subst hg
    exact .inl ⟨rfl,by simpa using h⟩
  · exact .inr ⟨hg,by simpa [hg] using h⟩

section Ids

variable {fr : F → Option (Pframe O T)} {hash : ℕ → List F} {resp : O → List F} {nresp : O → ℤ}

/-- A change of anything but the identity is not seen by these containers. -/
theorem IdInv.setFrame (h : IdInv H fr hash resp nresp) (hf : fr f = some pf)
    (ho : pf'.pfObj = pf.pfObj) (hn : pf'.pfPagenum = pf.pfPagenum) :
    IdInv H (update fr f (some pf')) hash resp nresp := by
  have hk : chainKey H (update fr f (some pf')) = chainKey H fr := by
    rw [chainKey_update,update_eq_self_iff]
    simp [chainKey,hf,ho,hn]
  have hr : objKey (update fr f (some pf')) = objKey fr := by
    rw [objKey_update,update_eq_self_iff]
    simp [objKey,hf,ho]
  have old : ∀ {g pg}, update fr f (some pf') g = some pg →
      ∃ pg', fr g = some pg' ∧ pg'.pfObj = pg.pfObj ∧ pg'.pfPagenum = pg.pfPagenum := by
    intro g pg hg
    rcases update_cases hg with ⟨rfl,hpg⟩ | ⟨-,hpg⟩
    · cases hpg
      exact ⟨pf,hf,ho.symm,hn.symm⟩
    · exact ⟨pg,hpg,rfl,rfl⟩
  refine ⟨hk.symm ▸ h.chain,hr.symm ▸ h.respages,h.nrespages,fun g1 g2 p1 p2 h1 h2 hobj hnum => ?_⟩
  obtain ⟨q1,hq1,ho1,hn1⟩ := old h1
  obtain ⟨q2,hq2,ho2,hn2⟩ := old h2
  exact h.unique g1 g2 q1 q2 hq1 hq2 (by rw [ho1,ho2,hobj]) (by rw [hn1,hn2,hnum])

variable [DecidableEq O]

/-- A new frame for a page that is not resident. -/
theorem IdInv.alloc (h : IdInv H fr hash resp nresp) (hf : fr f = none)
    (hnew : ∀ g pg, fr g = some pg → ¬ (pg.pfObj = pf.pfObj ∧ pg.pfPagenum = pf.pfPagenum)) :
    IdInv H (update fr f (some pf))
      (update hash (H.hashPage pf.pfObj pf.pfPagenum)
        (f :: hash (H.hashPage pf.pfObj pf.pfPagenum)))
      (update resp pf.pfObj (f :: resp pf.pfObj))
      (update nresp pf.pfObj (nresp pf.pfObj+1)) where
  chain := by
    rw [chainKey_update]
    exact h.chain.insert (by simp [chainKey,hf]) _ (.refl _)
  respages := by
    rw [objKey_update]
    exact h.respages.insert (by simp [objKey,hf]) _ (.refl _)
  nrespages o := by
    by_cases ho : o = pf.pfObj
    · subst ho; simp [h.nrespages]
    · simp [ho,h.nrespages]
  unique g1 g2 p1 p2 h1 h2 hobj hnum := by
    rcases update_cases h1 with ⟨rfl,e1⟩ | ⟨-,e1⟩ <;>
      rcases update_cases h2 with ⟨rfl,e2⟩ | ⟨-,e2⟩
    · rfl
    · cases e1
      exact (hnew g2 p2 e2 ⟨hobj.symm,hnum.symm⟩).elim
    · cases e2
      exact (hnew g1 p1 e1 ⟨hobj,hnum⟩).elim
    · exact h.unique g1 g2 p1 p2 e1 e2 hobj hnum

theorem IdInv.free (h : IdInv H fr hash resp nresp) (hf : fr f = some pf) :
    IdInv H (update fr f none) (fun b => (hash b).erase f) (fun o => (resp o).erase f)
      (update nresp pf.pfObj (nresp pf.pfObj - 1)) where
  chain := by
    rw [chainKey_update]
    exact h.chain.erase f
  respages := by
    rw [objKey_update]
    exact h.respages.erase f
  nrespages o := by
    by_cases ho : o = pf.pfObj
    · subst ho
      rw [update_self,h.nrespages,h.respages.length_erase (by simp [objKey,hf])]
    · rw [update_of_ne ho,h.nrespages,
        h.respages.erase_of_ne (by simpa [objKey,hf] using Ne.symm ho)]
  unique g1 g2 p1 p2 h1 h2 := by
    obtain ⟨-,e1⟩ := (update_cases h1).resolve_left (by simp)
    obtain ⟨-,e2⟩ := (update_cases h2).resolve_left (by simp)
    exact h.unique g1 g2 p1 p2 e1 e2

end Ids

/-! ### The lists of pages -/

theorem pages_removeLink (s : PageCache T O F) (f : F) : (removeLink f s).pages = fun b => (s.pages b).erase f := by
  funext b
  cases b <;> rfl

/-- A change of the flags or the wait queue. -/
theorem PageInv.setFrame (h : PageInv s) (hf : s.frame f = some pf) (pf' : Pframe O T)
    (hp : (0 < pf'.pfPincount) = (0 < pf.pfPincount)) (hc : 0 ≤ pf'.pfPincount) : PageInv (setFrame f pf' s) := by
  have hk : pinKey (update s.frame f (some pf')) = pinKey s.frame := by
    rw [pinKey_update,update_eq_self_iff]
    simp [pinKey,hf,hp]
  refine ⟨hk.symm ▸ h.page,h.nallocated,h.npinned,fun g pg hg => ?_⟩
  rcases update_cases hg with ⟨rfl,hpg⟩ | ⟨-,hpg⟩
  · cases hpg
    exact hc
  · exact h.pincount g pg hpg

theorem pages_linkAlloc (s : PageCache T O F) (f : F) : (linkAlloc f s).pages =
    update (fun b => (s.pages b).erase f) false ((s.pages false).erase f ++ [f]) := by
  funext b
  cases b <;> rfl

theorem pages_linkPinned (s : PageCache T O F) (f : F) : (linkPinned f s).pages =
    update (fun b => (s.pages b).erase f) true ((s.pages true).erase f ++ [f]) := by
  funext b
  cases b <;> rfl

/-- The frame has been taken off its list and put at the end of the one where its new
record belongs. -/
theorem PageInv.relink {s' : PageCache T O F} (h : PageInv s)
    (hframe : s'.frame = update s.frame f (some pf')) (hc : 0 ≤ pf'.pfPincount) {b : Bool}
    (hb : decide (0 < pf'.pfPincount) = b) (hpages : s'.pages =
      update (fun b => (s.pages b).erase f) b ((s.pages b).erase f ++ [f]))
    (hna : s'.nallocated = s'.allocList.length) (hnp : s'.npinned = s'.pinnedList.length) :
    PageInv s' := by
  refine ⟨?_,hna,hnp,fun g pg hg => ?_⟩
  · have hi := (h.page.erase f).insert (e := f) (by simp) b (List.perm_append_singleton f _)
    rw [hpages,hframe,pinKey_update,Option.map_some,hb]
    simpa using hi
  · rw [hframe] at hg
    rcases update_cases hg with ⟨rfl,hpg⟩ | ⟨-,hpg⟩
    · cases hpg
      exact hc
    · exact h.pincount g pg hpg

/-- The lengths after an unpinned frame has been linked again. -/
theorem PageInv.length_unpinned (h : PageInv s) (hf : s.frame f = some pf) (hp : ¬ 0 < pf.pfPincount) :
    ((s.allocList.erase f).length : ℤ) = s.nallocated - 1 ∧
      ((s.pinnedList.erase f).length : ℤ) = s.npinned := by
  have hk : pinKey s.frame f = some false := by simp [pinKey,hf,hp]
  have ha := h.page.length_erase (k := false) hk
  have hn := h.page.erase_of_ne (k := true) (e := f) (by simp [hk])
  simp only [pages] at ha hn
  rw [ha,hn,h.nallocated,h.npinned]
  exact ⟨rfl,rfl⟩

theorem PageInv.length_pinned (h : PageInv s) (hf : s.frame f = some pf) (hp : 0 < pf.pfPincount) :
    ((s.allocList.erase f).length : ℤ) = s.nallocated ∧
      ((s.pinnedList.erase f).length : ℤ) = s.npinned - 1 := by
  have hk : pinKey s.frame f = some true := by simp [pinKey,hf,hp]
  have ha := h.page.length_erase (k := true) hk
  have hn := h.page.erase_of_ne (k := false) (e := f) (by simp [hk])
  simp only [pages] at ha hn
  rw [ha,hn,h.nallocated,h.npinned]
  exact ⟨rfl,rfl⟩

/-! ### Busy frames and sleeping threads -/

section Busy

variable {held : T → List F} {sleepers : F → List T} {busy : F → Bool} {wchan : T → Option F}
  {t : T}

omit [DecidableEq F] in
theorem BusyInv.notMem_held (h : BusyInv held sleepers busy wchan) (hf : busy f = false) (t : T) : f ∉ held t := by
  obtain ⟨owner,ho,hb⟩ := h.owner
  refine fun hm => ?_
  simpa [hf] using hb f (by simp [ho.mem.mp hm])

variable [DecidableEq T]

theorem BusyInv.beginOp (h : BusyInv held sleepers busy wchan) (hf : busy f = false) (t : T) :
    BusyInv (update held t (f :: held t)) sleepers (update busy f true) wchan := by
  obtain ⟨owner,ho,hb⟩ := h.owner
  have hn : owner f = none := by
    by_contra hn
    simpa [hf] using hb f hn
  have up : ∀ g, busy g = true → update busy f true g = true := fun g hg => by
    by_cases hgf : g = f <;> simp [hgf,hg]
  refine ⟨⟨_,ho.insert hn t (.refl _),fun g hg => ?_⟩,h.waits,fun g hg => up g (h.asleep g hg)⟩
  by_cases hgf : g = f
  · simp [hgf]
  · exact up g (hb g (by simpa [hgf] using hg))

/-- The call that keeps `f` busy ends and everyone who sleeps on `f` is woken. -/
theorem BusyInv.endOp (h : BusyInv held sleepers busy wchan) {l : List F} (ht : held t = f :: l) :
    BusyInv (update held t l) (update sleepers f [])
      (update busy f false) (fun u => if u ∈ sleepers f then none else wchan u) := by
  obtain ⟨owner,ho,hb⟩ := h.owner
  have hkey : owner f = some t := ho.mem.mp (by simp [ht])
  have herase : (fun u => (held u).erase f) = update held t l := by
    funext u
    by_cases hu : u = t
    · subst hu; simp [ht]
    · rw [update_of_ne hu]
      exact ho.erase_of_ne (by simpa [hkey] using Ne.symm hu)
  refine ⟨⟨_,herase ▸ ho.erase f,fun g hg => ?_⟩,h.waits.clear f,fun g hg => ?_⟩
  · have hgf : g ≠ f := by
      rintro rfl
      simp at hg
    rw [update_of_ne hgf]
    exact hb g (by simpa [hgf] using hg)
  · have hgf : g ≠ f := by
      rintro rfl
      simp at hg
    rw [update_of_ne hgf]
    exact h.asleep g (by simpa [hgf] using hg)

theorem BusyInv.sleep (h : BusyInv held sleepers busy wchan) (hf : busy f = true) (ht : wchan t = none) :
    BusyInv held (update sleepers f (t :: sleepers f)) busy
      (update wchan t (some f)) := by
  refine ⟨h.owner,h.waits.insert ht f (.refl _),fun g hg => ?_⟩
  by_cases hgf : g = f
  · rwa [hgf]
  · exact h.asleep g (by simpa [hgf] using hg)

end Busy

end Csci402.Mm.PageCache
