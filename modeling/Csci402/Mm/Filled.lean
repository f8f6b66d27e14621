import Csci402.Mm.PframeMoves

/-! Which frames have been filled. A history variable notes the frames that a successful
`fillpage` has filled since they were allocated. As long as no `fillpage` fails, a frame
that no thread is filling has been filled, so `pframe_get` hands out no other; and a call
that fails for want of memory leaves the cache as it was. A `fillpage` that fails leaves its
frame in the cache, and the next call hands it out. -/

namespace Csci402.Mm.PageCache

open Lib Function Option

variable {T O F : Type*} [DecidableEq T] [DecidableEq O] [DecidableEq F] {H : HashTable O}
  {s s' : PageCache T O F} {a : Op T O F} {f : F} {t : T}

/-! ### What a step does to the frames -/

/-- What a step that gets `page` does to the frames in use, to the busy ones and to the calls
that keep them busy. -/
inductive Effect (s : PageCache T O F) (page : Option (T × O × ℕ)) (a : Op T O F) (s' : PageCache T O F) : Prop
  | quiet (hid : s'.identity = s.identity) (hb : s'.isBusy = s.isBusy) (hw : s'.works = s.works)
  | begins (t : T) (p : Pending O F) (f : F) (hp : p.frame = some f) (hid : s'.identity = s.identity)
      (hb : s'.isBusy = update s.isBusy f true) (hw : s'.works = update s.works t (p :: s.works t))
  | allocates (t : T) (o : O) (n : ℕ) (f : F) (hpage : page = some (t, o, n)) (hfree : s.identity f = none)
      (hid : s'.identity = update s.identity f (some (o, n))) (hb : s'.isBusy = update s.isBusy f true)
      (hw : s'.works = update s.works t (.filling o n f :: s.works t))
  | ends (t : T) (p : Pending O F) (f : F) (st : List (Pending O F)) (hp : p.frame = some f)
      (hst : s.works t = p :: st) (hret : ∀ o n g, p = .filling o n g → ∃ ret, a = .filled t ret ∧ (s.stack t).head? = some p)
      (hid : s'.identity = s.identity) (hb : s'.isBusy = update s.isBusy f false)
      (hw : s'.works = update s.works t st)
  | frees (f : F) (hidle : s.isBusy f = false) (hid : s'.identity = update s.identity f none)
      (hb : s'.isBusy = s.isBusy) (hw : s'.works = s.works)

omit [DecidableEq O] in
theorem Move.effect {page : Option (T × O × ℕ)} (h : Move s page a s') : Effect s page a s' := by
  cases h with
  | quiet _ h => exact .quiet h.identity h.busy h.works
  | alloc _ t o n f hpage hfree h => exact .allocates t o n f hpage hfree h.identity h.busy h.works
  | filled t ret o n f st hst h =>
    exact .ends t _ f _ rfl (works_of_stack hst rfl) (fun _ _ _ _ => ⟨ret,rfl,by rw [hst]; rfl⟩) h.identity h.busy h.works
  | dirty t f _ _ h => exact .begins t _ f rfl h.identity h.busy h.works
  | dirtied t ret f st hst h => exact .ends t _ f _ rfl (works_of_stack hst rfl) (by simp) h.identity h.busy h.works
  | clean t f _ h => exact .begins t _ f rfl h.identity h.busy h.works
  | cleaned t ret f _ st hst _ h => exact .ends t _ f _ rfl (works_of_stack hst rfl) (by simp) h.identity h.busy h.works
  | free f hf h => exact .frees f hf h.identity h.busy h.works

/-- Every step has one of these effects. -/
theorem Inv.effect (h : Inv H s) (ha : Enabled s a) {r : Option (O × ℕ × F)}
    (hs : PageCache.stepResult H s a = some (s', r)) : Effect s (s.pageOf a) a s' := (h.moves ha hs).1.effect

/-! ### Calls that fail or sleep -/

/-- The pages in the cache and what counts them. -/
structure SameCache (s s' : PageCache T O F) : Prop where
  identity : s'.identity = s.identity
  pframeHash : s'.pframeHash = s.pframeHash
  mmoRespages : s'.mmoRespages = s.mmoRespages
  mmoNrespages : s'.mmoNrespages = s.mmoNrespages
  mmoRefcount : s'.mmoRefcount = s.mmoRefcount
  nallocated : s'.nallocated = s.nallocated
  npinned : s'.npinned = s.npinned

variable (H) in
/-- The step ends a `pframe_get` with a negative value. -/
def getFails (s : PageCache T O F) : Op T O F → Bool
  | .get _ o n mem => mem.isNone && (pframeGetResident H o n s).1.isNone
  | .woken t mem => match s.stack t with
    | .getting o n :: _ => mem.isNone && (pframeGetResident H o n s).1.isNone
    | _ => false
  | .filled _ ret => ret < 0
  | _ => false

variable (H) in
/-- The step finds the page and waits for it. -/
def getSleeps (s : PageCache T O F) : Op T O F → Bool
  | .get _ o n _ => (pframeGetResident H o n s).1.any s.isBusy
  | .woken t _ => match s.stack t with
    | .getting o n :: _ => (pframeGetResident H o n s).1.any s.isBusy
    | _ => false
  | _ => false

omit [DecidableEq T] in
theorem sameCache_getResident (o : O) (n : ℕ) (s : PageCache T O F) : SameCache s (pframeGetResident H o n s).2 := by
  unfold pframeGetResident
  split
  · exact ⟨rfl,rfl,rfl,rfl,rfl,rfl,rfl⟩
  · split
    · exact ⟨rfl,rfl,rfl,rfl,rfl,rfl,rfl⟩
    · exact ⟨rfl,rfl,rfl,rfl,rfl,rfl,rfl⟩

/-- A round of `pframe_get` that allocates nothing. -/
theorem pframeGet_same {mem : Option F} {o : O} {n : ℕ} {r : Option F} (hg : pframeGet H t o n mem s = some (s', r))
    (h : mem = none ∨ (pframeGetResident H o n s).1 ≠ none) : SameCache s s' := by
  have hsame := sameCache_getResident (H := H) o n s
  unfold pframeGet at hg
  cases hr : pframeGetResident H o n s with
  | mk r1 s1 =>
    rw [hr] at hg h hsame
    cases r1 with
    | some f =>
      obtain ⟨pf,hf,hg⟩ := bind_eq_some_iff.mp hg
      split at hg
      · cases hg
        refine ⟨?_,hsame.2,hsame.3,hsame.4,hsame.5,hsame.6,hsame.7⟩
        rw [← hsame.identity]
        have hframe : (setStack t (.getting o n :: s1.stack t) (sleepOn t f pf s1)).frame =
            update s1.frame f (some { pf with pfWaitq := t :: pf.pfWaitq }) := rfl
        exact identity_eq hf hframe rfl rfl
      · cases hg
        exact hsame
    | none =>
      obtain rfl := h.resolve_right (fun hne => hne rfl)
      cases hg
      exact hsame

theorem sameCache_of_get (hfill : ∀ t ret, a = .filled t ret → 0 ≤ ret)
    (ha : getFails H s a = true ∨ getSleeps H s a = true) {r : Option (O × ℕ × F)}
    (hs : stepResult H s a = some (s', r)) : SameCache s s' := by
  have hor : ∀ {o : O} {n : ℕ} {mem : Option F}, (mem.isNone && (pframeGetResident H o n s).1.isNone) = true ∨
      (pframeGetResident H o n s).1.any s.isBusy = true → mem = none ∨ (pframeGetResident H o n s).1 ≠ none := by
    intro o n mem h
    rcases h with h | h
    · rw [Bool.and_eq_true,isNone_iff_eq_none] at h
      exact .inl h.1
    · refine .inr fun hn => ?_
      rw [hn] at h
      cases h
  cases a with
  | get t o n mem =>
    obtain ⟨⟨s1,r1⟩,hg,he⟩ := map_eq_some_iff.mp hs
    cases he
    exact pframeGet_same hg (hor ha)
  | woken t mem =>
    simp only [stepResult,getFails,getSleeps] at hs ha
    split at hs
    next o n st hst =>
      obtain ⟨⟨s1,r1⟩,hg,he⟩ := map_eq_some_iff.mp hs
      cases he
      simp only [hst] at ha
      have hres : (pframeGetResident H o n (setStack t st s)).1 = (pframeGetResident H o n s).1 := by
        rw [pframeGetResident_fst,pframeGetResident_fst]
        rfl
      have hsame := pframeGet_same hg (by rw [hres]; exact hor ha)
      exact ⟨hsame.1,hsame.2,hsame.3,hsame.4,hsame.5,hsame.6,hsame.7⟩
    · cases hs
  | filled t ret =>
    have := hfill t ret rfl
    simp only [getFails,getSleeps,decide_eq_true_eq,reduceCtorEq,or_false] at ha
    omega
  | _ => simp [getFails,getSleeps] at ha

/-! ### The history of fills -/

/-- A `fillpage` of this frame returns with success. -/
def fillSucceeds (s : PageCache T O F) : Op T O F → F → Bool
  | .filled t ret, f => decide (0 ≤ ret) && (s.stack t).head?.any (Pending.fills f)
  | _, _ => false

/-- The frames filled since they were allocated, after the step. -/
def noteFill (s : PageCache T O F) (a : Op T O F) (filled : F → Bool) (f : F) : Bool :=
  (s.frame f).isSome && (filled f || s.fillSucceeds a f)

variable (H) in
def stepFilled (x : PageCache T O F × (F → Bool)) (a : Op T O F) : Option (PageCache T O F × (F → Bool)) :=
  (step H x.1 a).map fun s => (s, x.1.noteFill a x.2)

/-- No `fillpage` fails. -/
def FillsOk : Op T O F → Prop
  | .filled _ ret => 0 ≤ ret
  | _ => True

/-- A frame in use has been filled, or a thread is filling it. -/
def FillInv (s : PageCache T O F) (filled : F → Bool) : Prop :=
  ∀ f, (s.frame f).isSome → filled f = true ∨ ∃ t o n, .filling o n f ∈ s.works t

omit [DecidableEq T] [DecidableEq O] [DecidableEq F] in
theorem isSome_identity : (s.identity f).isSome = (s.frame f).isSome := isSome_map

omit [DecidableEq O] in
theorem FillInv.step {filled : F → Bool} {page : Option (T × O × ℕ)} (h : FillInv s filled) (ha : FillsOk a)
    (he : Effect s page a s') : FillInv s' (s.noteFill a filled) := by
  intro g hg
  rw [← isSome_identity] at hg
  -- frames that were there before, with calls that may have ended
  have hold : (s.identity g).isSome → (∀ t o n, .filling o n g ∈ s.works t → .filling o n g ∈ s'.works t ∨
      s.fillSucceeds a g = true) → s.noteFill a filled g = true ∨ ∃ t o n, .filling o n g ∈ s'.works t := by
    intro hsome hkeep
    rw [isSome_identity] at hsome
    rcases h g hsome with hf | ⟨t,o,n,hm⟩
    · exact .inl (by simp [noteFill,hsome,hf])
    · rcases hkeep t o n hm with hm' | hs
      · exact .inr ⟨t,o,n,hm'⟩
      · exact .inl (by simp [noteFill,hsome,hs])
  have hpush : ∀ {t : T} {p : Pending O F}, s'.works = update s.works t (p :: s.works t) → ∀ u o n,
      .filling o n g ∈ s.works u → .filling o n g ∈ s'.works u := by
    intro t p hw u o n hm
    rw [hw]
    by_cases hu : u = t
    · subst hu
      simp [hm]
    · rwa [update_of_ne hu]
  cases he with
  | quiet hid hb hw => exact hold (hid ▸ hg) fun t o n hm => .inl (hw ▸ hm)
  | begins t p f hp hid hb hw => exact hold (hid ▸ hg) fun u o n hm => .inl (hpush hw u o n hm)
  | allocates t o n f hpage hfree hid hb hw =>
    by_cases hgf : g = f
    · subst hgf
      exact .inr ⟨t,o,n,by simp [hw]⟩
    · rw [hid,update_of_ne hgf] at hg
      exact hold hg fun u o n hm => .inl (hpush hw u o n hm)
  | ends t p f st hp hst hret hid hb hw =>
    refine hold (hid ▸ hg) fun u o n hm => ?_
    by_cases hu : u = t
    · subst hu
      rw [hst,List.mem_cons] at hm
      rcases hm with rfl | hm
      · obtain ⟨ret,rfl,hhead⟩ := hret o n g rfl
        have : 0 ≤ ret := ha
        exact .inr (by simp [fillSucceeds,hhead,Pending.fills,this])
      · exact .inl (by rw [hw,update_self]; exact hm)
    · exact .inl (by rw [hw,update_of_ne hu]; exact hm)
  | frees f hidle hid hb hw =>
    have hgf : g ≠ f := by
      rintro rfl
      simp [hid] at hg
    rw [hid,update_of_ne hgf] at hg
    exact hold hg fun u o n hm => .inl (hw ▸ hm)

theorem fillInv_of_exec {s0 : PageCache T O F} {as : List (Op T O F)} {x : PageCache T O F × (F → Bool)}
    (h0 : Initial s0) (h : Exec (stepFilled H) (fun x a => Enabled x.1 a ∧ FillsOk a) (s0, fun _ => false) as x) :
    Inv H x.1 ∧ FillInv x.1 x.2 := by
  induction h with
  | nil =>
    refine ⟨h0.inv,fun f hf => ?_⟩
    rw [h0.frame] at hf
    cases hf
  | snoc _ ha hst ih =>
    obtain ⟨s',hs',rfl⟩ := map_eq_some_iff.mp hst
    obtain ⟨⟨s1,r⟩,hr,rfl⟩ := map_eq_some_iff.mp hs'
    exact ⟨(ih.1.stepResult ha.1 hr).1,ih.2.step ha.2 (ih.1.effect ha.1 hr)⟩

omit [DecidableEq T] [DecidableEq O] [DecidableEq F] in
/-- A frame that is not busy is not being filled. -/
theorem Inv.not_filling (h : Inv H s) (hf : s.isBusy f = false) (t : T) (o : O) (n : ℕ) : .filling o n f ∉ s.works t :=
  fun hm => h.threads.notMem_held hf t (mem_held_of_filling (List.mem_of_mem_filter hm))

/-- What `pframe_get` returns has been filled. -/
theorem FillInv.returned {filled : F → Bool} (h : FillInv s filled) (hi : Inv H s) (ha : Enabled s a) (hok : FillsOk a)
    {o : O} {n : ℕ} (hs : stepResult H s a = some (s', some (o, n, f))) : s.noteFill a filled f = true := by
  obtain ⟨hi',hr⟩ := hi.stepResult ha hs
  obtain ⟨hid,hb⟩ := hr o n f rfl
  rcases h.step hok (hi.effect ha hs) f (by rw [← isSome_identity,hid]; rfl) with hf | ⟨t,o',n',hm⟩
  · exact hf
  · exact absurd hm (hi'.not_filling hb t o' n')

/-- In every run in which no `fillpage` fails, a call of `pframe_get` that returns a negative
value or has to wait leaves the pages and counts of the cache as they were, and a call that
succeeds returns a frame that has been filled since it was allocated. -/
theorem returned_pages_filled {s0 : PageCache T O F} {as : List (Op T O F)} {x : PageCache T O F × (F → Bool)}
    (h0 : Initial s0) (h : Exec (stepFilled H) (fun x a => Enabled x.1 a ∧ FillsOk a) (s0, fun _ => false) as x)
    {a : Op T O F} (ha : Enabled x.1 a) (hok : FillsOk a) {s' : PageCache T O F} {r : Option (O × ℕ × F)}
    (hs : stepResult H x.1 a = some (s', r)) :
    (getFails H x.1 a = true ∨ getSleeps H x.1 a = true → SameCache x.1 s') ∧
    ∀ o n f, r = some (o, n, f) → x.1.noteFill a x.2 f = true := by
  obtain ⟨hi,hf⟩ := fillInv_of_exec h0 h
  refine ⟨fun hg => sameCache_of_get (fun t ret he => ?_) hg hs,fun o n f hr => ?_⟩
  · subst he
    exact hok
  · subst hr
    exact hf.returned hi ha hok hs

instance : ∀ a : Op T O F, Decidable (FillsOk a) := by
  rintro ⟨⟩ <;> unfold FillsOk <;> infer_instance

/-- Thread 0 fills page 5, and thread 1 then gets it. -/
theorem returned_pages_filled_sampleCache : ∃ x s',
    Exec (stepFilled ⟨fun _ => 0,7⟩) (fun x a => Enabled x.1 a ∧ FillsOk a) (sampleCache, fun _ => false)
      [.get 0 () 5 (some 0),.filled 0 0] x ∧
    stepResult ⟨fun _ => 0,7⟩ x.1 (.get 1 () 5 none) = some (s', some ((), 5, 0)) ∧
    x.1.noteFill (.get 1 () 5 none) x.2 0 = true := by
  obtain ⟨x,s',h,ha,hs⟩ : ∃ x s',
      Exec (stepFilled ⟨fun _ => 0,7⟩) (fun x a => Enabled x.1 a ∧ FillsOk a) (sampleCache, fun _ => false)
        [.get 0 () 5 (some 0),.filled 0 0] x ∧ Enabled x.1 (.get 1 () 5 none) ∧
      stepResult ⟨fun _ => 0,7⟩ x.1 (.get 1 () 5 none) = some (s', some ((), 5, 0)) := by
    have h : Exec (stepFilled ⟨fun _ => 0,7⟩) (fun x a => Enabled x.1 a ∧ FillsOk a) (sampleCache, fun _ => false)
        [.get 0 () 5 (some 0),.filled 0 0] _ := Exec.ofRun rfl
    exact ⟨_,_,h,⟨rfl,rfl⟩,rfl⟩
  exact ⟨x,s',h,hs,(returned_pages_filled sampleCache_initial h ha trivial hs).2 () 5 0 rfl⟩

/-- The `fillpage` for page 5 fails with `-EIO`, and the next call returns its frame. -/
theorem unfilled_page_returned : ∃ x s',
    Exec (stepFilled ⟨fun _ => 0,7⟩) (fun x a => Enabled x.1 a) (sampleCache, fun _ => false)
      [.get 0 () 5 (some 0),.filled 0 (-5)] x ∧
    x.1.identity 0 = some ((), 5) ∧ x.1.mmoNrespages () = 1 ∧ x.1.mmoRefcount () = 1 ∧
    Enabled x.1 (.get 1 () 5 none) ∧
    stepResult ⟨fun _ => 0,7⟩ x.1 (.get 1 () 5 none) = some (s', some ((), 5, 0)) ∧
    x.1.noteFill (.get 1 () 5 none) x.2 0 = false := by
  have h : Exec (stepFilled ⟨fun _ => 0,7⟩) (fun x a => Enabled x.1 a) (sampleCache, fun _ => false)
      [.get 0 () 5 (some 0),.filled 0 (-5)] _ := Exec.ofRun rfl
  exact ⟨_,_,h,rfl,rfl,rfl,⟨rfl,rfl⟩,rfl,rfl⟩

end Csci402.Mm.PageCache
