import Csci402.Lib.Overlay
import Csci402.Mm.Filled

/-! Write faults on private mappings over the page cache: `shadow_lookuppage` for writing and
`shadow_fillpage` of `vm/shadow.c`, with the contents of frames. Objects are numbered and a
shadow object shadows an older one; the chains do not change. A thread gives way only where
`pframe_get` does: while it waits for a busy page and while the object at the end of a chain
reads a page. -/

namespace Csci402.Mm

open Lib Function Option

/-- The objects: what each shadows, the end of its chain, and which of them a process writes
to, which no object shadows. -/
structure Chains where
  mmoShadowed : ℕ → Option ℕ
  mmoBottomObj : ℕ → ℕ
  isTop : ℕ → Bool
  descends : Descends mmoShadowed
  bottom : ∀ o, (mmoShadowed o).isSome → Under mmoShadowed o (mmoBottomObj o) ∧ mmoShadowed (mmoBottomObj o) = none
  top : ∀ o, isTop o = true → ∀ x, mmoShadowed x ≠ some o

/-- A top object lies under no other. -/
theorem Chains.not_under_top (C : Chains) {o x y : ℕ} (hy : C.mmoShadowed o = some y) (hu : Under C.mmoShadowed y x) :
    C.isTop x = false := by
  by_contra hc
  have htop := C.top x (by simpa using hc)
  induction hu generalizing o with
  | refl x => exact htop o hy
  | step h _ ih => exact ih h hc htop

/-- The page cache with the contents of the frames. `filled` is the history of fills. -/
structure Frames (T F D : Type*) where
  cache : PageCache T ℕ F
  data : F → D
  filled : F → Bool

/-- A copy made by `shadow_fillpage`: for the page `pagenum` of `o`, into `dst` from `src`. -/
structure Copy (F : Type*) where
  o : ℕ
  pagenum : ℕ
  dst : F
  src : F

namespace Frames

open PageCache

variable {T F D : Type*} [DecidableEq T] [DecidableEq F] (H : HashTable ℕ) (C : Chains)

/-- A call of the page cache. -/
def act (a : Op T ℕ F) (s : Frames T F D) : Option (Frames T F D × Option (ℕ × ℕ × F)) :=
  if Enabled s.cache a then
    (stepResult H s.cache a).map fun (c, r) => (⟨c,s.data,s.cache.noteFill a s.filled⟩, r)
  else none

/-- The loop of `shadow_fillpage` over the objects below `cur`. -/
def findBelow (pagenum : ℕ) : (fuel : ℕ) → (cur : ℕ) → PageCache T ℕ F → Option F × PageCache T ℕ F
  | 0, _, c => (none, c)
  | k+1, cur, c => match C.mmoShadowed cur with
    | none => (none, c)
    | some next => match pframeGetResident H next pagenum c with
      | (some g, c) => (some g, c)
      | (none, c) => findBelow pagenum k next c

/-- The end of `shadow_fillpage`: the page is copied, the new frame is pinned, and
`pframe_get` returns it. -/
def finishFill (t : T) (o n : ℕ) (f g : F) (s : Frames T F D) : Option (Frames T F D × Option (Copy F)) := do
  let (s, _) ← act H (.pin t f) { s with data := update s.data f (s.data g) }
  let (s, _) ← act H (.filled t 0) s
  return (s, some ⟨o,n,f,g⟩)

/-- A `pframe_get` of the thread has returned `r`, or an error if `failed`. If it was called by
`shadow_fillpage`, that goes on. -/
def resume (t : T) (r : Option (ℕ × ℕ × F)) (failed : Bool) (s : Frames T F D) :
    Option (Frames T F D × Option (Copy F)) :=
  match s.cache.stack t with
  | .filling o n f :: _ =>
    if (C.mmoShadowed o).isSome then
      match r with
      | some (_, _, g) => finishFill H t o n f g s
      | none => if failed then (act H (.filled t (-12)) s).map fun (s, _) => (s, none) else some (s, none)
    else some (s, none)
  | _ => some (s, none)

def shadowFillpage (t : T) (o n : ℕ) (f : F) (mem : Option F) (s : Frames T F D) :
    Option (Frames T F D × Option (Copy F)) :=
  match findBelow H C n o o s.cache with
  | (some g, c) => finishFill H t o n f g { s with cache := c }
  | (none, c) => do
    let (s', r) ← act H (.get t (C.mmoBottomObj o) n mem) { s with cache := c }
    resume H C t r (getFails H c (.get t (C.mmoBottomObj o) n mem)) s'

/-- `shadow_lookuppage` for writing. A page that is resident must not be busy. `mem` is the
memory for the new frame, and `mem'` that for a frame of the bottom object. The
`pframe_dirty` of the new frame is a call of its own. -/
def shadowLookuppage (t : T) (o n : ℕ) (mem mem' : Option F) (s : Frames T F D) :
    Option (Frames T F D × Option (Copy F)) :=
  match pframeGetResident H o n s.cache with
  | (some f, c) => if c.isBusy f then none else some ({ s with cache := c }, none)
  | (none, c) => do
    let (s, _) ← act H (.get t o n mem) { s with cache := c }
    match mem with
    | none => return (s, none)
    | some f => shadowFillpage H C t o n f mem' s

/-! ### Runs -/

inductive Act (T F D : Type*) where
  /-- A write fault on a private mapping. -/
  | fault (t : T) (o pagenum : ℕ) (mem mem' : Option F)
  /-- A page of an object that is no shadow object, as a read fault looks it up at the end of
  the chain. -/
  | lookup (t : T) (o pagenum : ℕ) (mem : Option F)
  | woken (t : T) (mem : Option F)
  /-- The `fillpage` of an object that is no shadow object returns. -/
  | filled (t : T) (ret : ℤ)
  | store (f : F) (d : D)
  | cache (a : Op T ℕ F)

/-- The new state, and the copy that was made. `disk` is what the objects read. -/
def result (disk : ℕ → ℕ → D) (s : Frames T F D) : Act T F D → Option (Frames T F D × Option (Copy F))
  | .fault t o n mem mem' => shadowLookuppage H C t o n mem mem' s
  | .lookup t o n mem => (act H (.get t o n mem) s).map fun (s, _) => (s, none)
  | .woken t mem => (act H (.woken t mem) s).bind fun (s', r) => resume H C t r (getFails H s.cache (.woken t mem)) s'
  | .filled t ret => match s.cache.stack t with
    | .filling o n f :: _ =>
      if (C.mmoShadowed o).isSome then none
      else (act H (.filled t ret) { s with data := if ret < 0 then s.data else update s.data f (disk o n) }).bind
        fun (s, r) => resume H C t r (ret < 0) s
    | _ => none
  | .store f d => some ({ s with data := update s.data f d }, none)
  | .cache a => (act H a s).map fun (s, _) => (s, none)

def step (disk : ℕ → ℕ → D) (s : Frames T F D) (a : Act T F D) : Option (Frames T F D) :=
  (result H C disk s a).map Prod.fst

/-- Faults and lookups come from threads that are in no other call, faults on top objects; the
kernel and the processes store into frames that are not busy; and the other operations of
the cache are called as they may be. -/
def Enabled (s : Frames T F D) : Act T F D → Prop
  | .fault t o _ _ _ => s.cache.stack t = [] ∧ C.isTop o = true ∧ (C.mmoShadowed o).isSome = true
  | .lookup t o _ _ => s.cache.stack t = [] ∧ C.mmoShadowed o = none
  | .woken _ _ | .filled _ _ => True
  | .store f _ => s.cache.isBusy f = false
  | .cache (.dirty t _) | .cache (.clean t _) => s.cache.stack t = []
  | .cache (.get _ _ _ _) | .cache (.woken _ _) | .cache (.filled _ _) => False
  | .cache _ => True

/-- No thread is at work on the page in an object below `o`. -/
def NoneAtWork (s : Frames T F D) (o n : ℕ) : Prop :=
  ∀ u p g x y, p ∈ s.cache.works u → p.frame = some g → s.cache.identity g = some (x, n) →
    C.mmoShadowed o = some y → ¬ Under C.mmoShadowed y x

/-- Write faults start when no thread is at work on the page below, no `fillpage` fails, and
there is memory for the pages that it needs. -/
def Calm (s : Frames T F D) : Act T F D → Prop
  | .fault _ o n _ mem' => NoneAtWork C s o n ∧ mem'.isSome
  | .woken _ mem => mem.isSome
  | .filled _ ret => 0 ≤ ret
  | _ => True

/-! ### The page cache under these calls -/

section Cache

variable {H C} {c c' : PageCache T ℕ F} {o n : ℕ} {f g : F} {t : T} {a : Op T ℕ F}

/-- The frame for a page of an object. -/
def resident (H : HashTable ℕ) (c : PageCache T ℕ F) (x n : ℕ) : Option F := (pframeGetResident H x n c).1

omit [DecidableEq T] in
theorem resident_iff (h : Inv H c) : resident H c o n = some g ↔ c.identity g = some (o, n) := by
  obtain ⟨r,c',hr,-,-,-,-,hfound,hnone⟩ := h.getResident o n
  have hres : resident H c o n = r := congrArg Prod.fst hr
  rw [hres]
  constructor
  · exact fun hg => hfound g hg
  · intro hg
    cases r with
    | none => exact absurd hg (hnone rfl g)
    | some g' =>
      obtain ⟨pf,hf,he⟩ := map_eq_some_iff.mp hg
      obtain ⟨pf',hf',he'⟩ := map_eq_some_iff.mp (hfound g' rfl)
      rw [Prod.mk.injEq] at he he'
      rw [h.ids.unique g' g pf' pf hf' hf (he'.1.trans he.1.symm) (he'.2.trans he.2.symm)]

omit [DecidableEq T] in
theorem resident_congr (h : Inv H c) (h' : Inv H c') (he : c'.identity = c.identity) : resident H c' = resident H c := by
  funext x n
  refine ext fun g => ?_
  rw [resident_iff h,resident_iff h',he]

omit [DecidableEq T] in
/-- The loop finds the nearest frame below. -/
theorem findBelow_eq (C : Chains) (n : ℕ) {fuel cur : ℕ} (hfuel : cur ≤ fuel) (h : Inv H c) :
    ∃ r c', findBelow H C n fuel cur c = (r, c') ∧ Inv H c' ∧ c'.frame = c.frame ∧ c'.stack = c.stack ∧
      c'.ktWchan = c.ktWchan ∧ r = (C.mmoShadowed cur).bind fun y => resolve C.mmoShadowed (resident H c) y n := by
  induction fuel generalizing cur c with
  | zero =>
    refine ⟨none,c,rfl,h,rfl,rfl,rfl,?_⟩
    cases hy : C.mmoShadowed cur with
    | none => rfl
    | some y =>
      have := C.descends cur y hy
      omega
  | succ fuel ih =>
    unfold findBelow
    cases hy : C.mmoShadowed cur with
    | none => exact ⟨none,c,rfl,h,rfl,rfl,rfl,rfl⟩
    | some y =>
      have hlt := C.descends cur y hy
      obtain ⟨r,c1,hr,h1,hfr,hst,hwc,-,-⟩ := h.getResident y n
      have hres : resident H c y n = r := congrArg Prod.fst hr
      simp only [hr,bind_some]
      rw [resolve_eq C.descends,hres]
      cases r with
      | some g => exact ⟨some g,c1,rfl,h1,hfr,hst,hwc,rfl⟩
      | none =>
        obtain ⟨r',c2,hr',h2,hfr',hst',hwc',he⟩ := ih (by omega : y ≤ fuel) h1
        have hid : c1.identity = c.identity := by
          funext x
          rw [identity,identity,hfr]
        rw [resident_congr h h1 hid] at he
        exact ⟨r',c2,hr',h2,hfr'.trans hfr,hst'.trans hst,hwc'.trans hwc,he⟩

/-- Every busy frame is kept busy by a call. -/
def Attended (c : PageCache T ℕ F) : Prop := ∀ f, c.isBusy f = true → ∃ t, ∃ p ∈ c.works t, p.frame = some f

theorem Attended.step {page : Option (T × ℕ × ℕ)} (h : Attended c) (he : Effect c page a c') : Attended c' := by
  intro g hg
  have hpush : ∀ {t : T} {p : Pending ℕ F} {f : F}, p.frame = some f → c'.isBusy = update c.isBusy f true →
      c'.works = update c.works t (p :: c.works t) → ∃ t, ∃ p ∈ c'.works t, p.frame = some g := by
    intro t p f hp hb hw
    by_cases hgf : g = f
    · subst hgf
      exact ⟨t,p,by simp [hw],hp⟩
    · rw [hb,update_of_ne hgf] at hg
      obtain ⟨u,q,hq,hqg⟩ := h g hg
      refine ⟨u,q,?_,hqg⟩
      rw [hw]
      by_cases hu : u = t
      · subst hu
        simp [hq]
      · rwa [update_of_ne hu]
  cases he with
  | quiet hid hb hw =>
    rw [hb] at hg
    rw [hw]
    exact h g hg
  | begins t p f hp hid hb hw => exact hpush hp hb hw
  | allocates t o n f hpage hfree hid hb hw => exact hpush rfl hb hw
  | ends t p f st hp hst hret hid hb hw =>
    have hgf : g ≠ f := by
      rintro rfl
      simp [hb] at hg
    rw [hb,update_of_ne hgf] at hg
    obtain ⟨u,q,hq,hqg⟩ := h g hg
    refine ⟨u,q,?_,hqg⟩
    rw [hw]
    by_cases hu : u = t
    · subst hu
      rw [hst,List.mem_cons] at hq
      rw [update_self]
      refine hq.resolve_left ?_
      rintro rfl
      exact hgf (some.inj (hqg.symm.trans hp))
    · rwa [update_of_ne hu]
  | frees f hidle hid hb hw =>
    rw [hb] at hg
    rw [hw]
    exact h g hg

/-- Only pages of top objects and of objects that are no shadow objects come into the cache. -/
def Kept (C : Chains) (c c' : PageCache T ℕ F) : Prop :=
  ∀ g x n, c'.identity g = some (x, n) → c.identity g = some (x, n) ∨ C.mmoShadowed x = none ∨ C.isTop x = true

omit [DecidableEq T] [DecidableEq F] in
theorem Kept.of_eq (C : Chains) (h : c'.identity = c.identity) : Kept C c c' := fun _ _ _ hg => .inl (h ▸ hg)

omit [DecidableEq T] [DecidableEq F] in
theorem Kept.trans {d : PageCache T ℕ F} (h : Kept C c c') (h' : Kept C c' d) : Kept C c d := by
  intro g x n hg
  rcases h' g x n hg with hg | hx
  · exact h g x n hg
  · exact .inr hx

theorem kept_of_effect {page : Option (T × ℕ × ℕ)} (he : Effect c page a c')
    (hp : ∀ t o n, page = some (t, o, n) → C.mmoShadowed o = none ∨ C.isTop o = true) : Kept C c c' := by
  intro g x n hg
  cases he with
  | quiet hid hb hw => exact .inl (hid ▸ hg)
  | begins t p f hp hid hb hw => exact .inl (hid ▸ hg)
  | allocates t o m f hpage hfree hid hb hw =>
    rw [hid] at hg
    by_cases hgf : g = f
    · subst hgf
      rw [update_self,some.injEq,Prod.mk.injEq] at hg
      exact .inr (hg.1 ▸ hp t o m hpage)
    · rw [update_of_ne hgf] at hg
      exact .inl hg
  | ends t p f st hp hst hret hid hb hw => exact .inl (hid ▸ hg)
  | frees f hidle hid hb hw =>
    rw [hid] at hg
    by_cases hgf : g = f
    · subst hgf
      simp at hg
    · rw [update_of_ne hgf] at hg
      exact .inl hg

/-- No shadow object below `o` has the page. -/
def Clear (C : Chains) (c : PageCache T ℕ F) (o n : ℕ) : Prop :=
  ∀ x y g, C.mmoShadowed o = some y → Under C.mmoShadowed y x → C.mmoShadowed x ≠ none → c.identity g ≠ some (x, n)

omit [DecidableEq T] [DecidableEq F] in
theorem Clear.kept (h : Clear C c o n) (hk : Kept C c c') : Clear C c' o n := by
  intro x y g hy hu hx hg
  rcases hk g x n hg with hg | hb | ht
  · exact h x y g hy hu hx hg
  · exact hx hb
  · rw [C.not_under_top hy hu] at ht
    cases ht

/-- What a thread can be in the middle of. -/
inductive Shape (C : Chains) (c : PageCache T ℕ F) : List (Pending ℕ F) → Prop
  | idle : Shape C c []
  | waits {b n : ℕ} (hb : C.mmoShadowed b = none) : Shape C c [.getting b n]
  | fills {b n : ℕ} {g : F} (hb : C.mmoShadowed b = none) : Shape C c [.filling b n g]
  | dirties (f : F) : Shape C c [.dirtying f]
  | cleans (f : F) : Shape C c [.cleaning f]
  | copyWaits {o n : ℕ} {f : F} (ho : (C.mmoShadowed o).isSome) (hc : Clear C c o n) :
      Shape C c [.getting (C.mmoBottomObj o) n,.filling o n f]
  | copyFills {o n : ℕ} {f g : F} (ho : (C.mmoShadowed o).isSome) (hc : Clear C c o n) :
      Shape C c [.filling (C.mmoBottomObj o) n g,.filling o n f]

omit [DecidableEq T] [DecidableEq F] in
theorem Shape.kept {st : List (Pending ℕ F)} (h : Shape C c st) (hk : Kept C c c') : Shape C c' st := by
  cases h with
  | idle => exact .idle
  | waits hb => exact .waits hb
  | fills hb => exact .fills hb
  | dirties f => exact .dirties f
  | cleans f => exact .cleans f
  | copyWaits ho hc => exact .copyWaits ho (hc.kept hk)
  | copyFills ho hc => exact .copyFills ho (hc.kept hk)

omit [DecidableEq F] in
theorem shapes_update {st : List (Pending ℕ F)} (h : ∀ u, Shape C c (c.stack u)) (hk : Kept C c c')
    (hst : c'.stack = update c.stack t st) (ht : Shape C c' st) (u : T) : Shape C c' (c'.stack u) := by
  rw [hst]
  by_cases hu : u = t
  · subst hu
    rw [update_self]
    exact ht
  · rw [update_of_ne hu]
    exact (h u).kept hk

/-- What a round of `pframe_get` does to the stack of its thread. -/
theorem get_cases {mem r : Option F} (hg : pframeGet H t o n mem c = some (c', r)) :
    (∃ f, r = some f ∧ c'.stack = c.stack) ∨ (r = none ∧ c'.stack = update c.stack t (.getting o n :: c.stack t)) ∨
    (r = none ∧ mem = none ∧ c'.stack = c.stack) ∨
    ∃ f, r = none ∧ mem = some f ∧ c'.stack = update c.stack t (.filling o n f :: c.stack t) := by
  unfold pframeGet at hg
  cases hr : pframeGetResident H o n c with
  | mk r1 c1 =>
    have hst : c1.stack = c.stack := by
      have : (pframeGetResident H o n c).2.stack = c.stack := by
        unfold pframeGetResident
        split
        · rfl
        · split <;> rfl
      rw [← this,hr]
    rw [hr] at hg
    rw [← hst]
    cases r1 with
    | some f =>
      obtain ⟨pf,hf,hg⟩ := bind_eq_some_iff.mp hg
      split at hg
      · cases hg
        exact .inr (.inl ⟨rfl,rfl⟩)
      · cases hg
        exact .inl ⟨f,rfl,rfl⟩
    | none =>
      cases mem with
      | none =>
        cases hg
        exact .inr (.inr (.inl ⟨rfl,rfl,rfl⟩))
      | some f =>
        obtain ⟨pf,-,hg⟩ := map_eq_some_iff.mp hg
        cases hg
        exact .inr (.inr (.inr ⟨f,rfl,rfl,rfl⟩))

omit [DecidableEq T] in
theorem getResident_none {c0 : PageCache T ℕ F} (h : pframeGetResident H o n c = (none, c0)) : c0 = c := by
  unfold pframeGetResident at h
  split at h
  · exact (Prod.mk.inj h).2.symm
  · split at h <;> cases (Prod.mk.inj h).1

/-- `pframe_get` for a page that is not there. -/
theorem get_new {mem r : Option F} (hn : pframeGetResident H o n c = (none, c))
    (hg : pframeGet H t o n mem c = some (c', r)) : (mem = none ∧ c' = c) ∨
      ∃ f, mem = some f ∧ c'.stack = update c.stack t (.filling o n f :: c.stack t) ∧
        c'.works = update c.works t (.filling o n f :: c.works t) ∧
        c'.identity = update c.identity f (some (o, n)) := by
  unfold pframeGet at hg
  rw [hn] at hg
  cases mem with
  | none =>
    cases hg
    exact .inl ⟨rfl,rfl⟩
  | some f =>
    have hpf : (pframeAlloc H o n f c).frame f = some ⟨o,n,0,false,false,[]⟩ := by simp [pframeAlloc]
    simp only [hpf,map_some,some.injEq,Prod.mk.injEq] at hg
    obtain ⟨rfl,rfl⟩ := hg
    have hframe : (beginOp t f ⟨o,n,0,false,false,[]⟩ (.filling o n f) (pframeAlloc H o n f c)).frame =
        update c.frame f (some ⟨o,n,0,true,false,[]⟩) := update_idem ..
    refine .inr ⟨f,rfl,rfl,?_,identity_update hframe⟩
    rw [beginOp,works_setStack]
    rfl

end Cache

end Frames

end Csci402.Mm
