import Csci402.Lib.Bubble
import Csci402.Warmup.My402ListRun
import Csci402.Warmup.Transaction

/-! `BubbleSortForwardList` of `Warmup1/warmup1.c`, on the pointer structure. A swap unlinks
two neighbours and inserts two new cells with their objects in the other order. The sort is a
machine that stops before the test of each loop, before the comparison and before the step to
the next element, so that its two pointers can be looked at in every round. -/

namespace Csci402.Warmup

open Lib Lib.Bubble Function Option List

variable {L A O : Type} [DecidableEq L] [DecidableEq A]

/-- What `malloc` returns in a given memory. -/
abbrev Malloc (L A O : Type) := Store L A O → Option A

/-- `malloc` returns a cell that is not in use if there is one. -/
def Supplies (malloc : Malloc L A O) : Prop := ∀ s, (∃ a, s.alive a = false) → Fresh s (malloc s)

/-! ### The swap -/

/-- `obj` goes behind `prev`, or to the front; the new cell and the memory. -/
def insertBehind (l : L) (obj : O) (prev : Option (Ref L A)) (m : Option A) (s : Store L A O) :
    Option (Option (Ref L A) × Store L A O) :=
  if prev = none then do
    let (_, s) ← s.my402ListPrepend l obj m
    return (s.my402ListFirst l, s)
  else do
    let (_, s) ← s.my402ListInsertAfter l obj prev m
    return (← s.my402ListNext l prev, s)

/-- `obj` goes in front of `next`, or to the end. -/
def insertInFront (l : L) (obj : O) (next : Option (Ref L A)) (m : Option A) (s : Store L A O) :
    Option (Option (Ref L A) × Store L A O) :=
  if next = none then do
    let (_, s) ← s.my402ListAppend l obj m
    return (s.my402ListLast l, s)
  else do
    let (_, s) ← s.my402ListInsertBefore l obj next m
    return (← s.my402ListPrev l next, s)

/-- The new values of `*pp_elem1` and `*pp_elem2`, and the memory. -/
def bubbleForward (l : L) (malloc : Malloc L A O) (elem1 elem2 : Option (Ref L A)) (s : Store L A O) :
    Option (Option (Ref L A) × Option (Ref L A) × Store L A O) := do
  let obj1 ← s.getObj elem1
  let obj2 ← s.getObj elem2
  let elem1prev ← s.my402ListPrev l elem1
  let elem2next ← s.my402ListNext l elem2
  let s ← s.my402ListUnlink l elem1
  let s ← s.my402ListUnlink l elem2
  let (elem1, s) ← insertBehind l obj2 elem1prev (malloc s) s
  let (elem2, s) ← insertInFront l obj1 elem2next (malloc s) s
  return (elem1, elem2, s)

section Swap

variable {s : Store L A O} {l : L} {a : A} {o : O} {x y : A × O} {xs ys : List (A × O)}

theorem insertBehind_eq (h : IsSeq s l (xs ++ ys)) (ha : s.alive a = false) :
    ∃ s', insertBehind l o (refs L xs).getLast? (some a) s = some (some (.elem a), s') ∧
      IsSeq s' l (xs ++ (a, o) :: ys) ∧ s'.alive = update s.alive a true := by
  have hs := h.insertElem (o := o) ha
  refine ⟨_,?_,hs,rfl⟩
  rcases eq_nil_or_concat xs with rfl | ⟨xs',x,rfl⟩
  · have hfirst := hs.first
    simp only [nil_append] at h hfirst
    simp only [insertBehind,refs_nil,getLast?_nil,if_true,h.prepend_eq,bind_eq_bind,
      bind_some]
    simpa using hfirst
  · rw [concat_eq_append] at h hs ⊢
    have hl : (refs L (xs' ++ [x])).getLast? = some (.elem x.1) := by simp
    have hx : (refs L (xs' ++ [x])).getLastD (.anchor l) = .elem x.1 := by simp
    rw [append_assoc,singleton_append] at h hs
    rw [hx] at hs ⊢
    simp only [insertBehind,hl,reduceCtorEq,if_false,h.insertAfter_eq,bind_eq_bind,
      bind_some,hs.next]
    rfl

theorem insertInFront_eq (h : IsSeq s l (xs ++ ys)) (ha : s.alive a = false) :
    ∃ s', insertInFront l o (refs L ys).head? (some a) s = some (some (.elem a), s') ∧
      IsSeq s' l (xs ++ (a, o) :: ys) := by
  have hs := h.insertElem (o := o) ha
  refine ⟨_,?_,hs⟩
  cases ys with
  | nil =>
    have hlast := hs.last
    rw [append_nil] at h
    simp only [insertInFront,refs_nil,head?_nil,if_true,h.append_eq,bind_eq_bind,
      bind_some,headD_nil] at hlast ⊢
    simpa using hlast
  | cons y ys =>
    have hl : (refs L (xs ++ [(a, o)])).getLast? = some (.elem a) := by simp
    rw [append_cons,refs_cons,headD_cons] at hs
    simp only [insertInFront,refs_cons,head?_cons,reduceCtorEq,if_false,h.insertBefore_eq,
      bind_eq_bind,bind_some,headD_cons,hs.prev,hl]
    rfl

/-- Two neighbours have changed their objects, in new cells. -/
theorem bubbleForward_eq {malloc : Malloc L A O} (hm : Supplies malloc) (h : IsSeq s l (xs ++ x :: y :: ys)) :
    ∃ a b s', bubbleForward l malloc (some (.elem x.1)) (some (.elem y.1)) s =
        some (some (.elem a), some (.elem b), s') ∧
      IsSeq s' l (xs ++ (a, y.2) :: (b, x.2) :: ys) := by
  have hxy : y.1 ≠ x.1 := h.ne.2 y (by simp)
  have hobj1 := h.getObj (x := x) (by simp)
  have hobj2 := h.getObj (x := y) (by simp)
  have hprev := h.prev
  have hnext : s.my402ListNext l (some (.elem y.1)) = some (refs L ys).head? := by
    rw [append_cons] at h
    exact h.next
  -- both cells are freed, so there is one for either allocation
  have h1 := h.removeElem
  have h2 := h1.removeElem
  have hdead : (s.removeElem l ((refs L xs).getLastD (.anchor l)) x.1 ((refs L (y :: ys)).headD (.anchor l))
      |>.removeElem l ((refs L xs).getLastD (.anchor l)) y.1 ((refs L ys).headD (.anchor l))).alive x.1 = false ∧
      (s.removeElem l ((refs L xs).getLastD (.anchor l)) x.1 ((refs L (y :: ys)).headD (.anchor l))
      |>.removeElem l ((refs L xs).getLastD (.anchor l)) y.1 ((refs L ys).headD (.anchor l))).alive y.1 = false := by
    simp [Store.removeElem,hxy.symm]
  obtain ⟨a,ha,hafree⟩ := hm _ ⟨_,hdead.1⟩
  obtain ⟨s3,hs3,h3,halive⟩ := insertBehind_eq (o := y.2) h2 hafree
  rw [append_cons] at h3
  have hfree : ∃ c, s3.alive c = false := by
    by_cases hc : x.1 = a
    · exact ⟨y.1,by rw [halive,update_of_ne (hc ▸ hxy),hdead.2]⟩
    · exact ⟨x.1,by rw [halive,update_of_ne hc,hdead.1]⟩
  obtain ⟨b,hb,hbfree⟩ := hm _ hfree
  obtain ⟨s4,hs4,h4⟩ := insertInFront_eq (o := x.2) h3 hbfree
  refine ⟨a,b,s4,?_,by simpa using h4⟩
  rw [mem_def] at ha hb
  simp only [bubbleForward,hobj1,hobj2,hprev,hnext,h.unlink_eq,h1.unlink_eq,ha,hs3,hb,hs4,
    bind_eq_bind,bind_some]
  rfl

end Swap

/-! ### The sort -/

/-- How the sort ends: with one of its two messages, or by returning. -/
inductive SortExit where
  | lengthIsNot
  | identical (line1 line2 : ℕ)
  | returned
  deriving DecidableEq, Repr

/-- Where the sort is: at its start, before the test of the outer or of the inner loop, before
the comparison, or before the step to the next element. -/
inductive SortPc where
  | start
  | outer
  | inner
  | compare
  | advance
  | exited (e : SortExit)
  deriving DecidableEq, Repr

structure SortState (L A O : Type) where
  store : Store L A O
  pc : SortPc := .start
  i : ℕ := 0
  j : ℕ := 0
  elem : Option (Ref L A) := none
  nextElem : Option (Ref L A) := none
  somethingSwapped : Bool := false

variable (deref : O → My402ListElemObj) (l : L) (numItems : ℤ)

/-- The comparison of two neighbours, and the swap. -/
def compareStep (st : SortState L A O) (malloc : Malloc L A O) : Option (SortState L A O) := do
  let curObj := deref (← st.store.getObj st.elem)
  let nextObj := deref (← st.store.getObj st.nextElem)
  if curObj.timestamp = nextObj.timestamp then
    return { st with pc := .exited (.identical curObj.lineNum nextObj.lineNum) }
  if curObj.timestamp > nextObj.timestamp then
    let (elem, nextElem, store) ← bubbleForward l malloc st.elem st.nextElem st.store
    return { st with store, elem, nextElem, somethingSwapped := true, pc := .advance }
  return { st with pc := .advance }

def sortStep (st : SortState L A O) (malloc : Malloc L A O) : Option (SortState L A O) :=
  match st.pc with
  | .start =>
    if st.store.my402ListLength l ≠ numItems then some { st with pc := .exited .lengthIsNot }
    else some { st with i := 0, pc := .outer }
  | .outer =>
    if st.i < numItems then
      some { st with
        somethingSwapped := false, nextElem := none, elem := st.store.my402ListFirst l, j := 0, pc := .inner }
    else some { st with pc := .exited .returned }
  | .inner =>
    if st.j < numItems - st.i - 1 then do
      let nextElem ← st.store.my402ListNext l st.elem
      return { st with nextElem, pc := .compare }
    else if st.somethingSwapped then some { st with i := st.i+1, pc := .outer }
    else some { st with pc := .exited .returned }
  | .compare => compareStep deref l st malloc
  | .advance => some { st with elem := st.nextElem, j := st.j+1, pc := .inner }
  | .exited _ => none

/-! ### Invariant -/

/-- The key that a cell is sorted by. -/
def stamp (x : A × O) : ℤ := (deref x.2).timestamp

/-- The list in the middle of a pass: `x` at index `j` is carried behind `pre`, and the last `i`
elements are settled. -/
structure InPass (st : SortState L A O) (ys pre : List (A × O)) (x : A × O) (mid post : List (A × O)) : Prop where
  split : ys = pre ++ x :: mid ++ post
  i : post.length = st.i
  j : pre.length = st.j
  settled : Settled (stamp deref) (pre ++ x :: mid) post

/-- What holds of the list at each place of the sort. -/
def Placed (st : SortState L A O) (ys : List (A × O)) : Prop :=
  match st.pc with
  | .start => True
  | .outer => ∃ pre post, ys = pre ++ post ∧ post.length = st.i ∧ Settled (stamp deref) pre post
  | .inner => ∃ pre x mid post, InPass deref st ys pre x mid post ∧
      Carried (stamp deref) st.somethingSwapped pre x ∧ st.elem = some (.elem x.1)
  | .compare => ∃ pre x y mid post, InPass deref st ys pre x (y :: mid) post ∧
      Carried (stamp deref) st.somethingSwapped pre x ∧ st.elem = some (.elem x.1) ∧
      st.nextElem = some (.elem y.1)
  | .advance => ∃ pre x y mid post, InPass deref st ys pre x (y :: mid) post ∧
      Carried (stamp deref) st.somethingSwapped (pre ++ [x]) y ∧ st.elem = some (.elem x.1) ∧
      st.nextElem = some (.elem y.1)
  | .exited .lengthIsNot => False
  | .exited (.identical m n) => ∃ pre x y post, ys = pre ++ x :: y :: post ∧
      stamp deref x = stamp deref y ∧ m = (deref x.2).lineNum ∧ n = (deref y.2).lineNum
  | .exited .returned => ys.Pairwise (stamp deref · < stamp deref ·)

/-- The list represents some sequence with the objects of `xs`, which is as it should be at this
place of the sort. -/
def SortInv (xs : List (A × O)) (st : SortState L A O) (ys : List (A × O)) : Prop :=
  IsSeq st.store l ys ∧ (ys.map Prod.snd).Perm (xs.map Prod.snd) ∧ Placed deref st ys

/-- A bound on the steps that remain for a list of `n` elements. -/
def SortState.left (n : ℕ) (st : SortState L A O) : ℕ :=
  match st.pc with
  | .start => n*(3*n+3)+2
  | .outer => (n - st.i)*(3*n+3)+1
  | .inner => (n - st.i - 1)*(3*n+3)+3*(n - st.j)+2
  | .compare => (n - st.i - 1)*(3*n+3)+3*(n - st.j)+1
  | .advance => (n - st.i - 1)*(3*n+3)+3*(n - st.j)
  | .exited _ => 0

/-- The next step is taken, keeps the invariant and brings the end nearer. -/
def Progress (xs : List (A × O)) (st : SortState L A O) (malloc : Malloc L A O) : Prop :=
  ∃ st', sortStep deref l xs.length st malloc = some st' ∧ (∃ ys, SortInv deref l xs st' ys) ∧
    st'.left xs.length < st.left xs.length

variable {deref l} {xs ys : List (A × O)} {st : SortState L A O} {malloc : Malloc L A O}

omit [DecidableEq L] [DecidableEq A] in
theorem SortInv.length_eq (h : SortInv deref l xs st ys) : ys.length = xs.length := by
  simpa using h.2.1.length_eq

variable {pre post : List (A × O)} {x : A × O}

omit [DecidableEq L] [DecidableEq A] in
theorem InPass.length_eq {mid : List (A × O)} (h : InPass deref st ys pre x mid post) :
    ys.length = st.j+1+mid.length+st.i := by
  rw [h.split,← h.i,← h.j]
  simp only [length_append,length_cons]
  omega

theorem start_progress (h : SortInv deref l xs st ys) (hpc : st.pc = .start) : Progress deref l xs st malloc := by
  have hlen : st.store.my402ListLength l = xs.length := by
    rw [Store.my402ListLength,h.1.length,h.length_eq]
  refine ⟨{ st with i := 0, pc := .outer },?_,⟨ys,h.1,h.2.1,ys,[],by simp,rfl,.nil ys⟩,?_⟩
  · simp [sortStep,hpc,hlen]
  · simp [SortState.left,hpc]

theorem outer_progress (h : SortInv deref l xs st ys) (hpc : st.pc = .outer) : Progress deref l xs st malloc := by
  obtain ⟨hseq,hperm,hp⟩ := h
  simp only [Placed,hpc] at hp
  obtain ⟨pre,post,rfl,hi,hset⟩ := hp
  have hlen : pre.length+st.i = xs.length := by
    rw [← hi,← length_append]
    simpa using hperm.length_eq
  cases pre with
  | nil =>
    have hge : ¬((st.i : ℤ) < xs.length) := by
      simp only [length_nil] at hlen
      omega
    refine ⟨{ st with pc := .exited .returned },?_,⟨_,hseq,hperm,hset.sorted⟩,?_⟩
    · simp only [sortStep,hpc,hge,if_false]
    · simp [SortState.left,hpc]
  | cons x mid =>
    have hlt : (st.i : ℤ) < xs.length := by
      rw [length_cons] at hlen
      omega
    have hfirst : st.store.my402ListFirst l = some (.elem x.1) := by rw [hseq.first]; rfl
    refine ⟨{ st with
      somethingSwapped := false, nextElem := none, elem := some (.elem x.1), j := 0, pc := .inner },?_,
      ⟨_,hseq,hperm,[],x,mid,post,⟨rfl,hi,rfl,hset⟩,.start x,rfl⟩,?_⟩
    · simp only [sortStep,hpc,hlt,if_true,hfirst]
    · have hk : xs.length - st.i = (xs.length - st.i - 1)+1 := by omega
      simp only [SortState.left,hpc,Nat.sub_zero]
      rw [hk,Nat.add_sub_cancel,Nat.add_mul,Nat.one_mul]
      omega

omit [DecidableEq L] [DecidableEq A] in
/-- Behind the last element of a pass only the settled part follows. -/
theorem InPass.mid_eq_nil {mid : List (A × O)} (h : InPass deref st ys pre x mid post)
    (hlen : ys.length = xs.length) (hj : ¬((st.j : ℤ) < (xs.length : ℤ) - st.i - 1)) : mid = [] := by
  rw [h.length_eq] at hlen
  exact eq_nil_of_length_eq_zero (by omega)

theorem inner_progress (h : SortInv deref l xs st ys) (hpc : st.pc = .inner) : Progress deref l xs st malloc := by
  have hlen := h.length_eq
  obtain ⟨hseq,hperm,hp⟩ := h
  simp only [Placed,hpc] at hp
  obtain ⟨pre,x,mid,post,hin,hc,he⟩ := hp
  rw [hin.length_eq] at hlen
  cases mid with
  | cons y mid =>
    have hlt : (st.j : ℤ) < (xs.length : ℤ) - st.i - 1 := by
      rw [length_cons] at hlen
      omega
    have hnext : st.store.my402ListNext l (some (.elem x.1)) = some (some (.elem y.1)) := by
      have hs := hseq
      rw [hin.split,append_assoc,cons_append] at hs
      exact hs.next
    refine ⟨{ st with nextElem := some (.elem y.1), pc := .compare },?_,
      ⟨ys,hseq,hperm,pre,x,y,mid,post,⟨hin.split,hin.i,hin.j,hin.settled⟩,hc,he,rfl⟩,?_⟩
    · simp only [sortStep,hpc,hlt,if_true,he,hnext,bind_eq_bind,bind_some]
      rfl
    · simp [SortState.left,hpc]
  | nil =>
    have hge : ¬((st.j : ℤ) < (xs.length : ℤ) - st.i - 1) := by
      rw [length_nil] at hlen
      omega
    cases hsw : st.somethingSwapped with
    | true =>
      refine ⟨{ st with i := st.i+1, pc := .outer },?_,⟨ys,hseq,hperm,pre,x :: post,?_,?_,
        hin.settled.extend hc⟩,?_⟩
      · simp only [sortStep,hpc,hge,if_false,hsw,if_true]
      · rw [hin.split,append_assoc]
        rfl
      · rw [length_cons,hin.i]
      · simp only [SortState.left,hpc,Nat.sub_sub]
        omega
    | false =>
      rw [hsw] at hc
      refine ⟨{ st with pc := .exited .returned },?_,⟨ys,hseq,hperm,?_⟩,?_⟩
      · simp only [sortStep,hpc,hge,if_false,hsw]
        rfl
      · rw [hin.split]
        exact hin.settled.sorted_of_pass hc
      · simp [SortState.left,hpc]

theorem compare_progress (hm : Supplies malloc) (h : SortInv deref l xs st ys) (hpc : st.pc = .compare) :
    Progress deref l xs st malloc := by
  obtain ⟨hseq,hperm,hp⟩ := h
  simp only [Placed,hpc] at hp
  obtain ⟨pre,x,y,mid,post,hin,hc,he,hn⟩ := hp
  have hys : ys = pre ++ x :: y :: (mid ++ post) := by rw [hin.split,append_assoc]; rfl
  rw [hys] at hseq
  have hx := hseq.getObj (x := x) (by simp)
  have hy := hseq.getObj (x := y) (by simp)
  rcases lt_trichotomy (stamp deref x) (stamp deref y) with hlt | heq | hgt
  · refine ⟨{ st with pc := .advance },?_,⟨ys,hys ▸ hseq,hperm,pre,x,y,mid,post,
      ⟨hin.split,hin.i,hin.j,hin.settled⟩,hc.pass hlt,he,hn⟩,?_⟩
    · have hne : (deref x.2).timestamp ≠ (deref y.2).timestamp := hlt.ne
      have hng : ¬(deref x.2).timestamp > (deref y.2).timestamp := hlt.le.not_gt
      simp only [sortStep,hpc,compareStep,he,hn,hx,hy,bind_eq_bind,bind_some,hne,hng,
        if_false]
      rfl
    · simp [SortState.left,hpc]
  · refine ⟨{ st with pc := .exited (.identical (deref x.2).lineNum (deref y.2).lineNum) },?_,
      ⟨ys,hys ▸ hseq,hperm,pre,x,y,mid ++ post,hys,heq,rfl,rfl⟩,?_⟩
    · have he' : (deref x.2).timestamp = (deref y.2).timestamp := heq
      simp only [sortStep,hpc,compareStep,he,hn,hx,hy,bind_eq_bind,bind_some,he',if_true]
      rfl
    · simp [SortState.left,hpc]
  · obtain ⟨a,b,s',hs',hseq'⟩ := bubbleForward_eq hm hseq
    refine ⟨{ st with
      store := s', elem := some (.elem a), nextElem := some (.elem b), somethingSwapped := true, pc := .advance },
      ?_,⟨_,hseq',?_,pre,(a, y.2),(b, x.2),mid,post,⟨?_,hin.i,hin.j,?_⟩,hc.swap hgt rfl rfl,rfl,rfl⟩,
      ?_⟩
    · have hne : (deref x.2).timestamp ≠ (deref y.2).timestamp := hgt.ne'
      have hg : (deref x.2).timestamp > (deref y.2).timestamp := hgt
      simp only [sortStep,hpc,compareStep,he,hn,hx,hy,bind_eq_bind,bind_some,hne,hg,
        if_false,if_true,hs']
      rfl
    · refine List.Perm.trans ?_ hperm
      rw [hys]
      simp only [map_append,map_cons]
      exact (List.Perm.swap _ _ _).append_left _
    · rw [append_assoc]
      rfl
    · refine hin.settled.perm ?_
      simp only [map_append,map_cons]
      exact (List.Perm.swap _ _ _).append_left _
    · simp [SortState.left,hpc]

theorem advance_progress (h : SortInv deref l xs st ys) (hpc : st.pc = .advance) : Progress deref l xs st malloc := by
  have hlen := h.length_eq
  obtain ⟨hseq,hperm,hp⟩ := h
  simp only [Placed,hpc] at hp
  obtain ⟨pre,x,y,mid,post,hin,hc,he,hn⟩ := hp
  rw [hin.length_eq,length_cons] at hlen
  refine ⟨{ st with elem := st.nextElem, j := st.j+1, pc := .inner },by simp only [sortStep,hpc],
    ⟨ys,hseq,hperm,pre ++ [x],y,mid,post,⟨?_,hin.i,?_,?_⟩,hc,hn⟩,?_⟩
  · rw [hin.split,← append_cons]
  · rw [length_append,hin.j]
    rfl
  · rw [← append_cons]
    exact hin.settled
  · simp only [SortState.left,hpc]
    omega

/-! ### Runs -/

theorem SortInv.progress (hm : Supplies malloc) (h : SortInv deref l xs st ys) (hpc : ∀ e, st.pc ≠ .exited e) :
    Progress deref l xs st malloc := by
  cases hp : st.pc with
  | start => exact start_progress h hp
  | outer => exact outer_progress h hp
  | inner => exact inner_progress h hp
  | compare => exact compare_progress hm h hp
  | advance => exact advance_progress h hp
  | exited e => exact absurd hp (hpc e)

theorem sortInv_of_exec {s : Store L A O} (h : IsSeq s l xs) {mallocs : List (Malloc L A O)}
    (hrun : Exec (sortStep deref l xs.length) (fun _ => Supplies) { store := s } mallocs st) :
    (∃ ys, SortInv deref l xs st ys) ∧
      mallocs.length+st.left xs.length ≤ xs.length*(3*xs.length+3)+2 := by
  induction hrun with
  | nil => exact ⟨⟨xs,h,.refl _,trivial⟩,by simp [SortState.left]⟩
  | @snoc t u ms m _ hm hst ih =>
    obtain ⟨⟨ys,hi⟩,hle⟩ := ih
    have hpc : ∀ e, t.pc ≠ .exited e := by
      intro e he
      simp [sortStep,he] at hst
    obtain ⟨u',hu',hi',hlt⟩ := hi.progress hm hpc
    rw [hst] at hu'
    cases hu'
    refine ⟨hi',?_⟩
    rw [length_append,length_singleton]
    omega

omit [DecidableEq L] [DecidableEq A] in
/-- The same objects have the same timestamps. -/
theorem stamps_perm (h : (ys.map Prod.snd).Perm (xs.map Prod.snd)) :
    (ys.map (stamp deref)).Perm (xs.map (stamp deref)) := by
  have := h.map fun o => (deref o).timestamp
  rwa [List.map_map,List.map_map] at this

omit [DecidableEq L] [DecidableEq A] in
theorem nodup_of_sorted (h : ys.Pairwise (stamp deref · < stamp deref ·)) : (ys.map (stamp deref)).Nodup := by
  rw [List.Nodup,pairwise_map]
  exact h.imp fun hlt => hlt.ne

omit [DecidableEq L] [DecidableEq A] in
theorem not_nodup_of_equal {y : A × O} (he : stamp deref x = stamp deref y) :
    ¬((pre ++ x :: y :: post).map (stamp deref)).Nodup := by
  intro hn
  rw [map_append,map_cons,map_cons,he] at hn
  exact (nodup_cons.mp (nodup_append.mp hn).2.1).1 (by simp)

/-- `BubbleSortForwardList` sorts any list or reports a duplicate. A run of it can go on until it
ends, and does so within a bound. All the time the list holds the objects it held, and the two
pointers lead to neighbours in it when they are used. A pass without a swap has met a sorted list.
At the end the list is in strictly increasing order, unless two of its transactions have the same
timestamp: then, and only then, the program ends with the message for two that are neighbours. -/
theorem bubbleSortForwardList_sorts (deref : O → My402ListElemObj) (s : Store L A O) (l : L) (xs : List (A × O))
    (h : IsSeq s l xs) (mallocs : List (Malloc L A O)) (st : SortState L A O)
    (hrun : Exec (sortStep deref l xs.length) (fun _ => Supplies) { store := s } mallocs st) :
    mallocs.length ≤ xs.length*(3*xs.length+3)+2 ∧
    ((∀ e, st.pc ≠ .exited e) → ∀ malloc, Supplies malloc → (sortStep deref l xs.length st malloc).isSome) ∧
    ∃ ys, IsSeq st.store l ys ∧ (ys.map Prod.snd).Perm (xs.map Prod.snd) ∧
      (st.pc = .compare ∨ st.pc = .advance → ∃ pre x y post, ys = pre ++ x :: y :: post ∧
        st.elem = some (.elem x.1) ∧ st.nextElem = some (.elem y.1)) ∧
      (st.pc = .inner → ¬((st.j : ℤ) < xs.length - st.i - 1) → st.somethingSwapped = false →
        ys.Pairwise (stamp deref · < stamp deref ·)) ∧
      st.pc ≠ .exited .lengthIsNot ∧
      (st.pc = .exited .returned →
        (xs.map (stamp deref)).Nodup ∧ ys.Pairwise (stamp deref · < stamp deref ·)) ∧
      ∀ m n, st.pc = .exited (.identical m n) →
        ¬(xs.map (stamp deref)).Nodup ∧ ∃ pre x y post, ys = pre ++ x :: y :: post ∧
          stamp deref x = stamp deref y ∧ m = (deref x.2).lineNum ∧ n = (deref y.2).lineNum := by
  obtain ⟨⟨ys,hi⟩,hle⟩ := sortInv_of_exec h hrun
  refine ⟨by omega,fun hpc malloc hm => ?_,ys,hi.1,hi.2.1,?_,?_,?_,?_,?_⟩
  · obtain ⟨st',hst',-⟩ := hi.progress hm hpc
    simp [hst']
  · rintro (hpc | hpc)
    all_goals
      have hp := hi.2.2
      simp only [Placed,hpc] at hp
      obtain ⟨pre,x,y,mid,post,hin,-,he,hn⟩ := hp
      exact ⟨pre,x,y,mid ++ post,by rw [hin.split,append_assoc]; rfl,he,hn⟩
  · intro hpc hj hsw
    have hp := hi.2.2
    simp only [Placed,hpc] at hp
    obtain ⟨pre,x,mid,post,hin,hc,-⟩ := hp
    obtain rfl := hin.mid_eq_nil hi.length_eq hj
    rw [hsw] at hc
    rw [hin.split]
    exact hin.settled.sorted_of_pass hc
  · intro hpc
    have hp := hi.2.2
    simp only [Placed,hpc] at hp
  · intro hpc
    have hp := hi.2.2
    simp only [Placed,hpc] at hp
    exact ⟨(stamps_perm hi.2.1).nodup_iff.mp (nodup_of_sorted hp),hp⟩
  · intro m n hpc
    have hp := hi.2.2
    simp only [Placed,hpc] at hp
    obtain ⟨pre,x,y,post,rfl,he,hm,hn⟩ := hp
    refine ⟨fun hno => not_nodup_of_equal he ((stamps_perm hi.2.1).nodup_iff.mpr hno),?_⟩
    exact ⟨pre,x,y,post,rfl,he,hm,hn⟩

/-! A list of three in a memory of four cells, where a swap must use cells that it has freed. -/

def firstFree : Malloc Unit (Bool × Bool) ℕ := fun s =>
  [(false, false),(false, true),(true, false),(true, true)].find? fun a => !s.alive a

theorem firstFree_supplies : Supplies firstFree := by
  rintro s ⟨a,ha⟩
  have hsome : (firstFree s).isSome := by
    rw [firstFree,find?_isSome]
    refine ⟨a,?_,by simp [ha]⟩
    obtain ⟨_ | _,_ | _⟩ := a
    all_goals simp
  obtain ⟨b,hb⟩ := isSome_iff_exists.mp hsome
  exact ⟨b,hb,by simpa using find?_some hb⟩

def threeOps : List (ListOp Unit (Bool × Bool) ℕ) :=
  [.init (),.append () 30 (some (false, false)),.append () 10 (some (false, true)),
    .append () 20 (some (true, false))]

def smallMemory : Store Unit (Bool × Bool) ℕ × Seqs Unit (Bool × Bool) ℕ :=
  (⟨⟨fun _ => none,fun _ => none⟩,fun _ => 0,fun _ => false,fun _ => 0⟩, fun _ => none)

def threeList : Store Unit (Bool × Bool) ℕ × Seqs Unit (Bool × Bool) ℕ :=
  (run listStep Allowed smallMemory threeOps).getD smallMemory

/-- A transaction that was made at the time that is its line number. -/
def stampedObj (t : ℕ) : My402ListElemObj := ⟨['+'],[],[],[],t,1,t⟩

def threeSorted : SortState Unit (Bool × Bool) ℕ :=
  (run (sortStep stampedObj () 3) (fun _ _ => True) { store := threeList.1 } (List.replicate 14 firstFree)).getD
    { store := threeList.1 }

theorem bubbleSortForwardList_sorts_threeList :
    Exec (sortStep stampedObj () 3) (fun _ => Supplies) { store := threeList.1 } (List.replicate 14 firstFree)
        threeSorted ∧
      threeSorted.pc = .exited .returned ∧
      ∃ ys, IsSeq threeSorted.store () ys ∧ (ys.map Prod.snd).Perm [30,10,20] ∧
        ys.Pairwise (stamp stampedObj · < stamp stampedObj ·) := by
  have hseq : IsSeq threeList.1 () [((false, false), 30),((false, true), 10),((true, false), 20)] := by
    have hrun : Exec listStep Allowed smallMemory threeOps threeList :=
      Exec.ofRun_getD (by decide +kernel) smallMemory
    exact (listInv_of_exec hrun).seq () _ (by decide +kernel)
  have hrun : Exec (sortStep stampedObj () 3) (fun _ => Supplies) { store := threeList.1 }
      (List.replicate 14 firstFree) threeSorted := by
    have hany : Exec (sortStep stampedObj () 3) (fun _ _ => True) { store := threeList.1 }
      (List.replicate 14 firstFree) threeSorted := Exec.ofRun_getD (by decide +kernel) _
    refine hany.weaken fun _ m hm _ => ?_
    rw [eq_of_mem_replicate hm]
    exact firstFree_supplies
  have hpc : threeSorted.pc = .exited .returned := by decide +kernel
  obtain ⟨-,-,ys,hys,hperm,-,-,-,hret,-⟩ :=
    bubbleSortForwardList_sorts stampedObj _ () _ hseq _ _ hrun
  exact ⟨hrun,hpc,ys,hys,hperm,(hret hpc).2⟩

end Csci402.Warmup
