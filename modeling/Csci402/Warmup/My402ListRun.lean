import Mathlib.Data.List.Induction
import Csci402.Lib.Iterate
import Csci402.Warmup.My402ListSeq

/-! Sequences of calls on any number of lists. Beside the memory runs an abstract
machine whose state gives each initialised list its sequence; the pointer structure
represents that sequence in every reachable state, so all that a caller can see of a
list by reading it follows from the sequence. -/

namespace Csci402.Warmup

open Lib Function Option List

variable {L A O : Type} {s : Store L A O} {l : L} {x : A × O} {xs ys : List (A × O)}

/-! ### Walking along a list -/

/-- The cells from `cur` on, with their objects, until `step` gives NULL. -/
def Store.walk (step : Option (Ref L A) → Option (Option (Ref L A))) (s : Store L A O) :
    ℕ → Option (Ref L A) → Option (List (A × O))
  | _, none => some []
  | 0, some _ => none
  | _+1, some (.anchor _) => none
  | k+1, some (.elem a) => do
    let o ← s.getObj (some (.elem a : Ref L A))
    let rest ← walk step s k (← step (some (.elem a)))
    return (a, o) :: rest

theorem IsSeq.getObj (h : IsSeq s l xs) (hx : x ∈ xs) : s.getObj (some (.elem x.1 : Ref L A)) = some x.2 := by
  obtain ⟨ha,ho⟩ := h.cell x hx
  simp [Store.getObj,ha,ho]

variable [DecidableEq L] [DecidableEq A]

theorem IsSeq.walk_next (h : IsSeq s l (xs ++ ys)) :
    s.walk (fun p => s.my402ListNext l p) ys.length (refs L ys).head? = some ys := by
  induction ys generalizing xs with
  | nil => rfl
  | cons y ys ih =>
    have hy := h.getObj (x := y) (by simp)
    have hnext := h.next
    rw [append_cons] at h
    simp only [length_cons,refs_cons,head?_cons,Store.walk,hy,hnext,ih h,
      bind_eq_bind,bind_some]
    rfl

theorem IsSeq.walk_prev (h : IsSeq s l (xs ++ ys)) :
    s.walk (fun p => s.my402ListPrev l p) xs.length (refs L xs).getLast? = some xs.reverse := by
  induction xs using List.reverseRecOn generalizing ys with
  | nil => rfl
  | append_singleton xs x ih =>
    have hx := h.getObj (x := x) (by simp)
    rw [← append_cons] at h
    have hl : (refs L (xs ++ [x])).getLast? = some (.elem x.1) := by simp
    rw [hl,length_append,length_singleton,reverse_append]
    simp only [Store.walk,hx,h.prev,ih h,bind_eq_bind,bind_some]
    rfl

theorem IsSeq.findLoop_eq [DecidableEq O] (o : O) (h : IsSeq s l (xs ++ ys)) :
    Store.findLoop l o s ys.length (refs L ys).head? =
      some ((ys.find? fun y => y.2 = o).map fun y => .elem y.1) := by
  induction ys generalizing xs with
  | nil => rfl
  | cons y ys ih =>
    have hy := h.getObj (x := y) (by simp)
    have hnext := h.next
    rw [append_cons] at h
    simp only [length_cons,refs_cons,head?_cons,Store.findLoop,hy,hnext,ih h,
      bind_eq_bind,bind_some,find?_cons]
    by_cases he : y.2 = o
    · simp [he]
    · simp [he]

/-! ### The sequences -/

/-- The sequence of each list; `none` before its first `My402ListInit`. -/
abbrev Seqs (L A O : Type) := L → Option (List (A × O))

namespace ListOp

def list : ListOp L A O → L
  | .init l | .append l _ _ | .prepend l _ _ | .insertAfter l _ _ _ | .insertBefore l _ _ _
  | .unlink l _ | .unlinkAll l => l

/-- What a call does to the sequence of its list. -/
def apply : ListOp L A O → List (A × O) → List (A × O)
  | .init _, _ => []
  | .append _ o (some a), xs => xs ++ [(a, o)]
  | .prepend _ o (some a), xs => (a, o) :: xs
  | .insertAfter _ o none (some a), xs => xs ++ [(a, o)]
  | .insertAfter _ o (some e) (some a), xs => xs.flatMap fun x => if x.1 = e then [x,(a, o)] else [x]
  | .insertBefore _ o none (some a), xs => (a, o) :: xs
  | .insertBefore _ o (some e) (some a), xs => xs.flatMap fun x => if x.1 = e then [(a, o),x] else [x]
  | .unlink _ (some e), xs => xs.filter fun x => x.1 ≠ e
  | .unlinkAll _, _ => []
  | _, xs => xs

/-- An insertion whose allocation fails. -/
def outOfMemory : ListOp L A O → Bool
  | .append _ _ none | .prepend _ _ none | .insertAfter _ _ _ none | .insertBefore _ _ _ none => true
  | _ => false

/-- An insertion next to an element, with an allocation of its own. -/
def atElem : ListOp L A O → Bool
  | .insertAfter _ _ (some _) _ | .insertBefore _ _ (some _) _ => true
  | _ => false

/-- `My402ListUnlink` of NULL. -/
def unlinksNull : ListOp L A O → Bool
  | .unlink _ none => true
  | _ => false

end ListOp

/-- The result of `malloc` is a fresh cell. -/
def Fresh (s : Store L A O) (m : Option A) : Prop := ∃ a ∈ m, s.alive a = false

/-- The element argument is NULL or an element of the list. -/
def ElemOf (m : Seqs L A O) (l : L) (elem : Option A) : Prop := ∀ a ∈ elem, ∃ xs ∈ m l, a ∈ xs.map Prod.fst

/-- The calls in question: on an initialised list, with an element argument that is NULL or in
the list, and with allocation that succeeds. -/
def Asked (t : Store L A O × Seqs L A O) : ListOp L A O → Prop
  | .init _ => True
  | .append l _ m | .prepend l _ m => (t.2 l).isSome ∧ Fresh t.1 m
  | .insertAfter l _ elem m | .insertBefore l _ elem m => (t.2 l).isSome ∧ ElemOf t.2 l elem ∧ Fresh t.1 m
  | .unlink l elem => (t.2 l).isSome ∧ ElemOf t.2 l elem
  | .unlinkAll l => (t.2 l).isSome

/-- `INT_MAX`. The number of members is an `int`. -/
def intMax : ℕ := 2147483647

/-- The same calls without `My402ListUnlink` of NULL, on lists that do not grow beyond `INT_MAX` members. -/
def Allowed (t : Store L A O × Seqs L A O) (c : ListOp L A O) : Prop :=
  Asked t c ∧ c.unlinksNull = false ∧ (c.apply ((t.2 c.list).getD [])).length ≤ intMax

instance (s : Store L A O) (m : Option A) : Decidable (Fresh s m) := inferInstanceAs (Decidable (∃ _, _))

instance (m : Seqs L A O) (l : L) (elem : Option A) : Decidable (ElemOf m l elem) :=
  inferInstanceAs (Decidable (∀ _, _))

instance (t : Store L A O × Seqs L A O) : ∀ c : ListOp L A O, Decidable (Asked t c) := by
  rintro ⟨⟩ <;> unfold Asked <;> infer_instance

instance (t : Store L A O × Seqs L A O) (c : ListOp L A O) : Decidable (Allowed t c) :=
  inferInstanceAs (Decidable (_ ∧ _ ∧ _))

/-! ### What a call does -/

/-- What a call on list `l` has done when it took the sequence `xs` to `ys`. -/
structure Does (s s' : Store L A O) (l : L) (xs ys : List (A × O)) : Prop where
  seq : IsSeq s' l ys
  frame : Frame s s' l (xs.map Prod.fst)
  new : ∀ y ∈ ys, y ∈ xs ∨ s.alive y.1 = false

variable {a : A} {o : O}

theorem IsSeq.does_insert (h : IsSeq s l (xs ++ ys)) (ha : s.alive a = false) :
    Does s (s.insertElem l ((refs L xs).getLastD (.anchor l)) a ((refs L ys).headD (.anchor l)) o) l
      (xs ++ ys) (xs ++ (a, o) :: ys) := by
  refine ⟨h.insertElem ha,frame_insertElem ha,fun y hy => ?_⟩
  rw [perm_middle.mem_iff,mem_cons] at hy
  rcases hy with rfl | hy
  · exact .inr ha
  · exact .inl hy

theorem IsSeq.does_append (h : IsSeq s l xs) (ha : s.alive a = false) :
    ∃ s', s.my402ListAppend l o (some a) = some (true, s') ∧ Does s s' l xs (xs ++ [(a, o)]) := by
  refine ⟨_,h.append_eq,?_⟩
  rw [← append_nil xs] at h
  simpa using h.does_insert (o := o) ha

theorem IsSeq.does_prepend (h : IsSeq s l xs) (ha : s.alive a = false) :
    ∃ s', s.my402ListPrepend l o (some a) = some (true, s') ∧ Does s s' l xs ((a, o) :: xs) := by
  refine ⟨_,h.prepend_eq,?_⟩
  rw [← nil_append xs] at h
  simpa using h.does_insert (o := o) ha

omit [DecidableEq L] [DecidableEq A] in
/-- The place of an element in the sequence of its list. -/
theorem ElemOf.split {m : Seqs L A O} {e : A} (he : ElemOf m l (some e)) (hx : m l = some xs) :
    ∃ xs1 x xs2, xs = xs1 ++ x :: xs2 ∧ x.1 = e := by
  obtain ⟨xs',hx',hm⟩ := he e rfl
  rw [hx] at hx'
  cases hx'
  obtain ⟨x,hxm,rfl⟩ := List.mem_map.mp hm
  obtain ⟨xs1,xs2,rfl⟩ := append_of_mem hxm
  exact ⟨xs1,x,xs2,rfl,rfl⟩

variable {t : Store L A O × Seqs L A O} {c : ListOp L A O}

/-- Every call succeeds and does to its sequence what it should. -/
theorem call_does [DecidableEq O] (hc : Allowed t c) (h : ∀ xs ∈ t.2 c.list, IsSeq t.1 c.list xs) :
    ∃ s', t.1.call c = some (true, s') ∧
      Does t.1 s' c.list ((t.2 c.list).getD []) (c.apply ((t.2 c.list).getD [])) := by
  obtain ⟨s,m⟩ := t
  obtain ⟨hask,hnull,-⟩ := hc
  -- the sequence of a list that has been initialised
  have hseq : ∀ l, (m l).isSome → (∀ xs ∈ m l, IsSeq s l xs) → ∃ xs, m l = some xs ∧ IsSeq s l xs := by
    intro l hl hi
    obtain ⟨xs,hx⟩ := isSome_iff_exists.mp hl
    exact ⟨xs,hx,hi xs hx⟩
  cases c with
  | init l => exact ⟨_,rfl,IsSeq.init s l,(frame_init s l).mono nofun,nofun⟩
  | append l o r =>
    obtain ⟨hl,a,rfl,ha⟩ := hask
    obtain ⟨xs,hx,hi⟩ := hseq l hl h
    simp only [ListOp.list,hx]
    exact hi.does_append ha
  | prepend l o r =>
    obtain ⟨hl,a,rfl,ha⟩ := hask
    obtain ⟨xs,hx,hi⟩ := hseq l hl h
    simp only [ListOp.list,hx]
    exact hi.does_prepend ha
  | insertAfter l o elem r =>
    obtain ⟨hl,he,a,rfl,ha⟩ := hask
    obtain ⟨xs,hx,hi⟩ := hseq l hl h
    simp only [ListOp.list,hx,getD_some]
    cases elem with
    | none => exact hi.does_append ha
    | some e =>
      obtain ⟨xs1,x,xs2,rfl,rfl⟩ := he.split hx
      refine ⟨_,hi.insertAfter_eq,?_⟩
      simp only [ListOp.apply]
      rw [flatMap_key hi.nodup fun y => [y,(a, o)]]
      rw [append_cons] at hi ⊢
      simpa using hi.does_insert (o := o) ha
  | insertBefore l o elem r =>
    obtain ⟨hl,he,a,rfl,ha⟩ := hask
    obtain ⟨xs,hx,hi⟩ := hseq l hl h
    simp only [ListOp.list,hx,getD_some]
    cases elem with
    | none => exact hi.does_prepend ha
    | some e =>
      obtain ⟨xs1,x,xs2,rfl,rfl⟩ := he.split hx
      refine ⟨_,hi.insertBefore_eq,?_⟩
      simp only [ListOp.apply]
      rw [flatMap_key hi.nodup fun y => [(a, o),y]]
      simpa using hi.does_insert (o := o) ha
  | unlink l elem =>
    obtain ⟨hl,he⟩ := hask
    obtain ⟨xs,hx,hi⟩ := hseq l hl h
    simp only [ListOp.list,hx,getD_some]
    cases elem with
    | none => cases hnull
    | some e =>
      obtain ⟨xs1,x,xs2,rfl,rfl⟩ := he.split hx
      refine ⟨_,congrArg (Option.map (true, ·)) hi.unlink_eq,?_⟩
      simp only [ListOp.apply]
      rw [filter_key hi.nodup]
      exact ⟨hi.removeElem,frame_removeElem,
        fun y hy => .inl (perm_middle.mem_iff.mpr (mem_cons_of_mem x hy))⟩
  | unlinkAll l =>
    obtain ⟨xs,hx,hi⟩ := hseq l hask h
    obtain ⟨s',hs',hnil,hf⟩ := hi.unlinkAll
    simp only [ListOp.list,hx,getD_some]
    exact ⟨s',by simp [Store.call,hs'],hnil,hf,nofun⟩

/-! ### Runs -/

/-- A call on the memory, with its effect on the sequences beside it. -/
def listStep [DecidableEq O] (t : Store L A O × Seqs L A O) (c : ListOp L A O) : Option (Store L A O × Seqs L A O) :=
  (t.1.call c).map fun r => (r.2, update t.2 c.list (some (c.apply ((t.2 c.list).getD []))))

/-- The lists represent their sequences and share no cells. -/
structure ListInv (s : Store L A O) (m : Seqs L A O) : Prop where
  seq : ∀ l, ∀ xs ∈ m l, IsSeq s l xs
  disjoint : ∀ l l', l ≠ l' → ∀ xs ∈ m l, ∀ ys ∈ m l', ∀ a ∈ xs.map Prod.fst, a ∉ ys.map Prod.fst

omit [DecidableEq A] in
theorem ListInv.update {s s' : Store L A O} {m : Seqs L A O} (h : ListInv s m)
    (hd : Does s s' l ((m l).getD []) ys) : ListInv s' (update m l (some ys)) := by
  -- no other list has a cell of this one, before the call or after it
  have hold : ∀ l', l' ≠ l → ∀ zs ∈ m l', ∀ a ∈ ((m l).getD []).map Prod.fst, a ∉ zs.map Prod.fst := by
    intro l' hl zs hz
    cases hx : m l with
    | none => exact nofun
    | some xs => exact h.disjoint l l' hl.symm xs hx zs hz
  have hnew : ∀ l', l' ≠ l → ∀ zs ∈ m l', ∀ a ∈ ys.map Prod.fst, a ∉ zs.map Prod.fst := by
    intro l' hl zs hz a ha hm
    obtain ⟨y,hy,rfl⟩ := List.mem_map.mp ha
    rcases hd.new y hy with hy | hy
    · exact hold l' hl zs hz y.1 (List.mem_map_of_mem hy) hm
    · obtain ⟨z,hzm,he⟩ := List.mem_map.mp hm
      rw [← he,((h.seq l' zs hz).cell z hzm).1] at hy
      cases hy
  have hother : ∀ l', l' ≠ l → Function.update m l (some ys) l' = m l' := fun l' hl =>
    update_of_ne hl _ _
  have hself : Function.update m l (some ys) l = some ys := update_self _ _ _
  refine ⟨fun l' zs hz => ?_,fun l1 l2 hne zs1 hz1 zs2 hz2 a ha hm => ?_⟩
  · by_cases hl : l' = l
    · subst hl
      rw [hself] at hz
      cases hz
      exact hd.seq
    · rw [hother l' hl] at hz
      exact hd.frame l' zs hl (h.seq l' zs hz) (hold l' hl zs hz)
  · by_cases h1 : l1 = l
    · subst h1
      rw [hself] at hz1
      cases hz1
      rw [hother l2 hne.symm] at hz2
      exact hnew l2 hne.symm zs2 hz2 a ha hm
    · rw [hother l1 h1] at hz1
      by_cases h2 : l2 = l
      · subst h2
        rw [hself] at hz2
        cases hz2
        exact hnew l1 h1 zs1 hz1 a hm ha
      · rw [hother l2 h2] at hz2
        exact h.disjoint l1 l2 hne zs1 hz1 zs2 hz2 a ha hm

theorem ListInv.step [DecidableEq O] (h : ListInv t.1 t.2) (hc : Allowed t c) : ∃ s', t.1.call c = some (true, s') ∧
      ListInv s' (Function.update t.2 c.list (some (c.apply ((t.2 c.list).getD [])))) := by
  obtain ⟨s',hs',hd⟩ := call_does hc (h.seq c.list)
  exact ⟨s',hs',h.update hd⟩

/-- Calls as in `Allowed`, and insertions whose allocation fails, none of them at an element. -/
def Attempted (t : Store L A O × Seqs L A O) (c : ListOp L A O) : Prop :=
  Allowed t c ∨ (t.2 c.list).isSome ∧ c.outOfMemory = true ∧ c.atElem = false

instance (t : Store L A O × Seqs L A O) (c : ListOp L A O) : Decidable (Attempted t c) :=
  inferInstanceAs (Decidable (_ ∨ _))

/-- An insertion that runs out of memory returns FALSE before it has changed anything. -/
theorem call_outOfMemory [DecidableEq O] {s : Store L A O} (hm : c.outOfMemory = true)
    (he : c.atElem = false) : s.call c = some (false, s) := by
  cases c with
  | append l o m | prepend l o m =>
    cases m with
    | none => rfl
    | some a => cases hm
  | insertAfter l o elem m | insertBefore l o elem m =>
    cases m with
    | none =>
      cases elem with
      | none => rfl
      | some e => cases he
    | some a => cases hm
  | init l | unlink l elem | unlinkAll l => cases hm

/-- At an element the result of `malloc` is not looked at. -/
theorem call_outOfMemory_atElem [DecidableEq O] {s : Store L A O} (hm : c.outOfMemory = true)
    (he : c.atElem = true) : s.call c = none := by
  cases c with
  | insertAfter l o elem m | insertBefore l o elem m =>
    cases m with
    | none =>
      cases elem with
      | none => cases he
      | some e => rfl
    | some a => cases hm
  | init l | append l o m | prepend l o m | unlink l elem | unlinkAll l => cases he

omit [DecidableEq L] in
theorem ListOp.apply_outOfMemory (hm : c.outOfMemory = true) : c.apply xs = xs := by
  cases c with
  | append l o m | prepend l o m =>
    cases m with
    | none => rfl
    | some a => cases hm
  | insertAfter l o elem m | insertBefore l o elem m =>
    cases m with
    | none => cases elem <;> rfl
    | some a => cases hm
  | init l | unlink l elem | unlinkAll l => cases hm

theorem listStep_outOfMemory [DecidableEq O]
    (hl : (t.2 c.list).isSome) (hm : c.outOfMemory = true) (he : c.atElem = false) : listStep t c = some t := by
  obtain ⟨xs,hx⟩ := isSome_iff_exists.mp hl
  have hsame : update t.2 c.list (some xs) = t.2 := by rw [← hx,update_eq_self]
  simp only [listStep,call_outOfMemory hm he,ListOp.apply_outOfMemory hm,hx,getD_some,hsame,
    map_some]

theorem listInv_of_attempts [DecidableEq O] {s0 : Store L A O} {cs : List (ListOp L A O)}
    (h : Exec listStep Attempted (s0, fun _ => none) cs t) : ListInv t.1 t.2 := by
  induction h with
  | nil => exact ⟨nofun,nofun⟩
  | snoc _ hc hu ih =>
    rcases hc with hc | ⟨hl,hm,he⟩
    · obtain ⟨s',hs',hi⟩ := ih.step hc
      rw [listStep,hs'] at hu
      cases hu
      exact hi
    · rw [listStep_outOfMemory hl hm he] at hu
      cases hu
      exact ih

theorem listInv_of_exec [DecidableEq O] {s0 : Store L A O} {cs : List (ListOp L A O)}
    (h : Exec listStep Allowed (s0, fun _ => none) cs t) : ListInv t.1 t.2 :=
  listInv_of_attempts (h.weaken fun _ _ _ hc => .inl hc)

theorem IsSeq.walks (h : IsSeq s l xs) :
    s.walk (fun p => s.my402ListNext l p) xs.length (s.my402ListFirst l) = some xs ∧
      s.walk (fun p => s.my402ListPrev l p) xs.length (s.my402ListLast l) = some xs.reverse := by
  have h1 : IsSeq s l ([] ++ xs) := h
  have h2 : IsSeq s l (xs ++ []) := by rwa [append_nil]
  rw [h.first,h.last]
  exact ⟨h1.walk_next,h2.walk_prev⟩

/-- The lists of `my402list.c` are sequences. In every state that calls can lead to, a list
reads as its sequence in every way, and the next call returns TRUE and has the effect on
the sequences that `ListOp.apply` gives: on its own list only, with the other elements kept. -/
theorem my402List_sequence [DecidableEq O] (s0 : Store L A O) (cs : List (ListOp L A O))
    (t : Store L A O × Seqs L A O) (h : Exec listStep Allowed (s0, fun _ => none) cs t) : (∀ l, ∀ xs ∈ t.2 l,
      t.1.walk (fun p => t.1.my402ListNext l p) xs.length (t.1.my402ListFirst l) = some xs ∧
      t.1.walk (fun p => t.1.my402ListPrev l p) xs.length (t.1.my402ListLast l) = some xs.reverse ∧
      t.1.my402ListLength l = xs.length ∧
      t.1.my402ListEmpty l = xs.isEmpty ∧
      (xs.map Prod.fst).Nodup ∧
      ∀ o, t.1.my402ListFind l o = some ((xs.find? fun x => x.2 = o).map fun x => .elem x.1)) ∧
    ∀ c, Allowed t c → ∃ s', t.1.call c = some (true, s') ∧
      listStep t c = some (s', update t.2 c.list (some (c.apply ((t.2 c.list).getD [])))) := by
  have hi := listInv_of_exec h
  refine ⟨fun l xs hx => ?_,fun c hc => ?_⟩
  · have hs := hi.seq l xs hx
    have hs1 : IsSeq t.1 l ([] ++ xs) := hs
    refine ⟨hs.walks.1,hs.walks.2,hs.length,hs.empty,hs.nodup,fun o => ?_⟩
    rw [Store.my402ListFind,hs.first,hs.length,Int.toNat_natCast]
    exact hs1.findLoop_eq o
  · obtain ⟨s',hs',-⟩ := hi.step hc
    exact ⟨s',hs',by rw [listStep,hs']; rfl⟩

/-- Memory in which nothing has been set up. -/
def sampleStore : Store Bool ℕ ℕ := ⟨⟨fun _ => none,fun _ => none⟩,fun _ => 0,fun _ => false,fun _ => 7⟩

/-- Two lists; the first is filled from all sides, loses an element and is emptied in the end. -/
def sampleListOps : List (ListOp Bool ℕ ℕ) :=
  [.init true,.init false,.append true 10 (some 1),.prepend true 20 (some 2),.append false 30 (some 3),
    .insertAfter true 40 (some 2) (some 4),.insertBefore true 10 (some 1) (some 5),.unlink true (some 2),
    .unlinkAll false]

theorem my402List_sequence_sampleListOps : ∃ t, Exec listStep Allowed (sampleStore, fun _ => none) sampleListOps t ∧
      t.2 true = some [(4, 40),(5, 10),(1, 10)] ∧ t.2 false = some [] ∧
      t.1.my402ListFind true 10 = some (some (.elem 5)) := by
  have h : Exec listStep Allowed (sampleStore, fun _ => none) sampleListOps _ := Exec.ofRun rfl
  exact ⟨_,h,rfl,rfl,((my402List_sequence _ _ _ h).1 true _ rfl).2.2.2.2.2 10⟩

/-- An insertion that runs out of memory returns FALSE and leaves the whole memory as it was, so that
every list still reads as the sequence it had, just when it is not made next to an element. -/
theorem failed_insertion_keeps [DecidableEq O] (s0 : Store L A O) (cs : List (ListOp L A O))
    (t : Store L A O × Seqs L A O) (h : Exec listStep Attempted (s0, fun _ => none) cs t)
    (c : ListOp L A O) (hl : (t.2 c.list).isSome) (hm : c.outOfMemory = true) :
    (t.1.call c = some (false, t.1) ∧ listStep t c = some t ∧
      ∀ l, ∀ xs ∈ t.2 l,
        t.1.walk (fun p => t.1.my402ListNext l p) xs.length (t.1.my402ListFirst l) = some xs ∧
        t.1.walk (fun p => t.1.my402ListPrev l p) xs.length (t.1.my402ListLast l) = some xs.reverse ∧
        t.1.my402ListLength l = xs.length) ↔ c.atElem = false := by
  constructor
  · rintro ⟨hcall,-⟩
    cases he : c.atElem with
    | false => rfl
    | true =>
      rw [call_outOfMemory_atElem hm he] at hcall
      cases hcall
  · intro he
    refine ⟨call_outOfMemory hm he,listStep_outOfMemory hl hm he,fun l xs hx => ?_⟩
    have hs := (listInv_of_attempts h).seq l xs hx
    exact ⟨hs.walks.1,hs.walks.2,hs.length⟩

theorem failed_insertion_keeps_sampleListOps : ∃ t, Exec listStep Attempted (sampleStore, fun _ => none)
        [.init true,.prepend true 10 none,.append true 10 (some 1),.append true 20 (some 2)] t ∧
      t.1.call (.insertBefore true 30 none none) = some (false, t.1) ∧
      t.1.walk (fun p => t.1.my402ListNext true p) 2 (t.1.my402ListFirst true) = some [(1, 10),(2, 20)] := by
  have h : Exec listStep Attempted (sampleStore, fun _ => none)
      [.init true,.prepend true 10 none,.append true 10 (some 1),.append true 20 (some 2)] _ :=
    Exec.ofRun rfl
  have hk := (failed_insertion_keeps _ _ _ h (.insertBefore true 30 none none) rfl rfl).mpr rfl
  exact ⟨_,h,hk.1,(hk.2.2 true _ rfl).1⟩

/-- Next to an element the member is counted and NULL is dereferenced when memory runs out. -/
theorem insertion_dereferences_null :
    ∃ t, Exec listStep Attempted (sampleStore, fun _ => none) [.init true,.append true 10 (some 1)] t ∧
      ElemOf t.2 true (some 1) ∧
      t.1.call (.insertAfter true 20 (some 1) none) = none ∧
      t.1.call (.insertBefore true 20 (some 1) none) = none := by
  have h : Exec listStep Attempted (sampleStore, fun _ => none) [.init true,.append true 10 (some 1)] _ :=
    Exec.ofRun rfl
  exact ⟨_,h,by decide,rfl,rfl⟩

/-- `My402ListUnlink` of NULL dereferences it. -/
theorem unlink_null : ∃ t, Exec listStep Asked (sampleStore, fun _ => none) [.init true,.append true 10 (some 1)] t ∧
    Asked t (.unlink true none) ∧ t.1.call (.unlink true none) = none := by
  have h : Exec listStep Asked (sampleStore, fun _ => none) [.init true,.append true 10 (some 1)] _ :=
    Exec.ofRun rfl
  exact ⟨_,h,⟨rfl,nofun⟩,rfl⟩

end Csci402.Warmup
