import Csci402.Lib.Run
import Csci402.Warmup.My402List

/-! A list of `my402list.c` represents a sequence of cells with their objects. A list
with members is a ring whose head is its anchor; an empty one has no members, and its
anchor may hold NULL or lead to itself. Every function that changes a list puts one cell
between two neighbours or takes one out, and touches only cells of its own list. -/

namespace Csci402.Warmup

open Lib Function Option List

variable {L A O : Type}

/-- The cells of a sequence, as pointers lead to them. -/
def refs (L : Type) (xs : List (A × O)) : List (Ref L A) := xs.map fun x => .elem x.1

@[simp] theorem refs_nil : refs L ([] : List (A × O)) = [] := rfl

@[simp] theorem refs_cons (x : A × O) (xs : List (A × O)) : refs L (x :: xs) = .elem x.1 :: refs L xs :=
  rfl

@[simp] theorem refs_append (xs ys : List (A × O)) : refs L (xs ++ ys) = refs L xs ++ refs L ys :=
  map_append

theorem elem_mem_refs {a : A} {xs : List (A × O)} : Ref.elem a ∈ refs L xs ↔ a ∈ xs.map Prod.fst := by
  simp [refs]

theorem anchor_notMem_refs (l : L) (xs : List (A × O)) : Ref.anchor l ∉ refs L xs := by
  simp [refs]

/-- The list `l` represents `xs`. -/
structure IsSeq (s : Store L A O) (l : L) (xs : List (A × O)) : Prop where
  length : s.numMembers l = xs.length
  cell : ∀ x ∈ xs, s.alive x.1 = true ∧ s.obj x.1 = x.2
  ring : xs ≠ [] → Ring s.links (.anchor l) (refs L xs)

variable {s s' : Store L A O} {l l' : L} {a : A} {o : O} {x : A × O} {xs ys zs : List (A × O)}

theorem IsSeq.nodup (h : IsSeq s l xs) : (xs.map Prod.fst).Nodup := by
  cases xs with
  | nil => simp
  | cons x xs =>
    have := (nodup_cons.mp (h.ring (by simp)).nodup).2
    rw [refs] at this
    exact List.Nodup.of_map (Ref.elem (L := L)) (by simpa [comp_def] using this)

/-! ### Reading a list -/

theorem IsSeq.empty (h : IsSeq s l xs) : s.my402ListEmpty l = xs.isEmpty := by
  rw [Store.my402ListEmpty,h.length]
  cases xs with
  | nil => simp
  | cons x xs => simp only [length_cons,isEmpty_cons,decide_eq_false_iff_not]; omega

theorem IsSeq.first (h : IsSeq s l xs) : s.my402ListFirst l = (refs L xs).head? := by
  rw [Store.my402ListFirst,h.empty]
  cases xs with
  | nil => rfl
  | cons x xs => simpa using (h.ring (by simp)).next_head

theorem IsSeq.last (h : IsSeq s l xs) : s.my402ListLast l = (refs L xs).getLast? := by
  rw [Store.my402ListLast,h.empty]
  cases xs with
  | nil => rfl
  | cons x xs =>
    rw [(h.ring (by simp)).prev_head,refs_cons,getLastD_cons,getLast?_cons,
      getLastD_eq_getLast?]
    rfl

theorem IsSeq.ok (h : IsSeq s l xs) (hx : x ∈ xs) : s.ok (.elem x.1 : Ref L A) = true := (h.cell x hx).1

theorem IsSeq.getNext (h : IsSeq s l (xs ++ x :: ys)) :
    s.getNext (some (.elem x.1)) = some (some ((refs L ys).headD (.anchor l))) := by
  have hr := h.ring (by simp)
  rw [refs_append,refs_cons] at hr
  simp [Store.getNext,h.ok (x := x) (by simp),hr.next]

theorem IsSeq.getPrev (h : IsSeq s l (xs ++ x :: ys)) :
    s.getPrev (some (.elem x.1)) = some (some ((refs L xs).getLastD (.anchor l))) := by
  have hr := h.ring (by simp)
  rw [refs_append,refs_cons] at hr
  simp [Store.getPrev,h.ok (x := x) (by simp),hr.prev]

/-- The cells around a place of the list are different from the one at it. -/
theorem IsSeq.ne (h : IsSeq s l (xs ++ x :: ys)) : (∀ y ∈ xs, y.1 ≠ x.1) ∧ ∀ y ∈ ys, y.1 ≠ x.1 := by
  have hn := h.nodup
  rw [map_append,map_cons,nodup_middle,nodup_cons] at hn
  constructor
  all_goals
    intro y hy he
    refine hn.1 ?_
    rw [← he,← map_append]
  · exact List.mem_map_of_mem (mem_append_left ys hy)
  · exact List.mem_map_of_mem (mem_append_right xs hy)

/-- The cells of a list are not those of another, with its anchor. -/
theorem ne_of_frame (xs : List (A × O)) (hl : l' ≠ l) (hd : ∀ a ∈ xs.map Prod.fst, a ∉ zs.map Prod.fst)
    {r : Ref L A} (hr : r ∈ .anchor l' :: refs L zs) : r ∉ .anchor l :: refs L xs := by
  intro hm
  rcases mem_cons.mp hr with rfl | hr
  · rcases mem_cons.mp hm with he | hm
    · exact hl (by simpa using he)
    · exact anchor_notMem_refs l' xs hm
  · rcases mem_cons.mp hm with rfl | hm
    · exact anchor_notMem_refs l zs hr
    · obtain ⟨y,hy,rfl⟩ := List.mem_map.mp hm
      exact hd y.1 (List.mem_map_of_mem hy) (elem_mem_refs.mp hr)

/-- The neighbours of a place are cells of the list, or its anchor. -/
theorem neighbours_mem (l : L) (xs ys : List (A × O)) :
    (refs L xs).getLastD (.anchor l) ∈ .anchor l :: refs L (xs ++ ys) ∧
      (refs L ys).headD (.anchor l) ∈ .anchor l :: refs L (xs ++ ys) := by
  rw [refs_append,← cons_append]
  refine ⟨mem_append_left _ getLastD_mem_cons,?_⟩
  rcases mem_append.mp (Ring.headD_mem (refs L ys) (.anchor l)) with h | h
  · exact mem_append_right _ h
  · rw [mem_singleton.mp h]
    simp

theorem IsSeq.ok_neighbours (h : IsSeq s l (xs ++ ys)) :
    s.ok ((refs L xs).getLastD (.anchor l)) = true ∧ s.ok ((refs L ys).headD (.anchor l)) = true := by
  have hok : ∀ r ∈ .anchor l :: refs L (xs ++ ys), s.ok r = true := by
    intro r hr
    rcases mem_cons.mp hr with rfl | hr
    · rfl
    · obtain ⟨x,hx,rfl⟩ := List.mem_map.mp hr
      exact h.ok hx
  obtain ⟨h1,h2⟩ := neighbours_mem l xs ys
  exact ⟨hok _ h1,hok _ h2⟩

theorem Store.ok_congr (h : s'.alive = s.alive) (r : Ref L A) : s'.ok r = s.ok r := by
  cases r with
  | anchor => rfl
  | elem a => exact congrFun h a

variable [DecidableEq L] [DecidableEq A]

theorem IsSeq.next (h : IsSeq s l (xs ++ x :: ys)) :
    s.my402ListNext l (some (.elem x.1)) = some (refs L ys).head? := by
  rw [Store.my402ListNext,h.last,h.getNext,refs_append,refs_cons]
  cases hy : ys.getLast? with
  | none =>
    obtain rfl := getLast?_eq_none_iff.mp hy
    simp
  | some y =>
    obtain ⟨zs,rfl⟩ := getLast?_eq_some_iff.mp hy
    have hl : (refs L xs ++ .elem x.1 :: refs L (zs ++ [y])).getLast? = some (.elem y.1) := by
      rw [refs_append,← cons_append,← append_assoc]
      exact getLast?_concat
    have := h.ne.2 y (by simp)
    rw [hl,if_neg (by simpa using this)]
    cases zs <;> simp

theorem IsSeq.prev (h : IsSeq s l (xs ++ x :: ys)) :
    s.my402ListPrev l (some (.elem x.1)) = some (refs L xs).getLast? := by
  rw [Store.my402ListPrev,h.first,h.getPrev,refs_append,refs_cons]
  cases xs with
  | nil => simp
  | cons y xs =>
    have := h.ne.1 y (by simp)
    rw [if_neg (by simpa using this),refs_cons,getLastD_cons,getLast?_cons,
      getLastD_eq_getLast?]

/-! ### Inserting and unlinking one cell -/

namespace Store

/-- The state after the new cell `a` has been put between `p` and `q` in list `l`. -/
def insertElem (l : L) (p : Ref L A) (a : A) (q : Ref L A) (o : O) (s : Store L A O) : Store L A O where
  links := s.links.insert p (.elem a) q
  obj := update s.obj a o
  alive := update s.alive a true
  numMembers := update s.numMembers l (s.numMembers l+1)

/-- The state after the cell `a` has been taken out from between `p` and `q` and freed. -/
def removeElem (l : L) (p : Ref L A) (a : A) (q : Ref L A) (s : Store L A O) : Store L A O where
  links := s.links.remove p (.elem a) q
  obj := s.obj
  alive := update s.alive a false
  numMembers := update s.numMembers l (s.numMembers l - 1)

end Store

/-- A call on list `l` that touches only the cells `as` leaves the other lists alone. -/
def Frame (s s' : Store L A O) (l : L) (as : List A) : Prop :=
  ∀ l' zs, l' ≠ l → IsSeq s l' zs → (∀ a ∈ as, a ∉ zs.map Prod.fst) → IsSeq s' l' zs

theorem IsSeq.insertElem (h : IsSeq s l (xs ++ ys)) (ha : s.alive a = false) :
    IsSeq (s.insertElem l ((refs L xs).getLastD (.anchor l)) a ((refs L ys).headD (.anchor l)) o) l
      (xs ++ (a, o) :: ys) := by
  have hne : ∀ x ∈ xs ++ ys, x.1 ≠ a := by
    rintro x hx rfl
    rw [(h.cell x hx).1] at ha
    cases ha
  refine ⟨?_,fun x hx => ?_,fun _ => ?_⟩
  · simp only [Store.insertElem,update_self,h.length,length_append,length_cons]
    push_cast
    omega
  · rw [perm_middle.mem_iff,mem_cons] at hx
    rcases hx with rfl | hx
    · simp [Store.insertElem]
    · simpa [Store.insertElem,hne x hx] using h.cell x hx
  · rw [refs_append,refs_cons]
    by_cases he : xs ++ ys = []
    · obtain ⟨rfl,rfl⟩ := append_eq_nil_iff.mp he
      exact Ring.singleton s.links (by simp)
    · have hr := h.ring he
      rw [refs_append] at hr
      refine hr.insert ?_
      rw [← refs_append,mem_cons,elem_mem_refs,not_or]
      refine ⟨by simp,fun hm => ?_⟩
      obtain ⟨x,hx,he⟩ := List.mem_map.mp hm
      exact hne x hx he

theorem frame_insertElem (hp : s.alive a = false) :
    Frame s (s.insertElem l ((refs L xs).getLastD (.anchor l)) a ((refs L ys).headD (.anchor l)) o) l
      ((xs ++ ys).map Prod.fst) := by
  intro l' zs hl hz hd
  have hne : ∀ x ∈ zs, x.1 ≠ a := by
    rintro x hx rfl
    rw [(hz.cell x hx).1] at hp
    cases hp
  refine ⟨by simpa [Store.insertElem,hl] using hz.length,fun x hx => ?_,fun hzs => ?_⟩
  · simpa [Store.insertElem,hne x hx] using hz.cell x hx
  · refine (hz.ring hzs).congr fun r hr => ?_
    have hout := ne_of_frame (xs ++ ys) hl hd hr
    have hra : r ≠ .elem a := by
      rintro rfl
      obtain ⟨x,hx,he⟩ := List.mem_map.mp (elem_mem_refs.mp ((mem_cons.mp hr).resolve_left (by simp)))
      exact hne x hx he
    obtain ⟨hm1,hm2⟩ := neighbours_mem l xs ys
    exact ⟨Links.insert_next_of_ne hra fun e => hout (e ▸ hm1),
      Links.insert_prev_of_ne hra fun e => hout (e ▸ hm2)⟩

theorem IsSeq.removeElem (h : IsSeq s l (xs ++ x :: ys)) :
    IsSeq (s.removeElem l ((refs L xs).getLastD (.anchor l)) x.1 ((refs L ys).headD (.anchor l))) l
      (xs ++ ys) := by
  refine ⟨?_,fun y hy => ?_,fun _ => ?_⟩
  · simp only [Store.removeElem,update_self,h.length,length_append,length_cons]
    push_cast
    omega
  · have hne : y.1 ≠ x.1 := (mem_append.mp hy).elim (h.ne.1 y) (h.ne.2 y)
    have := h.cell y (perm_middle.mem_iff.mpr (mem_cons_of_mem x hy))
    simpa [Store.removeElem,hne] using this
  · have hr := h.ring (by simp)
    rw [refs_append,refs_cons] at hr
    rw [refs_append]
    exact hr.remove

theorem frame_removeElem :
    Frame s (s.removeElem l ((refs L xs).getLastD (.anchor l)) x.1 ((refs L ys).headD (.anchor l))) l
      ((xs ++ x :: ys).map Prod.fst) := by
  intro l' zs hl hz hd
  have hx : x.1 ∉ zs.map Prod.fst := hd x.1 (by simp)
  refine ⟨by simpa [Store.removeElem,hl] using hz.length,fun y hy => ?_,fun hzs => ?_⟩
  · have hne : y.1 ≠ x.1 := fun e => hx (e ▸ List.mem_map_of_mem hy)
    simpa [Store.removeElem,hne] using hz.cell y hy
  · refine (hz.ring hzs).congr fun r hr => ?_
    have hsub : ∀ a ∈ (xs ++ ys).map Prod.fst, a ∉ zs.map Prod.fst := fun a ha => hd a <|
      (perm_middle.map Prod.fst).mem_iff.mpr (mem_cons_of_mem x.1 ha)
    have hout := ne_of_frame (xs ++ ys) hl hsub hr
    have hrx : r ≠ .elem x.1 := by
      rintro rfl
      exact hx (elem_mem_refs.mp ((mem_cons.mp hr).resolve_left (by simp)))
    obtain ⟨hm1,hm2⟩ := neighbours_mem l xs ys
    exact ⟨Links.remove_next_of_ne hrx fun e => hout (e ▸ hm1),
      Links.remove_prev_of_ne hrx fun e => hout (e ▸ hm2)⟩

/-! ### The functions that change a list -/

namespace Store

omit [DecidableEq L] in
theorem ok_malloc {r : Ref L A} (h : s.ok r = true) (h' : s'.alive = update s.alive a true) : s'.ok r = true := by
  cases r with
  | anchor => rfl
  | elem b =>
    change s.alive b = true at h
    change s'.alive b = true
    by_cases hb : b = a
    · simp [h',hb]
    · simpa [h',hb] using h

/-- The four stores that every insertion into a list with members makes, in their order. -/
theorem link_new {β : Type} (f : Store L A O → Option β) {p q : Ref L A} (ha : s.ok (.elem a) = true)
    (hp : s.ok p = true) (hq : s.ok q = true) : ((s.setPrev (some (.elem a)) (some p)).bind fun s =>
      (s.setNext (some (.elem a)) (some q)).bind fun s =>
        (s.setNext (some p) (some (.elem a))).bind fun s =>
          (s.setPrev (some q) (some (.elem a))).bind f) =
      f { s with links := s.links.insert p (.elem a) q } := by
  have hok : ∀ (k : Links (Ref L A)) (r : Ref L A), ({ s with links := k } : Store L A O).ok r = s.ok r :=
    fun k r => ok_congr rfl r
  simp only [setPrev,setNext,bind_some,ha,hp,hq,hok,if_true]
  rfl

/-- The memory when the new cell `a` holds its object. -/
def filled (a : A) (o : O) (s : Store L A O) : Store L A O :=
  { s with obj := update s.obj a o, alive := update s.alive a true }

omit [DecidableEq L] in
theorem setObj_malloc (s : Store L A O) (a : A) (o : O) :
    (s.malloc a).setObj (some (.elem a : Ref L A)) o = some (s.filled a o) := by
  simp [setObj,malloc,filled]

omit [DecidableEq L] in
theorem filled_empty (s : Store L A O) : (s.filled a o).my402ListEmpty l = s.my402ListEmpty l := rfl

/-- The memory when the new member is also counted. -/
def counted (l : L) (a : A) (o : O) (s : Store L A O) : Store L A O := (s.filled a o).addMembers l 1

theorem addMembers_filled (s : Store L A O) : (s.filled a o).addMembers l 1 = s.counted l a o := rfl

theorem filled_addMembers (s : Store L A O) : (s.addMembers l 1).filled a o = s.counted l a o := rfl

theorem counted_ok_new (s : Store L A O) : (s.counted l a o).ok (.elem a) = true := by
  simp [ok,counted,filled,addMembers]

theorem counted_ok {r : Ref L A} (h : s.ok r = true) : (s.counted l a o).ok r = true := ok_malloc h rfl

end Store

/-- The first cell of a list is linked to the anchor on both sides. -/
theorem Store.link_first {β : Type} (f : Store L A O → Option β) (ha : s.ok (.elem a) = true) :
    ((s.setNext (some (.anchor l)) (some (.elem a))).bind fun s =>
      (s.setPrev (some (.anchor l)) (some (.elem a))).bind fun s =>
        (s.setPrev (some (.elem a)) (some (.anchor l))).bind fun s =>
          (s.setNext (some (.elem a)) (some (.anchor l))).bind f) =
      f { s with links := s.links.insert (.anchor l) (.elem a) (.anchor l) } := by
  have hok : ∀ (k : Links (Ref L A)) (r : Ref L A), ({ s with links := k } : Store L A O).ok r = s.ok r :=
    fun k r => ok_congr rfl r
  have hanchor : s.ok (.anchor l) = true := rfl
  have hne : (.elem a : Ref L A) ≠ .anchor l := by simp
  simp only [setPrev,setNext,bind_some,ha,hanchor,hok,if_true,Links.insert]
  rw [update_comm hne _ _ s.links.next,update_comm hne _ _ s.links.prev]

/-- The ends of a list with members, read after a new member has been counted. -/
theorem IsSeq.counted_ends (h : IsSeq s l xs) (hx : xs ≠ []) :
    (s.counted l a o).my402ListFirst l = some ((refs L xs).headD (.anchor l)) ∧
      (s.counted l a o).my402ListLast l = some ((refs L xs).getLastD (.anchor l)) := by
  have hr := h.ring hx
  have hn : (s.counted l a o).my402ListEmpty l = false := by
    have := h.length
    simp only [Store.my402ListEmpty,Store.counted,Store.addMembers,Store.filled,update_self,
      decide_eq_false_iff_not]
    omega
  simp only [Store.my402ListFirst,Store.my402ListLast,hn]
  exact ⟨hr.next_head,hr.prev_head⟩

theorem IsSeq.append_eq (h : IsSeq s l xs) : s.my402ListAppend l o (some a) =
      some (true, s.insertElem l ((refs L xs).getLastD (.anchor l)) a (.anchor l) o) := by
  simp only [Store.my402ListAppend,Store.setObj_malloc,bind_eq_bind,bind_some,
    Store.filled_empty,h.empty,Store.addMembers_filled]
  cases xs with
  | nil => exact Store.link_first _ (Store.counted_ok_new s)
  | cons x xs =>
    simp only [(h.counted_ends (by simp)).2]
    rw [← append_nil (x :: xs)] at h
    exact Store.link_new _ (Store.counted_ok_new s) (Store.counted_ok h.ok_neighbours.1) rfl

theorem IsSeq.prepend_eq (h : IsSeq s l xs) : s.my402ListPrepend l o (some a) =
      some (true, s.insertElem l (.anchor l) a ((refs L xs).headD (.anchor l)) o) := by
  simp only [Store.my402ListPrepend,Store.setObj_malloc,bind_eq_bind,bind_some,
    Store.filled_empty,h.empty,Store.addMembers_filled]
  cases xs with
  | nil => exact Store.link_first _ (Store.counted_ok_new s)
  | cons x xs =>
    simp only [(h.counted_ends (by simp)).1]
    rw [← nil_append (x :: xs)] at h
    exact Store.link_new _ (Store.counted_ok_new s) rfl (Store.counted_ok h.ok_neighbours.2)

theorem IsSeq.insertAfter_eq (h : IsSeq s l (xs ++ x :: ys)) :
    s.my402ListInsertAfter l o (some (.elem x.1)) (some a) =
      some (true, s.insertElem l (.elem x.1) a ((refs L ys).headD (.anchor l)) o) := by
  have hx : s.ok (.elem x.1 : Ref L A) = true := h.ok (by simp)
  have hnext : (s.counted l a o).getNext (some (.elem x.1 : Ref L A)) =
      some (some ((refs L ys).headD (.anchor l))) := by
    rw [← h.getNext]
    simp only [Store.getNext,bind_some,Store.counted_ok hx,hx]
    rfl
  have hok : s.ok ((refs L ys).headD (.anchor l)) = true := by
    rw [append_cons] at h
    exact h.ok_neighbours.2
  simp only [Store.my402ListInsertAfter,reduceCtorEq,if_false,bind_eq_bind,bind_some,
    Store.setObj_malloc,Store.filled_addMembers,hnext]
  exact Store.link_new _ (Store.counted_ok_new s) (Store.counted_ok hx) (Store.counted_ok hok)

theorem IsSeq.insertBefore_eq (h : IsSeq s l (xs ++ x :: ys)) :
    s.my402ListInsertBefore l o (some (.elem x.1)) (some a) =
      some (true, s.insertElem l ((refs L xs).getLastD (.anchor l)) a (.elem x.1) o) := by
  have hx : s.ok (.elem x.1 : Ref L A) = true := h.ok (by simp)
  have hprev : (s.counted l a o).getPrev (some (.elem x.1 : Ref L A)) =
      some (some ((refs L xs).getLastD (.anchor l))) := by
    rw [← h.getPrev]
    simp only [Store.getPrev,bind_some,Store.counted_ok hx,hx]
    rfl
  simp only [Store.my402ListInsertBefore,reduceCtorEq,if_false,bind_eq_bind,bind_some,
    Store.setObj_malloc,Store.filled_addMembers,hprev]
  exact Store.link_new _ (Store.counted_ok_new s) (Store.counted_ok h.ok_neighbours.1) (Store.counted_ok hx)

theorem IsSeq.unlink_eq (h : IsSeq s l (xs ++ x :: ys)) :
    s.my402ListUnlink l (some (.elem x.1)) = some (s.removeElem l ((refs L xs).getLastD (.anchor l)) x.1
      ((refs L ys).headD (.anchor l))) := by
  have hx : s.ok (.elem x.1 : Ref L A) = true := h.ok (by simp)
  have hp := h.ok_neighbours.1
  have hq : s.ok ((refs L ys).headD (.anchor l)) = true := by
    rw [append_cons] at h
    exact h.ok_neighbours.2
  have hok : ∀ (k : Links (Ref L A)) (r : Ref L A), ({ s with links := k } : Store L A O).ok r = s.ok r :=
    fun k r => Store.ok_congr rfl r
  have halive : s.alive x.1 = true := hx
  simp only [Store.my402ListUnlink,h.getPrev,h.getNext,bind_eq_bind,bind_some,
    Store.setNext,Store.setPrev,hx,hp,hq,hok,if_true,Store.free,halive]
  rfl

/-! ### Taking a list apart -/

theorem IsSeq.init (s : Store L A O) (l : L) : IsSeq (s.my402ListInit l) l [] :=
  ⟨by simp [Store.my402ListInit],nofun,absurd rfl⟩

theorem frame_init (s : Store L A O) (l : L) : Frame s (s.my402ListInit l) l [] := by
  intro l' zs hl hz _
  refine ⟨by simpa [Store.my402ListInit,hl] using hz.length,hz.cell,fun hzs => ?_⟩
  refine (hz.ring hzs).congr fun r hr => ?_
  have : r ≠ .anchor l := by
    rintro rfl
    rcases mem_cons.mp hr with he | hr
    · exact hl (by simpa using he.symm)
    · exact anchor_notMem_refs l zs hr
  simp [Store.my402ListInit,this]

omit [DecidableEq L] [DecidableEq A] in
theorem Frame.trans {s'' : Store L A O} {as : List A} (h : Frame s s' l as) (h' : Frame s' s'' l as) :
    Frame s s'' l as :=
  fun l' zs hl hz hd => h' l' zs hl (h l' zs hl hz hd) hd

omit [DecidableEq L] [DecidableEq A] in
theorem Frame.mono {as bs : List A} (h : Frame s s' l as) (hs : ∀ a ∈ as, a ∈ bs) : Frame s s' l bs :=
  fun l' zs hl hz hd => h l' zs hl hz fun a ha => hd a (hs a ha)

/-- The cell after the first one, also of an empty list. -/
theorem IsSeq.next_first (h : IsSeq s l xs) : s.my402ListNext l (refs L xs).head? = some (refs L xs.tail).head? := by
  cases xs with
  | nil =>
    rw [Store.my402ListNext,h.last]
    rfl
  | cons x xs =>
    rw [← nil_append (x :: xs)] at h
    exact h.next

/-- The loop of `My402ListUnlinkAll` takes the first cell off in every round. Its next
pointer is the first of the cells that remain, which is NULL, and not read, at the end. -/
theorem unlinkLoop_eq (h : IsSeq s l xs) :
    ∃ s', Store.unlinkLoop l xs.length (refs L xs).head? (refs L xs.tail).head? s = some s' ∧
      IsSeq s' l [] ∧ Frame s s' l (xs.map Prod.fst) := by
  induction xs generalizing s with
  | nil => exact ⟨s,rfl,h,fun _ _ _ hz _ => hz⟩
  | cons x xs ih =>
    rw [← nil_append (x :: xs)] at h
    have hrest := h.removeElem
    rw [nil_append] at hrest
    obtain ⟨s',hs',hi,hf⟩ := ih hrest
    refine ⟨s',?_,hi,frame_removeElem.trans (hf.mono fun a ha => ?_)⟩
    · simp only [length_cons,refs_cons,head?_cons,tail_cons,Store.unlinkLoop,
        h.unlink_eq,bind_eq_bind,bind_some,hrest.next_first]
      exact hs'
    · exact mem_cons_of_mem x.1 ha

theorem IsSeq.unlinkAll (h : IsSeq s l xs) :
    ∃ s', s.my402ListUnlinkAll l = some s' ∧ IsSeq s' l [] ∧ Frame s s' l (xs.map Prod.fst) := by
  obtain ⟨s',hs',-,hf⟩ := unlinkLoop_eq h
  refine ⟨s'.my402ListInit l,?_,IsSeq.init s' l,hf.trans ((frame_init s' l).mono nofun)⟩
  have hlen : (s.numMembers l).toNat = xs.length := by rw [h.length,Int.toNat_natCast]
  simp only [Store.my402ListUnlinkAll,h.first,h.next_first,hlen,hs',bind_eq_bind,bind_some]
  rfl

end Csci402.Warmup
