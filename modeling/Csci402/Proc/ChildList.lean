import Csci402.Proc.Process

/-! The lists of children as rings. Inserting a process at the tail of a list or taking
one out touches only the links of that list; a loop over a list sees its processes in
order. The reparenting loop of `proc_cleanup` links every child into the list of the init
process, and leaves the head of the list it came from as it was. -/

namespace Csci402.Proc.Kernel

open Lib Function Option List

variable {P : Type}

/-- The processes `xs` are on the list of children of `p`. -/
def ChildRing (k : Links (PLink P)) (p : P) (xs : List P) : Prop :=
  Ring k (.children p) (xs.map .child)

variable {k k' : Links (PLink P)} {p q : P} {n : PLink P} {xs ys : List P}

/-- The links of a list: its head, and one for each process on it. -/
def OnList (p : P) (xs : List P) (n : PLink P) : Prop := n = .children p ∨ ∃ x ∈ xs, n = .child x

theorem mem_nodes : n ∈ .children p :: xs.map .child ↔ OnList p xs n := by
  simp [OnList,eq_comm]

theorem ChildRing.congr (h : ChildRing k p xs)
    (hk : ∀ n, OnList p xs n → k'.next n = k.next n ∧ k'.prev n = k.prev n) : ChildRing k' p xs :=
  Ring.congr h fun n hn => hk n (mem_nodes.mp hn)

theorem ChildRing.nodup (h : ChildRing k p xs) : xs.Nodup :=
  List.Nodup.of_map PLink.child (nodup_cons.mp (Ring.nodup h)).2

variable [DecidableEq P]

theorem childRing_listInit (k : Links (PLink P)) (p : P) : ChildRing (listInit (.children p) k) p [] :=
  ⟨by simp,by simp [listInit],by simp [listInit]⟩

theorem listInit_of_ne {h : PLink P} (hn : n ≠ h) :
    (listInit h k).next n = k.next n ∧ (listInit h k).prev n = k.prev n := by
  simp [listInit,hn]

theorem ChildRing.insertTail (h : ChildRing k p xs) (hq : q ∉ xs) :
    ∃ k', listInsertTail (.children p) (.child q) k = some k' ∧ ChildRing k' p (xs ++ [q]) ∧
      ∀ n, n ≠ .child q → ¬ OnList p xs n → k'.next n = k.next n ∧ k'.prev n = k.prev n := by
  have hprev := Ring.prev_head h
  refine ⟨k.insert ((xs.map .child).getLastD (.children p)) (.child q) (.children p),?_,?_,fun n hn hl => ?_⟩
  · simp [listInsertTail,hprev]
  · rw [ChildRing,map_append]
    have hr : Ring k (.children p) (xs.map .child ++ []) := by rwa [append_nil]
    exact hr.insert (by simpa using hq)
  · have hlast : (xs.map PLink.child).getLastD (.children p) ∈ .children p :: xs.map PLink.child :=
      getLastD_mem_cons
    refine ⟨Links.insert_next_of_ne hn ?_,Links.insert_prev_of_ne hn ?_⟩
    · rintro rfl
      exact hl (mem_nodes.mp hlast)
    · rintro rfl
      exact hl (.inl rfl)

theorem ChildRing.remove (h : ChildRing k p (xs ++ q :: ys)) :
    ∃ k', listRemove (.child q) k = some k' ∧ ChildRing k' p (xs ++ ys) ∧
      ∀ n, ¬ OnList p (xs ++ q :: ys) n → k'.next n = k.next n ∧ k'.prev n = k.prev n := by
  rw [ChildRing,map_append,map_cons] at h
  have hprev := h.prev
  have hnext := h.next
  refine ⟨k.remove ((xs.map .child).getLastD (.children p)) (.child q) ((ys.map .child).headD (.children p)),
    ?_,?_,fun n hl => ?_⟩
  · simp [listRemove,hprev,hnext]
  · rw [ChildRing,map_append]
    exact h.remove
  · have hlast : (xs.map PLink.child).getLastD (.children p) ∈ .children p :: xs.map PLink.child :=
      getLastD_mem_cons
    have hhead := Ring.headD_mem (ys.map PLink.child) (.children p)
    have hn : n ≠ .child q := by
      rintro rfl
      exact hl (.inr ⟨q,by simp,rfl⟩)
    refine ⟨Links.remove_next_of_ne hn ?_,Links.remove_prev_of_ne hn ?_⟩
    · rintro rfl
      rcases mem_nodes.mp hlast with he | ⟨x,hx,he⟩
      · exact hl (.inl he)
      · exact hl (.inr ⟨x,by simp [hx],he⟩)
    · rintro rfl
      rcases mem_append.mp hhead with hm | hm
      · obtain ⟨x,hx,he⟩ := List.mem_map.mp hm
        exact hl (.inr ⟨x,by simp [hx],he.symm⟩)
      · exact hl (.inl (mem_singleton.mp hm))

/-! ### Loops over a list -/

theorem ChildRing.childrenFrom (h : ChildRing k p (xs ++ ys)) {m : ℕ} (hm : ys.length < m) :
    childrenFrom (.children p) k m ((ys.map .child).headD (.children p)) = some ys := by
  induction ys generalizing xs m with
  | nil =>
    obtain ⟨m,rfl⟩ := Nat.exists_eq_succ_of_ne_zero (Nat.ne_of_gt hm)
    simp [Kernel.childrenFrom]
  | cons y ys ih =>
    obtain ⟨m,rfl⟩ := Nat.exists_eq_succ_of_ne_zero (Nat.ne_of_gt (Nat.zero_lt_of_lt hm))
    have hnext : k.next (.child y) = some ((ys.map .child).headD (.children p)) := by
      rw [ChildRing,map_append,map_cons] at h
      exact h.next
    rw [append_cons] at h
    have hrest := ih h (Nat.lt_of_succ_lt_succ hm)
    simp only [map_cons,headD_cons,Kernel.childrenFrom,reduceCtorEq,if_false,hnext,
      bind_eq_bind,bind_some,hrest]
    rfl

/-- What the links of a list say about the way forward through the processes `xs`. -/
def Ahead (k : Links (PLink P)) (h : PLink P) : List P → Prop
  | [] => True
  | x :: xs => k.next (.child x) = some ((xs.map .child).headD h) ∧ Ahead k h xs

omit [DecidableEq P] in
theorem ChildRing.ahead (h : ChildRing k p (xs ++ ys)) : Ahead k (.children p) ys := by
  induction ys generalizing xs with
  | nil => trivial
  | cons y ys ih =>
    refine ⟨?_,ih (by rwa [← append_cons] : ChildRing k p (xs ++ [y] ++ ys))⟩
    rw [ChildRing,map_append,map_cons] at h
    exact h.next

omit [DecidableEq P] in
theorem Ahead.congr {h : PLink P} (ha : Ahead k h xs) (hk : ∀ x ∈ xs, k'.next (.child x) = k.next (.child x)) :
    Ahead k' h xs := by
  induction xs with
  | nil => trivial
  | cons x xs ih =>
    refine ⟨(hk x mem_cons_self).trans ha.1,ih ha.2 fun y hy => hk y (mem_cons_of_mem x hy)⟩

/-- The children `xs` have been handed to `init`. -/
def handed (init : P) (xs : List P) (k : Links (PLink P)) (s : Kernel P) : Kernel P :=
  { s with
    links := k
    proc := fun q => if q ∈ xs then (s.proc q).map fun r => { r with pPproc := some init } else s.proc q }

theorem handed_cons {init x : P} {r : ProcT P} {s : Kernel P} (hr : s.proc x = some r) (hx : x ∉ xs) :
    handed init xs k' { s with
      links := k
      proc := update s.proc x (some { r with pPproc := some init }) } =
      handed init (x :: xs) k' s := by
  simp only [handed,mk.injEq,true_and,and_true]
  funext q
  by_cases hq : q = x
  · subst hq
    simp [hx,hr]
  · simp [hq]

/-- The reparenting loop links all processes that lie ahead into the list of `init`. -/
theorem reparent_eq {init : P} {h : PLink P} {s : Kernel P} {m : ℕ} (hring : ChildRing s.links init ys)
    (hahead : Ahead s.links h xs) (hh : ∀ x, h ≠ .child x) (hnd : (ys ++ xs).Nodup)
    (hinit : (s.proc init).isSome) (hproc : ∀ x ∈ xs, (s.proc x).isSome) (hm : xs.length < m) :
    ∃ k, reparent init h m ((xs.map .child).headD h) s = some (handed init xs k s) ∧
      ChildRing k init (ys ++ xs) ∧
      ∀ n, ¬ OnList init (ys ++ xs) n → k.next n = s.links.next n ∧ k.prev n = s.links.prev n := by
  induction xs generalizing ys s m with
  | nil =>
    obtain ⟨m,rfl⟩ := Nat.exists_eq_succ_of_ne_zero (Nat.ne_of_gt hm)
    refine ⟨s.links,?_,by simpa using hring,fun _ _ => ⟨rfl,rfl⟩⟩
    simp [reparent,handed]
  | cons x xs ih =>
    obtain ⟨m,rfl⟩ := Nat.exists_eq_succ_of_ne_zero (Nat.ne_of_gt (Nat.zero_lt_of_lt hm))
    obtain ⟨hys,hxs,hdis⟩ := nodup_append.mp hnd
    obtain ⟨hx,hxs⟩ := nodup_cons.mp hxs
    obtain ⟨k1,hk1,hring1,hsame1⟩ := hring.insertTail (q := x) fun hm' => hdis x hm' x mem_cons_self rfl
    obtain ⟨r,hr⟩ := isSome_iff_exists.mp (hproc x mem_cons_self)
    obtain ⟨ri,hri⟩ := isSome_iff_exists.mp hinit
    -- the state after the round of `x`; the links of the others ahead are as they were
    have hstep : reparent init h (m+1) (((x :: xs).map .child).headD h) s =
        reparent init h m ((xs.map .child).headD h) { s with
          links := k1
          proc := update s.proc x (some { r with pPproc := some init }) } := by
      simp only [map_cons,headD_cons,reparent,if_neg (hh x).symm,hahead.1,hri,hk1,hr,
        bind_eq_bind,bind_some,modProc,map_some]
    have hlive : ∀ q, (s.proc q).isSome →
        (update s.proc x (some { r with pPproc := some init }) q).isSome := by
      intro q hq
      by_cases he : q = x
      · subst he
        simp
      · simpa [he] using hq
    have hahead1 : Ahead k1 h xs := hahead.2.congr fun y hy => by
      refine (hsame1 (.child y) ?_ ?_).1
      · rintro ⟨⟩
        exact hx hy
      · rintro (he | ⟨z,hz,he⟩)
        · cases he
        · cases he
          exact hdis y hz y (mem_cons_of_mem x hy) rfl
    rw [append_cons] at hnd
    obtain ⟨k,hk,hring',hsame⟩ := ih (s := { s with
        links := k1
        proc := update s.proc x (some { r with pPproc := some init }) }) hring1 hahead1 hnd
      (hlive init hinit) (fun y hy => hlive y (hproc y (mem_cons_of_mem x hy)))
      (Nat.lt_of_succ_lt_succ hm)
    rw [← append_cons] at hring' hsame
    refine ⟨k,?_,hring',fun n hn => ?_⟩
    · rw [hstep,hk,handed_cons hr hx]
    · have hout : n ≠ .child x ∧ ¬ OnList init ys n := by
        refine ⟨fun he => hn (.inr ⟨x,by simp,he⟩),fun ho => hn (ho.imp_right fun ⟨y,hy,he⟩ => ?_)⟩
        exact ⟨y,mem_append_left _ hy,he⟩
      obtain ⟨h1,h2⟩ := hsame1 n hout.1 hout.2
      obtain ⟨h3,h4⟩ := hsame n hn
      exact ⟨h3.trans h1,h4.trans h2⟩

end Csci402.Proc.Kernel
