import Mathlib.Data.List.Perm.Subperm
import Csci402.Proc.ChildList

/-! The process tree. The list of children of a process holds exactly the processes whose
parent it is. A process that exits while it has children hands them to the init process
but keeps the head of its list, so the invariant is relative to the set of processes that
have left their list behind; nothing reads these lists again. -/

namespace Csci402.Proc.Kernel

open Lib Function Option List

variable {P : Type}

def parent (s : Kernel P) (q : P) : Option P := (s.proc q).bind ProcT.pPproc

def IsDead (s : Kernel P) (q : P) : Prop := ∃ r ∈ s.proc q, r.pState = .dead

/-- The process tree, but for the lists of the processes in `left`. -/
structure TreeInv (left : P → Prop) (s : Kernel P) : Prop where
  nodup : s.procList.Nodup
  mem : ∀ p, p ∈ s.procList ↔ (s.proc p).isSome
  ring : ∀ p ∈ s.procList, ¬ left p → ∃ xs, ChildRing s.links p xs ∧
    ∀ q, q ∈ xs ↔ s.parent q = some p
  gone : ∀ p, left p → (∀ r ∈ s.proc p, r.pState = .dead) ∧ s.procInitproc ≠ some p ∧
    (∀ q, s.parent q ≠ some p) ∧ s.used p = true
  used : ∀ p, (s.proc p).isSome ∨ (∃ q, s.parent q = some p) → s.used p = true

variable {left : P → Prop} {s t : Kernel P} {p q new : P} {xs ys : List P}

theorem isSome_of_parent (h : s.parent q = some p) : (s.proc q).isSome := by
  unfold parent at h
  cases hq : s.proc q with
  | none => simp [hq] at h
  | some r => rfl

theorem TreeInv.length_le (h : TreeInv left s) (hr : ChildRing s.links p xs)
    (hx : ∀ q, q ∈ xs ↔ s.parent q = some p) : xs.length ≤ s.procList.length :=
  (subperm_of_subset hr.nodup fun q hq => (h.mem q).mpr (isSome_of_parent ((hx q).mp hq))).length_le

/-- The tree is the same when no process gets another parent or comes to life. -/
theorem TreeInv.of_same (h : TreeInv left s) (hp : ∀ q, (t.proc q).map ProcT.pPproc = (s.proc q).map ProcT.pPproc)
    (hd : ∀ q, (∀ r ∈ s.proc q, r.pState = .dead) → ∀ r ∈ t.proc q, r.pState = .dead)
    (hk : t.links = s.links) (hl : t.procList = s.procList) (hi : t.procInitproc = s.procInitproc)
    (hu : t.used = s.used) : TreeInv left t := by
  have hpar : t.parent = s.parent := by
    funext q
    have := hp q
    rw [parent,parent]
    cases hs : s.proc q <;> cases ht : t.proc q <;> simp_all
  have hsome : ∀ q, (t.proc q).isSome = (s.proc q).isSome := by
    intro q
    rw [← isSome_map (f := ProcT.pPproc),hp q,isSome_map]
  refine ⟨by rw [hl]; exact h.nodup,fun p => ?_,?_,fun p hp' => ?_,fun p hp' => ?_⟩
  · rw [hl,hsome]
    exact h.mem p
  · rw [hl,hk,hpar]
    exact h.ring
  · obtain ⟨h1,h2⟩ := h.gone p hp'
    rw [hi,hpar,hu]
    exact ⟨hd p h1,h2⟩
  · rw [hsome,hpar] at hp'
    rw [hu]
    exact h.used p hp'

/-- A running process has not left its list behind. -/
theorem TreeInv.not_left (h : TreeInv left s) {r : ProcT P} (hp : s.proc p = some r)
    (hr : r.pState = .running) : ¬ left p := by
  intro hl
  have := (h.gone p hl).1 r hp
  rw [hr] at this
  cases this

/-- The links of two lists are different. -/
theorem TreeInv.apart (hx : ∀ q, q ∈ xs ↔ s.parent q = some p) (hy : ∀ q, q ∈ ys ↔ s.parent q = some new)
    (hne : p ≠ new) {n : PLink P} (hn : OnList p xs n) : ¬ OnList new ys n := by
  rintro (rfl | ⟨y,hm,rfl⟩)
  · rcases hn with he | ⟨x,-,he⟩
    · cases he
      exact hne rfl
    · cases he
  · rcases hn with he | ⟨x,hm',he⟩
    · cases he
    · cases he
      rw [hx] at hm'
      rw [hy,hm'] at hm
      cases hm
      exact hne rfl

theorem TreeInv.proc_unused (h : TreeInv left s) (hn : s.used new = false) : s.proc new = none := by
  cases hp : s.proc new with
  | none => rfl
  | some r =>
    rw [h.used new (.inl (by rw [hp]; rfl))] at hn
    cases hn

variable [DecidableEq P]

theorem TreeInv.children_eq (h : TreeInv left s) (hp : p ∈ s.procList) (hl : ¬ left p) :
    ∃ xs, children p s = some xs ∧ ChildRing s.links p xs ∧ ∀ q, q ∈ xs ↔ s.parent q = some p := by
  obtain ⟨xs,hr,hx⟩ := h.ring p hp hl
  refine ⟨xs,?_,hr,hx⟩
  have hr' : ChildRing s.links p ([] ++ xs) := hr
  have hlen := h.length_le hr hx
  rw [children,Ring.next_head hr,bind_some]
  exact hr'.childrenFrom (by omega)

/-! ### A new process -/

/-- The state after `proc_create`, when the links are `k`. -/
def created (new : P) (pid nextPid : ℤ) (k : Links (PLink P)) (s : Kernel P) : Kernel P :=
  { s with
    nextPid
    links := k
    proc := update s.proc new (some ⟨pid,some s.curproc,.running,0⟩)
    procList := s.procList ++ [new]
    procInitproc := if pid = 1 then some new else s.procInitproc
    pc := update s.pc new .user
    used := update s.used new true }

theorem parent_created (pid nextPid : ℤ) (k : Links (PLink P)) (q : P) :
    (created new pid nextPid k s).parent q = if q = new then some s.curproc else s.parent q := by
  unfold parent created
  by_cases hq : q = new
  · subst hq
    simp
  · simp [hq]

/-- The links after the new process has been linked into the list of its parent. -/
theorem create_links (h : TreeInv left s) (hcur : s.curproc ∈ s.procList) (hl : ¬ left s.curproc)
    (hn : s.used new = false) : ∃ k, listInsertTail (.children s.curproc) (.child new)
        (listInit (.child new) (listInit (.children new) s.links)) = some k ∧
      ChildRing k new [] ∧
      ∀ p ∈ s.procList, ¬ left p → ∃ xs, ChildRing k p (if p = s.curproc then xs ++ [new] else xs) ∧
        ∀ q, q ∈ xs ↔ s.parent q = some p := by
  have hproc := h.proc_unused hn
  have hnew : ∀ p ∈ s.procList, p ≠ new := by
    rintro p hp rfl
    rw [h.mem,hproc] at hp
    cases hp
  have hnp : s.parent new = none := by simp [parent,hproc]
  -- initialising the links of the new process touches no list
  generalize hk0 : listInit (.child new) (listInit (.children new) s.links) = k0
  have hsame0 : ∀ p ∈ s.procList, ∀ xs, (∀ q, q ∈ xs ↔ s.parent q = some p) → ∀ n, OnList p xs n →
      k0.next n = s.links.next n ∧ k0.prev n = s.links.prev n := by
    intro p hp xs hx n hon
    have h1 : n ≠ .children new := by
      rintro rfl
      rcases hon with he | ⟨x,-,he⟩
      · cases he
        exact hnew _ hp rfl
      · cases he
    have h2 : n ≠ .child new := by
      rintro rfl
      rcases hon with he | ⟨x,hm,he⟩
      · cases he
      · cases he
        rw [hx,hnp] at hm
        cases hm
    obtain ⟨h3,h4⟩ := listInit_of_ne (k := listInit (.children new) s.links) h2
    obtain ⟨h5,h6⟩ := listInit_of_ne (k := s.links) h1
    rw [← hk0]
    exact ⟨h3.trans h5,h4.trans h6⟩
  obtain ⟨xs,hr,hx⟩ := h.ring s.curproc hcur hl
  have hr0 : ChildRing k0 s.curproc xs := hr.congr (hsame0 _ hcur xs hx)
  obtain ⟨k,hk,hring,hsame⟩ := hr0.insertTail (q := new) (by rw [hx,hnp]; exact nofun)
  refine ⟨k,hk,?_,fun p hp hpl => ?_⟩
  · have hr1 : ChildRing k0 new [] := by
      rw [← hk0]
      refine (childRing_listInit s.links new).congr fun n hon => listInit_of_ne ?_
      rcases hon with rfl | ⟨x,hm,-⟩
      · nofun
      · cases hm
    refine hr1.congr fun n hon => hsame n ?_ ?_
    · rcases hon with rfl | ⟨x,hm,-⟩
      · nofun
      · cases hm
    · rcases hon with rfl | ⟨x,hm,-⟩
      · rintro (he | ⟨x,-,he⟩)
        · cases he
          exact hnew _ hcur rfl
        · cases he
      · cases hm
  · by_cases hpc : p = s.curproc
    · subst hpc
      exact ⟨xs,by simpa using hring,hx⟩
    · obtain ⟨ys,hr',hy⟩ := h.ring p hp hpl
      refine ⟨ys,?_,hy⟩
      rw [if_neg hpc]
      refine (hr'.congr (hsame0 p hp ys hy)).congr fun n hon => hsame n ?_ ?_
      · rintro rfl
        rcases hon with he | ⟨x,hm,he⟩
        · cases he
        · cases he
          rw [hy,hnp] at hm
          cases hm
      · exact TreeInv.apart hy hx hpc hon

theorem TreeInv.created {pid nextPid : ℤ} {k : Links (PLink P)} (h : TreeInv left s)
    (hl : ¬ left s.curproc) (hcur : s.curproc ∈ s.procList) (hn : s.used new = false) (hr : ChildRing k new [])
    (hk : ∀ p ∈ s.procList, ¬ left p → ∃ xs, ChildRing k p (if p = s.curproc then xs ++ [new] else xs) ∧
      ∀ q, q ∈ xs ↔ s.parent q = some p) : TreeInv left (created new pid nextPid k s) := by
  have hproc := h.proc_unused hn
  have hnl : new ∉ s.procList := by simp [h.mem,hproc]
  have hpar : s.parent new = none := by simp [parent,hproc]
  have hcn : s.curproc ≠ new := fun e => hnl (e ▸ hcur)
  -- an unused name is the parent of no process
  have hnp : ∀ q, s.parent q ≠ some new := fun q hq => by
    rw [h.used new (.inr ⟨q,hq⟩)] at hn
    cases hn
  refine ⟨?_,fun p => ?_,fun p hp hpl => ?_,fun p hp => ?_,fun p hp => ?_⟩
  · exact nodup_append.mpr ⟨h.nodup,nodup_singleton new,by
      rintro p hp q hq rfl
      exact hnl (mem_singleton.mp hq ▸ hp)⟩
  · simp only [Kernel.created,mem_append,mem_singleton,h.mem]
    by_cases he : p = new
    · simp [he]
    · simp [he]
  · simp only [parent_created]
    rcases mem_append.mp hp with hp | hp
    · obtain ⟨xs,hx,hm⟩ := hk p hp hpl
      refine ⟨_,hx,fun q => ?_⟩
      by_cases hpc : p = s.curproc
      · subst hpc
        by_cases hq : q = new
        · simp [hq]
        · simp [hq,hm]
      · by_cases hq : q = new
        · simp [hq,hpc,Ne.symm hpc,hm,hpar]
        · simp [hq,hpc,hm]
    · obtain rfl := mem_singleton.mp hp
      refine ⟨[],hr,fun q => ?_⟩
      by_cases hq : q = p
      · simp [hq,hcn]
      · simp [hq,hnp q]
  · obtain ⟨h1,h2,h3,h4⟩ := h.gone p hp
    have hne : p ≠ new := by
      rintro rfl
      rw [hn] at h4
      cases h4
    refine ⟨?_,?_,fun q => ?_,?_⟩
    · simpa [Kernel.created,hne] using h1
    · simp only [Kernel.created]
      split
      · simpa using hne.symm
      · exact h2
    · rw [parent_created]
      split
      · rintro ⟨⟩
        exact hl hp
      · exact h3 q
    · simpa [Kernel.created,hne] using h4
  · simp only [parent_created] at hp
    by_cases hpn : p = new
    · simp [Kernel.created,hpn]
    · simp only [Kernel.created,update_of_ne hpn] at hp ⊢
      rcases hp with hp | ⟨q,hq⟩
      · exact h.used p (.inl hp)
      · split at hq
        · cases hq
          exact h.used _ (.inl ((h.mem _).mp hcur))
        · exact h.used p (.inr ⟨q,hq⟩)

/-! ### An exit -/

theorem parent_handed (init : P) (k : Links (PLink P)) (hx : ∀ q, q ∈ xs → (s.proc q).isSome) (q : P) :
    (handed init xs k s).parent q = if q ∈ xs then some init else s.parent q := by
  unfold parent handed
  by_cases hq : q ∈ xs
  · obtain ⟨r,hr⟩ := isSome_iff_exists.mp (hx q hq)
    simp [hq,hr]
  · simp [hq]

/-- A dead process has handed its children to the init process, and left its list behind. -/
theorem TreeInv.handed {init : P} {k : Links (PLink P)} (h : TreeInv left s)
    (hp : (s.proc p).isSome) (hdead : ∀ r ∈ s.proc p, r.pState = .dead)
    (hx : ∀ q, q ∈ xs ↔ s.parent q = some p) (hi : s.procInitproc = some init) (hne : init ≠ p)
    (his : (s.proc init).isSome) (hy : ∀ q, q ∈ ys ↔ s.parent q = some init) (hring : ChildRing k init (ys ++ xs))
    (hsame : ∀ n, ¬ OnList init (ys ++ xs) n → k.next n = s.links.next n ∧ k.prev n = s.links.prev n) :
    TreeInv (fun q => left q ∨ q = p) (handed init xs k s) := by
  have hpar := parent_handed init k fun q hq => isSome_of_parent ((hx q).mp hq)
  have hsome : ∀ q, ((Kernel.handed init xs k s).proc q).isSome = (s.proc q).isSome := by
    intro q
    simp only [Kernel.handed]
    split <;> simp
  have hgone : ∀ q, (∀ r ∈ s.proc q, r.pState = .dead) →
      ∀ r ∈ (Kernel.handed init xs k s).proc q, r.pState = .dead := by
    intro q hq r hr
    simp only [Kernel.handed] at hr
    split at hr
    · obtain ⟨r',hr',rfl⟩ := map_eq_some_iff.mp hr
      exact hq r' hr'
    · exact hq r hr
  refine ⟨h.nodup,fun q => ?_,fun r hr hl => ?_,fun r hr => ?_,fun r hr => ?_⟩
  · rw [hsome]
    exact h.mem q
  · obtain ⟨hl,hrp⟩ := not_or.mp hl
    simp only [hpar]
    by_cases hri : r = init
    · subst hri
      refine ⟨_,hring,fun q => ?_⟩
      by_cases hq : q ∈ xs
      · simp [hq]
      · simp [hq,hy]
    · obtain ⟨zs,hz,hm⟩ := h.ring r hr hl
      refine ⟨zs,hz.congr fun n hn => hsame n ?_,fun q => ?_⟩
      · -- what is on the list of `r` is on neither of the two lists
        rintro (he | ⟨y,hmem,he⟩)
        · exact TreeInv.apart hm hy hri hn (.inl he)
        · rcases mem_append.mp hmem with hmem | hmem
          · exact TreeInv.apart hm hy hri hn (.inr ⟨y,hmem,he⟩)
          · exact TreeInv.apart hm hx hrp hn (.inr ⟨y,hmem,he⟩)
      · rw [hm]
        by_cases hq : q ∈ xs
        · rw [if_pos hq,(hx q).mp hq]
          simp [Ne.symm hri,Ne.symm hrp]
        · rw [if_neg hq]
  · simp only [hpar]
    rcases hr with hr | rfl
    · obtain ⟨h1,h2,h3,h4⟩ := h.gone r hr
      refine ⟨hgone r h1,h2,fun q => ?_,h4⟩
      split
      · rw [← hi]
        exact h2
      · exact h3 q
    · refine ⟨hgone r hdead,by simpa [Kernel.handed,hi] using hne,fun q => ?_,h.used r (.inl hp)⟩
      split
      · simpa using hne
      next hq =>
        exact fun he => hq ((hx q).mpr he)
  · rw [hsome] at hr
    simp only [hpar] at hr
    rcases hr with hr | ⟨q,hq⟩
    · exact h.used r (.inl hr)
    · split at hq
      · cases hq
        exact h.used _ (.inl his)
      · exact h.used r (.inr ⟨q,hq⟩)

/-! ### A child is disposed of -/

/-- The state after the child `q` has been disposed of, when the links are `k`. -/
def disposed (q : P) (k : Links (PLink P)) (s : Kernel P) : Kernel P :=
  { s with links := k, procList := s.procList.erase q, proc := update s.proc q none }

theorem parent_disposed (k : Links (PLink P)) (q z : P) :
    (disposed q k s).parent z = if z = q then none else s.parent z := by
  unfold parent disposed
  by_cases hz : z = q
  · subst hz
    simp
  · simp [hz]

theorem TreeInv.disposed (h : TreeInv left s) (hp : p ∈ s.procList) (hl : ¬ left p) (hq : s.parent q = some p) :
    ∃ k, dispose q s = some (disposed q k s) ∧ TreeInv left (disposed q k s) := by
  obtain ⟨xs,hr,hx⟩ := h.ring p hp hl
  obtain ⟨l1,l2,rfl⟩ := append_of_mem ((hx q).mpr hq)
  obtain ⟨k,hk,hring,hsame⟩ := hr.remove
  have hnd := hr.nodup
  refine ⟨k,by simp [dispose,hk,Kernel.disposed],?_⟩
  have hsome : ∀ r, ((Kernel.disposed q k s).proc r).isSome ↔ r ≠ q ∧ (s.proc r).isSome := by
    intro r
    by_cases hrq : r = q
    · simp [Kernel.disposed,hrq]
    · simp [Kernel.disposed,hrq]
  refine ⟨h.nodup.erase q,fun r => ?_,fun r hr' hrl => ?_,fun r hrl => ?_,fun r hr' => ?_⟩
  · rw [hsome,← h.mem]
    exact h.nodup.mem_erase_iff
  · simp only [parent_disposed]
    obtain ⟨hrq,hr'⟩ := h.nodup.mem_erase_iff.mp hr'
    by_cases hrp : r = p
    · subst hrp
      refine ⟨_,hring,fun z => ?_⟩
      by_cases hz : z = q
      · subst hz
        simpa using (nodup_middle.mp hnd).notMem
      · have := hx z
        simp only [mem_append,mem_cons,hz,false_or] at this
        simp [hz,this]
    · obtain ⟨zs,hz,hm⟩ := h.ring r hr' hrl
      refine ⟨zs,hz.congr fun n hn => hsame n (TreeInv.apart hm hx hrp hn),fun z => ?_⟩
      rw [hm]
      by_cases hzq : z = q
      · subst hzq
        simp [hq,Ne.symm hrp]
      · simp [hzq]
  · obtain ⟨h1,h2,h3,h4⟩ := h.gone r hrl
    refine ⟨fun r' hr' => ?_,h2,fun z => ?_,h4⟩
    · by_cases hrq : r = q
      · simp [Kernel.disposed,hrq] at hr'
      · exact h1 r' (by simpa [Kernel.disposed,hrq] using hr')
    · rw [parent_disposed]
      split
      · exact nofun
      · exact h3 z
  · simp only [parent_disposed,hsome] at hr'
    rcases hr' with ⟨-,hr'⟩ | ⟨z,hz⟩
    · exact h.used r (.inl hr')
    · split at hz
      · cases hz
      · exact h.used r (.inr ⟨z,hz⟩)

end Csci402.Proc.Kernel
