import Csci402.Fs.Vnode

/-! The invariant of the vnode cache. A vnode that is not busy has one reference for each
active one and one for each of its pages, and at least one in all; a busy one has none, and
there is one thread that brings it in or takes it away. The list holds the vnodes that there
are, no two with the same identity. -/

namespace Csci402.Fs.Cache

open Function Option List

variable {F I V G T : Type}

/-- What holds of one vnode with the given number of active references. -/
structure VnodeOk (active : ℕ) (vn : Vnode F I G T) : Prop where
  pages : vn.vnNrespages = vn.mmoRespages.length
  nodup : vn.mmoRespages.Nodup
  busy : vn.vnBusy = true → vn.vnRefcount = 0 ∧ vn.mmoRespages = [] ∧ active = 0
  idle : vn.vnBusy = false → vn.vnRefcount = active+vn.vnNrespages ∧ 0 < vn.vnRefcount

/-- The thread brings the vnode in, or takes it away. -/
def Handles (s : Cache F I V G T) (t : T) (v : V) : Prop := s.pc t = .reading v ∨ s.pc t = .deleting v

structure Inv (s : Cache F I V G T) : Prop where
  nodup : s.inuse.Nodup
  mem : ∀ v, v ∈ s.inuse ↔ (s.vnode v).isSome
  unique : ∀ v v' vn vn', s.vnode v = some vn → s.vnode v' = some vn' → vn.vnFs = vn'.vnFs →
    vn.vnVno = vn'.vnVno → v = v'
  ok : ∀ v vn, s.vnode v = some vn → VnodeOk (s.active v) vn
  gone : ∀ v, s.vnode v = none → s.active v = 0
  page : ∀ g v, (s.page g).map Pframe.pfObj = some v ↔ ∃ vn, s.vnode v = some vn ∧ g ∈ vn.mmoRespages
  busy : ∀ v vn, s.vnode v = some vn → (vn.vnBusy = true ↔ ∃ t, s.Handles t v)
  handled : ∀ t v, s.Handles t v → (s.vnode v).isSome
  single : ∀ t t' v, s.Handles t v → s.Handles t' v → t = t'
  queue : ∀ v t, (∃ vn, s.vnode v = some vn ∧ t ∈ vn.vnWaitq) ↔ ∃ fs vno, s.pc t = .asleep fs vno v

variable [DecidableEq V] {s t : Cache F I V G T} {v : V} {vn vn' : Vnode F I G T}

/-- A vnode has been changed, with its pages and the threads that deal with it; the other
vnodes, and the identity of this one, are what they were. -/
theorem Inv.modify (h : Inv s) (hv : s.vnode v = some vn) (hvnode : t.vnode = update s.vnode v (some vn'))
    (hid : vn'.vnFs = vn.vnFs ∧ vn'.vnVno = vn.vnVno) (hinuse : t.inuse = s.inuse)
    (hactive : ∀ w, w ≠ v → t.active w = s.active w) (hok : VnodeOk (t.active v) vn')
    (hpage : ∀ g, (t.page g).map Pframe.pfObj = some v ↔ g ∈ vn'.mmoRespages)
    (hpages : ∀ g w, w ≠ v → ((t.page g).map Pframe.pfObj = some w ↔ (s.page g).map Pframe.pfObj = some w))
    (hhandles : ∀ x w, w ≠ v → (t.Handles x w ↔ s.Handles x w)) (hbusy : vn'.vnBusy = true ↔ ∃ x, t.Handles x v)
    (hsingle : ∀ x y, t.Handles x v → t.Handles y v → x = y)
    (hqueue : ∀ w x, (∃ wn, t.vnode w = some wn ∧ x ∈ wn.vnWaitq) ↔ ∃ fs vno, t.pc x = .asleep fs vno w) : Inv t := by
  have hself : t.vnode v = some vn' := by rw [hvnode,update_self]
  have hother : ∀ w, w ≠ v → t.vnode w = s.vnode w := fun w hw => by rw [hvnode,update_of_ne hw]
  -- the record that stood at a name before has the same identity
  have hold : ∀ w wn, t.vnode w = some wn → ∃ wn0, s.vnode w = some wn0 ∧ wn0.vnFs = wn.vnFs ∧ wn0.vnVno = wn.vnVno := by
    intro w wn hw
    by_cases hwv : w = v
    · subst hwv
      cases hself.symm.trans hw
      exact ⟨vn,hv,hid.1.symm,hid.2.symm⟩
    · exact ⟨wn,(hother w hwv).symm.trans hw,rfl,rfl⟩
  refine ⟨hinuse ▸ h.nodup,fun w => ?_,fun w w' wn wn' hw hw' hf hi => ?_,fun w wn hw => ?_,fun w hw => ?_,
    fun g w => ?_,fun w wn hw => ?_,fun x w hx => ?_,fun x y w hx hy => ?_,hqueue⟩
  · rw [hinuse,h.mem]
    by_cases hwv : w = v
    · simp [hwv,hv,hself]
    · rw [hother w hwv]
  · obtain ⟨wn0,hw0,hf0,hi0⟩ := hold w wn hw
    obtain ⟨wn1,hw1,hf1,hi1⟩ := hold w' wn' hw'
    exact h.unique w w' wn0 wn1 hw0 hw1 (hf0.trans (hf.trans hf1.symm)) (hi0.trans (hi.trans hi1.symm))
  · by_cases hwv : w = v
    · subst hwv
      cases hself.symm.trans hw
      exact hok
    · rw [hactive w hwv]
      exact h.ok w wn ((hother w hwv).symm.trans hw)
  · by_cases hwv : w = v
    · subst hwv
      cases hself.symm.trans hw
    · rw [hactive w hwv]
      exact h.gone w ((hother w hwv).symm.trans hw)
  · by_cases hwv : w = v
    · subst hwv
      simp [hpage,hself]
    · rw [hpages g w hwv,h.page,hother w hwv]
  · by_cases hwv : w = v
    · subst hwv
      cases hself.symm.trans hw
      exact hbusy
    · simp only [hhandles _ w hwv]
      exact h.busy w wn ((hother w hwv).symm.trans hw)
  · by_cases hwv : w = v
    · simp [hwv,hself]
    · rw [hother w hwv]
      exact h.handled x w ((hhandles x w hwv).mp hx)
  · by_cases hwv : w = v
    · subst hwv
      exact hsingle x y hx hy
    · exact h.single x y w ((hhandles x w hwv).mp hx) ((hhandles y w hwv).mp hy)

/-! ### Putting -/

def setVnode (v : V) (vn : Vnode F I G T) (s : Cache F I V G T) : Cache F I V G T :=
  { s with vnode := update s.vnode v (some vn) }

@[simp] theorem setVnode_self (v : V) (vn : Vnode F I G T) (s : Cache F I V G T) :
    (setVnode v vn s).vnode v = some vn := update_self ..

@[simp] theorem setVnode_pc (v : V) (vn : Vnode F I G T) (s : Cache F I V G T) : (setVnode v vn s).pc = s.pc := rfl

theorem setVnode_of_ne {w : V} (hw : w ≠ v) (vn : Vnode F I G T) (s : Cache F I V G T) :
    (setVnode v vn s).vnode w = s.vnode w := update_of_ne hw ..

@[simp] theorem setVnode_setVnode (v : V) (vn vn' : Vnode F I G T) (s : Cache F I V G T) :
    setVnode v vn' (setVnode v vn s) = setVnode v vn' s := by
  simp [setVnode]

theorem modVnode_eq (hv : s.vnode v = some vn) (f : Vnode F I G T → Vnode F I G T) :
    modVnode v f s = setVnode v (f vn) s := by
  simp [modVnode,setVnode,hv]

theorem setVnode_eq_self (hv : s.vnode v = some vn) : setVnode v vn s = s := by
  rw [setVnode,← hv,update_eq_self]

/-- Dropping a reference that is not the last one. -/
theorem drop_eq (hv : s.vnode v = some vn) (hr : 1 < vn.vnRefcount) :
    drop v s = some (setVnode v { vn with vnRefcount := vn.vnRefcount - 1 } s, false) := by
  simp [drop,hv,hr,modVnode_eq hv]

/-- Dropping the last reference. -/
theorem drop_last (hv : s.vnode v = some vn) (hr : vn.vnRefcount = 1) (hn : vn.vnNrespages = 0) :
    drop v s = some (setVnode v { vn with vnRefcount := 0, vnBusy := true } s, true) := by
  simp [drop,hv,modVnode_eq hv,hr,hn,modVnode_eq (setVnode_self _ _ _)]

variable [DecidableEq G]

/-- All pages of the vnode have been freed. -/
def drained (v : V) (vn : Vnode F I G T) (s : Cache F I V G T) : Cache F I V G T :=
  { setVnode v { vn with vnRefcount := 1, vnNrespages := 0, mmoRespages := [] } s with
    page := fun g => if g ∈ vn.mmoRespages then none else s.page g }

/-- The page is one of the vnode, and is not busy. -/
def FreePage (s : Cache F I V G T) (v : V) (g : G) : Prop := s.page g = some ⟨v,false⟩

theorem uncache_eq {g : G} (hv : s.vnode v = some vn) (hg : FreePage s v g) :
    uncache g s = some (v, { setVnode v { vn with
        vnNrespages := vn.vnNrespages - 1, mmoRespages := vn.mmoRespages.erase g } s with
      page := update s.page g none }) := by
  rw [FreePage] at hg
  simp [uncache,hg,hv,modVnode_eq hv,setVnode]

/-- `vput` when the file system is not asked, or answers that the vnode is linked. -/
theorem vput_eq_drop {query : Bool} (fuel : ℕ) (hv : s.vnode v = some vn) (hn : 0 ≤ vn.vnNrespages)
    (hr : vn.vnNrespages < vn.vnRefcount) (hb : vn.vnBusy = false)
    (hq : ¬ (vn.vnNrespages = vn.vnRefcount - 1 ∧ query = false)) : vput query (fuel+1) v s = drop v s := by
  simp only [vput,hv,bind_eq_bind,bind_some,hn,hr,hb,and_self,not_true_eq_false,if_false,
    if_neg hq]

/-- While the loop of `vput` runs there is one more reference than there are pages, so the
calls that it makes through `pframe_free` only drop a reference. -/
theorem drain_eq (query : Bool) (fuel : ℕ) {l : List G} (hv : s.vnode v = some vn) (hl : vn.mmoRespages = l)
    (hn : vn.vnNrespages = l.length) (hr : vn.vnRefcount = 1+l.length) (hb : vn.vnBusy = false) (hnd : l.Nodup)
    (hp : ∀ g ∈ l, FreePage s v g) : l.foldlM (freeNext (vput query (fuel+1))) s = some (drained v vn s) := by
  induction l generalizing s vn with
  | nil =>
    have hvn : { vn with vnRefcount := 1, vnNrespages := 0, mmoRespages := [] } = vn := by
      obtain ⟨fs,vno,busy,ref,nres,pages,waitq⟩ := vn
      simp_all
    rw [drained,hvn,setVnode_eq_self hv,hl]
    rfl
  | cons g l ih =>
    obtain ⟨hg,hnd⟩ := nodup_cons.mp hnd
    rw [length_cons] at hn hr
    have herase : vn.mmoRespages.erase g = l := by rw [hl,erase_cons_head]
    have huncache := uncache_eq hv (hp g mem_cons_self)
    rw [herase] at huncache
    generalize hs1 : ({ setVnode v { vn with vnNrespages := vn.vnNrespages - 1, mmoRespages := l } s with
      page := update s.page g none } : Cache F I V G T) = s1 at huncache
    have hv1 : s1.vnode v = some { vn with vnNrespages := vn.vnNrespages - 1, mmoRespages := l } := by
      rw [← hs1]
      exact setVnode_self v _ s
    have hput : vput query (fuel+1) v s1 = some (setVnode v { vn with
        vnRefcount := vn.vnRefcount - 1, vnNrespages := vn.vnNrespages - 1, mmoRespages := l } s1, false) := by
      rw [vput_eq_drop fuel hv1 (by simp only; omega) (by simp only; omega) hb (by simp only; omega),
        drop_eq hv1 (by simp only; omega)]
    generalize hvn2 : ({ vn with vnRefcount := vn.vnRefcount - 1, vnNrespages := vn.vnNrespages - 1, mmoRespages := l } :
      Vnode F I G T) = vn2 at hput
    have hrest : l.foldlM (freeNext (vput query (fuel+1))) (setVnode v vn2 s1) =
        some (drained v vn2 (setVnode v vn2 s1)) := by
      refine ih (setVnode_self v vn2 s1) ?_ ?_ ?_ ?_ hnd fun g' hg' => ?_
      · rw [← hvn2]
      · rw [← hvn2]
        simp only
        omega
      · rw [← hvn2]
        simp only
        omega
      · rw [← hvn2]
        exact hb
      · have hne : g' ≠ g := by
          rintro rfl
          exact hg hg'
        have hpage := hp g' (mem_cons_of_mem g hg')
        rw [FreePage] at hpage ⊢
        rw [← hs1]
        simpa [setVnode,hne] using hpage
    rw [foldlM_cons,freeNext,pframeFree,huncache,bind_some,hput]
    refine hrest.trans (congrArg some ?_)
    subst hs1 hvn2
    simp only [drained,setVnode,update_idem,hl,Cache.mk.injEq,true_and,and_true]
    funext g'
    by_cases hg' : g' = g
    · simp [hg']
    · simp [hg']

/-- The vnode has lost its last reference and its pages, and is being taken away. -/
def taken (v : V) (vn : Vnode F I G T) (s : Cache F I V G T) : Cache F I V G T :=
  { setVnode v { vn with vnRefcount := 0, vnNrespages := 0, mmoRespages := [], vnBusy := true } s with
    page := fun g => if g ∈ vn.mmoRespages then none else s.page g }

/-- `vput` by a caller whose reference is one of `n` that are not those of pages: it drops the
reference, or it was the last one and the vnode is taken away. -/
theorem vput_spec {query : Bool} (fuel : ℕ) {n : ℕ} (hv : s.vnode v = some vn) (hb : vn.vnBusy = false)
    (hp : vn.vnNrespages = vn.mmoRespages.length) (hnd : vn.mmoRespages.Nodup)
    (hr : vn.vnRefcount = n+vn.vnNrespages) (hn : 0 < n) (hq : query = false → ∀ g ∈ vn.mmoRespages, FreePage s v g) :
    (1 < vn.vnRefcount ∧ vput query (fuel+2) v s =
      some (setVnode v { vn with vnRefcount := vn.vnRefcount - 1 } s, false)) ∨
    (n = 1 ∧ vput query (fuel+2) v s = some (taken v vn s, true)) := by
  by_cases hask : vn.vnNrespages = vn.vnRefcount - 1 ∧ query = false
  · have hn1 : n = 1 := by omega
    refine .inr ⟨hn1,?_⟩
    have hdrain := drain_eq query fuel hv rfl hp (by omega) hb hnd (hq hask.2)
    have hv' : (drained v vn s).vnode v = some { vn with vnRefcount := 1, vnNrespages := 0, mmoRespages := [] } :=
      setVnode_self ..
    have hassert : 0 ≤ vn.vnNrespages ∧ vn.vnNrespages < vn.vnRefcount ∧ vn.vnBusy = false := ⟨by omega,by omega,hb⟩
    have hdrop := drop_last hv' rfl rfl
    rw [vput,hv,bind_eq_bind,bind_some,if_neg (not_not_intro hassert),if_pos hask]
    simp only [hdrain,hv',bind_eq_bind,bind_some,ne_eq,not_true_eq_false,or_false,if_false,hdrop]
    simp [drained,taken,setVnode]
  · rw [vput_eq_drop (fuel+1) hv (by omega) (by omega) hb hask]
    by_cases hlast : vn.vnRefcount = 1
    · have hnres : vn.vnNrespages = 0 := by omega
      have hpages : vn.mmoRespages = [] := eq_nil_of_length_eq_zero (by omega)
      refine .inr ⟨by omega,?_⟩
      rw [drop_last hv hlast hnres]
      simp [taken,setVnode,hpages,hnres]
    · exact .inl ⟨by omega,drop_eq hv (by omega)⟩

end Csci402.Fs.Cache
