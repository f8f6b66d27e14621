import Csci402.Vm.Access
import Csci402.Vm.AreaList

/-! What the functions that change an address space do to its list of areas, whatever
the objects behind it. Each lemma speaks of a call that has returned. -/

namespace Csci402.Vm

namespace Memory

open Lib Option List

variable {D : Type} {U : UserMem} {env : Env D} {s t u : Memory D} {pid pid' v lo hi k : ℕ}
  {a : Vmarea} {done rest : List Vmarea}

/-- From `s` to `t` only the areas of one process change; entries may be cleared. -/
structure Edits (pid : ℕ) (s t : Memory D) : Prop where
  vmmList : ∀ pid', pid' ≠ pid → t.vmmList pid' = s.vmmList pid'
  live : ∀ pid', t.live pid' ↔ s.live pid'
  brkOf : ∀ pid', t.brkOf pid' = s.brkOf pid'
  entry : ∀ pid' v, t.entry pid' v = none ∨ t.entry pid' v = s.entry pid' v
  nextArea : s.nextArea ≤ t.nextArea
  nextPid : t.nextPid = s.nextPid

theorem Edits.trans (h : Edits pid s t) (h' : Edits pid t u) : Edits pid s u where
  vmmList pid' hp := (h'.vmmList pid' hp).trans (h.vmmList pid' hp)
  live pid' := (h'.live pid').trans (h.live pid')
  brkOf pid' := (h'.brkOf pid').trans (h.brkOf pid')
  entry pid' v := by
    rcases h'.entry pid' v with he | he
    · exact .inl he
    · rw [he]
      exact h.entry pid' v
  nextArea := Nat.le_trans h.nextArea h'.nextArea
  nextPid := h'.nextPid.trans h.nextPid

theorem Clears.edits (h : Clears s t) (pid : ℕ) : Edits pid s t :=
  ⟨fun pid' _ => h.vmmList pid',h.live,h.brkOf,h.entry,Nat.le_of_eq h.nextArea.symm,h.nextPid⟩

theorem edits_setList (s : Memory D) (pid : ℕ) (l : List Vmarea) : Edits pid s (s.setList pid l) where
  vmmList pid' hp := by simp [setList,vmmList,modProc,hp]
  live _ := live_modProc
  brkOf _ := brkOf_modProc fun _ => ⟨rfl,rfl⟩
  entry _ _ := .inr (entry_modProc fun _ => rfl)
  nextArea := Nat.le_refl _
  nextPid := rfl

theorem edits_modArea (s : Memory D) (pid k : ℕ) (f : Vmarea → Vmarea) : Edits pid s (s.modArea pid k f) :=
  edits_setList s pid _

theorem edits_addArea (s : Memory D) (pid : ℕ) (l : List Vmarea) : Edits pid s (s.addArea pid l) :=
  let h := edits_setList s pid l
  ⟨h.vmmList,h.live,h.brkOf,h.entry,Nat.le_succ _,rfl⟩

theorem edits_unlinkArea (s : Memory D) (pid k : ℕ) : Edits pid s (s.unlinkArea pid k) :=
  let h := edits_setList s pid ((s.vmmList pid).filter fun a => a.vmaId ≠ k)
  ⟨h.vmmList,h.live,h.brkOf,h.entry,Nat.le_refl _,rfl⟩

/-! ### The areas of one process -/

/-- The list of areas of a process: in order, and every area has its own number. -/
structure ListInv (U : UserMem) (s : Memory D) (pid : ℕ) : Prop where
  ok : AreasOk U (s.vmmList pid)
  ids : (s.areaIds pid).Nodup
  fresh : ∀ a ∈ s.vmmList pid, a.vmaId < s.nextArea

theorem ListInv.congr (h : ListInv U s pid) (hl : t.vmmList pid = s.vmmList pid)
    (hn : s.nextArea ≤ t.nextArea) : ListInv U t pid := by
  refine ⟨by rw [hl]; exact h.ok,by rw [areaIds,hl]; exact h.ids,fun a ha => ?_⟩
  rw [hl] at ha
  exact Nat.lt_of_lt_of_le (h.fresh a ha) hn

theorem findArea_eq (hl : s.vmmList pid = done ++ a :: rest) (hn : (s.areaIds pid).Nodup) :
    s.findArea pid a.vmaId = some a := by
  rw [areaIds,hl] at hn
  rw [findArea,hl]
  exact find?_key hn

/-- The list after one of its areas has been changed. -/
theorem vmmList_modArea_eq (hl : s.vmmList pid = done ++ a :: rest) (hn : (s.areaIds pid).Nodup)
    (f : Vmarea → Vmarea) : (s.modArea pid a.vmaId f).vmmList pid = done ++ f a :: rest := by
  rw [areaIds,hl] at hn
  rw [vmmList_modArea,if_pos rfl,hl]
  exact map_key hn f

/-- An area changes, but not its range or number. -/
theorem ListInv.replace {b : Vmarea} (h : ListInv U s pid) (hl : s.vmmList pid = done ++ a :: rest)
    (ht : t.vmmList pid = done ++ b :: rest) (hid : b.vmaId = a.vmaId)
    (hr : b.vmaStart = a.vmaStart ∧ b.vmaEnd = a.vmaEnd) (hn : s.nextArea ≤ t.nextArea) : ListInv U t pid := by
  obtain ⟨hok,hids,hfresh⟩ := h
  rw [hl] at hok hfresh
  have hne := hok.spaced.nonempty a (by simp)
  refine ⟨?_,?_,fun x hx => ?_⟩
  · rw [ht]
    exact hok.replace (m := [b]) ⟨by simpa [hr] using hne,by simp⟩ (by simp [hr])
  · rw [areaIds,hl] at hids
    rw [areaIds,ht]
    simpa [hid] using hids
  · rw [ht,mem_append,mem_cons] at hx
    refine Nat.lt_of_lt_of_le ?_ hn
    rcases hx with hx | rfl | hx
    · exact hfresh x (by simp [hx])
    · rw [hid]
      exact hfresh a (by simp)
    · exact hfresh x (by simp [hx])

/-! ### `vmmap_remove` -/

/-- The list after an area has been added to it. -/
theorem ListInv.ids_addArea (h : ListInv U s pid) {l : List Vmarea} (ha : a.vmaId = s.nextArea)
    (hl : l.Perm (a :: s.vmmList pid)) : (l.map Vmarea.vmaId).Nodup := by
  refine (hl.map Vmarea.vmaId).nodup_iff.mpr (nodup_cons.mpr ⟨fun hm => ?_,h.ids⟩)
  obtain ⟨x,hx,hxe⟩ := List.mem_map.mp hm
  have := h.fresh x hx
  omega

/-- The second part of an area that is split comes right after the first. -/
theorem splitArea_areas (h : ListInv U s pid) (hl : s.vmmList pid = done ++ a :: rest)
    (ht : splitArea U pid lo hi a s = some t) : t.vmmList pid = done ++ { a with vmaEnd := lo } :: { a with
      vmaId := s.nextArea
      vmaStart := hi
      vmaOff := u32 (a.vmaOff+hi - a.vmaStart) } :: rest ∧
    Edits pid s t ∧ t.nextArea = s.nextArea+1 := by
  have hlive : s.live pid := live_of_mem (a := a) (by simp [hl])
  have hsp := h.ok.spaced
  rw [hl] at hsp
  obtain ⟨h1,h2,h12⟩ := pairwise_append.mp hsp.sorted
  unfold splitArea at ht
  generalize hnew : ({ a with
    vmaId := s.nextArea
    vmaStart := hi
    vmaOff := u32 (a.vmaOff+hi - a.vmaStart) } : Vmarea) = newvma at ht ⊢
  have hid : newvma.vmaId = s.nextArea := by rw [← hnew]
  have hend : newvma.vmaEnd = a.vmaEnd := by rw [← hnew]
  obtain ⟨l,hins,ht⟩ := bind_eq_some_iff.mp ht
  obtain ⟨o,-,ht⟩ := bind_eq_some_iff.mp ht
  obtain ⟨s1,hs1,ht⟩ := bind_eq_some_iff.mp ht
  cases ht
  have happ : ∀ m, done ++ a :: m = (done ++ [a]) ++ m := fun m => append_cons done a m
  have hl1 : l = done ++ a :: newvma :: rest := by
    unfold vmmapInsert at hins
    split at hins
    · cases hins
      rw [hl,happ rest,happ (newvma :: rest)]
      refine insertArea_append (fun x hx => ?_) fun x hx => ?_
      · rw [hend]
        rcases mem_append.mp hx with hx | hx
        · have := h12 x hx a (by simp)
          have := hsp.nonempty x (by simp [hx])
          have := hsp.nonempty a (by simp)
          omega
        · rw [mem_singleton.mp hx]
          exact hsp.nonempty a (by simp)
      · rw [hend]
        exact (pairwise_cons.mp h2).1 x hx
    · cases hins
  have hcl := ref_clears hs1
  have hlist : s1.vmmList pid = done ++ a :: newvma :: rest := by
    rw [hcl.vmmList pid,← hl1]
    exact (vmmList_setList hlive).trans (if_pos rfl)
  have hids : (s1.areaIds pid).Nodup := by
    rw [areaIds,hlist]
    refine h.ids_addArea hid ?_
    rw [hl,happ rest,happ (newvma :: rest)]
    exact perm_middle
  refine ⟨vmmList_modArea_eq hlist hids _,?_,hcl.nextArea⟩
  exact ((edits_addArea s pid l).trans (hcl.edits pid)).trans (edits_setList s1 pid _)

/-- One round of `vmmap_remove` leaves the pieces of the area in its place. -/
theorem removeArea_areas (h : ListInv U s pid) (hl : s.vmmList pid = done ++ a :: rest)
    (ht : removeArea U env pid lo hi a.vmaId s = some t) :
    t.vmmList pid = done ++ (pieces lo hi s.nextArea a ++ rest) ∧ Edits pid s t ∧
      ∀ b ∈ pieces lo hi s.nextArea a, b.vmaId = a.vmaId ∨
        b.vmaId = s.nextArea ∧ t.nextArea = s.nextArea+1 := by
  unfold removeArea at ht
  rw [findArea_eq hl h.ids] at ht
  simp only [bind_eq_bind,bind_some] at ht
  unfold pieces
  split at ht
  next hc =>
    rw [if_pos hc]
    obtain ⟨hlist,hed,hnx⟩ := splitArea_areas h hl ht
    refine ⟨hlist,hed,fun b hb => ?_⟩
    rw [mem_cons,mem_singleton] at hb
    rcases hb with rfl | rfl
    · exact .inl rfl
    · exact .inr ⟨rfl,hnx⟩
  rename_i hc1
  rw [if_neg hc1]
  split at ht
  next hc =>
    rw [if_pos hc]
    cases ht
    exact ⟨vmmList_modArea_eq hl h.ids _,edits_setList s pid _,by simp⟩
  rename_i hc2
  rw [if_neg hc2]
  split at ht
  next hc =>
    rw [if_pos hc]
    cases ht
    exact ⟨vmmList_modArea_eq hl h.ids _,edits_setList s pid _,by simp⟩
  rename_i hc3
  rw [if_neg hc3]
  split at ht
  next hc =>
    rw [if_pos hc]
    obtain ⟨o,-,ht⟩ := bind_eq_some_iff.mp ht
    have hcl := put_clears ht
    have hids := h.ids
    rw [areaIds,hl] at hids
    refine ⟨?_,(edits_unlinkArea s pid a.vmaId).trans (hcl.edits pid),by simp⟩
    rw [hcl.vmmList pid,vmmList_unlinkArea,if_pos rfl,hl]
    exact filter_key hids
  next hc =>
    rw [if_neg hc]
    cases ht
    exact ⟨hl,(Clears.refl s).edits pid,by simp⟩

/-- The loop of `vmmap_remove`, started in `s` and now in `t` with the areas numbered
`rest` still ahead: what came before them has been cut. -/
def Cutting (U : UserMem) (pid lo hi : ℕ) (s : Memory D) (rest : List ℕ) (t : Memory D) : Prop :=
  ∃ before done todo, s.vmmList pid = before ++ todo ∧ todo.map Vmarea.vmaId = rest ∧
    t.vmmList pid = done ++ todo ∧ ListInv U t pid ∧ Edits pid s t ∧
    (∀ v, trans done v = if lo ≤ v ∧ v < hi then none else trans before v) ∧
    ∀ b ∈ done, ∃ a ∈ before, Piece b a ∧ (b.vmaId = a.vmaId ∨ s.nextArea ≤ b.vmaId)

theorem Cutting.start (h : ListInv U s pid) : Cutting U pid lo hi s (s.areaIds pid) s :=
  ⟨[],[],s.vmmList pid,rfl,rfl,rfl,h,(Clears.refl s).edits pid,by simp [trans_nil],
    by simp⟩

theorem Cutting.next {rest : List ℕ} (h : Cutting U pid lo hi s (k :: rest) t) :
    ∃ done, t.areaIds pid = done ++ k :: rest ∧ k ∉ done := by
  obtain ⟨before,done,todo,-,hk,hl,hinv,-⟩ := h
  have he : t.areaIds pid = done.map Vmarea.vmaId ++ k :: rest := by
    rw [areaIds,hl,map_append,hk]
  refine ⟨done.map Vmarea.vmaId,he,fun hm => ?_⟩
  have hn := hinv.ids
  rw [he] at hn
  exact (nodup_append.mp hn).2.2 k hm k (by simp) rfl

/-- An area is replaced by its pieces. -/
theorem ListInv.cut (h : ListInv U s pid) (hlh : lo ≤ hi) (hl : s.vmmList pid = done ++ a :: rest)
    (ht : t.vmmList pid = done ++ (pieces lo hi s.nextArea a ++ rest))
    (hn : s.nextArea ≤ t.nextArea) (hid : ∀ b ∈ pieces lo hi s.nextArea a, b.vmaId = a.vmaId ∨
      b.vmaId = s.nextArea ∧ t.nextArea = s.nextArea+1) : ListInv U t pid := by
  obtain ⟨hok,hids,hfresh⟩ := h
  rw [hl] at hok hfresh
  have hne := hok.spaced.nonempty a (by simp)
  have hpiece : ∀ b ∈ pieces lo hi s.nextArea a, Piece b a := fun b hb => pieces_piece hlh hne hb
  refine ⟨?_,?_,fun b hb => ?_⟩
  · rw [ht]
    exact hok.replace (pieces_spaced hlh hne)
      fun b hb => ⟨(hpiece b hb).start_le,(hpiece b hb).le_end⟩
  · -- at most the number `nextArea` is new
    have hsub : (t.areaIds pid).Sublist
        (done.map Vmarea.vmaId ++ ([a.vmaId,s.nextArea] ++ rest.map Vmarea.vmaId)) := by
      rw [areaIds,ht,map_append,map_append]
      exact (List.Sublist.refl _).append ((pieces_ids lo hi s.nextArea a).append (List.Sublist.refl _))
    refine hsub.nodup ?_
    have hp : (done.map Vmarea.vmaId ++ ([a.vmaId,s.nextArea] ++ rest.map Vmarea.vmaId)).Perm
        (s.nextArea :: (done ++ a :: rest).map Vmarea.vmaId) := by
      rw [map_append,map_cons]
      exact (List.Perm.append_left _ (List.Perm.swap _ _ _)).trans perm_middle
    rw [areaIds,hl] at hids
    refine hp.nodup_iff.mpr (nodup_cons.mpr ⟨fun hm => ?_,hids⟩)
    obtain ⟨x,hx,hxe⟩ := List.mem_map.mp hm
    have := hfresh x hx
    omega
  · rw [ht,mem_append,mem_append] at hb
    rcases hb with hb | hb | hb
    · exact Nat.lt_of_lt_of_le (hfresh b (by simp [hb])) hn
    · have ha := hfresh a (by simp)
      have := hid b hb
      omega
    · exact Nat.lt_of_lt_of_le (hfresh b (by simp [hb])) hn

theorem Cutting.round {rest : List ℕ} (hlh : lo ≤ hi) (h : Cutting U pid lo hi s (k :: rest) t)
    (hu : removeArea U env pid lo hi k t = some u) : Cutting U pid lo hi s rest u := by
  obtain ⟨before,done,todo,hs,hk,hl,hinv,hed,htr,hpc⟩ := h
  obtain ⟨a,todo,rfl⟩ : ∃ a l, todo = a :: l := by
    cases todo with
    | nil => cases hk
    | cons a l => exact ⟨a,l,rfl⟩
  obtain ⟨rfl,hrest⟩ := List.cons.inj hk
  obtain ⟨hl',hed',hid⟩ := removeArea_areas hinv hl hu
  have hne : a.vmaStart < a.vmaEnd := hinv.ok.spaced.nonempty a (by simp [hl])
  have hnew : t.nextArea ≥ s.nextArea := hed.nextArea
  refine ⟨before ++ [a],done ++ pieces lo hi t.nextArea a,todo,?_,hrest,?_,
    hinv.cut hlh hl hl' hed'.nextArea hid,hed.trans hed',fun v => ?_,fun b hb => ?_⟩
  · rw [hs]
    simp
  · rw [hl',append_assoc]
  · rw [trans_append,trans_append,htr,trans_pieces hlh]
    split <;> rfl
  · rcases mem_append.mp hb with hb | hb
    · obtain ⟨x,hx,hbx⟩ := hpc b hb
      exact ⟨x,by simp [hx],hbx⟩
    · refine ⟨a,by simp,pieces_piece hlh hne hb,?_⟩
      have := hid b hb
      omega

/-- What `vmmap_remove` leaves: the old map outside the range, in pieces of old areas. -/
structure Removed (U : UserMem) (pid lo hi : ℕ) (s t : Memory D) : Prop where
  list : ListInv U t pid
  edits : Edits pid s t
  trans_eq : ∀ v, trans (t.vmmList pid) v =
    if lo ≤ v ∧ v < hi then none else trans (s.vmmList pid) v
  piece : ∀ b ∈ t.vmmList pid, ∃ a ∈ s.vmmList pid, Piece b a ∧
    (b.vmaId = a.vmaId ∨ s.nextArea ≤ b.vmaId)

theorem Cutting.finish (h : Cutting U pid lo hi s [] t) : Removed U pid lo hi s t := by
  obtain ⟨before,done,todo,hs,hk,hl,hinv,hed,htr,hpc⟩ := h
  obtain rfl := map_eq_nil_iff.mp hk
  rw [append_nil] at hs hl
  exact ⟨hinv,hed,by rw [hl,hs]; exact htr,by rw [hl,hs]; exact hpc⟩

theorem Removed.clears (h : Removed U pid lo hi s t) (hc : Clears t u) : Removed U pid lo hi s u := by
  have hl := hc.vmmList pid
  exact ⟨h.list.congr hl (Nat.le_of_eq hc.nextArea.symm),h.edits.trans (hc.edits pid),
    by rw [hl]; exact h.trans_eq,by rw [hl]; exact h.piece⟩

/-- `vmmap_remove` of a range that does not overflow. -/
theorem vmmapRemove_areas {n : ℕ} (h : ListInv U s pid) (hn : lo+n < 2 ^ 32)
    (ht : vmmapRemove U env pid lo n s = some t) : Removed U pid lo (lo+n) s t := by
  unfold vmmapRemove at ht
  simp only [u32_add hn] at ht
  obtain ⟨s1,hs1,ht⟩ := bind_eq_some_iff.mp ht
  cases ht
  have hcut := listIterate_inv (Cutting U pid lo (lo+n) s) (fun _ _ _ => Cutting.next)
    (fun _ _ _ _ => Cutting.round (Nat.le_add_right lo n)) (Cutting.start h) hs1
  exact hcut.finish.clears (clears_ptUnmapRange s1 pid _ _)

/-- The entries of the range are cleared, if the range has addresses. -/
theorem vmmapRemove_entry {n : ℕ} (hn : lo+n < 2 ^ 20)
    (ht : vmmapRemove U env pid lo n s = some t) (hv : lo ≤ v ∧ v < lo+n) : t.entry pid v = none := by
  have hu : u32 ((lo : ℤ)+n) = lo+n := u32_add (by omega)
  obtain ⟨s1,-,ht⟩ := bind_eq_some_iff.mp ht
  cases ht
  rw [entry_ptUnmapRange,hu,addrPage,addrPage,Nat.mod_eq_of_lt hn,Nat.mod_eq_of_lt (by omega),
    if_pos ⟨rfl,hv⟩]

end Memory

end Csci402.Vm
