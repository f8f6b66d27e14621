import Csci402.Lib.Spans
import Csci402.Vm.Vmmap

/-! Lists of areas as finite maps from page numbers. The functions of `vm/vmmap.c` that
read or build a list are right for lists that are sorted, disjoint and inside user
memory, and keep them so. -/

namespace Csci402.Vm

open Lib Option List

theorem u32_sub {m n : ℕ} (h : n ≤ m) (hm : m < 2 ^ 32) : u32 ((m : ℤ) - n) = m - n := by
  unfold u32
  omega

theorem u32_add {m n : ℕ} (h : m+n < 2 ^ 32) : u32 ((m : ℤ)+n) = m+n := by
  unfold u32
  omega

/-- What a page of the address space stands for. -/
def Vmarea.target (a : Vmarea) (vfn : ℕ) : Option ℕ × ℕ × Prot × MapFlags :=
  (a.vmaObj, a.page vfn, a.vmaProt, a.vmaFlags)

/-- The map from page numbers that a list of areas implements. -/
def trans (l : List Vmarea) (vfn : ℕ) : Option (Option ℕ × ℕ × Prot × MapFlags) :=
  (vmmapLookup l vfn).map fun a => a.target vfn

/-- Sorted, disjoint, non-empty and inside user memory. -/
structure AreasOk (U : UserMem) (l : List Vmarea) : Prop where
  spaced : Spaced Vmarea.vmaStart Vmarea.vmaEnd l
  bounds : ∀ a ∈ l, U.low ≤ a.vmaStart ∧ a.vmaEnd ≤ U.high

variable {U : UserMem} {l l1 l2 : List Vmarea} {a b : Vmarea} {v lo hi n next : ℕ}

theorem vmmapLookup_eq_spanAt : vmmapLookup l v = spanAt Vmarea.vmaStart Vmarea.vmaEnd l v := rfl

theorem vmmapLookup_mem (h : vmmapLookup l v = some a) : a ∈ l ∧ a.vmaStart ≤ v ∧ v < a.vmaEnd :=
  spanAt_mem h

theorem vmmapLookup_eq_some (h : AreasOk U l) : vmmapLookup l v = some a ↔ a ∈ l ∧ a.vmaStart ≤ v ∧ v < a.vmaEnd :=
  h.spaced.spanAt_eq_some

theorem trans_nil : trans [] v = none := rfl

theorem trans_cons : trans (a :: l) v = if a.vmaStart ≤ v ∧ v < a.vmaEnd then some (a.target v) else trans l v := by
  simp only [trans,vmmapLookup,find?_cons]
  split <;> split <;> simp_all

theorem trans_append : trans (l1 ++ l2) v = (trans l1 v).or (trans l2 v) := by
  simp only [trans,vmmapLookup_eq_spanAt,spanAt_append]
  cases spanAt Vmarea.vmaStart Vmarea.vmaEnd l1 v <;> simp

theorem trans_eq_some (h : AreasOk U l) {x : Option ℕ × ℕ × Prot × MapFlags} :
    trans l v = some x ↔ ∃ a ∈ l, a.vmaStart ≤ v ∧ v < a.vmaEnd ∧ a.target v = x := by
  simp only [trans,map_eq_some_iff,vmmapLookup_eq_some h]
  exact ⟨fun ⟨a,ha,hx⟩ => ⟨a,ha.1,ha.2.1,ha.2.2,hx⟩,
    fun ⟨a,hm,h₁,h₂,hx⟩ => ⟨a,⟨hm,h₁,h₂⟩,hx⟩⟩

theorem trans_eq_none : trans l v = none ↔ ∀ a ∈ l, ¬ (a.vmaStart ≤ v ∧ v < a.vmaEnd) := by
  rw [trans,map_eq_none_iff,vmmapLookup_eq_spanAt,spanAt_eq_none]

/-! ### Inserting an area -/

theorem insertArea_append (h₁ : ∀ x ∈ l1, x.vmaStart < a.vmaEnd)
    (h₂ : ∀ x ∈ l2, a.vmaEnd ≤ x.vmaStart) : insertArea a (l1 ++ l2) = l1 ++ a :: l2 := by
  induction l1 with
  | nil =>
    cases l2 with
    | nil => rfl
    | cons x l2 => simp [insertArea,h₂ x]
  | cons x l1 ih =>
    have hx := h₁ x (by simp)
    simp [insertArea,Nat.not_le.mpr hx,ih fun y hy => h₁ y (by simp [hy])]

/-- The new area covers its own pages, and only pages that were free. -/
theorem trans_insert (h : Free Vmarea.vmaStart Vmarea.vmaEnd a.vmaStart a.vmaEnd (l1 ++ l2)) :
    trans (l1 ++ a :: l2) v =
      if a.vmaStart ≤ v ∧ v < a.vmaEnd then some (a.target v) else trans (l1 ++ l2) v := by
  have hnone : a.vmaStart ≤ v ∧ v < a.vmaEnd →
      ∀ x ∈ l1 ++ l2, ¬ (x.vmaStart ≤ v ∧ v < x.vmaEnd) := by
    intro hv x hx
    have := h x hx
    omega
  rw [trans_append,trans_cons,trans_append]
  split
  next hv =>
    rw [trans_eq_none.mpr fun x hx => hnone hv x (by simp [hx])]
    rfl
  · rfl

/-- Insertion into a gap keeps the order. -/
theorem AreasOk.insert (h : AreasOk U l) (ha : a.vmaStart < a.vmaEnd) (hb : U.low ≤ a.vmaStart ∧ a.vmaEnd ≤ U.high)
    (hf : Free Vmarea.vmaStart Vmarea.vmaEnd a.vmaStart a.vmaEnd l) :
    ∃ l1 l2, l = l1 ++ l2 ∧ insertArea a l = l1 ++ a :: l2 ∧ AreasOk U (l1 ++ a :: l2) := by
  obtain ⟨l1,l2,rfl,h₁,h₂⟩ := h.spaced.split hf
  have hlt : ∀ x ∈ l1, x.vmaStart < a.vmaEnd := by
    intro x hx
    have h1 := h₁ x hx
    have h2 := h.spaced.nonempty x (by simp [hx])
    omega
  refine ⟨l1,l2,rfl,insertArea_append hlt h₂,h.spaced.insert ha h₁ h₂,?_⟩
  intro x hx
  rw [mem_append,mem_cons] at hx
  rcases hx with hx | rfl | hx
  · exact h.bounds x (by simp [hx])
  · exact hb
  · exact h.bounds x (by simp [hx])

/-- An area is replaced by areas inside it. -/
theorem AreasOk.replace {m : List Vmarea} (h : AreasOk U (l1 ++ a :: l2))
    (hm : Spaced Vmarea.vmaStart Vmarea.vmaEnd m) (hin : ∀ b ∈ m, a.vmaStart ≤ b.vmaStart ∧ b.vmaEnd ≤ a.vmaEnd) :
    AreasOk U (l1 ++ (m ++ l2)) := by
  refine ⟨h.spaced.replace hm hin,fun b hb => ?_⟩
  rw [mem_append,mem_append] at hb
  rcases hb with hb | hb | hb
  · exact h.bounds b (by simp [hb])
  · have ha := h.bounds a (by simp)
    have := hin b hb
    omega
  · exact h.bounds b (by simp [hb])

/-! ### Free ranges -/

/-- The early exit of the loop is right because the list is sorted. -/
theorem isRangeEmpty_iff (h : Spaced Vmarea.vmaStart Vmarea.vmaEnd l) :
    isRangeEmpty lo hi l = true ↔ Free Vmarea.vmaStart Vmarea.vmaEnd lo hi l := by
  induction l with
  | nil => simp [isRangeEmpty,Free]
  | cons a l ih =>
    have hs := (pairwise_cons.mp h.sorted).1
    have hn := h.nonempty a (by simp)
    have ih := ih h.tail
    simp only [isRangeEmpty]
    split
    next hge =>
      refine iff_of_true rfl fun x hx => .inr ?_
      rcases mem_cons.mp hx with rfl | hx
      · exact hge
      · have := hs x hx
        omega
    · split
      next hge hov =>
        refine iff_of_false (by simp) fun hf => ?_
        have := hf a (by simp)
        omega
      next hge hov =>
        rw [ih]
        refine ⟨fun hf x hx => ?_,fun hf x hx => hf x (by simp [hx])⟩
        rcases mem_cons.mp hx with rfl | hx
        · omega
        · exact hf x hx

/-- The assertion of `vmmap_is_range_empty` rules out an overflow. -/
theorem vmmapIsRangeEmpty_spec {e : Bool} (h : AreasOk U l) (hn : n < 2 ^ 32)
    (he : vmmapIsRangeEmpty U l lo n = some e) : U.low ≤ lo ∧ lo+n ≤ U.high ∧ 0 < n ∧
      (e = true ↔ Free Vmarea.vmaStart Vmarea.vmaEnd lo (lo+n) l) := by
  have hH := U.high_lt
  simp only [vmmapIsRangeEmpty] at he
  split at he
  next hb =>
    have hadd : u32 ((lo : ℤ)+n) = lo+n := by
      unfold u32 at hb ⊢
      omega
    rw [hadd] at he hb
    cases he
    exact ⟨hb.2.1,hb.2.2,by omega,isRangeEmpty_iff h.spaced⟩
  · cases he

/-- What the loop from the top finds: a gap below `pre`, which is where the areas
already passed start. -/
theorem findHigh_spec {pre r : ℕ} (hs : l.Pairwise fun a b => b.vmaEnd ≤ a.vmaStart)
    (hp : ∀ a ∈ l, a.vmaStart < a.vmaEnd ∧ a.vmaEnd ≤ pre) (hpre : pre < 2 ^ 32) (h : findHigh n pre l = some r) :
    r+n ≤ pre ∧ (∃ a ∈ l, a.vmaEnd ≤ r) ∧ Free Vmarea.vmaStart Vmarea.vmaEnd r (r+n) l := by
  induction l generalizing pre with
  | nil => cases h
  | cons a l ih =>
    obtain ⟨ha,hae⟩ := hp a (by simp)
    obtain ⟨hal,hs⟩ := pairwise_cons.mp hs
    simp only [findHigh,u32_sub hae hpre] at h
    split at h
    next hge =>
      have hr : r = pre - n := by
        rw [← u32_sub (by omega) hpre]
        exact (some.inj h).symm
      refine ⟨by omega,⟨a,by simp,by omega⟩,fun x hx => .inl ?_⟩
      rcases mem_cons.mp hx with rfl | hx
      · omega
      · have := hal x hx
        omega
    · obtain ⟨h₁,⟨x,hx,hxr⟩,h₂⟩ := ih hs
        (fun x hx => ⟨(hp x (by simp [hx])).1,hal x hx⟩) (by omega) h
      refine ⟨by omega,⟨x,by simp [hx],hxr⟩,fun y hy => ?_⟩
      rcases mem_cons.mp hy with rfl | hy
      · exact .inr h₁
      · exact h₂ y hy

theorem findLow_spec {pre r : ℕ} (h : Spaced Vmarea.vmaStart Vmarea.vmaEnd l)
    (hp : ∀ a ∈ l, pre ≤ a.vmaStart ∧ a.vmaEnd < 2 ^ 32) (hr : findLow n pre l = some r) :
    pre ≤ r ∧ (∃ a ∈ l, r+n ≤ a.vmaStart) ∧ Free Vmarea.vmaStart Vmarea.vmaEnd r (r+n) l := by
  induction l generalizing pre with
  | nil => cases hr
  | cons a l ih =>
    obtain ⟨ha,hae⟩ := hp a (by simp)
    have hn := h.nonempty a (by simp)
    have hal := (pairwise_cons.mp h.sorted).1
    simp only [findLow,u32_sub ha (by omega : a.vmaStart < 2 ^ 32)] at hr
    split at hr
    next hge =>
      cases hr
      refine ⟨Nat.le_refl _,⟨a,by simp,by omega⟩,fun x hx => .inr ?_⟩
      rcases mem_cons.mp hx with rfl | hx
      · omega
      · have := hal x hx
        omega
    · obtain ⟨h₁,⟨x,hx,hxr⟩,h₂⟩ := ih h.tail
        (fun x hx => ⟨hal x hx,(hp x (by simp [hx])).2⟩) hr
      refine ⟨by omega,⟨x,by simp [hx],hxr⟩,fun y hy => ?_⟩
      rcases mem_cons.mp hy with rfl | hy
      · exact .inl h₁
      · exact h₂ y hy

/-- A range that is found lies in user memory and is free. -/
theorem vmmapFindRange_spec {dir : Dir} {r : ℤ} (h : AreasOk U l) (hn : 0 < n)
    (hr : vmmapFindRange U l n dir = some r) (h0 : 0 ≤ r) : U.low ≤ r.toNat ∧ r.toNat+n ≤ U.high ∧
      Free Vmarea.vmaStart Vmarea.vmaEnd r.toNat (r.toNat+n) l := by
  have hU := U.low_lt_high
  have hH := U.high_lt
  have hall : ∀ a ∈ l, U.low ≤ a.vmaStart ∧ a.vmaStart < a.vmaEnd ∧ a.vmaEnd ≤ U.high :=
    fun a ha => ⟨(h.bounds a ha).1,h.spaced.nonempty a ha,(h.bounds a ha).2⟩
  cases dir with
  | hilo =>
    simp only [vmmapFindRange] at hr
    split at hr
    next x hx =>
      obtain ⟨h₁,⟨a,ha,hax⟩,h₂⟩ := findHigh_spec (pairwise_reverse.mpr h.spaced.sorted)
        (fun a ha => (hall a (mem_reverse.mp ha)).2) (by omega) hx
      have hxr : r.toNat = x := by
        cases hr
        unfold s32
        split <;> omega
      have hlow := hall a (mem_reverse.mp ha)
      rw [hxr]
      exact ⟨by omega,h₁,fun b hb => h₂ b (mem_reverse.mpr hb)⟩
    · obtain ⟨a,ha,har⟩ := map_eq_some_iff.mp hr
      obtain ⟨l',rfl⟩ : ∃ l', l = a :: l' := head?_eq_some_iff.mp ha
      have hal := hall a (by simp)
      have hs := (pairwise_cons.mp h.spaced.sorted).1
      rw [u32_sub hal.1 (by omega)] at har
      split at har
      next hge =>
        rw [u32_sub (by omega) (by omega)] at har
        have hxr : r.toNat = a.vmaStart - n := by
          rw [← har]
          unfold s32
          split <;> omega
        rw [hxr]
        refine ⟨by omega,by omega,fun b hb => .inr ?_⟩
        rcases mem_cons.mp hb with rfl | hb
        · omega
        · have := hs b hb
          omega
      · omega
  | lohi =>
    simp only [vmmapFindRange] at hr
    split at hr
    next x hx =>
      obtain ⟨h₁,⟨a,ha,hax⟩,h₂⟩ := findLow_spec h.spaced
        (fun a ha => ⟨(hall a ha).1,by have := (hall a ha).2; omega⟩) hx
      have hal := hall a ha
      have hxr : r.toNat = x := by
        cases hr
        unfold s32
        split <;> omega
      rw [hxr]
      exact ⟨h₁,by omega,h₂⟩
    · obtain ⟨a,ha,har⟩ := map_eq_some_iff.mp hr
      obtain ⟨l',rfl⟩ : ∃ l', l = l' ++ [a] := getLast?_eq_some_iff.mp ha
      have hal := hall a (by simp)
      have hs := (pairwise_append.mp h.spaced.sorted).2.2
      rw [u32_sub hal.2.2 (by omega)] at har
      split at har
      next hge =>
        have hxr : r.toNat = a.vmaEnd := by
          rw [← har]
          unfold s32
          split <;> omega
        rw [hxr]
        refine ⟨by omega,by omega,fun b hb => .inl ?_⟩
        rcases mem_append.mp hb with hb | hb
        · have := hs b hb a (by simp)
          omega
        · exact Nat.le_of_eq (congrArg Vmarea.vmaEnd (mem_singleton.mp hb))
      · omega

/-! ### Cutting a range out of an area -/

/-- `b` is a part of `a`: fewer pages, each with the meaning it has in `a`. -/
structure Piece (b a : Vmarea) : Prop where
  start_le : a.vmaStart ≤ b.vmaStart
  le_end : b.vmaEnd ≤ a.vmaEnd
  target : ∀ v, b.target v = a.target v

/-- What is left of an area after the range from `lo` to `hi` has been removed; the
second part of an area that is split has the number `next`. -/
def pieces (lo hi next : ℕ) (a : Vmarea) : List Vmarea :=
  if a.vmaEnd > hi ∧ a.vmaStart < lo then
    [{ a with vmaEnd := lo },{ a with
      vmaId := next
      vmaStart := hi
      vmaOff := u32 (a.vmaOff+hi - a.vmaStart) }]
  else if a.vmaEnd ≤ hi ∧ a.vmaStart < lo ∧ a.vmaEnd > lo then [{ a with vmaEnd := lo }]
  else if a.vmaEnd > hi ∧ a.vmaStart ≥ lo ∧ a.vmaStart < hi then
    [{ a with vmaOff := u32 (a.vmaOff+(hi - a.vmaStart)), vmaStart := hi }]
  else if a.vmaEnd ≤ hi ∧ a.vmaStart ≥ lo then []
  else [a]

/-- Moving the start of an area together with its offset keeps the meaning of pages. -/
theorem target_advance (a : Vmarea) (hi k : ℕ) (v : ℕ) :
    ({ a with vmaId := k, vmaStart := hi, vmaOff := u32 (a.vmaOff+hi - a.vmaStart) } :
      Vmarea).target v = a.target v := by
  simp only [Vmarea.target,Vmarea.page,u32]
  congr 2
  omega

theorem pieces_piece (hlh : lo ≤ hi) (ha : a.vmaStart < a.vmaEnd) (hb : b ∈ pieces lo hi next a) : Piece b a := by
  have hadv := target_advance a hi
  simp only [pieces] at hb
  split at hb
  · rw [mem_cons,mem_singleton] at hb
    rcases hb with rfl | rfl
    · exact ⟨Nat.le_refl _,by simp only; omega,fun _ => rfl⟩
    · exact ⟨by simp only; omega,Nat.le_refl _,hadv next⟩
  split at hb
  · rw [mem_singleton] at hb
    subst hb
    exact ⟨Nat.le_refl _,by simp only; omega,fun _ => rfl⟩
  split at hb
  · rw [mem_singleton] at hb
    subst hb
    refine ⟨by simp only; omega,Nat.le_refl _,fun v => ?_⟩
    rw [← hadv a.vmaId v,Int.add_sub_assoc]
  split at hb
  · cases hb
  · rw [mem_singleton] at hb
    subst hb
    exact ⟨Nat.le_refl _,Nat.le_refl _,fun _ => rfl⟩

theorem pieces_spaced (hlh : lo ≤ hi) (ha : a.vmaStart < a.vmaEnd) :
    Spaced Vmarea.vmaStart Vmarea.vmaEnd (pieces lo hi next a) := by
  unfold pieces
  split
  · exact ⟨by simp; omega,by simpa using hlh⟩
  split
  · exact ⟨by simp; omega,by simp⟩
  split
  · exact ⟨by simp; omega,by simp⟩
  split
  · exact ⟨by simp,by simp⟩
  · exact ⟨by simpa using ha,by simp⟩

theorem pieces_ids (lo hi next : ℕ) (a : Vmarea) :
    ((pieces lo hi next a).map Vmarea.vmaId).Sublist [a.vmaId,next] := by
  unfold pieces
  split
  · simp
  split
  · simp
  split
  · simp
  split
  · simp
  · simp

/-- Exactly the pages of the range are gone. -/
theorem trans_pieces (hlh : lo ≤ hi) :
    trans (pieces lo hi next a) v = if lo ≤ v ∧ v < hi then none else trans [a] v := by
  have hadv := target_advance a hi next v
  have hadv' := target_advance a hi a.vmaId v
  rw [Int.add_sub_assoc] at hadv'
  unfold pieces
  split
  · simp only [trans_cons,trans_nil,hadv]
    split_ifs <;> first | rfl | omega
  split
  · simp only [trans_cons,trans_nil]
    split_ifs <;> first | rfl | omega
  split
  · simp only [trans_cons,trans_nil,hadv']
    split_ifs <;> first | rfl | omega
  split
  · simp only [trans_cons,trans_nil]
    split_ifs <;> first | rfl | omega
  · simp only [trans_cons,trans_nil]
    split_ifs <;> first | rfl | omega

end Csci402.Vm
