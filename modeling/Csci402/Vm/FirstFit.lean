import Csci402.Vm.AreaList
import Mathlib.Order.Bounds.Basic

/-! `vmmap_find_range` is first fit. Each round of its loops looks at one gap, and a gap that
is too small leaves the ranges that fit what they are with the area behind it left out; so
the first gap that is large enough has the outermost range that fits. -/

namespace Csci402.Vm

open Lib Option List

variable {U : UserMem} {l : List Vmarea} {a : Vmarea} {n r lo hi pre : ℕ}

/-- The pages from `r` on that a mapping of `n` pages needs are in user memory and in no area. -/
def Fits (U : UserMem) (l : List Vmarea) (n r : ℕ) : Prop :=
  ∀ v, r ≤ v → v < r+n → (U.low ≤ v ∧ v < U.high) ∧ ∀ a ∈ l, ¬ (a.vmaStart ≤ v ∧ v < a.vmaEnd)

/-- The places for `n` pages between two bounds that no area of the list overlaps. -/
def gaps (lo hi n : ℕ) (l : List Vmarea) : Set ℕ :=
  {r | lo ≤ r ∧ r+n ≤ hi ∧ Free Vmarea.vmaStart Vmarea.vmaEnd r (r+n) l}

theorem mem_gaps : r ∈ gaps lo hi n l ↔ lo ≤ r ∧ r+n ≤ hi ∧ Free Vmarea.vmaStart Vmarea.vmaEnd r (r+n) l := Iff.rfl

theorem mem_gaps_nil : r ∈ gaps lo hi n [] ↔ lo ≤ r ∧ r+n ≤ hi := by
  simp [gaps,Free]

theorem gaps_reverse (lo hi n : ℕ) (l : List Vmarea) : gaps lo hi n l.reverse = gaps lo hi n l := by
  simp [gaps,Free]

theorem fits_iff_gaps (h : AreasOk U l) (hn : 0 < n) : Fits U l n r ↔ r ∈ gaps U.low U.high n l := by
  refine ⟨fun hf => ?_,fun ⟨hlo,hhi,hfree⟩ v hv hvn => ?_⟩
  · have hfirst := hf r (Nat.le_refl r) (by omega)
    have hlast := hf (r+n - 1) (by omega) (by omega)
    refine ⟨hfirst.1.1,by omega,fun a ha => ?_⟩
    by_contra hover
    -- the first page that both ranges have
    have hne := h.spaced.nonempty a ha
    have hboth := (hf (max r a.vmaStart) (by omega) (by omega)).2 a ha
    omega
  · refine ⟨⟨by omega,by omega⟩,fun a ha => ?_⟩
    have := hfree a ha
    omega

/-! ### From the top -/

/-- The gap above the first area is too small, so what fits lies below that area. -/
theorem gaps_below (ha : lo ≤ a.vmaStart ∧ a.vmaStart < a.vmaEnd ∧ a.vmaEnd ≤ hi) (hsmall : ¬ n ≤ hi - a.vmaEnd) :
    gaps lo hi n (a :: l) = gaps lo a.vmaStart n l := by
  ext r
  simp only [mem_gaps,Free,forall_mem_cons]
  constructor
  · rintro ⟨h1,h2,h3,h4⟩
    exact ⟨h1,by omega,h4⟩
  · rintro ⟨h1,h2,h3⟩
    exact ⟨h1,by omega,by omega,h3⟩

/-- The areas of a list from the highest to the lowest, between two bounds. -/
structure Descending (lo hi : ℕ) (l : List Vmarea) : Prop where
  sorted : l.Pairwise fun a b => b.vmaEnd ≤ a.vmaStart
  bounds : ∀ a ∈ l, lo ≤ a.vmaStart ∧ a.vmaStart < a.vmaEnd ∧ a.vmaEnd ≤ hi

theorem Descending.tail (h : Descending lo hi (a :: l)) : Descending lo a.vmaStart l := by
  obtain ⟨hal,hs⟩ := pairwise_cons.mp h.sorted
  refine ⟨hs,fun b hb => ?_⟩
  have hb' := h.bounds b (mem_cons_of_mem a hb)
  exact ⟨hb'.1,hb'.2.1,hal b hb⟩

theorem findHigh_isGreatest (h : Descending lo hi l) (hhi : hi < 2 ^ 32) (hr : findHigh n hi l = some r) :
    IsGreatest (gaps lo hi n l) r := by
  induction l generalizing hi with
  | nil => cases hr
  | cons a l ih =>
    have ha := h.bounds a mem_cons_self
    simp only [findHigh,u32_sub ha.2.2 hhi] at hr
    split at hr
    next hge =>
      rw [u32_sub (by omega) hhi] at hr
      cases hr
      refine ⟨⟨by omega,by omega,fun b hb => .inl ?_⟩,fun x hx => ?_⟩
      · rcases mem_cons.mp hb with rfl | hb
        · omega
        · have := (h.tail.bounds b hb).2.2
          omega
      · have := hx.2.1
        omega
    · rw [gaps_below ha ‹_›]
      exact ih h.tail (by omega) hr

/-- Where the lowest area of a list starts. -/
def lowestStart (hi : ℕ) (l : List Vmarea) : ℕ := (l.getLast?.map Vmarea.vmaStart).getD hi

theorem lowestStart_cons (hi : ℕ) (a : Vmarea) (l : List Vmarea) :
    lowestStart hi (a :: l) = lowestStart a.vmaStart l := by
  cases l <;> simp [lowestStart,getLast?_cons]

theorem findHigh_none (h : Descending lo hi l) (hhi : hi < 2 ^ 32) (hr : findHigh n hi l = none) :
    gaps lo hi n l = gaps lo (lowestStart hi l) n [] := by
  induction l generalizing hi with
  | nil => rfl
  | cons a l ih =>
    have ha := h.bounds a mem_cons_self
    simp only [findHigh,u32_sub ha.2.2 hhi] at hr
    split at hr
    · cases hr
    · rw [gaps_below ha ‹_›,lowestStart_cons]
      exact ih h.tail (by omega) hr

/-! ### From the bottom -/

theorem gaps_above (ha : lo ≤ a.vmaStart ∧ a.vmaStart < a.vmaEnd ∧ a.vmaEnd ≤ hi) (hsmall : ¬ n ≤ a.vmaStart - lo) :
    gaps lo hi n (a :: l) = gaps a.vmaEnd hi n l := by
  ext r
  simp only [mem_gaps,Free,forall_mem_cons]
  constructor
  · rintro ⟨h1,h2,h3,h4⟩
    exact ⟨by omega,h2,h4⟩
  · rintro ⟨h1,h2,h3⟩
    exact ⟨by omega,h2,by omega,h3⟩

structure Ascending (lo hi : ℕ) (l : List Vmarea) : Prop where
  sorted : l.Pairwise fun a b => a.vmaEnd ≤ b.vmaStart
  bounds : ∀ a ∈ l, lo ≤ a.vmaStart ∧ a.vmaStart < a.vmaEnd ∧ a.vmaEnd ≤ hi

theorem Ascending.tail (h : Ascending lo hi (a :: l)) : Ascending a.vmaEnd hi l := by
  obtain ⟨hal,hs⟩ := pairwise_cons.mp h.sorted
  refine ⟨hs,fun b hb => ?_⟩
  have hb' := h.bounds b (mem_cons_of_mem a hb)
  exact ⟨hal b hb,hb'.2.1,hb'.2.2⟩

theorem findLow_isLeast (h : Ascending lo hi l) (hlo : 0 < lo) (hhi : hi < 2 ^ 32) (hr : findLow n lo l = some r) :
    IsLeast (gaps lo hi n l) r := by
  induction l generalizing lo with
  | nil => cases hr
  | cons a l ih =>
    have ha := h.bounds a mem_cons_self
    simp only [findLow,u32_sub ha.1 (by omega : a.vmaStart < 2 ^ 32)] at hr
    split at hr
    next hge =>
      cases hr
      refine ⟨⟨Nat.le_refl _,by omega,fun b hb => .inr ?_⟩,fun x hx => hx.1⟩
      rcases mem_cons.mp hb with rfl | hb
      · omega
      · have := (h.tail.bounds b hb).1
        omega
    · rw [gaps_above ha (by omega)]
      exact ih h.tail (by omega) hr

/-- Where the highest area of a list ends. -/
def highestEnd (lo : ℕ) (l : List Vmarea) : ℕ := (l.getLast?.map Vmarea.vmaEnd).getD lo

theorem highestEnd_cons (lo : ℕ) (a : Vmarea) (l : List Vmarea) : highestEnd lo (a :: l) = highestEnd a.vmaEnd l := by
  cases l <;> simp [highestEnd,getLast?_cons]

theorem findLow_none (h : Ascending lo hi l) (hlo : 0 < lo) (hhi : hi < 2 ^ 32) (hr : findLow n lo l = none) :
    gaps lo hi n l = gaps (highestEnd lo l) hi n [] := by
  induction l generalizing lo with
  | nil => rfl
  | cons a l ih =>
    have ha := h.bounds a mem_cons_self
    simp only [findLow,u32_sub ha.1 (by omega : a.vmaStart < 2 ^ 32)] at hr
    split at hr
    · cases hr
    · rw [gaps_above ha (by omega),highestEnd_cons]
      exact ih h.tail (by omega) hr

/-! ### The subtractions -/

/-- The subtractions of the loop of `VMMAP_DIR_HILO`, as pairs. -/
def highSubs (npages : ℕ) : (preStart : ℕ) → List Vmarea → List (ℕ × ℕ)
  | _, [] => []
  | preStart, vma :: l => (preStart, vma.vmaEnd) ::
    if u32 (preStart - vma.vmaEnd) ≥ npages then [(preStart, npages)] else highSubs npages vma.vmaStart l

def lowSubs (npages : ℕ) : (preEnd : ℕ) → List Vmarea → List (ℕ × ℕ)
  | _, [] => []
  | preEnd, vma :: l => (vma.vmaStart, preEnd) ::
    if preEnd > 0 ∧ u32 (vma.vmaStart - preEnd) ≥ npages then [] else lowSubs npages vma.vmaEnd l

/-- The subtractions that `vmmap_find_range` computes, with those after its loops. -/
def findRangeSubs (U : UserMem) (l : List Vmarea) (npages : ℕ) : Dir → List (ℕ × ℕ)
  | .hilo => highSubs npages U.high l.reverse ++
      match findHigh npages U.high l.reverse, l.head? with
      | none, some vma => (vma.vmaStart, U.low) ::
          if u32 (vma.vmaStart - U.low) ≥ npages then [(vma.vmaStart, npages)] else []
      | _, _ => []
  | .lohi => lowSubs npages U.low l ++
      match findLow npages U.low l, l.getLast? with
      | none, some vma => [(U.high, vma.vmaEnd)]
      | _, _ => []

theorem highSubs_le (h : Descending lo hi l) (hhi : hi < 2 ^ 32) : ∀ p ∈ highSubs n hi l, p.2 ≤ p.1 := by
  induction l generalizing hi with
  | nil => exact nofun
  | cons a l ih =>
    have ha := h.bounds a mem_cons_self
    simp only [highSubs,u32_sub ha.2.2 hhi,forall_mem_cons]
    refine ⟨ha.2.2,?_⟩
    split
    · simp only [mem_singleton,forall_eq]
      omega
    · exact ih h.tail (by omega)

theorem lowSubs_le (h : Ascending lo hi l) : ∀ p ∈ lowSubs n lo l, p.2 ≤ p.1 := by
  induction l generalizing lo with
  | nil => exact nofun
  | cons a l ih =>
    simp only [lowSubs,forall_mem_cons]
    refine ⟨(h.bounds a mem_cons_self).1,?_⟩
    split
    · exact nofun
    · exact ih h.tail

/-! ### First fit -/

theorem AreasOk.ascending (h : AreasOk U l) : Ascending U.low U.high l :=
  ⟨h.spaced.sorted,fun a ha => ⟨(h.bounds a ha).1,h.spaced.nonempty a ha,(h.bounds a ha).2⟩⟩

theorem AreasOk.descending (h : AreasOk U l) : Descending U.low U.high l.reverse :=
  ⟨pairwise_reverse.mpr h.spaced.sorted,fun a ha => h.ascending.bounds a (mem_reverse.mp ha)⟩

theorem s32_page {v : ℕ} (hv : v ≤ U.high) : s32 v = v := by
  have := U.high_lt
  unfold s32
  split <;> omega

theorem findRange_hilo (h : AreasOk U l) (hl : l ≠ []) :
    (∃ r : ℕ, vmmapFindRange U l n .hilo = some (r : ℤ) ∧ IsGreatest (gaps U.low U.high n l) r) ∨
      vmmapFindRange U l n .hilo = some (-1) ∧ gaps U.low U.high n l = ∅ := by
  have hU := U.high_lt
  rw [vmmapFindRange,← gaps_reverse]
  cases hr : findHigh n U.high l.reverse with
  | some r =>
    have hbest := findHigh_isGreatest h.descending (by omega) hr
    have hhi := hbest.1.2.1
    exact .inl ⟨r,by simp only [s32_page (by omega : r ≤ U.high)],hbest⟩
  | none =>
    rw [findHigh_none h.descending (by omega) hr]
    obtain ⟨a,m,rfl⟩ := exists_cons_of_ne_nil hl
    have ha := h.ascending.bounds a mem_cons_self
    have hstart : lowestStart U.high (a :: m).reverse = a.vmaStart := by simp [lowestStart]
    simp only [head?_cons,map_some,hstart,u32_sub ha.1 (by omega : a.vmaStart < 2 ^ 32)]
    by_cases hfit : n ≤ a.vmaStart - U.low
    · refine .inl ⟨a.vmaStart - n,?_,mem_gaps_nil.mpr ⟨by omega,by omega⟩,fun x hx => ?_⟩
      · rw [if_pos hfit,u32_sub (by omega) (by omega),s32_page (U := U) (by omega)]
      · have := (mem_gaps_nil.mp hx).2
        omega
    · refine .inr ⟨by rw [if_neg hfit],Set.eq_empty_of_forall_notMem fun x hx => ?_⟩
      have := mem_gaps_nil.mp hx
      omega

theorem findRange_lohi (h : AreasOk U l) (hl : l ≠ []) :
    (∃ r : ℕ, vmmapFindRange U l n .lohi = some (r : ℤ) ∧ IsLeast (gaps U.low U.high n l) r) ∨
      vmmapFindRange U l n .lohi = some (-1) ∧ gaps U.low U.high n l = ∅ := by
  have hU := U.high_lt
  rw [vmmapFindRange]
  cases hr : findLow n U.low l with
  | some r =>
    have hbest := findLow_isLeast h.ascending U.low_pos (by omega) hr
    have hhi := hbest.1.2.1
    exact .inl ⟨r,by simp only [s32_page (by omega : r ≤ U.high)],hbest⟩
  | none =>
    rw [findLow_none h.ascending U.low_pos (by omega) hr]
    obtain ⟨a,ha⟩ := ne_none_iff_exists'.mp (mt getLast?_eq_none_iff.mp hl)
    have hb := h.ascending.bounds a (mem_of_getLast? ha)
    simp only [highestEnd,ha,map_some,getD_some,u32_sub hb.2.2 (by omega : U.high < 2 ^ 32)]
    by_cases hfit : n ≤ U.high - a.vmaEnd
    · refine .inl ⟨a.vmaEnd,?_,mem_gaps_nil.mpr ⟨Nat.le_refl _,by omega⟩,fun x hx => (mem_gaps_nil.mp hx).1⟩
      rw [if_pos hfit,s32_page hb.2.2]
    · refine .inr ⟨by rw [if_neg hfit],Set.eq_empty_of_forall_notMem fun x hx => ?_⟩
      have := mem_gaps_nil.mp hx
      omega

theorem findRangeSubs_le (h : AreasOk U l) (dir : Dir) : ∀ p ∈ findRangeSubs U l n dir, p.2 ≤ p.1 := by
  have hU := U.high_lt
  cases dir with
  | hilo =>
    rw [findRangeSubs]
    refine forall_mem_append.mpr ⟨highSubs_le h.descending (by omega),?_⟩
    split
    next a _ ha =>
      have hb := h.ascending.bounds a (mem_of_head? ha)
      simp only [u32_sub hb.1 (by omega : a.vmaStart < 2 ^ 32),forall_mem_cons]
      refine ⟨hb.1,?_⟩
      split
      · simp only [mem_singleton,forall_eq]
        omega
      · exact nofun
    · exact nofun
  | lohi =>
    rw [findRangeSubs]
    refine forall_mem_append.mpr ⟨lowSubs_le h.ascending,?_⟩
    split
    next a _ ha =>
      simpa using (h.ascending.bounds a (mem_of_getLast? ha)).2.2
    · exact nofun

/-- For an address space with an area, `vmmap_find_range` returns the highest or the lowest
place where the pages fit, and -1 if there is none; none of its subtractions wraps around. -/
theorem find_range_first_fit (h : AreasOk U l) (hl : l ≠ []) (hn : 0 < n) (dir : Dir) :
    (∃ r, vmmapFindRange U l n dir = some r ∧
      ((∃ x, Fits U l n x) → 0 ≤ r ∧ match dir with
        | .hilo => IsGreatest {x | Fits U l n x} r.toNat
        | .lohi => IsLeast {x | Fits U l n x} r.toNat) ∧
      ((¬ ∃ x, Fits U l n x) → r = -1)) ∧
    ∀ p ∈ findRangeSubs U l n dir, p.2 ≤ p.1 := by
  have hset : {x | Fits U l n x} = gaps U.low U.high n l := Set.ext fun x => fits_iff_gaps h hn
  have hex : (∃ x, Fits U l n x) ↔ (gaps U.low U.high n l).Nonempty := exists_congr fun x => fits_iff_gaps h hn
  refine ⟨?_,findRangeSubs_le h dir⟩
  rw [hset,hex]
  cases dir with
  | hilo =>
    rcases findRange_hilo h hl with ⟨r,hr,hbest⟩ | ⟨hr,hnone⟩
    · exact ⟨r,hr,fun _ => ⟨Int.natCast_nonneg r,hbest⟩,fun hno => absurd ⟨r,hbest.1⟩ hno⟩
    · exact ⟨-1,hr,fun hne => absurd hnone hne.ne_empty,fun _ => rfl⟩
  | lohi =>
    rcases findRange_lohi h hl with ⟨r,hr,hbest⟩ | ⟨hr,hnone⟩
    · exact ⟨r,hr,fun _ => ⟨Int.natCast_nonneg r,hbest⟩,fun hno => absurd ⟨r,hbest.1⟩ hno⟩
    · exact ⟨-1,hr,fun hne => absurd hnone hne.ne_empty,fun _ => rfl⟩

def sampleUser : UserMem := ⟨0x400,0xc0000,by decide,by decide,by decide⟩

def sampleArea (start stop : ℕ) : Vmarea := ⟨start,start,stop,0,⟨true,true,false⟩,⟨false,true,false,true⟩,some 1⟩

/-- The lowest pages are taken, there are two gaps, and the highest pages are too few. -/
def sampleAreas : List Vmarea := [sampleArea 0x400 0x500,sampleArea 0x600 0x610,sampleArea 0x620 0xbfff8]

theorem sampleAreas_ok : AreasOk sampleUser sampleAreas := by
  refine ⟨⟨?_,?_⟩,?_⟩ <;> decide

theorem find_range_first_fit_sampleAreas :
    (vmmapFindRange sampleUser sampleAreas 16 .hilo = some 0x610 ∧ IsGreatest {x | Fits sampleUser sampleAreas 16 x} 0x610) ∧
    (vmmapFindRange sampleUser sampleAreas 16 .lohi = some 0x500 ∧ IsLeast {x | Fits sampleUser sampleAreas 16 x} 0x500) ∧
    vmmapFindRange sampleUser sampleAreas 0x101 .hilo = some (-1) := by
  have hfits : Fits sampleUser sampleAreas 16 0x610 := by
    intro v h1 h2
    simp only [sampleUser,sampleAreas,sampleArea,forall_mem_cons,not_mem_nil,false_imp_iff,implies_true,and_true]
    omega
  obtain ⟨⟨r,hr,hhigh,-⟩,-⟩ := find_range_first_fit sampleAreas_ok (by decide) (by decide : 0 < 16) .hilo
  obtain ⟨⟨q,hq,hlow,-⟩,-⟩ := find_range_first_fit sampleAreas_ok (by decide) (by decide : 0 < 16) .lohi
  cases hr.symm.trans (by decide : vmmapFindRange sampleUser sampleAreas 16 .hilo = some 0x610)
  cases hq.symm.trans (by decide : vmmapFindRange sampleUser sampleAreas 16 .lohi = some 0x500)
  exact ⟨⟨hr,(hhigh ⟨_,hfits⟩).2⟩,⟨hq,(hlow ⟨_,hfits⟩).2⟩,by decide⟩

end Csci402.Vm
