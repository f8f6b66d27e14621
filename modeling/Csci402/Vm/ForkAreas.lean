import Csci402.Vm.AreaList

/-! The lists of areas that `do_fork` leaves. Both processes get a new object for every
private area and keep the objects of the shared areas; the rounds of the loop number
the new objects in pairs. -/

namespace Csci402.Vm

open Lib List

/-- Whether `do_fork` leaves the object of the area as it is. -/
def Vmarea.isShared (a : Vmarea) : Bool := a.vmaFlags.shared && !a.vmaFlags.priv

/-- The areas of one side; the new objects are numbered from `n` on, first that of the
parent (`side` 0), then that of the child (`side` 1). -/
def forkedAreas (side : ℕ) : (n : ℕ) → List Vmarea → List Vmarea
  | _, [] => []
  | n, a :: l =>
    if a.isShared then a :: forkedAreas side n l
    else { a with vmaObj := some (n+side) } :: forkedAreas side (n+2) l

/-- The number of the next new object. -/
def forkNext (n : ℕ) (l : List Vmarea) : ℕ := n+2*l.countP fun a => !a.isShared

/-- The areas get the numbers from `k` on. -/
def renumber : (k : ℕ) → List Vmarea → List Vmarea
  | _, [] => []
  | k, a :: l => { a with vmaId := k } :: renumber (k+1) l

section Lists

variable {U : UserMem} {side n k : ℕ} {l l1 l2 : List Vmarea} {a p q : Vmarea}

theorem forkNext_append : forkNext n (l1 ++ l2) = forkNext (forkNext n l1) l2 := by
  simp only [forkNext,countP_append]
  omega

theorem forkedAreas_append :
    forkedAreas side n (l1 ++ l2) = forkedAreas side n l1 ++ forkedAreas side (forkNext n l1) l2 := by
  induction l1 generalizing n with
  | nil => rfl
  | cons a l1 ih =>
    cases ha : a.isShared with
    | true => simp [forkedAreas,forkNext,ha,ih]
    | false =>
      have : n+2+2*l1.countP (fun a => !a.isShared) =
          n+2*(l1.countP (fun a => !a.isShared)+1) := by omega
      simp [forkedAreas,forkNext,ha,ih,this]

theorem renumber_append : renumber k (l1 ++ l2) = renumber k l1 ++ renumber (k+l1.length) l2 := by
  induction l1 generalizing k with
  | nil => rfl
  | cons a l1 ih =>
    simp only [cons_append,renumber,ih,length_cons]
    rw [show k+1+l1.length = k+(l1.length+1) by omega]

theorem vmmapClone_eq : vmmapClone k l = (renumber k l).map fun a => { a with vmaObj := none } := by
  induction l generalizing k with
  | nil => rfl
  | cons a l ih => simp [vmmapClone,renumber,ih]

theorem length_forkedAreas : (forkedAreas side n l).length = l.length := by
  induction l generalizing n with
  | nil => rfl
  | cons a l ih =>
    unfold forkedAreas
    split <;> simp [ih]

theorem ids_renumber : (renumber k l).map Vmarea.vmaId = List.range' k l.length := by
  induction l generalizing k with
  | nil => rfl
  | cons a l ih => simp [renumber,ih,range'_succ]

theorem renumber_forkedAreas : renumber k (forkedAreas side n [a]) = [{ a with
    vmaId := k
    vmaObj := if a.isShared then a.vmaObj else some (n+side) }] := by
  cases h : a.isShared <;> simp [forkedAreas,renumber,h]

theorem mem_renumber (h : p ∈ renumber k l) : ∃ a ∈ l, ∃ i, k ≤ i ∧ i < k+l.length ∧ p = { a with vmaId := i } := by
  induction l generalizing k with
  | nil => cases h
  | cons a l ih =>
    rcases mem_cons.mp h with rfl | h
    · exact ⟨a,by simp,k,Nat.le_refl k,by simp,rfl⟩
    · obtain ⟨b,hb,i,h1,h2,rfl⟩ := ih h
      exact ⟨b,by simp [hb],i,by omega,by simp only [length_cons]; omega,rfl⟩

/-- An area keeps all but its object, and that too if it is shared. -/
theorem mem_forkedAreas (h : p ∈ forkedAreas side n l) : ∃ a ∈ l, p.vmaId = a.vmaId ∧
    p.vmaFlags = a.vmaFlags ∧ (a.isShared = true → p = a) ∧
    (a.isShared = false → ∃ j, p = { a with vmaObj := some (n+2*j+side) } ∧
      n+2*j+2 ≤ forkNext n l) := by
  induction l generalizing n with
  | nil => cases h
  | cons a l ih =>
    unfold forkedAreas at h
    split at h
    next ha =>
      rcases mem_cons.mp h with rfl | h
      · exact ⟨p,by simp,rfl,rfl,fun _ => rfl,fun hc => by simp [ha] at hc⟩
      · obtain ⟨b,hb,h1,h2,h3,h4⟩ := ih h
        refine ⟨b,by simp [hb],h1,h2,h3,fun hc => ?_⟩
        obtain ⟨j,hj,hlt⟩ := h4 hc
        exact ⟨j,hj,by simpa [forkNext,ha] using hlt⟩
    next ha =>
      rcases mem_cons.mp h with rfl | h
      · refine ⟨a,by simp,rfl,rfl,fun hc => absurd hc ha,fun _ => ⟨0,by simp,?_⟩⟩
        simp only [forkNext,countP_cons]
        rw [if_pos (by simpa using ha)]
        omega
      · obtain ⟨b,hb,h1,h2,h3,h4⟩ := ih h
        refine ⟨b,by simp [hb],h1,h2,h3,fun hc => ?_⟩
        obtain ⟨j,hj,hlt⟩ := h4 hc
        refine ⟨j+1,by rw [hj,show n+2+2*j = n+2*(j+1) by omega],?_⟩
        simp only [forkNext,countP_cons] at hlt ⊢
        rw [if_pos (by simpa using ha)]
        omega

theorem forkedAreas_obj (h : p ∈ forkedAreas side n l) (hs : p.isShared = false) :
    ∃ j, p.vmaObj = some (n+2*j+side) ∧ n+2*j+2 ≤ forkNext n l := by
  obtain ⟨a,-,-,hfl,-,h⟩ := mem_forkedAreas h
  obtain ⟨j,rfl,hj⟩ := h (by rw [← hs,Vmarea.isShared,Vmarea.isShared,hfl])
  exact ⟨j,rfl,hj⟩

/-- Every new object is the object of an area. -/
theorem forkedAreas_surj {x : ℕ} (h1 : n ≤ x) (h2 : x < forkNext n l) :
    ∃ side, side < 2 ∧ ∃ p ∈ forkedAreas side n l, p.isShared = false ∧ p.vmaObj = some x := by
  induction l generalizing n with
  | nil =>
    simp only [forkNext,countP_nil] at h2
    omega
  | cons a l ih =>
    cases ha : a.isShared with
    | true =>
      obtain ⟨side,hs,p,hp,hx⟩ := ih h1 (by simpa [forkNext,ha] using h2)
      exact ⟨side,hs,p,by simp [forkedAreas,ha,hp],hx⟩
    | false =>
      by_cases hx : x < n+2
      · refine ⟨x - n,by omega,{ a with vmaObj := some (n+(x - n)) },by simp [forkedAreas,ha],ha,?_⟩
        simp only [Option.some.injEq]
        omega
      · have hnext : forkNext n (a :: l) = forkNext (n+2) l := by
          simp only [forkNext,countP_cons,ha]
          simp only [Bool.not_false,if_true]
          omega
        obtain ⟨side,hs,p,hp,hx⟩ := ih (by omega) (hnext ▸ h2)
        exact ⟨side,hs,p,by simp [forkedAreas,ha,hp],hx⟩

/-- A new object is in one area only. -/
theorem forkedAreas_unique (hp : p ∈ forkedAreas side n l) (hq : q ∈ forkedAreas side n l)
    (hps : p.isShared = false) (hqs : q.isShared = false) (he : p.vmaObj = q.vmaObj) : p = q := by
  induction l generalizing n with
  | nil => cases hp
  | cons a l ih =>
    have hne : ∀ {b : Vmarea}, b ∈ forkedAreas side (n+2) l → b.isShared = false →
        b.vmaObj ≠ some (n+side) := by
      intro b hb hbs hbo
      obtain ⟨j,hj,-⟩ := forkedAreas_obj hb hbs
      simp only [hj,Option.some.injEq] at hbo
      omega
    unfold forkedAreas at hp hq
    split at hp
    next ha =>
      rw [if_pos ha] at hq
      rcases mem_cons.mp hp with rfl | hp
      · rw [ha] at hps
        cases hps
      rcases mem_cons.mp hq with rfl | hq
      · rw [ha] at hqs
        cases hqs
      exact ih hp hq
    next ha =>
      rw [if_neg ha] at hq
      rcases mem_cons.mp hp with rfl | hp <;> rcases mem_cons.mp hq with rfl | hq
      · rfl
      · exact absurd he.symm (hne hq hqs)
      · exact absurd he (hne hp hps)
      · exact ih hp hq

/-- The ranges of a list of areas. -/
def spans (l : List Vmarea) : List (ℕ × ℕ) := l.map fun a => (a.vmaStart, a.vmaEnd)

theorem spans_append : spans (l1 ++ l2) = spans l1 ++ spans l2 := map_append

theorem spans_forkedAreas : spans (forkedAreas side n l) = spans l := by
  induction l generalizing n with
  | nil => rfl
  | cons a l ih =>
    unfold forkedAreas
    split <;> exact congrArg (_ :: ·) ih

theorem spans_renumber : spans (renumber k l) = spans l := by
  induction l generalizing k with
  | nil => rfl
  | cons a l ih => exact congrArg (_ :: ·) ih

theorem AreasOk.of_spans (h : AreasOk U l) (he : spans l1 = spans l) : AreasOk U l1 := by
  have hmem : ∀ b ∈ l1, ∃ a ∈ l, a.vmaStart = b.vmaStart ∧ a.vmaEnd = b.vmaEnd := by
    intro b hb
    have : (b.vmaStart, b.vmaEnd) ∈ spans l := he ▸ List.mem_map_of_mem hb
    obtain ⟨a,ha,hab⟩ := List.mem_map.mp this
    exact ⟨a,ha,congrArg Prod.fst hab,congrArg Prod.snd hab⟩
  refine ⟨⟨fun b hb => ?_,?_⟩,fun b hb => ?_⟩
  · obtain ⟨a,ha,h1,h2⟩ := hmem b hb
    rw [← h1,← h2]
    exact h.spaced.nonempty a ha
  · have hs : (spans l).Pairwise fun x y => x.2 ≤ y.1 := pairwise_map.mpr h.spaced.sorted
    rw [← he] at hs
    exact pairwise_map.mp hs
  · obtain ⟨a,ha,h1,h2⟩ := hmem b hb
    rw [← h1,← h2]
    exact h.bounds a ha

theorem ids_forkedAreas : (forkedAreas side n l).map Vmarea.vmaId = l.map Vmarea.vmaId := by
  induction l generalizing n with
  | nil => rfl
  | cons a l ih =>
    unfold forkedAreas
    split <;> exact congrArg (_ :: ·) ih

end Lists

end Csci402.Vm
