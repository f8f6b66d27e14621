import Mathlib.Data.List.Nodup

/-! Lists whose elements are named by keys, and iteration over an intrusive list by a
loop that reads the link to the next element before it runs its body, so that the
body may take the current element off the list. The list lies in the state and is
named by the keys of its elements. The rule follows the part of the list that is
still ahead: the body may change everything up to the current element as long as
that part stays as it is. -/

namespace Csci402.Lib

open List

variable {σ κ : Type*}

section Keyed

variable {α : Type*} {key : α → κ} {done rest : List α} {a : α}

/-- The element with a key comes apart from the others. -/
theorem key_ne_of_nodup (h : ((done ++ a :: rest).map key).Nodup) :
    (∀ x ∈ done, key x ≠ key a) ∧ ∀ x ∈ rest, key x ≠ key a := by
  rw [map_append,map_cons,nodup_middle,nodup_cons,mem_append,
    List.mem_map,List.mem_map,not_or] at h
  exact ⟨fun x hx he => h.1.1 ⟨x,hx,he⟩,fun x hx he => h.1.2 ⟨x,hx,he⟩⟩

variable [DecidableEq κ]

theorem find?_key (h : ((done ++ a :: rest).map key).Nodup) :
    (done ++ a :: rest).find? (fun x => key x = key a) = some a := by
  have hd : done.find? (fun x => key x = key a) = none := by
    simpa using (key_ne_of_nodup h).1
  simp [find?_append,hd]

theorem map_key (h : ((done ++ a :: rest).map key).Nodup) (f : α → α) :
    (done ++ a :: rest).map (fun x => if key x = key a then f x else x) = done ++ f a :: rest := by
  obtain ⟨hd,hr⟩ := key_ne_of_nodup h
  have hmap : ∀ l : List α, (∀ x ∈ l, key x ≠ key a) →
      l.map (fun x => if key x = key a then f x else x) = l := fun l hl =>
    (map_congr_left fun x hx => if_neg (hl x hx)).trans (List.map_id l)
  rw [map_append,map_cons,hmap done hd,hmap rest hr,if_pos rfl]

theorem flatMap_key (h : ((done ++ a :: rest).map key).Nodup) (f : α → List α) :
    (done ++ a :: rest).flatMap (fun x => if key x = key a then f x else [x]) = done ++ f a ++ rest := by
  obtain ⟨hd,hr⟩ := key_ne_of_nodup h
  have hmap : ∀ l : List α, (∀ x ∈ l, key x ≠ key a) →
      l.flatMap (fun x => if key x = key a then f x else [x]) = l := by
    intro l hl
    induction l with
    | nil => rfl
    | cons y l ih =>
      rw [flatMap_cons,if_neg (hl y mem_cons_self),
        ih fun x hx => hl x (mem_cons_of_mem y hx),singleton_append]
  rw [flatMap_append,flatMap_cons,hmap done hd,hmap rest hr,if_pos rfl,append_assoc]

theorem filter_key (h : ((done ++ a :: rest).map key).Nodup) :
    (done ++ a :: rest).filter (fun x => key x ≠ key a) = done ++ rest := by
  obtain ⟨hd,hr⟩ := key_ne_of_nodup h
  rw [filter_append,filter_cons_of_neg (by simp),
    filter_eq_self.mpr (by simpa using hd),filter_eq_self.mpr (by simpa using hr)]

end Keyed

variable [DecidableEq κ]

/-- The element after `k`. -/
def nextOf (k : κ) : List κ → Option κ
  | [] => none
  | x :: l => if x = k then l.head? else nextOf k l

theorem nextOf_append {k : κ} {done : List κ} (h : k ∉ done) (rest : List κ) :
    nextOf k (done ++ k :: rest) = rest.head? := by
  induction done with
  | nil => simp [nextOf]
  | cons x done ih =>
    rw [mem_cons,not_or] at h
    simp [nextOf,Ne.symm h.1,ih h.2]

/-- At most `fuel` rounds of the loop, from the element `cur` on. -/
def iterateFrom (keys : σ → List κ) (body : κ → σ → Option σ) : (fuel : ℕ) → (cur : Option κ) → σ → Option σ
  | _, none, s => some s
  | 0, some _, _ => none
  | n+1, some k, s => (body k s).bind (iterateFrom keys body n (nextOf k (keys s)))

/-- The loop over the whole list. An element that the body puts between the current
one and the next is not visited, so there are as many rounds as elements. -/
def listIterate (keys : σ → List κ) (body : κ → σ → Option σ) (s : σ) : Option σ :=
  iterateFrom keys body (keys s).length (keys s).head? s

variable {keys : σ → List κ} {body : κ → σ → Option σ}

/-- The loop keeps `I`, which also speaks of the elements ahead, if every round does. -/
theorem listIterate_rule (I : List κ → σ → Prop)
    (hnext : ∀ k rest s, I (k :: rest) s → ∃ done, keys s = done ++ k :: rest ∧ k ∉ done)
    (hbody : ∀ k rest s, I (k :: rest) s → ∃ s', body k s = some s' ∧ I rest s')
    {s : σ} (h : I (keys s) s) : ∃ s', listIterate keys body s = some s' ∧ I [] s' := by
  suffices ∀ rest s, I rest s → ∃ s', iterateFrom keys body rest.length rest.head? s = some s' ∧
      I [] s' from this _ _ h
  intro rest
  induction rest with
  | nil => exact fun s hI => ⟨s,rfl,hI⟩
  | cons k rest ih =>
    intro s hI
    obtain ⟨done,hk,hd⟩ := hnext k rest s hI
    obtain ⟨s1,hs1,hI1⟩ := hbody k rest s hI
    obtain ⟨s',hs',hI'⟩ := ih s1 hI1
    refine ⟨s',?_,hI'⟩
    simpa [iterateFrom,hk,nextOf_append hd,hs1] using hs'

/-- What a loop that has returned has done: the same, for a body that may fail. -/
theorem listIterate_inv (I : List κ → σ → Prop)
    (hnext : ∀ k rest s, I (k :: rest) s → ∃ done, keys s = done ++ k :: rest ∧ k ∉ done)
    (hbody : ∀ k rest s s', I (k :: rest) s → body k s = some s' → I rest s')
    {s s' : σ} (h : I (keys s) s) (hs : listIterate keys body s = some s') : I [] s' := by
  suffices ∀ rest s, I rest s → iterateFrom keys body rest.length rest.head? s = some s' →
      I [] s' from this _ _ h hs
  intro rest
  induction rest with
  | nil =>
    intro s hI hs
    cases hs
    exact hI
  | cons k rest ih =>
    intro s hI hs
    obtain ⟨done,hk,hd⟩ := hnext k rest s hI
    simp only [length_cons,head?_cons,iterateFrom,hk,nextOf_append hd] at hs
    obtain ⟨s1,hs1,hs⟩ := Option.bind_eq_some_iff.mp hs
    exact ih s1 (hbody k rest s s1 hI hs1) hs

/-- A relation that every round satisfies, over the whole loop. -/
theorem listIterate_rel {R : σ → σ → Prop} (hrefl : ∀ s, R s s) (htrans : ∀ s t u, R s t → R t u → R s u)
    (hbody : ∀ k s s', body k s = some s' → R s s') {s s' : σ} (h : listIterate keys body s = some s') : R s s' := by
  suffices ∀ n cur s, iterateFrom keys body n cur s = some s' → R s s' from this _ _ _ h
  intro n
  induction n with
  | zero =>
    rintro (_ | k) s h
    · cases h
      exact hrefl _
    · cases h
  | succ n ih =>
    rintro (_ | k) s h
    · cases h
      exact hrefl _
    · obtain ⟨s1,hs1,h⟩ := Option.bind_eq_some_iff.mp h
      exact htrans _ _ _ (hbody k s s1 hs1) (ih _ _ h)

end Csci402.Lib
