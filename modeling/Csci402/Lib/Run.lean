import Mathlib.Data.List.Basic

/-! Executions of a partial step function. A label carries everything the step
does not decide itself (which thread moves, what the environment answers), so a
step is a function and `none` means that the step cannot be taken. A second
predicate says which labels may be used in a state. Every safety result of the
development is one application of the invariant rule. -/

namespace Csci402.Lib

open List

variable {σ α : Type*}

/-- `Exec step ok s as t`: the labels `as` lead from `s` to `t`, each of them
allowed by `ok` in the state where it is taken. -/
inductive Exec (step : σ → α → Option σ) (ok : σ → α → Prop) : σ → List α → σ → Prop
  | nil (s : σ) : Exec step ok s [] s
  | snoc {s t u : σ} {as : List α} {a : α} :
      Exec step ok s as t → ok t a → step t a = some u → Exec step ok s (as ++ [a]) u

/-- The run of a list of labels, where they are allowed and can be taken. -/
def run (step : σ → α → Option σ) (ok : σ → α → Prop) [∀ s a, Decidable (ok s a)] : σ → List α → Option σ
  | s, [] => some s
  | s, a :: as => if ok s a then (step s a).bind fun t => run step ok t as else none

namespace Exec

variable {step : σ → α → Option σ} {ok ok' : σ → α → Prop} {s t u : σ} {as bs : List α} {a : α}

theorem one (ha : ok s a) (h : step s a = some t) : Exec step ok s [a] t :=
  snoc (nil s) ha h

theorem append (h : Exec step ok s as t) (h' : Exec step ok t bs u) : Exec step ok s (as ++ bs) u := by
  induction h' with
  | nil => simpa using h
  | snoc _ ha hs ih => rw [← append_assoc]; exact snoc ih ha hs

/-- A run that evaluates is an execution. -/
theorem ofRun [∀ s a, Decidable (ok s a)] (h : run step ok s as = some t) : Exec step ok s as t := by
  induction as generalizing s with
  | nil => cases h; exact nil _
  | cons a as ih =>
    simp only [run] at h
    split at h
    · obtain ⟨u,hu,h⟩ := Option.bind_eq_some_iff.mp h
      exact append (one ‹_› hu) (ih h)
    · cases h

theorem ofRun_getD [∀ s a, Decidable (ok s a)] (h : (run step ok s as).isSome) (d : σ) :
    Exec step ok s as ((run step ok s as).getD d) := by
  obtain ⟨t,ht⟩ := Option.isSome_iff_exists.mp h
  rw [ht]
  exact ofRun ht

/-- What holds at the start and is kept by every allowed step holds at the end. -/
theorem invariant {Inv : σ → Prop} (h : Exec step ok s as t) (h0 : Inv s)
    (hs : ∀ s a t, Inv s → ok s a → step s a = some t → Inv t) : Inv t := by
  induction h with
  | nil => exact h0
  | snoc _ ha hst ih => exact hs _ _ _ ih ha hst

theorem weaken (h : Exec step ok s as t) (hok : ∀ s a, a ∈ as → ok s a → ok' s a) : Exec step ok' s as t := by
  induction h with
  | nil => exact nil _
  | snoc _ ha hst ih =>
    exact snoc (ih fun s a hm => hok s a (mem_append_left _ hm)) (hok _ _ (by simp) ha) hst

end Exec

section Observe

variable {β : Type*} {step : σ → α → Option σ} {ok : σ → α → Prop} {out : σ → α → List β}
  {s t : σ} {as bs : List α}

/-- The outputs of the steps of a run, in order. -/
def observe (step : σ → α → Option σ) (out : σ → α → List β) : σ → List α → List β
  | _, [] => []
  | s, a :: as => out s a ++ match step s a with
    | some t => observe step out t as
    | none => []

theorem observe_append (h : Exec step ok s as t) :
    observe step out s (as ++ bs) = observe step out s as ++ observe step out t bs := by
  induction h generalizing bs with
  | nil => rfl
  | snoc _ _ hs ih =>
    rw [append_assoc,ih,ih,append_assoc]
    simp [observe,hs]

theorem observe_snoc (h : Exec step ok s as t) (a : α) :
    observe step out s (as ++ [a]) = observe step out s as ++ out t a := by
  rw [observe_append h]
  simp only [observe]
  split <;> simp

end Observe

end Csci402.Lib
