import Mathlib.Logic.Basic

/-! Programs with a state that can stop half way: at a failed assertion or at the use of a
null pointer the program ends, and the state it has got to stays. `Runs Q E m s` says that
from `s` the program either returns, with `Q`, or stops, with `E`; with `False` for `E` it
is total correctness. -/

namespace Csci402.Lib

variable {σ α β : Type}

/-- A result, or none when the program stops, and the state at the end. -/
def Prog (σ α : Type) : Type := σ → Option α × σ

namespace Prog

protected def pure (a : α) : Prog σ α := fun s => (some a, s)

protected def bind (m : Prog σ α) (f : α → Prog σ β) : Prog σ β := fun s =>
  match m s with
  | (some a, t) => f a t
  | (none, t) => (none, t)

instance : Monad (Prog σ) where
  pure := Prog.pure
  bind := Prog.bind

def get : Prog σ σ := fun s => (some s, s)

def modify (f : σ → σ) : Prog σ Unit := fun s => (some (), f s)

/-- A failed assertion. -/
def stop : Prog σ α := fun s => (none, s)

def assert (p : Prop) [Decidable p] : Prog σ Unit := if p then Prog.pure () else stop

/-- A pointer that is used. -/
def need (x : Option α) : Prog σ α := match x with
  | some a => Prog.pure a
  | none => stop

end Prog

open Prog

/-- From `s`, the program returns with `Q` or stops with `E`. -/
def Runs (Q : α → σ → Prop) (E : σ → Prop) (m : Prog σ α) (s : σ) : Prop :=
  match m s with
  | (some a, t) => Q a t
  | (none, t) => E t

section Rules

variable {Q Q' : α → σ → Prop} {R : β → σ → Prop} {E E' : σ → Prop} {m : Prog σ α} {f : α → Prog σ β} {s : σ}
  {p : Prop} [Decidable p]

@[simp] theorem runs_pure {a : α} : Runs Q E (Pure.pure a) s ↔ Q a s := Iff.rfl

@[simp] theorem runs_bind : Runs R E (m >>= f) s ↔ Runs (fun a => Runs R E (f a)) E m s := by
  change Runs R E (Prog.bind m f) s ↔ _
  unfold Runs Prog.bind
  rcases m s with ⟨_ | a,t⟩ <;> rfl

/-- A program whose first part is known to return. -/
theorem bind_of_returns {a : α} {t : σ} (h : m s = (some a, t)) : (m >>= f) s = f a t := by
  change Prog.bind m f s = f a t
  unfold Prog.bind
  rw [h]

@[simp] theorem runs_get {Q : σ → σ → Prop} : Runs Q E get s ↔ Q s s := Iff.rfl

@[simp] theorem runs_modify {Q : Unit → σ → Prop} {g : σ → σ} : Runs Q E (modify g) s ↔ Q () (g s) := Iff.rfl

@[simp] theorem runs_stop : Runs Q E stop s ↔ E s := Iff.rfl

@[simp] theorem runs_assert {Q : Unit → σ → Prop} : Runs Q E (assert p) s ↔ if p then Q () s else E s := by
  unfold assert
  split <;> rfl

theorem runs_need {x : Option α} : Runs Q E (need x) s ↔ x.elim (E s) fun a => Q a s := by
  cases x <;> rfl

@[simp] theorem runs_need_some {a : α} : Runs Q E (need (some a)) s ↔ Q a s := Iff.rfl

@[simp] theorem runs_need_none : Runs Q E (need none) s ↔ E s := Iff.rfl

theorem Runs.mono (h : Runs Q E m s) (hq : ∀ a t, Q a t → Q' a t) (he : ∀ t, E t → E' t) : Runs Q' E' m s := by
  unfold Runs at h ⊢
  rcases hm : m s with ⟨_ | a,t⟩
  · rw [hm] at h
    exact he t h
  · rw [hm] at h
    exact hq a t h

/-- The rule for a call: what the callee ensures is what the rest starts from. -/
theorem Runs.seq (h : Runs Q E m s) (hf : ∀ a t, Q a t → Runs R E (f a) t) : Runs R E (m >>= f) s :=
  runs_bind.mpr (h.mono hf fun _ he => he)

/-- A program that does not stop returns. -/
theorem Runs.returns (h : Runs Q (fun _ => False) m s) : ∃ a t, m s = (some a, t) ∧ Q a t := by
  unfold Runs at h
  rcases hm : m s with ⟨_ | a,t⟩
  · rw [hm] at h
    exact h.elim
  · rw [hm] at h
    exact ⟨a,t,rfl,h⟩

theorem runs_eq {a : α} {t : σ} (h : Runs (fun a' t' => a' = a ∧ t' = t) (fun _ => False) m s) : m s = (some a, t) := by
  obtain ⟨a',t',hm,rfl,rfl⟩ := h.returns
  exact hm

/-- Partial correctness: where a pointer is used, it is there. -/
theorem runs_of_need {x : Option α} (h : ∀ a, x = some a → Q a s) : Runs Q (fun _ => True) (need x) s := by
  cases x with
  | none => trivial
  | some a => exact h a rfl

theorem runs_of_assert {Q : Unit → σ → Prop} (h : p → Q () s) : Runs Q (fun _ => True) (assert p) s := by
  rw [runs_assert]
  split
  · exact h ‹_›
  · trivial

/-- Partial correctness: where it does not matter what the first part does. -/
theorem runs_after (h : ∀ a t, Runs R (fun _ => True) (f a) t) : Runs R (fun _ => True) (m >>= f) s := by
  rw [runs_bind]
  unfold Runs
  rcases m s with ⟨_ | a,t⟩
  · trivial
  · exact h a t

/-- What holds at the end, whether the program returns or stops. -/
theorem runs_always {P : σ → Prop} : Runs (fun _ => P) P m s ↔ P (m s).2 := by
  unfold Runs
  rcases m s with ⟨_ | a,t⟩ <;> rfl

/-- The program stops, whatever it does before. -/
def Halts (m : Prog σ α) (s : σ) : Prop := Runs (fun _ _ => False) (fun _ => True) m s

theorem Halts.not_returns {a : α} {t : σ} (h : Halts m s) : m s ≠ (some a, t) := by
  intro hm
  unfold Halts Runs at h
  rw [hm] at h
  exact h

theorem Halts.bind (h : Halts m s) : Halts (m >>= f) s := Runs.seq h fun _ _ hf => hf.elim

/-- A program that stops in its second part. -/
theorem Runs.halts (h : Runs Q E m s) (hf : ∀ a t, Q a t → Halts (f a) t) : Halts (m >>= f) s :=
  Runs.seq (h.mono (fun _ _ hq => hq) fun _ _ => trivial) hf

end Rules

/-! ### What a program leaves alone -/

/-- Whether it returns or stops, what holds before the program holds after it. -/
def Preserves (P : σ → Prop) (m : Prog σ α) : Prop := ∀ s, P s → P (m s).2

namespace Preserves

variable {P : σ → Prop} {m : Prog σ α} {f : α → Prog σ β} {p : Prop} [Decidable p]

theorem pure (a : α) : Preserves P (Pure.pure a : Prog σ α) := fun _ h => h

theorem bind (hm : Preserves P m) (hf : ∀ a, Preserves P (f a)) : Preserves P (m >>= f) := by
  intro s h
  change P (Prog.bind m f s).2
  have hs := hm s h
  unfold Prog.bind
  rcases hms : m s with ⟨_ | a,t⟩
  · rw [hms] at hs
    exact hs
  · rw [hms] at hs
    exact hf a t hs

theorem get : Preserves P (Prog.get : Prog σ σ) := fun _ h => h

theorem modify {h : σ → σ} (hg : ∀ s, P s → P (h s)) : Preserves P (Prog.modify h) := hg

theorem assert : Preserves P (Prog.assert p : Prog σ Unit) := by
  unfold Prog.assert
  split
  · exact fun _ h => h
  · exact fun _ h => h

theorem need (x : Option α) : Preserves P (Prog.need x : Prog σ α) := by
  cases x with
  | none => exact fun _ h => h
  | some a => exact fun _ h => h

theorem keeps {γ : Type} {g : σ → γ} {P : γ → Prop} (h : ∀ s, g (m s).2 = g s) : Preserves (fun s => P (g s)) m := by
  intro s hs
  rwa [h s]

end Preserves

/-- Whether it returns or stops, the program does not change `g`. -/
def Keeps {γ : Type} (g : σ → γ) (m : Prog σ α) : Prop := ∀ s, g (m s).2 = g s

namespace Keeps

variable {γ : Type} {g : σ → γ} {m : Prog σ α} {f : α → Prog σ β} {s : σ} {p : Prop} [Decidable p]

theorem iff_preserves : Keeps g m ↔ ∀ c, Preserves (fun s => g s = c) m :=
  ⟨fun h _ s hs => (h s).trans hs,fun h s => h (g s) s rfl⟩

theorem pure (a : α) : Keeps g (Pure.pure a : Prog σ α) := fun _ => rfl

theorem bind (hm : Keeps g m) (hf : ∀ a, Keeps g (f a)) : Keeps g (m >>= f) :=
  iff_preserves.mpr fun c => (iff_preserves.mp hm c).bind fun a => iff_preserves.mp (hf a) c

theorem get : Keeps g (Prog.get : Prog σ σ) := fun _ => rfl

theorem modify {h : σ → σ} (hg : ∀ s, g (h s) = g s) : Keeps g (Prog.modify h) := hg

theorem assert : Keeps g (Prog.assert p : Prog σ Unit) := iff_preserves.mpr fun _ => .assert

theorem need (x : Option α) : Keeps g (Prog.need x : Prog σ α) := iff_preserves.mpr fun _ => .need x

theorem runs {Q : α → σ → Prop} {E : σ → Prop} (h : Keeps g m) (hq : ∀ a t, g t = g s → Q a t)
    (he : ∀ t, g t = g s → E t) : Runs Q E m s := by
  have hs := h s
  unfold Runs
  rcases hm : m s with ⟨_ | a,t⟩
  · rw [hm] at hs
    exact he t hs
  · rw [hm] at hs
    exact hq a t hs

end Keeps

end Csci402.Lib
