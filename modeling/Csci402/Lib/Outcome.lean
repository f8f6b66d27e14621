import Csci402.Lib.CString

/-! Computations of a C program that can end it. One returns a value, calls `exit` with a
message, or accesses an array out of bounds, after which nothing is known. -/

namespace Csci402.Lib

open CString

inductive Outcome (ε α : Type) where
  | value (a : α)
  | exit (c : ε)
  | fault
  deriving DecidableEq, Repr

namespace Outcome

variable {ε α β : Type}

protected def bind : Outcome ε α → (α → Outcome ε β) → Outcome ε β
  | value a, f => f a
  | exit c, _ => exit c
  | fault, _ => fault

instance : Monad (Outcome ε) where
  pure := value
  bind := Outcome.bind

/-- A check that ends the program if `p` holds. -/
def refuse (p : Prop) [Decidable p] (c : ε) : Outcome ε Unit := if p then exit c else value ()

/-- An access that is out of bounds if there is no value. -/
def access : Option α → Outcome ε α
  | some a => value a
  | none => fault

/-- A string is stored into an array of `n` characters, with the NUL at its end. -/
def store (n : ℕ) (s : List Char) : Outcome ε (List Char) := if s.length < n then value s else fault

/-- `strcpy` from the array `a` into one of `n` characters. -/
def strcpy (n : ℕ) (a : List Char) : Outcome ε (List Char) := do
  let s ← access (ofArray a)
  store n s

@[simp] theorem pure_eq (a : α) : (pure a : Outcome ε α) = value a := rfl

@[simp] theorem value_bind (a : α) (f : α → Outcome ε β) : (value a >>= f) = f a := rfl

@[simp] theorem exit_bind (c : ε) (f : α → Outcome ε β) : (exit c >>= f) = exit c := rfl

variable {m : Outcome ε α} {f : α → Outcome ε β}

@[simp] theorem bind_eq_value {b : β} : (m >>= f) = value b ↔ ∃ a, m = value a ∧ f a = value b := by
  change Outcome.bind m f = value b ↔ _
  cases m <;> simp [Outcome.bind]

theorem bind_eq_fault : (m >>= f) = fault ↔ m = fault ∨ ∃ a, m = value a ∧ f a = fault := by
  change Outcome.bind m f = fault ↔ _
  cases m <;> simp [Outcome.bind]

@[simp] theorem refuse_eq_value {p : Prop} [Decidable p] {c : ε} {u : Unit} : refuse p c = value u ↔ ¬p := by
  unfold refuse
  split <;> simp_all

variable {n : ℕ} {s : List Char}

@[simp] theorem store_eq_value {t : List Char} : (store n s : Outcome ε _) = value t ↔ s.length < n ∧ t = s := by
  unfold store
  split <;> simp_all [eq_comm]

/-- A check that returns does so with a value, or the program goes on as it may. -/
theorem bind_ne_fault (hm : m ≠ fault) (hf : ∀ a, m = value a → f a ≠ fault) : (m >>= f) ≠ fault := by
  change Outcome.bind m f ≠ fault
  cases m with
  | value a => exact hf a rfl
  | exit c => simp [Outcome.bind]
  | fault => exact absurd rfl hm

theorem refuse_ne_fault {p : Prop} [Decidable p] {c : ε} : refuse p c ≠ fault := by
  unfold refuse
  split <;> simp

theorem strcpy_fill {m : ℕ} (hs : nul ∉ s) (hn : s.length < n) (hm : s.length < m) :
    (strcpy m (fill n s) : Outcome ε _) = value s := by
  rw [strcpy,ofArray_fill hs hn]
  exact store_eq_value.mpr ⟨hm,rfl⟩

theorem strcpy_fill_full {m : ℕ} (hs : nul ∉ s) (hn : n ≤ s.length) :
    (strcpy m (fill n s) : Outcome ε _) = fault := by
  rw [strcpy,ofArray_fill_full hs hn]
  rfl

end Outcome

end Csci402.Lib
