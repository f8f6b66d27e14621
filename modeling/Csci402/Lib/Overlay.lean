import Mathlib.Data.Nat.Init

/-! Stores in layers. A layer may lie over another, older one, and holds values for some
of the keys; a key is resolved by the first layer on the way down that has a value
for it. Copying what a layer resolves a key to into that layer changes nothing that
can be resolved, and a new value in a layer is seen only from the layers over it. -/

namespace Csci402.Lib

open Option

variable {κ α β : Type*}

/-- A layer lies only over layers with smaller numbers. -/
def Descends (below : ℕ → Option ℕ) : Prop := ∀ x y, below x = some y → y < x

def resolveFrom (below : ℕ → Option ℕ) (cell : ℕ → κ → Option α) : (fuel : ℕ) → (x : ℕ) → (k : κ) → Option α
  | 0, _, _ => none
  | n+1, x, k => (cell x k).or ((below x).bind fun y => resolveFrom below cell n y k)

/-- The value of a key, seen from the layer `x`. -/
def resolve (below : ℕ → Option ℕ) (cell : ℕ → κ → Option α) (x : ℕ) (k : κ) : Option α :=
  resolveFrom below cell (x+1) x k

/-- The layer `y` is `x` or lies under it. -/
inductive Under (below : ℕ → Option ℕ) : ℕ → ℕ → Prop
  | refl (x : ℕ) : Under below x x
  | step {x y z : ℕ} (h : below x = some y) (hz : Under below y z) : Under below x z

variable {below below' : ℕ → Option ℕ} {cell cell' : ℕ → κ → Option α} {x y z n : ℕ} {k : κ}

theorem resolveFrom_eq (h : Descends below) (hn : x < n) : resolveFrom below cell n x k = resolve below cell x k := by
  suffices ∀ n m x, x < n → x < m → resolveFrom below cell n x k = resolveFrom below cell m x k from
    this _ _ _ hn (Nat.lt_succ_self x)
  intro n
  induction n with
  | zero => exact fun m x hx => absurd hx (Nat.not_lt_zero x)
  | succ n ih =>
    rintro (_ | m) x hn hm
    · exact absurd hm (Nat.not_lt_zero x)
    · unfold resolveFrom
      cases hy : below x with
      | none => rfl
      | some y =>
        have := h x y hy
        simp only [bind_some]
        rw [ih m y (by omega) (by omega)]

theorem resolve_eq (h : Descends below) :
    resolve below cell x k = (cell x k).or ((below x).bind fun y => resolve below cell y k) := by
  rw [resolve,resolveFrom]
  cases hy : below x with
  | none => rfl
  | some y =>
    simp only [bind_some]
    rw [resolveFrom_eq h (h x y hy)]

theorem Under.le (h : Descends below) (hu : Under below x y) : y ≤ x := by
  induction hu with
  | refl x => exact Nat.le_refl x
  | step hxy _ ih => exact Nat.le_trans ih (Nat.le_of_lt (h _ _ hxy))

/-- A layer that nothing lies on is under itself only. -/
theorem Under.eq_of_top (hu : Under below x y) (htop : ∀ z, below z ≠ some y) : x = y := by
  induction hu with
  | refl x => rfl
  | step hxy _ ih =>
    cases ih htop
    exact absurd hxy (htop _)

/-- A layer other than `x` under it lies under the layer right below `x`. -/
theorem Under.of_ne (hu : Under below x z) (hne : z ≠ x) (hxy : below x = some y) : Under below y z := by
  cases hu with
  | refl => exact absurd rfl hne
  | step h hz =>
    rw [hxy] at h
    cases h
    exact hz

/-- Only the layers under `x` matter. -/
theorem resolve_congr (h : Descends below) (h' : Descends below')
    (hc : ∀ y, Under below x y → below' y = below y ∧ cell' y k = cell y k) :
    resolve below' cell' x k = resolve below cell x k := by
  induction x using Nat.strongRecOn with
  | ind x ih =>
    obtain ⟨hb,hx⟩ := hc x (.refl x)
    rw [resolve_eq h,resolve_eq h',hb,hx]
    cases hy : below x with
    | none => rfl
    | some y =>
      simp only [bind_some]
      rw [ih y (h x y hy) fun z hz => hc z (.step hy hz)]

/-- Values are replaced by what they stand for. -/
theorem resolve_bind (h : Descends below) {g : α → Option β} (hg : ∀ x k a, cell x k = some a → (g a).isSome) :
    resolve below (fun x k => (cell x k).bind g) x k = (resolve below cell x k).bind g := by
  induction x using Nat.strongRecOn with
  | ind x ih =>
    rw [resolve_eq h,resolve_eq h]
    cases hx : cell x k with
    | some a =>
      obtain ⟨b,hb⟩ := isSome_iff_exists.mp (hg x k a hx)
      simp [hb]
    | none =>
      cases hy : below x with
      | none => rfl
      | some y => simpa [hy] using ih y (h x y hy)

/-- A value is found in some layer. -/
theorem resolve_eq_some (h : Descends below) {a : α} (hr : resolve below cell x k = some a) :
    ∃ y, Under below x y ∧ cell y k = some a := by
  induction x using Nat.strongRecOn with
  | ind x ih =>
    rw [resolve_eq h] at hr
    cases hx : cell x k with
    | some b =>
      rw [hx,some_or] at hr
      exact ⟨x,.refl x,hx.trans hr⟩
    | none =>
      rw [hx,none_or] at hr
      obtain ⟨y,hy,hr⟩ := bind_eq_some_iff.mp hr
      obtain ⟨z,hz,hza⟩ := ih y (h x y hy) hr
      exact ⟨z,.step hy hz,hza⟩

theorem resolve_eq_none (h : Descends below) (hr : resolve below cell x k = none)
    (hu : Under below x y) : cell y k = none := by
  induction hu with
  | refl x =>
    rw [resolve_eq h] at hr
    exact (or_eq_none_iff.mp hr).1
  | step hy _ ih =>
    rw [resolve_eq h,hy] at hr
    exact ih (or_eq_none_iff.mp hr).2

/-- The first layer on the way down that has a value. -/
theorem resolve_first (h : Descends below) {o : ℕ} {a : α} (hu : Under below x o)
    (hclear : ∀ y, Under below x y → y ≠ o → Under below y o → cell y k = none) (ho : cell o k = some a) :
    resolve below cell x k = some a := by
  induction hu with
  | refl x =>
    rw [resolve_eq h,ho]
    rfl
  | @step x y z hy hz ih =>
    by_cases hx : x = z
    · rw [resolve_eq h,hx,ho]
      rfl
    · rw [resolve_eq h,hclear x (.refl x) hx (.step hy hz),hy]
      exact ih (fun w hw => hclear w (.step hy hw)) ho

/-- The only value for a key. -/
theorem resolve_single (h : Descends below) {o : ℕ} {a : α} (hr : resolve below cell x k = none)
    (hu : Under below x o) (hsame : ∀ y, y ≠ o → cell' y k = cell y k) (ho : cell' o k = some a) :
    resolve below cell' x k = some a := by
  induction hu with
  | refl x =>
    rw [resolve_eq h,ho]
    rfl
  | @step x y z hy _ ih =>
    by_cases hx : x = z
    · rw [resolve_eq h,hx,ho]
      rfl
    · rw [resolve_eq h,hy] at hr ⊢
      rw [hsame x hx]
      cases hc : cell x k with
      | some b => simp [hc] at hr
      | none =>
        simp only [hc,none_or,bind_some] at hr ⊢
        exact ih hr hsame ho

/-- Layers get the values that they resolve to, or, for a key without a value, the one
that stands for no value. -/
theorem resolve_fill (h : Descends below) {d : ℕ → α} (hd : ∀ x y, below x = some y → d y = d x)
    (hfill : ∀ x, cell' x k = cell x k ∨
      cell x k = none ∧ cell' x k = some ((resolve below cell x k).getD (d x))) :
    (resolve below cell' x k).getD (d x) = (resolve below cell x k).getD (d x) := by
  induction x using Nat.strongRecOn with
  | ind x ih =>
    rcases hfill x with hx | ⟨-,hx⟩
    · rw [resolve_eq h,resolve_eq h,hx]
      cases hc : cell x k with
      | some a => rfl
      | none =>
        cases hy : below x with
        | none => rfl
        | some y =>
          have := ih y (h x y hy)
          rwa [hd x y hy] at this
    · rw [resolve_eq h,hx]
      rfl

/-- New values in layers from which nothing was found, and other values that go, do not hide
the value that is found. -/
theorem resolve_keep (h : Descends below) {a : α}
    (hc : ∀ y, Under below x y → cell' y k = cell y k ∨ resolve below cell y k = none ∨
      cell' y k = none ∧ cell y k ≠ some a)
    (hr : resolve below cell x k = some a) : resolve below cell' x k = some a := by
  induction x using Nat.strongRecOn with
  | ind x ih =>
    have hbelow : cell' x k = none → cell x k = none → resolve below cell' x k = some a := by
      intro hx' hx
      rw [resolve_eq h] at hr ⊢
      rw [hx,none_or] at hr
      rw [hx',none_or]
      obtain ⟨y,hy,hr⟩ := bind_eq_some_iff.mp hr
      rw [hy,bind_some]
      exact ih y (h x y hy) (fun z hz => hc z (.step hy hz)) hr
    rcases hc x (.refl x) with hx | hx | ⟨hx',hx⟩
    · cases hcell : cell x k with
      | none => exact hbelow (hx.trans hcell) hcell
      | some b =>
        rw [resolve_eq h,hcell,some_or] at hr
        rw [resolve_eq h,hx,hcell,some_or]
        exact hr
    · rw [hx] at hr
      cases hr
    · cases hcell : cell x k with
      | none => exact hbelow hx' hcell
      | some b =>
        rw [resolve_eq h,hcell,some_or] at hr
        exact absurd (hcell.trans hr) hx

end Csci402.Lib
