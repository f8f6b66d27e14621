import Csci402.Lib.Run
import Mathlib.Logic.Function.Basic

/-! Threads that share a memory and one lock. A statement of a thread reads and
writes the memory and its local state, and may take or release the lock; whether
a thread holds the lock can be read off its local state. Mutual exclusion holds
for every such program, and a property of the memory and of the local state of
the thread inside is kept by a step if every statement inside keeps it, every
statement outside keeps it, and it survives taking and releasing the lock. -/

namespace Csci402.Lib

open Function

/-- What a statement does with the lock. -/
inductive LockOp where
  | keep | acquire | release
  deriving DecidableEq, Repr

/-- A program of threads `T` with local states `L` over a memory `M`; `A` is what
the environment answers to a statement. The thread holds the lock in the local
states that are `inside`. -/
structure Monitor (T L M A : Type) where
  exec : (T → L) → M → T → A → Option (M × L × LockOp)
  inside : L → Bool
  keep_inside : ∀ {th m t a m' l}, exec th m t a = some (m', l, .keep) → inside l = inside (th t)
  acquire_inside : ∀ {th m t a m' l}, exec th m t a = some (m', l, .acquire) →
    inside (th t) = false ∧ inside l = true
  release_inside : ∀ {th m t a m' l}, exec th m t a = some (m', l, .release) →
    inside (th t) = true ∧ inside l = false

/-- The memory, the thread that holds the lock, and the threads. -/
structure LockState (T L M : Type) where
  mem : M
  owner : Option T
  thread : T → L

namespace LockState

variable {T L M : Type}

/-- The local state of the thread that holds the lock. -/
def holder (s : LockState T L M) : Option L := s.owner.map s.thread

theorem holder_of_own {s : LockState T L M} {t : T} (h : s.owner = some t) : s.holder = some (s.thread t) := by
  rw [holder,h]; rfl

theorem holder_of_other [DecidableEq T] {s : LockState T L M} {t : T} (h : s.owner ≠ some t) (m : M) (l : L) :
    (LockState.mk m s.owner (update s.thread t l)).holder = s.holder := by
  unfold holder
  cases ho : s.owner with
  | none => rfl
  | some u =>
    have hu : u ≠ t := fun hut => h (by rw [ho,hut])
    simp [update_of_ne hu]

end LockState

namespace Monitor

variable {T L M A : Type} [DecidableEq T] (P : Monitor T L M A)

/-- One statement of the thread `a.1`. The lock can be taken only while it is
free. -/
def step (s : LockState T L M) (a : T × A) : Option (LockState T L M) :=
  match P.exec s.thread s.mem a.1 a.2 with
  | none => none
  | some (m, l, .keep) => some ⟨m,s.owner,update s.thread a.1 l⟩
  | some (m, l, .acquire) =>
    if s.owner.isNone then some ⟨m,some a.1,update s.thread a.1 l⟩ else none
  | some (m, l, .release) => some ⟨m,none,update s.thread a.1 l⟩

/-- A thread is inside exactly if it holds the lock. -/
def Exclusive (s : LockState T L M) : Prop :=
  ∀ t, P.inside (s.thread t) = true ↔ s.owner = some t

variable {P} {s s' : LockState T L M} {t : T} {a : A}

/-- What a step can do: a statement inside, a statement outside, taking the lock
and releasing it. -/
inductive Moves (P : Monitor T L M A) (s : LockState T L M) (t : T) (a : A) :
    LockState T L M → Prop
  | inside (m : M) (l : L) (hx : P.exec s.thread s.mem t a = some (m, l, .keep))
      (hin : P.inside (s.thread t) = true) (ho : s.owner = some t) : Moves P s t a ⟨m,s.owner,update s.thread t l⟩
  | outside (m : M) (l : L) (hx : P.exec s.thread s.mem t a = some (m, l, .keep))
      (hin : P.inside (s.thread t) = false) (ho : s.owner ≠ some t) : Moves P s t a ⟨m,s.owner,update s.thread t l⟩
  | acquire (m : M) (l : L) (hx : P.exec s.thread s.mem t a = some (m, l, .acquire))
      (ho : s.owner = none) : Moves P s t a ⟨m,some t,update s.thread t l⟩
  | release (m : M) (l : L) (hx : P.exec s.thread s.mem t a = some (m, l, .release))
      (ho : s.owner = some t) : Moves P s t a ⟨m,none,update s.thread t l⟩

/-- A step executes a statement of its thread and no other thread moves. -/
theorem step_exec (h : P.step s (t, a) = some s') :
    ∃ m l op, P.exec s.thread s.mem t a = some (m, l, op) ∧ s'.mem = m ∧
      s'.thread = update s.thread t l := by
  unfold step at h
  split at h
  · cases h
  · cases h; exact ⟨_,_,_,‹_›,rfl,rfl⟩
  · split at h
    · cases h; exact ⟨_,_,_,‹_›,rfl,rfl⟩
    · cases h
  · cases h; exact ⟨_,_,_,‹_›,rfl,rfl⟩

/-- A thread that takes no step stays where it is. -/
theorem thread_unmoved {ok : LockState T L M → T × A → Prop} {as : List (T × A)} {u : T}
    (h : Exec P.step ok s as s') (hu : ∀ b ∈ as, b.1 ≠ u) : s'.thread u = s.thread u := by
  induction h with
  | nil => rfl
  | snoc _ _ hst ih =>
    obtain ⟨m,l,op,-,-,hth⟩ := step_exec hst
    rw [hth,update_of_ne (hu _ (by simp)).symm]
    exact ih fun b hb => hu b (List.mem_append_left _ hb)

theorem step_moves (hs : P.Exclusive s) (h : P.step s (t, a) = some s') : Moves P s t a s' := by
  unfold step at h
  split at h
  · cases h
  next m l hx =>
    cases h
    cases hin : P.inside (s.thread t) with
    | true => exact .inside m l hx hin ((hs t).mp hin)
    | false =>
      refine .outside m l hx hin fun ho => ?_
      rw [(hs t).mpr ho] at hin
      cases hin
  next m l hx =>
    split at h
    next ho =>
      cases h
      exact .acquire m l hx (Option.isNone_iff_eq_none.mp ho)
    · cases h
  next m l hx =>
    cases h
    exact .release m l hx ((hs t).mp (P.release_inside hx).1)

/-- A statement outside leaves the thread inside as it is. -/
theorem holder_outside {m : M} {l : L} (hs : P.Exclusive s) (h : P.step s (t, a) = some s')
    (hx : P.exec s.thread s.mem t a = some (m, l, .keep))
    (hin : P.inside (s.thread t) = false) : s'.holder = s.holder := by
  have ho : s.owner ≠ some t := fun ho => by rw [(hs t).mpr ho] at hin; cases hin
  unfold step at h
  rw [hx] at h
  cases h
  exact LockState.holder_of_other ho _ _

theorem exclusive_step (hs : P.Exclusive s) (h : P.step s (t, a) = some s') : P.Exclusive s' := by
  intro u
  have hu := hs u
  cases step_moves hs h with
  | inside m l hx hin ho =>
    by_cases hut : u = t
    · subst hut; simp [P.keep_inside hx,hin,ho]
    · simpa [update_of_ne hut] using hu
  | outside m l hx hin ho =>
    by_cases hut : u = t
    · subst hut; simp [P.keep_inside hx,hin,ho]
    · simpa [update_of_ne hut] using hu
  | acquire m l hx ho =>
    by_cases hut : u = t
    · subst hut; simp [(P.acquire_inside hx).2]
    · rw [ho] at hu
      simp [update_of_ne hut,Ne.symm hut,hu]
  | release m l hx ho =>
    by_cases hut : u = t
    · subst hut; simp [(P.release_inside hx).2]
    · rw [ho] at hu
      simp [update_of_ne hut,hu,Ne.symm hut]

/-- A program that starts with every thread outside and the lock free keeps
mutual exclusion. -/
theorem exclusive_run {ok : LockState T L M → T × A → Prop} {as : List (T × A)}
    (h : Exec P.step ok s as s') (hs : P.Exclusive s) : P.Exclusive s' :=
  h.invariant hs fun _ _ _ hu _ ha => exclusive_step hu ha

/-- The invariant rule for a property of the memory and of the thread inside. -/
theorem holder_step {I : Option L → M → Prop} (hs : P.Exclusive s)
    (h : P.step s (t, a) = some s') (hI : I s.holder s.mem)
    (hkeep : ∀ m l, P.exec s.thread s.mem t a = some (m, l, .keep) →
      P.inside (s.thread t) = true → I (some (s.thread t)) s.mem → I (some l) m)
    (hout : ∀ m l, P.exec s.thread s.mem t a = some (m, l, .keep) →
      P.inside (s.thread t) = false → I s.holder m)
    (hacq : ∀ m l, P.exec s.thread s.mem t a = some (m, l, .acquire) →
      I none s.mem → I (some l) m)
    (hrel : ∀ m l, P.exec s.thread s.mem t a = some (m, l, .release) →
      I (some (s.thread t)) s.mem → I none m) : I s'.holder s'.mem := by
  cases step_moves hs h with
  | inside m l hx hin ho =>
    rw [LockState.holder_of_own ho] at hI
    simpa [LockState.holder,ho] using hkeep m l hx hin hI
  | outside m l hx hin ho =>
    rw [LockState.holder_of_other ho]
    exact hout m l hx hin
  | acquire m l hx ho =>
    have hn : s.holder = none := by rw [LockState.holder,ho]; rfl
    rw [hn] at hI
    simpa [LockState.holder] using hacq m l hx hI
  | release m l hx ho =>
    rw [LockState.holder_of_own ho] at hI
    exact hrel m l hx hI

end Monitor

end Csci402.Lib
