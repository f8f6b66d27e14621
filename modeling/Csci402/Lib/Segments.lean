import Mathlib.Data.List.Basic

/-! The segments of a list: its longest parts without a given separator, the empty ones left
out. They do not depend on how many separators stand between two of them. -/

namespace Csci402.Lib

open List

variable {α : Type*} [DecidableEq α] {a : α} {l m : List α}

def segments (a : α) (l : List α) : List (List α) := (l.splitOn a).filter (· ≠ [])

@[simp] theorem segments_nil : segments a [] = [] := by simp [segments]

theorem segments_append_sep : segments a (l ++ a :: m) = segments a l ++ segments a m := by
  rw [segments,splitOn_append_cons_self,filter_append]
  rfl

theorem segments_sep_cons : segments a (a :: l) = segments a l := by
  have h := segments_append_sep (a := a) (l := []) (m := l)
  rwa [segments_nil] at h

theorem segments_of_notMem (h : a ∉ l) (hne : l ≠ []) : segments a l = [l] := by
  rw [segments,splitOn_eq_singleton h]
  simp [hne]

/-- Separators at the start do not matter. -/
theorem segments_append_left (h : ∀ x ∈ l, x = a) : segments a (l ++ m) = segments a m := by
  induction l with
  | nil => rfl
  | cons x l ih =>
    obtain rfl : x = a := h x (by simp)
    rw [cons_append,segments_sep_cons]
    exact ih fun y hy => h y (by simp [hy])

/-- Nor do separators at the end. -/
theorem segments_append_right (h : ∀ x ∈ m, x = a) : segments a (l ++ m) = segments a l := by
  cases m with
  | nil => rw [append_nil]
  | cons x m =>
    obtain rfl : x = a := h x (by simp)
    have hm : segments x m = segments x [] := by
      have := segments_append_left (l := m) (m := []) fun y hy => h y (by simp [hy])
      rwa [append_nil] at this
    rw [segments_append_sep,hm,segments_nil,append_nil]

theorem segments_eq_nil (h : ∀ x ∈ l, x = a) : segments a l = [] := by
  have := segments_append_right (l := []) h
  rwa [nil_append,segments_nil] at this

/-- A segment ends at the next separator. -/
theorem segments_append_notMem (h : a ∉ l) (hne : l ≠ []) (hm : m = [] ∨ m.head? = some a) :
    segments a (l ++ m) = l :: segments a m := by
  rcases hm with rfl | hm
  · rw [append_nil,segments_nil,segments_of_notMem h hne]
  · cases m with
    | nil => cases hm
    | cons x m =>
      obtain rfl : x = a := Option.some.inj hm
      rw [segments_append_sep,segments_of_notMem h hne,segments_sep_cons]
      rfl

end Csci402.Lib
