import Mathlib.Data.List.Basic

namespace CppInAction

section Assoc

variable {κ ν : Type} [BEq κ] [LawfulBEq κ] {xs : List (κ × ν)} {k other : κ} {v : ν}

theorem lookup_filter_ne [DecidableEq κ] (h : k ≠ other) : (xs.filter (·.1 ≠ other)).lookup k = xs.lookup k := by
  induction xs with
  | nil => rfl
  | cons x xs ih =>
    by_cases hx : x.1 = other
    · have hne : (k == x.1) = false := by simpa [hx] using h
      rw [List.filter_cons_of_neg (by simpa using hx), ih, List.lookup_cons, hne]
    · rw [List.filter_cons_of_pos (by simpa using hx), List.lookup_cons, List.lookup_cons, ih]

theorem lookup_eq_none : xs.lookup k = none ↔ ∀ x ∈ xs, x.1 ≠ k := by
  rw [List.lookup_eq_none_iff]
  refine forall₂_congr fun x _ => ?_
  rw [bne_iff_ne, ne_comm]

theorem lookup_filter_self [DecidableEq κ] : (xs.filter (·.1 ≠ k)).lookup k = none := by
  rw [lookup_eq_none]
  intro x hx
  simpa using (List.mem_filter.mp hx).2

theorem lookup_cons_ne (h : k ≠ other) : ((other, v) :: xs).lookup k = xs.lookup k := by
  have hne : (k == other) = false := by simpa using h
  rw [List.lookup_cons, hne]

theorem mem_of_lookup (h : xs.lookup k = some v) : (k, v) ∈ xs := by
  obtain ⟨l₁, l₂, hxs, _⟩ := List.lookup_eq_some_iff.mp h
  rw [hxs]
  simp

/-- A pair whose key stands nowhere before it is the one that is found. -/
theorem lookup_append_cons {l r : List (κ × ν)} (h : ∀ x ∈ l, x.1 ≠ k) : (l ++ (k, v) :: r).lookup k = some v := by
  rw [List.lookup_append, lookup_eq_none.mpr h, List.lookup_cons_self]
  rfl

end Assoc

end CppInAction
