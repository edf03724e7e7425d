import CppInAction.Assoc
import Mathlib.Data.ENat.Basic

namespace CppInAction

namespace Recency

section Store

variable {κ ν : Type} {xs ys : List (κ × ν)} {small large : ℕ∞} {k : κ} {v : ν}

/-- A new pair at the front; the last pair goes when there is no room for one more. -/
def add (limit : ℕ∞) (xs : List (κ × ν)) (k : κ) (v : ν) : List (κ × ν) :=
  if limit ≤ xs.length then ((k, v) :: xs).dropLast else (k, v) :: xs

/-- The pairs of a store with room for small pairs are some of those of a larger store, in
the same order, and all of them as long as the smaller one is not full. -/
structure Within (small : ℕ∞) (xs ys : List (κ × ν)) : Prop where
  sublist : xs.Sublist ys
  same : xs.length < small → xs = ys
  distinct : (ys.map Prod.fst).Nodup

theorem Within.full (h : Within small xs ys) (hne : xs ≠ ys) : small ≤ xs.length :=
  not_lt.mp fun hlt => hne (h.same hlt)

theorem Within.distinct_small (h : Within small xs ys) : (xs.map Prod.fst).Nodup :=
  h.distinct.sublist (h.sublist.map _)

theorem length_add_full (hfull : small ≤ xs.length) : (add small xs k v).length = xs.length := by
  rw [add, if_pos hfull, List.length_dropLast, List.length_cons, Nat.add_sub_cancel]

theorem dropLast_sublist (h : xs.Sublist ys) : xs.dropLast.Sublist ys.dropLast := by
  rw [← List.reverse_sublist, ← List.tail_reverse, ← List.tail_reverse]
  exact h.reverse.tail

/-- A full store that gets a pair stays below any store that gets it too. -/
theorem add_sublist (h : xs.Sublist ys) (hfull : small ≤ xs.length) :
    (add small xs k v).Sublist (add large ys k v) := by
  have hlast := dropLast_sublist (h.cons_cons (k, v))
  rw [add, if_pos hfull, add]
  split
  next => exact hlast
  next => exact hlast.trans (List.dropLast_sublist _)

theorem Within.add_eq (h : Within small xs ys) (hle : small ≤ large) (hroom : xs.length < small) :
    Recency.add small xs k v = Recency.add large ys k v := by
  have hlarge : ¬ large ≤ ys.length := by
    rw [← h.same hroom]
    exact not_le.mpr (hroom.trans_le hle)
  rw [Recency.add, if_neg (not_le.mpr hroom), Recency.add, if_neg hlarge, h.same hroom]

variable [DecidableEq κ]

/-- The pair of a key at the front, instead of where it was. -/
def touch (xs : List (κ × ν)) (k : κ) (v : ν) : List (κ × ν) := (k, v) :: xs.filter (·.1 ≠ k)

def get (xs : List (κ × ν)) (k : κ) : List (κ × ν) :=
  match xs.lookup k with
  | none => xs
  | some v => touch xs k v

def put (limit : ℕ∞) (xs : List (κ × ν)) (k : κ) (v : ν) : List (κ × ν) :=
  match xs.lookup k with
  | none => add limit xs k v
  | some _ => touch xs k v

theorem Within.lookup (h : Within small xs ys) (hk : xs.lookup k = some v) : ys.lookup k = some v := by
  obtain ⟨l, r, rfl⟩ := List.append_of_mem (h.sublist.subset (mem_of_lookup hk))
  have hdistinct := h.distinct
  rw [List.map_append, List.map_cons] at hdistinct
  obtain ⟨_, _, hdisjoint⟩ := List.nodup_append.mp hdistinct
  apply lookup_append_cons
  intro x hx
  exact hdisjoint x.1 (List.mem_map_of_mem hx) k List.mem_cons_self

/-- A store that lacks a key of the larger one is full. -/
theorem Within.full_of_absent (h : Within small xs ys) (hx : xs.lookup k = none) (hy : ys.lookup k = some v) :
    small ≤ xs.length := by
  apply h.full
  rintro rfl
  rw [hx] at hy
  cases hy

theorem filter_of_absent (hk : xs.lookup k = none) : xs.filter (·.1 ≠ k) = xs := by
  apply List.filter_eq_self.mpr
  intro x hx
  simpa using lookup_eq_none.mp hk x hx

theorem touch_distinct (h : (xs.map Prod.fst).Nodup) : ((touch xs k v).map Prod.fst).Nodup := by
  rw [touch, List.map_cons, List.nodup_cons]
  refine ⟨?_, h.sublist (List.filter_sublist.map _)⟩
  intro hm
  obtain ⟨x, hx, heq⟩ := List.mem_map.mp hm
  have hne := (List.mem_filter.mp hx).2
  simp [heq] at hne

theorem add_distinct {limit : ℕ∞} (h : (xs.map Prod.fst).Nodup) (hk : xs.lookup k = none) :
    ((add limit xs k v).map Prod.fst).Nodup := by
  have hcons : (((k, v) :: xs).map Prod.fst).Nodup := by
    rw [List.map_cons, List.nodup_cons]
    refine ⟨?_, h⟩
    intro hm
    obtain ⟨x, hx, heq⟩ := List.mem_map.mp hm
    exact lookup_eq_none.mp hk x hx heq
  unfold add
  split
  next => exact hcons.sublist ((List.dropLast_sublist _).map _)
  next => exact hcons

/-- Touching a key that is there keeps the number of pairs. -/
theorem length_touch (h : (xs.map Prod.fst).Nodup) (hk : (xs.lookup k).isSome) (v : ν) :
    (touch xs k v).length = xs.length := by
  obtain ⟨w, hw⟩ := Option.isSome_iff_exists.mp hk
  obtain ⟨l, r, rfl⟩ := List.append_of_mem (mem_of_lookup hw)
  rw [List.map_append, List.map_cons] at h
  obtain ⟨_, hr, hdisjoint⟩ := List.nodup_append.mp h
  have hl : l.filter (·.1 ≠ k) = l := by
    apply List.filter_eq_self.mpr
    intro x hx
    simpa using hdisjoint x.1 (List.mem_map_of_mem hx) k List.mem_cons_self
  have hr : r.filter (·.1 ≠ k) = r := by
    apply List.filter_eq_self.mpr
    intro x hx
    have hne : x.1 ≠ k := fun heq => (List.nodup_cons.mp hr).1 (List.mem_map.mpr ⟨x, hx, heq⟩)
    simpa using hne
  rw [touch, List.filter_append, List.filter_cons_of_neg (by simp), hl, hr]
  simp only [List.length_cons, List.length_append]
  omega

/-- Both stores have the key. -/
theorem Within.touch (h : Within small xs ys) (hk : (xs.lookup k).isSome) (v : ν) :
    Within small (touch xs k v) (touch ys k v) where
  sublist := (h.sublist.filter _).cons_cons _
  same := by
    intro hlt
    rw [length_touch h.distinct_small hk] at hlt
    rw [h.same hlt]
  distinct := touch_distinct h.distinct

/-- Only the larger store has the key, and the smaller one is left alone. -/
theorem Within.touch_large (h : Within small xs ys) (hx : xs.lookup k = none) (hy : ys.lookup k = some v) :
    Within small xs (Recency.touch ys k v) where
  sublist := by
    have hsub := h.sublist.filter (·.1 ≠ k)
    rw [filter_of_absent hx] at hsub
    exact hsub.cons _
  same := fun hlt => absurd hlt (not_lt.mpr (h.full_of_absent hx hy))
  distinct := touch_distinct h.distinct

/-- Only the larger store has the key, and the smaller one gives its last pair for it. -/
theorem Within.add_touch {w : ν} (h : Within small xs ys) (hx : xs.lookup k = none) (hy : ys.lookup k = some w) :
    Within small (Recency.add small xs k v) (Recency.touch ys k v) where
  sublist := by
    have hsub := h.sublist.filter (·.1 ≠ k)
    rw [filter_of_absent hx] at hsub
    rw [Recency.add, if_pos (h.full_of_absent hx hy)]
    exact (List.dropLast_sublist _).trans (hsub.cons_cons _)
  same := by
    intro hlt
    rw [length_add_full (h.full_of_absent hx hy)] at hlt
    exact absurd hlt (not_lt.mpr (h.full_of_absent hx hy))
  distinct := touch_distinct h.distinct

/-- Neither store has the key. -/
theorem Within.add (h : Within small xs ys) (hle : small ≤ large) (hy : ys.lookup k = none) :
    Within small (Recency.add small xs k v) (Recency.add large ys k v) where
  sublist := by
    by_cases hfull : small ≤ xs.length
    · exact add_sublist h.sublist hfull
    · rw [h.add_eq hle (not_le.mp hfull)]
  same := by
    intro hlt
    by_cases hfull : small ≤ xs.length
    · rw [length_add_full hfull] at hlt
      exact absurd hlt (not_lt.mpr hfull)
    · exact h.add_eq hle (not_le.mp hfull)
  distinct := add_distinct h.distinct hy

theorem Within.get (h : Within small xs ys) (k : κ) : Within small (get xs k) (get ys k) := by
  unfold Recency.get
  cases hx : xs.lookup k with
  | some v =>
    rw [h.lookup hx]
    exact h.touch (Option.isSome_of_eq_some hx) v
  | none =>
    cases hy : ys.lookup k with
    | none => exact h
    | some v => exact h.touch_large hx hy

theorem Within.put (h : Within small xs ys) (hle : small ≤ large) (k : κ) (v : ν) :
    Within small (put small xs k v) (put large ys k v) := by
  unfold Recency.put
  cases hx : xs.lookup k with
  | some w =>
    rw [h.lookup hx]
    exact h.touch (Option.isSome_of_eq_some hx) v
  | none =>
    cases hy : ys.lookup k with
    | none => exact h.add hle hy
    | some w => exact h.add_touch hx hy

end Store

end Recency

end CppInAction
