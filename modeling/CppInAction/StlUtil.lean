import CppInAction.StlIterator
import Mathlib.Logic.Function.Basic

namespace CppInAction

namespace MyStl

variable {α : Type}

/-- swap of two elements of a sequence. -/
def swap (mem : Nat → α) (lhs rhs : Nat) : Nat → α :=
  let tmp := mem lhs
  let mem := Function.update mem lhs (mem rhs)
  Function.update mem rhs tmp

/-- swap_range over positions of one sequence; none while the fuel is used up. -/
def swapRange : Nat → (Nat → α) → Nat → Nat → Nat → Option ((Nat → α) × Nat)
  | 0, _, _, _, _ => none
  | fuel + 1, mem, first1, last1, first2 =>
    if first1 ≠ last1 then swapRange fuel (swap mem first1 first2) (first1 + 1) last1 (first2 + 1)
    else some (mem, first2)

/-- The n elements that were k places on come to the front, and the k elements that were in
front of them go round behind them. -/
def rotated (mem : Nat → α) (a n k : Nat) : Nat → α := fun i =>
  if i < a then mem i
  else if i < a + n then mem (i + k)
  else if i < a + n + k then mem (a + (i - a) % k)
  else mem i

variable {mem : Nat → α} {a n k : Nat}

theorem rotated_zero : rotated mem a 0 k = mem := by
  funext i
  unfold rotated
  by_cases hfront : i < a
  · rw [if_pos hfront]
  · by_cases hback : i < a + k
    · have hmod : (i - a) % k = i - a := Nat.mod_eq_of_lt (by omega)
      rw [if_neg hfront, if_neg (by omega), if_pos (by omega), hmod, Nat.add_sub_cancel' (by omega)]
    · rw [if_neg hfront, if_neg (by omega), if_neg (by omega)]

theorem swap_comm (mem : Nat → α) (i j : Nat) : swap mem i j = swap mem j i := by
  by_cases hij : i = j
  · rw [hij]
  · simp only [swap]
    rw [Function.update_comm hij]

theorem swap_rotated (mem : Nat → α) (a n : Nat) (hk : 0 < k) :
    swap (rotated mem a n k) (a + n) (a + n + k) = rotated mem a (n + 1) k := by
  have hfront : rotated mem a n k (a + n) = mem (a + n % k) := by
    unfold rotated
    rw [if_neg (by omega), if_neg (by omega), if_pos (by omega), Nat.add_sub_cancel_left]
  have hback : rotated mem a n k (a + n + k) = mem (a + n + k) := by
    unfold rotated
    rw [if_neg (by omega), if_neg (by omega), if_neg (by omega)]
  funext i
  simp only [swap, hfront, hback]
  by_cases hi : i = a + n + k
  · subst hi
    have hmod : (a + n + k - a) % k = n % k := by
      rw [Nat.add_assoc, Nat.add_sub_cancel_left, Nat.add_mod_right]
    rw [Function.update_self, rotated, if_neg (by omega), if_neg (by omega), if_pos (by omega), hmod]
  · rw [Function.update_of_ne hi]
    by_cases hi' : i = a + n
    · subst hi'
      rw [Function.update_self, rotated, if_neg (by omega), if_pos (by omega)]
    · rw [Function.update_of_ne hi']
      unfold rotated
      by_cases hin : i < a + n
      · simp only [hin, show i < a + (n + 1) by omega, if_true]
      · by_cases hrest : i < a + n + k
        · simp only [hin, show ¬i < a + (n + 1) by omega, hrest, show i < a + (n + 1) + k by omega, if_true, if_false]
        · simp only [hin, show ¬i < a + (n + 1) by omega, hrest, show ¬i < a + (n + 1) + k by omega, if_false]

theorem swapRange_on (mem : Nat → α) (a : Nat) (hk : 0 < k) (m n fuel : Nat) (hfuel : n < fuel) :
    swapRange fuel (rotated mem a m k) (a + m) (a + m + n) (a + m + k) =
      some (rotated mem a (m + n) k, a + m + k + n) := by
  induction n generalizing m fuel with
  | zero =>
    obtain ⟨f, rfl⟩ := Nat.exists_eq_succ_of_ne_zero (Nat.ne_of_gt hfuel)
    exact if_neg (by simp)
  | succ n ih =>
    obtain ⟨f, rfl⟩ := Nat.exists_eq_succ_of_ne_zero (Nat.ne_of_gt (Nat.lt_of_le_of_lt (Nat.zero_le _) hfuel))
    rw [swapRange, if_pos (by omega), swap_rotated mem a m hk]
    have hrest := ih (m + 1) f (Nat.lt_of_succ_lt_succ hfuel)
    have h1 : a + (m + 1) = a + m + 1 := rfl
    have h2 : a + m + 1 + n = a + m + (n + 1) := by omega
    have h3 : a + m + 1 + k = a + m + k + 1 := by omega
    have h4 : m + 1 + n = m + (n + 1) := by omega
    have h5 : a + m + k + 1 + n = a + m + k + (n + 1) := by omega
    rw [h1, h2, h3, h4, h5] at hrest
    exact hrest

/-- The same places are exchanged, in the same order, when the two ranges change their parts. -/
theorem swapRange_turned {mem mem' : Nat → α} {i j e n fuel : Nat}
    (hrun : swapRange fuel mem i (i + n) j = some (mem', e)) :
    swapRange fuel mem j (j + n) i = some (mem', i + n) := by
  induction fuel generalizing mem i j n with
  | zero => cases hrun
  | succ fuel ih =>
    cases n with
    | zero =>
      rw [swapRange, if_neg (by simp)] at hrun ⊢
      obtain ⟨rfl, -⟩ := Prod.mk.inj (Option.some.inj hrun)
      rfl
    | succ n =>
      rw [swapRange, if_pos (by omega)] at hrun ⊢
      rw [swap_comm mem j i]
      have hi : i + (n + 1) = i + 1 + n := by omega
      have hj : j + (n + 1) = j + 1 + n := by omega
      rw [hi] at hrun
      rw [hi, hj]
      exact ih hrun

theorem swapRange_up (mem : Nat → α) (a : Nat) (hk : 0 < k) {n fuel : Nat} (hfuel : n < fuel) :
    swapRange fuel mem a (a + n) (a + k) = some (rotated mem a n k, a + k + n) := by
  have hon := swapRange_on mem a hk 0 n fuel hfuel
  rwa [rotated_zero, Nat.add_zero, Nat.zero_add] at hon

/-- swap_range of two ranges of one sequence, also when they overlap: the later range comes to
the front and what was before it goes round, whichever of the two is given first. -/
theorem swapRange_rotates (mem : Nat → α) (a n : Nat) (hk : 0 < k) :
    EndsWith (fun fuel => swapRange fuel mem a (a + n) (a + k)) (rotated mem a n k, a + k + n) ∧
    EndsWith (fun fuel => swapRange fuel mem (a + k) (a + k + n) a) (rotated mem a n k, a + n) := by
  refine ⟨⟨n, fun fuel hfuel => ?_⟩, n, fun fuel hfuel => ?_⟩
  · exact swapRange_up mem a hk hfuel
  · exact swapRange_turned (swapRange_up mem a hk hfuel)

theorem swapRange_rotates_overlap :
    EndsWith (fun fuel => swapRange fuel id 1 (1 + 3) (1 + 2)) (rotated id 1 3 2, 1 + 2 + 3) ∧
    EndsWith (fun fuel => swapRange fuel id (1 + 2) (1 + 2 + 3) 1) (rotated id 1 3 2, 1 + 3) :=
  swapRange_rotates id 1 3 (by decide)

theorem rotated_disjoint (hnk : n ≤ k) (i : Nat) :
    rotated mem a n k i =
      if a ≤ i ∧ i < a + n then mem (i + k) else if a + k ≤ i ∧ i < a + k + n then mem (i - k) else mem i := by
  unfold rotated
  by_cases hfront : i < a
  · rw [if_pos hfront, if_neg (by omega), if_neg (by omega)]
  by_cases hin : i < a + n
  · rw [if_neg hfront, if_pos hin, if_pos (by omega)]
  by_cases hrest : i < a + n + k
  · rw [if_neg hfront, if_neg hin, if_pos hrest, if_neg (by omega)]
    by_cases hmid : i < a + k
    · have hmod : (i - a) % k = i - a := Nat.mod_eq_of_lt (by omega)
      rw [if_neg (by omega), hmod, Nat.add_sub_cancel' (by omega)]
    · have hmod : (i - a) % k = i - a - k := by
        rw [Nat.mod_eq_sub_mod (by omega), Nat.mod_eq_of_lt (by omega)]
      rw [if_pos (by omega), hmod]
      congr 1
      omega
  · rw [if_neg hfront, if_neg hin, if_neg hrest, if_neg (by omega), if_neg (by omega)]

/-- swap of two arrays with N elements each, which lie in one memory. -/
def swapArray (fuel : Nat) (mem : Nat → α) (a b N : Nat) : Option (Nat → α) :=
  (swapRange fuel mem a (a + N) b).map Prod.fst

/-- Either array gets what the other had, and no other place is written. -/
theorem swapArray_exchanges (mem : Nat → α) {a b N : Nat} (hpos : 0 < N) (happart : a + N ≤ b ∨ b + N ≤ a) :
    ∃ mem', EndsWith (fun fuel => swapArray fuel mem a b N) mem' ∧ (∀ i < N, mem' (a + i) = mem (b + i)) ∧
      (∀ i < N, mem' (b + i) = mem (a + i)) ∧
      ∀ i, ¬(a ≤ i ∧ i < a + N) → ¬(b ≤ i ∧ i < b + N) → mem' i = mem i := by
  rcases happart with hab | hba
  · obtain ⟨k, rfl⟩ := Nat.exists_eq_add_of_le (Nat.le_trans (Nat.le_add_right a N) hab)
    have hk : 0 < k := by omega
    refine ⟨rotated mem a N k, ⟨N, fun fuel hfuel => ?_⟩, fun i hi => ?_, fun i hi => ?_, fun i hout hout' => ?_⟩
    · exact congrArg (Option.map Prod.fst) (swapRange_up mem a hk hfuel)
    · rw [rotated_disjoint (by omega), if_pos (by omega), Nat.add_right_comm]
    · rw [rotated_disjoint (by omega), if_neg (by omega), if_pos (by omega)]
      congr 1
      omega
    · rw [rotated_disjoint (by omega), if_neg hout, if_neg hout']
  · obtain ⟨k, rfl⟩ := Nat.exists_eq_add_of_le (Nat.le_trans (Nat.le_add_right b N) hba)
    have hk : 0 < k := by omega
    refine ⟨rotated mem b N k, ⟨N, fun fuel hfuel => ?_⟩, fun i hi => ?_, fun i hi => ?_, fun i hout hout' => ?_⟩
    · exact congrArg (Option.map Prod.fst) (swapRange_turned (swapRange_up mem b hk hfuel))
    · rw [rotated_disjoint (by omega), if_neg (by omega), if_pos (by omega)]
      congr 1
      omega
    · rw [rotated_disjoint (by omega), if_pos (by omega), Nat.add_right_comm]
    · rw [rotated_disjoint (by omega), if_neg hout', if_neg hout]

end MyStl

end CppInAction
