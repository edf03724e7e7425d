import Mathlib.Algebra.BigOperators.Intervals
import Mathlib.Data.BitVec

namespace CppInAction

namespace MultiThreadCal

def intMax : ℕ := 2147483647

/-- i * (LL)i; a long long is kept modulo 2^64. -/
def square (i : ℕ) : BitVec 64 := BitVec.ofNat 64 (i * i)

/-- The loop from i to maxV, for bounds that are not negative; none where ++ i overflows. -/
def addSquares (i maxV : ℕ) (sum : BitVec 64) : Option (BitVec 64) :=
  if i ≤ maxV then
    if i < intMax then addSquares (i + 1) maxV (sum + square i) else none
  else some sum
termination_by maxV + 1 - i

def worker (minV maxV : ℕ) (sum : BitVec 64) : Option (BitVec 64) := addSquares minV maxV sum

/-- The sum is made in tmp, and goes to sum under the lock. -/
def concurrentWorker (sum : BitVec 64) (bounds : ℕ × ℕ) : Option (BitVec 64) :=
  (addSquares bounds.1 bounds.2 0).map (sum + ·)

/-- The bounds handed to the threads t, t + 1, and so on; none where an int overflows. -/
def spawn (n range maxV t minV : ℕ) : Option (List (ℕ × ℕ)) :=
  if t < n then
    if t < intMax then
      if t < n - 1 then
        -- minV + range and range + 1 are no larger than the new minV
        if minV + (range + 1) ≤ intMax then
          (spawn n range maxV (t + 1) (minV + (range + 1))).map ((minV, minV + range) :: ·)
        else none
      else (spawn n range maxV (t + 1) minV).map ((minV, maxV) :: ·)
    else none
  else some []
termination_by n - t

/-- The bounds handed out by concurrent_task(minV, maxV) when hardware_concurrency() is n. The
parameter minV is set to 0; none is a division by 0 too. -/
def concurrentTask (_minV maxV n : ℕ) : Option (List (ℕ × ℕ)) :=
  if n = 0 then none else spawn n (maxV / n) maxV 0 0

/-- What the threads leave in sum, in the order in which they take the lock. -/
def join (order : List (ℕ × ℕ)) : Option (BitVec 64) := order.foldlM concurrentWorker 0

/-- In every order the threads leave what worker(minV, maxV) leaves, and each number from minV to
maxV, but no other, is in the bounds of one thread. -/
def Agrees (minV maxV n : ℕ) : Prop :=
  ∃ total handed, worker minV maxV 0 = some total ∧ concurrentTask minV maxV n = some handed ∧
    (∀ order : List (ℕ × ℕ), order.Perm handed → join order = some total) ∧
    ∀ i, handed.countP (fun bounds => bounds.1 ≤ i ∧ i ≤ bounds.2) = if minV ≤ i ∧ i ≤ maxV then 1 else 0

/-- The sum of the squares from a to b - 1. -/
def squares (a b : ℕ) : BitVec 64 := ∑ i ∈ Finset.Ico a b, square i

/-- As many blocks of range + 1 numbers, one behind the other. -/
def blocks (range : ℕ) : ℕ → ℕ → List (ℕ × ℕ)
  | 0, _ => []
  | m + 1, minV => (minV, minV + range) :: blocks range m (minV + (range + 1))

variable {n range minV maxV t i m : ℕ}

theorem squares_append {a b c : ℕ} (hab : a ≤ b) (hbc : b ≤ c) : squares a b + squares b c = squares a c :=
  Finset.sum_Ico_consecutive _ hab hbc

theorem addSquares_eq (h : maxV < intMax) (i : ℕ) (sum : BitVec 64) :
    addSquares i maxV sum = some (sum + squares i (maxV + 1)) := by
  fun_induction addSquares i maxV sum with
  | case1 i sum hle hlt ih =>
    have hfirst : squares i (maxV + 1) = square i + squares (i + 1) (maxV + 1) :=
      Finset.sum_eq_sum_Ico_succ_bot (by omega) _
    rw [ih, hfirst, add_assoc]
  | case2 i sum hle hlt => omega
  | case3 i sum hgt => rw [squares, Finset.Ico_eq_empty (by omega), Finset.sum_empty, add_zero]

theorem lt_intMax_of_addSquares {sum total : BitVec 64} (h : addSquares i maxV sum = some total) (hle : i ≤ maxV) :
    maxV < intMax := by
  fun_induction addSquares i maxV sum with
  | case1 i sum _ hlt ih =>
    by_cases hnext : i + 1 ≤ maxV
    · exact ih h hnext
    · omega
  | case2 i sum _ hlt => cases h
  | case3 i sum hgt => omega

theorem spawn_eq (ht : t < n) (hn : n ≤ intMax) (hend : minV + (n - 1 - t) * (range + 1) ≤ intMax) :
    spawn n range maxV t minV =
      some (blocks range (n - 1 - t) minV ++ [(minV + (n - 1 - t) * (range + 1), maxV)]) := by
  induction hm : n - 1 - t generalizing t minV with
  | zero =>
    have hlast : ¬t < n - 1 := by omega
    have hover : ¬t + 1 < n := by omega
    rw [spawn, if_pos ht, if_pos (by omega), if_neg hlast, spawn, if_neg hover]
    simp [blocks]
  | succ m ih =>
    rw [hm, Nat.succ_mul] at hend
    have hstep : minV + (range + 1) ≤ intMax := by
      have := Nat.zero_le (m * (range + 1))
      omega
    have hnext : n - 1 - (t + 1) = m := by omega
    rw [spawn, if_pos ht, if_pos (by omega), if_pos (by omega), if_pos hstep,
      ih (by omega) (by rw [hnext]; omega) hnext, Nat.succ_mul]
    simp [blocks]
    omega

theorem spawn_eq_some {handed : List (ℕ × ℕ)} (h : spawn n range maxV t minV = some handed) (ht : t < n) :
    n ≤ intMax ∧ handed = blocks range (n - 1 - t) minV ++ [(minV + (n - 1 - t) * (range + 1), maxV)] := by
  fun_induction spawn n range maxV t minV generalizing handed with
  | case1 t minV _ hint hlast hstep ih =>
    obtain ⟨rest, hrest, rfl⟩ := Option.map_eq_some_iff.mp h
    obtain ⟨hn, rfl⟩ := ih hrest (by omega)
    obtain ⟨m, hm⟩ : ∃ m, n - 1 - t = m + 1 := ⟨n - 1 - t - 1, by omega⟩
    have hnext : n - 1 - (t + 1) = m := by omega
    refine ⟨hn, ?_⟩
    rw [hm, hnext, blocks, Nat.succ_mul, List.cons_append]
    congr 4
    omega
  | case2 => cases h
  | case3 t minV _ hint hlast ih =>
    have hover : ¬t + 1 < n := by omega
    have hm : n - 1 - t = 0 := by omega
    rw [spawn, if_neg hover] at h
    cases h
    refine ⟨by omega, ?_⟩
    rw [hm]
    simp [blocks]
  | case4 => cases h
  | case5 t minV hge => omega

theorem countP_blocks (range m minV i : ℕ) :
    (blocks range m minV).countP (fun bounds => bounds.1 ≤ i ∧ i ≤ bounds.2) =
      if minV ≤ i ∧ i < minV + m * (range + 1) then 1 else 0 := by
  induction m generalizing minV with
  | zero =>
    rw [if_neg (by omega)]
    rfl
  | succ m ih =>
    rw [blocks, List.countP_cons, ih, Nat.succ_mul]
    by_cases hhere : minV ≤ i ∧ i ≤ minV + range
    · rw [if_neg (by omega), if_pos (by simpa using hhere), if_pos (by omega)]
    · rw [if_neg (c := (decide _ = true)) (by simpa using hhere)]
      by_cases hlater : minV + (range + 1) ≤ i ∧ i < minV + (range + 1) + m * (range + 1)
      · rw [if_pos hlater, if_pos (by omega)]
      · rw [if_neg hlater, if_neg (by omega)]

theorem blocks_lt {bounds : ℕ × ℕ} (h : bounds ∈ blocks range m minV) : bounds.2 < minV + m * (range + 1) := by
  induction m generalizing minV with
  | zero => cases h
  | succ m ih =>
    rw [Nat.succ_mul]
    rcases List.mem_cons.mp h with rfl | h
    · simp only
      omega
    · have := ih h
      omega

theorem sum_blocks (range m minV : ℕ) :
    ((blocks range m minV).map fun bounds => squares bounds.1 (bounds.2 + 1)).sum =
      squares minV (minV + m * (range + 1)) := by
  induction m generalizing minV with
  | zero => simp [blocks, squares]
  | succ m ih =>
    rw [blocks, List.map_cons, List.sum_cons, ih, Nat.succ_mul]
    have hfirst : minV + range + 1 = minV + (range + 1) := by omega
    have hall : minV + (range + 1) + m * (range + 1) = minV + (m * (range + 1) + (range + 1)) := by omega
    simp only [hfirst]
    rw [squares_append (by omega) (by omega), hall]

/-- In whatever order the threads take the lock, they leave the sum of what they have summed up. -/
theorem join_eq {order : List (ℕ × ℕ)} (h : ∀ bounds ∈ order, bounds.2 < intMax) :
    join order = some (order.map fun bounds => squares bounds.1 (bounds.2 + 1)).sum := by
  have hfold : ∀ (sum : BitVec 64), order.foldlM concurrentWorker sum =
      some (sum + (order.map fun bounds => squares bounds.1 (bounds.2 + 1)).sum) := by
    induction order with
    | nil => simp
    | cons bounds order ih =>
      intro sum
      have hbounds := addSquares_eq (h bounds (by simp)) bounds.1 0
      rw [List.foldlM_cons, concurrentWorker, hbounds, Option.map_some, zero_add]
      simp only [Option.bind_eq_bind, Option.bind_some]
      rw [ih (fun b hb => h b (List.mem_cons_of_mem _ hb)), List.map_cons, List.sum_cons, add_assoc]
  rw [join, hfold, zero_add]

theorem countP_handed (range maxV m i : ℕ) :
    (blocks range m 0 ++ [(m * (range + 1), maxV)]).countP (fun bounds => bounds.1 ≤ i ∧ i ≤ bounds.2) =
      if i < m * (range + 1) ∨ i ≤ maxV then 1 else 0 := by
  rw [List.countP_append, countP_blocks, List.countP_singleton, Nat.zero_add]
  simp only [decide_eq_true_eq]
  by_cases hblocks : i < m * (range + 1)
  · rw [if_pos (by omega), if_neg (by omega), if_pos (Or.inl hblocks)]
  · rw [if_neg (by omega)]
    by_cases hlast : i ≤ maxV
    · rw [if_pos (by omega), if_pos (Or.inr hlast)]
    · rw [if_neg (by omega), if_neg (by omega)]

/-- The last thread begins at the number behind maxV or before it. -/
theorem starts_le_iff (h : 1 ≤ n) (maxV : ℕ) :
    (n - 1) * (maxV / n + 1) ≤ maxV + 1 ↔ n ≤ maxV / n + maxV % n + 2 := by
  obtain ⟨m, rfl⟩ : ∃ m, n = m + 1 := ⟨n - 1, by omega⟩
  have hdiv := Nat.div_add_mod maxV (m + 1)
  rw [Nat.add_mul, Nat.one_mul] at hdiv
  rw [Nat.add_sub_cancel, Nat.mul_add, Nat.mul_one]
  omega

theorem concurrentTask_eq (hn : 1 ≤ n) (hint : n ≤ intMax) (hmax : maxV < intMax)
    (hstart : n ≤ maxV / n + maxV % n + 2) (minV : ℕ) :
    concurrentTask minV maxV n =
      some (blocks (maxV / n) (n - 1) 0 ++ [((n - 1) * (maxV / n + 1), maxV)]) := by
  have hend := (starts_le_iff hn maxV).mpr hstart
  rw [concurrentTask, if_neg (by omega), spawn_eq (by omega) hint (by rw [Nat.sub_zero]; omega), Nat.sub_zero,
    Nat.zero_add]

theorem join_handed (hmax : maxV < intMax) (hend : m * (range + 1) ≤ maxV + 1) {order : List (ℕ × ℕ)}
    (horder : order.Perm (blocks range m 0 ++ [(m * (range + 1), maxV)])) :
    join order = some (squares 0 (maxV + 1)) := by
  have hbounds : ∀ bounds ∈ order, bounds.2 < intMax := by
    intro bounds hmem
    rcases List.mem_append.mp (horder.mem_iff.mp hmem) with hblock | hlast
    · have := blocks_lt hblock
      omega
    · rwa [List.mem_singleton.mp hlast]
  rw [join_eq hbounds, (horder.map _).sum_eq, List.map_append, List.sum_append, sum_blocks]
  simp only [List.map_cons, List.map_nil, List.sum_cons, List.sum_nil, add_zero, Nat.zero_add]
  rw [squares_append (Nat.zero_le _) hend]

/-- concurrent_task agrees with worker exactly from 0 on, and where the last thread begins at the
number behind maxV or before it. -/
theorem agrees_iff (minV maxV n : ℕ) :
    Agrees minV maxV n ↔
      minV = 0 ∧ 1 ≤ n ∧ n ≤ intMax ∧ maxV < intMax ∧ n ≤ maxV / n + maxV % n + 2 := by
  constructor
  · rintro ⟨total, handed, hworker, htask, _, hcover⟩
    unfold concurrentTask at htask
    split at htask
    next => cases htask
    next hn =>
      obtain ⟨hint, rfl⟩ := spawn_eq_some htask (by omega)
      simp only [Nat.sub_zero, Nat.zero_add, countP_handed] at hcover
      have hfirst := hcover 0
      rw [if_pos (Or.inr (Nat.zero_le _))] at hfirst
      have hzero : minV = 0 := by
        by_contra hne
        rw [if_neg (by omega)] at hfirst
        cases hfirst
      have hbehind := hcover (maxV + 1)
      rw [if_neg (c := minV ≤ maxV + 1 ∧ _) (by omega)] at hbehind
      have hend : (n - 1) * (maxV / n + 1) ≤ maxV + 1 := by
        by_contra hgt
        rw [if_pos (Or.inl (by omega))] at hbehind
        cases hbehind
      exact ⟨hzero, by omega, hint, lt_intMax_of_addSquares hworker (by omega),
        (starts_le_iff (by omega) maxV).mp hend⟩
  · rintro ⟨rfl, hn, hint, hmax, hstart⟩
    have hend := (starts_le_iff hn maxV).mpr hstart
    have hworker : worker 0 maxV 0 = some (squares 0 (maxV + 1)) := by rw [worker, addSquares_eq hmax, zero_add]
    refine ⟨_, _, hworker, concurrentTask_eq hn hint hmax hstart 0, ?_, ?_⟩
    · intro order horder
      exact join_handed hmax hend horder
    · intro i
      rw [countP_handed]
      by_cases hle : i ≤ maxV
      · rw [if_pos (Or.inr hle), if_pos ⟨Nat.zero_le i, hle⟩]
      · rw [if_neg (by omega), if_neg (by omega)]

/-- From 0 to 4 on four processors the third thread sums up the 5 too. -/
theorem four_threads_to_four : ¬Agrees 0 4 4 := by
  have hworker : worker 0 4 0 = some 30 := by rw [worker, addSquares_eq (by decide)]; decide
  have htask : concurrentTask 0 4 4 = some [(0, 1), (2, 3), (4, 5), (6, 4)] := by
    simp [concurrentTask, spawn, intMax]
  have hsum : join [(0, 1), (2, 3), (4, 5), (6, 4)] = some 55 := by rw [join_eq (by decide)]; decide
  rintro ⟨total, handed, htotal, hhanded, horders, _⟩
  obtain rfl := Option.some.inj (hworker.symm.trans htotal)
  obtain rfl := Option.some.inj (htask.symm.trans hhanded)
  have hjoin := horders _ (List.Perm.refl _)
  rw [hsum] at hjoin
  revert hjoin
  decide

end MultiThreadCal

end CppInAction
