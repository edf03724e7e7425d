import CppInAction.Run
import CppInAction.Threads

namespace CppInAction

/-- Where a thread is in wait_and_pop: not in it, waiting in cond_ and not notified, or woken
and on its way to the mutex. -/
inductive WaitPc
  | outside | asleep | woken
deriving DecidableEq, Repr

/-- The BlockQueue of the video programs and the threads that take from it, with what was
pushed and what each thread took so far. -/
structure CondQueue (α : Type) where
  queue : List α
  threads : List WaitPc
  pushed : List α
  taken : List (Nat × α)
deriving DecidableEq, Repr

/-- The pieces of the functions that hold the mutex. -/
inductive CondAct (α : Type)
  /-- push, with the thread that notify_one wakes. -/
  | push (value : α) (wakes : Option Nat)
  | tryPop (i : Nat)
  /-- wait_and_pop up to its first wait. -/
  | enter (i : Nat)
  | wakeSpuriously (i : Nat)
  /-- wait takes the mutex back and looks at the queue again. -/
  | resume (i : Nat)
deriving DecidableEq, Repr

namespace CondQueue

variable {α : Type}

def start (threads : Nat) : CondQueue α := ⟨[], List.replicate threads .outside, [], []⟩

/-- The end of wait_and_pop, when the predicate holds; else the thread goes to sleep. -/
def popOrSleep (q : CondQueue α) (i : Nat) : CondQueue α :=
  match q.queue with
  | [] => { q with threads := q.threads.set i .asleep }
  | x :: rest => { q with queue := rest, threads := q.threads.set i .outside, taken := q.taken ++ [(i, x)] }

/-- One action; none where it cannot be taken. notify_one wakes a thread if one is asleep. -/
def step (q : CondQueue α) : CondAct α → Option (CondQueue α)
  | .push value none =>
    if .asleep ∉ q.threads then some { q with queue := q.queue ++ [value], pushed := q.pushed ++ [value] } else none
  | .push value (some i) =>
    if q.threads[i]? = some .asleep then
      some { q with queue := q.queue ++ [value], pushed := q.pushed ++ [value], threads := q.threads.set i .woken }
    else none
  | .tryPop i =>
    if q.threads[i]? = some .outside then
      match q.queue with
      | [] => some q
      | x :: rest => some { q with queue := rest, taken := q.taken ++ [(i, x)] }
    else none
  | .enter i => if q.threads[i]? = some .outside then some (q.popOrSleep i) else none
  | .wakeSpuriously i => if q.threads[i]? = some .asleep then some { q with threads := q.threads.set i .woken } else none
  | .resume i => if q.threads[i]? = some .woken then some (q.popOrSleep i) else none

/-- The values go out once each in the order in which they came in, and while a thread is
asleep there is a woken one for every value. -/
structure Inv (q : CondQueue α) : Prop where
  order : q.pushed = q.taken.map (·.2) ++ q.queue
  woken : .asleep ∈ q.threads → q.queue.length ≤ q.threads.count .woken

variable {q q' : CondQueue α} {a : CondAct α} {i : Nat} {pc pc' : WaitPc}

theorem count_move {ts : List WaitPc} (h : ts[i]? = some pc) (pc' : WaitPc) :
    (ts.set i pc').count .woken + (if pc = .woken then 1 else 0) = ts.count .woken + if pc' = .woken then 1 else 0 := by
  have hmove := countP_move (fun p => p == .woken) h pc'
  cases pc <;> cases pc' <;> exact hmove

theorem asleep_of_set {ts : List WaitPc} (h : .asleep ∈ ts.set i pc') (hne : pc' ≠ .asleep) : .asleep ∈ ts := by
  rcases List.mem_or_eq_of_mem_set h with hmem | heq
  · exact hmem
  · exact absurd heq.symm hne

theorem Inv.popOrSleep (h : q.Inv) (hi : q.threads[i]? = some pc) : (q.popOrSleep i).Inv := by
  unfold CondQueue.popOrSleep
  split
  next hq =>
    refine ⟨h.order, fun _ => ?_⟩
    simp [hq]
  next x rest hq =>
    refine ⟨?_, fun hasleep => ?_⟩
    · rw [h.order, hq]
      simp
    · have hwoken := h.woken (asleep_of_set hasleep (by decide))
      have hmove := count_move hi .outside
      rw [hq, List.length_cons] at hwoken
      simp only [reduceCtorEq, if_false] at hmove
      show rest.length ≤ (q.threads.set i .outside).count .woken
      split at hmove
      next => omega
      next => omega

theorem Inv.step (h : q.Inv) (hs : q.step a = some q') : q'.Inv := by
  cases a with
  | push value wakes =>
    have horder : q.pushed ++ [value] = q.taken.map (·.2) ++ (q.queue ++ [value]) := by
      rw [h.order, List.append_assoc]
    cases wakes with
    | none =>
      obtain ⟨hnone, ⟨⟩⟩ := Option.ite_none_right_eq_some.mp hs
      exact ⟨horder, fun hasleep => absurd hasleep hnone⟩
    | some i =>
      obtain ⟨hi, ⟨⟩⟩ := Option.ite_none_right_eq_some.mp hs
      refine ⟨horder, fun _ => ?_⟩
      have hwoken := h.woken (List.mem_of_getElem? hi)
      have hmove := count_move hi .woken
      simp only [reduceCtorEq, if_false, if_true] at hmove
      show (q.queue ++ [value]).length ≤ (q.threads.set i .woken).count .woken
      rw [List.length_append, List.length_singleton]
      omega
  | tryPop i =>
    obtain ⟨hi, hs⟩ := Option.ite_none_right_eq_some.mp hs
    split at hs
    next =>
      cases Option.some.inj hs
      exact h
    next x rest hq =>
      cases Option.some.inj hs
      refine ⟨?_, fun hasleep => ?_⟩
      · rw [h.order, hq]
        simp
      · have hwoken := h.woken hasleep
        rw [hq, List.length_cons] at hwoken
        exact Nat.le_of_succ_le hwoken
  | enter i =>
    obtain ⟨hi, ⟨⟩⟩ := Option.ite_none_right_eq_some.mp hs
    exact h.popOrSleep hi
  | wakeSpuriously i =>
    obtain ⟨hi, ⟨⟩⟩ := Option.ite_none_right_eq_some.mp hs
    refine ⟨h.order, fun _ => ?_⟩
    have hwoken := h.woken (List.mem_of_getElem? hi)
    have hmove := count_move hi .woken
    simp only [reduceCtorEq, if_false, if_true] at hmove
    show q.queue.length ≤ (q.threads.set i .woken).count .woken
    omega
  | resume i =>
    obtain ⟨hi, ⟨⟩⟩ := Option.ite_none_right_eq_some.mp hs
    exact h.popOrSleep hi

/-- A thread that can take the next value now. -/
def Served (q : CondQueue α) : Prop :=
  ∀ x rest, q.queue = x :: rest → ∃ i q', q.threads[i]? = some .woken ∧ q.step (.resume i) = some q' ∧
    q'.queue = rest ∧ q'.taken = q.taken ++ [(i, x)]

theorem Inv.served (h : q.Inv) (hasleep : .asleep ∈ q.threads) : q.Served := by
  intro x rest hq
  have hpos : 0 < q.threads.count .woken := by
    have hwoken := h.woken hasleep
    rw [hq, List.length_cons] at hwoken
    exact Nat.lt_of_lt_of_le (Nat.succ_pos _) hwoken
  obtain ⟨i, hi⟩ := List.mem_iff_getElem?.mp (List.count_pos_iff.mp hpos)
  exact ⟨i, q.popOrSleep i, hi, if_pos hi, by simp [CondQueue.popOrSleep, hq], by simp [CondQueue.popOrSleep, hq]⟩

/-- For any number of threads and in any order of their steps every pushed value is taken once,
in the order of the pushes, and no wake-up is lost: while a value is in the queue and a thread
sleeps in wait_and_pop, another one was woken and takes the value when it gets the mutex. -/
theorem condQueue_served (threads : Nat) (as : List (CondAct α)) :
    Along step (fun q => q.pushed = q.taken.map (·.2) ++ q.queue ∧ (.asleep ∈ q.threads → q.Served)) (start threads) as := by
  have hstart : (start threads : CondQueue α).Inv := ⟨rfl, fun _ => Nat.zero_le _⟩
  exact along_of_step Inv (fun _ _ _ h hs => h.step hs) (fun _ h => ⟨h.order, h.served⟩) hstart as

end CondQueue

end CppInAction
