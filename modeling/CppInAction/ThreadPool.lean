import CppInAction.Run
import CppInAction.Threads
import CppInAction.Locker

namespace CppInAction

/-- The value of m_max_requests that the constructor lets through. -/
structure MaxRequests where
  value : Nat
  pos : 0 < value
  lt : value < 2 ^ 31

/-- Where a worker is in run(): in front of the wait, behind it, between the test and
front() with the lock held, or with a request. -/
inductive RunPc (α : Type)
  | waiting
  | past
  | taking
  | holding (request : α)
deriving DecidableEq, Repr

/-- The worker is behind its wait and has not taken a request or gone back for it. -/
def RunPc.awake {α : Type} : RunPc α → Bool
  | .past => true
  | .taking => true
  | _ => false

/-- How a call of append or append_p ends; append has no return behind its post. -/
inductive PoolReply
  | value (b : Bool)
  | flowsOff
deriving DecidableEq, Repr

/-- A ThreadPool with its workers and the threads that call append or append_p. posting is some
for a caller between its unlock and its post, with the end of its call, and none outside.
accepted and taken only record what happened. -/
structure ThreadPool (α : Type) where
  maxRequests : MaxRequests
  workQueue : List α
  queueLocker : Option Nat
  queueStat : Sem
  states : α → Int
  workers : List (RunPc α)
  posting : List (Option PoolReply)
  accepted : List α
  taken : List (Nat × α)
  fault : Bool

inductive PoolAct (α : Type)
  | append (caller : Nat) (request : α) (state : Int)
  | appendP (caller : Nat) (request : α)
  | post (caller : Nat)
  | wait (worker : Nat)
  | spurious (worker : Nat)
  | test (worker : Nat)
  | take (worker : Nat)
  | done (worker : Nat)

namespace ThreadPool

variable {α : Type}

def start (maxRequests : MaxRequests) (states : α → Int) (threadNumber callers : Nat) : ThreadPool α where
  maxRequests := maxRequests
  workQueue := []
  queueLocker := none
  queueStat := ⟨0⟩
  states := states
  workers := List.replicate threadNumber .waiting
  posting := List.replicate callers none
  accepted := []
  taken := []
  fault := false

/-- The locked part of append and append_p, and how the call ends after its post. -/
def enqueue (s : ThreadPool α) (caller : Nat) (request : α) (states : α → Int) (last : PoolReply) : ThreadPool α :=
  if s.maxRequests.value ≤ s.workQueue.length then s
  else { s with
    states := states
    workQueue := s.workQueue ++ [request]
    posting := s.posting.set caller (some last)
    accepted := s.accepted ++ [request] }

def setWorker (s : ThreadPool α) (i : Nat) (pc : RunPc α) : ThreadPool α :=
  { s with workers := s.workers.set i pc }

/-- The locked test of run(); the lock is kept for front() and pop_front(). -/
def test (s : ThreadPool α) (i : Nat) : ThreadPool α :=
  if s.workQueue.isEmpty then s.setWorker i .waiting
  else { s.setWorker i .taking with queueLocker := some i }

/-- front(), pop_front() and unlock(). -/
def take (s : ThreadPool α) (i : Nat) : ThreadPool α :=
  match s.workQueue with
  | [] => { s with fault := true }
  | request :: rest => { s.setWorker i (.holding request) with
      workQueue := rest
      queueLocker := none
      taken := s.taken ++ [(i, request)] }

def step [DecidableEq α] (s : ThreadPool α) : PoolAct α → Option (ThreadPool α)
  | .append caller request state =>
    if s.posting[caller]? = some none ∧ s.queueLocker = none then
      some (s.enqueue caller request (Function.update s.states request state) .flowsOff)
    else none
  | .appendP caller request =>
    if s.posting[caller]? = some none ∧ s.queueLocker = none then
      some (s.enqueue caller request s.states (.value true))
    else none
  | .post caller => match s.posting[caller]? with
    | some (some _) => some { s with queueStat := s.queueStat.post, posting := s.posting.set caller none }
    | _ => none
  | .wait i => match s.workers[i]? with
    | some .waiting => s.queueStat.wait.map fun v => { s.setWorker i .past with queueStat := v }
    | _ => none
  | .spurious i => match s.workers[i]? with
    | some .waiting => some (s.setWorker i .past)
    | _ => none
  | .test i => match s.workers[i]? with
    | some .past => if s.queueLocker = none then some (s.test i) else none
    | _ => none
  | .take i => match s.workers[i]? with
    | some .taking => some (s.take i)
    | _ => none
  | .done i => match s.workers[i]? with
    | some (.holding _) => some (s.setWorker i .waiting)
    | _ => none

/-- How the call ends that this step ends; a full queue ends it at once. -/
def reply (s : ThreadPool α) : PoolAct α → Option PoolReply
  | .append _ _ _ => if s.maxRequests.value ≤ s.workQueue.length then some (.value false) else none
  | .appendP _ _ => if s.maxRequests.value ≤ s.workQueue.length then some (.value false) else none
  | .post caller => s.posting[caller]?.join
  | _ => none

/-- No append is between its unlock and its post. -/
def settled (s : ThreadPool α) : Bool := s.posting.all Option.isNone

/-- The request at the head of the queue leaves it and goes to worker i alone. -/
structure TakesHead (s t : ThreadPool α) (i : Nat) (request : α) : Prop where
  queue : s.workQueue = request :: t.workQueue
  worker : t.workers[i]? = some (.holding request)
  others : ∀ j, j ≠ i → t.workers[j]? = s.workers[j]?
  taken : t.taken = s.taken ++ [(i, request)]
  accepted : t.accepted = s.accepted
  unlocked : t.queueLocker = none

/-- The queue is bounded and a full queue refuses a request without a trace. A worker that is
taking, the only one, takes the head of a queue that is not empty; nothing else is taken, so that
the requests are taken in the order in which they were accepted, once each. A queued request has
a worker that is awake or will be, and a worker that finds it with the lock free goes on to take. -/
structure Sound [DecidableEq α] (s : ThreadPool α) : Prop where
  bounded : s.workQueue.length ≤ s.maxRequests.value
  refused : s.maxRequests.value ≤ s.workQueue.length → ∀ i r st,
    (∀ t, s.step (.append i r st) = some t → t = s ∧ s.reply (.append i r st) = some (.value false)) ∧
    ∀ t, s.step (.appendP i r) = some t → t = s ∧ s.reply (.appendP i r) = some (.value false)
  order : s.accepted = s.taken.map Prod.snd ++ s.workQueue
  takes : ∀ i, s.workers[i]? = some .taking → ∃ r t, s.step (.take i) = some t ∧ s.TakesHead t i r
  alone : ∀ i j : Nat, s.workers[i]? = some .taking → s.workers[j]? = some .taking → i = j
  only : ∀ a t, s.step a = some t → (∀ i, a ≠ .take i) → t.taken = s.taken ∧
    ∀ (i : Nat) (r : α), t.workers[i]? = some (.holding r) → s.workers[i]? = some (.holding r)
  fault : s.fault = false
  wakes : s.settled = true → s.workQueue.length ≤ s.queueStat.value + s.workers.countP RunPc.awake
  finds : ∀ i, s.workers[i]? = some .past → s.queueLocker = none → s.workQueue ≠ [] →
    ∃ t, s.step (.test i) = some t ∧ t.workers[i]? = some .taking
  holder : ∀ i, s.queueLocker = some i → s.workers[i]? = some .taking

structure Inv (s : ThreadPool α) : Prop where
  bound : s.workQueue.length ≤ s.maxRequests.value
  order : s.accepted = s.taken.map Prod.snd ++ s.workQueue
  fault : s.fault = false
  wake : s.workQueue.length ≤
    s.queueStat.value + s.workers.countP RunPc.awake + s.posting.countP Option.isSome
  lock : ∀ i, s.workers[i]? = some .taking → s.queueLocker = some i ∧ s.workQueue ≠ []
  holder : ∀ i, s.queueLocker = some i → s.workers[i]? = some .taking

variable {s t : ThreadPool α} {i : Nat} {r : α} {last : PoolReply}

theorem start_inv (maxRequests : MaxRequests) (states : α → Int) (threadNumber callers : Nat) :
    (start maxRequests states threadNumber callers).Inv where
  bound := Nat.zero_le _
  order := rfl
  fault := rfl
  wake := Nat.zero_le _
  lock := fun i hi => by
    have hm := List.mem_of_getElem? hi
    cases (List.mem_replicate.mp hm).2
  holder := fun i hi => by cases hi

theorem enqueue_full {states : α → Int} (h : s.maxRequests.value ≤ s.workQueue.length) :
    s.enqueue i r states last = s := if_pos h

theorem settled_countP (h : s.settled = true) : s.posting.countP Option.isSome = 0 := by
  rw [List.countP_eq_zero]
  intro p hp
  simpa using List.all_eq_true.mp h p hp

theorem enqueue_workers {states : α → Int} : (s.enqueue i r states last).workers = s.workers := by
  unfold enqueue
  split <;> rfl

theorem enqueue_taken {states : α → Int} : (s.enqueue i r states last).taken = s.taken := by
  unfold enqueue
  split <;> rfl

/-- A worker with the lock takes the head of the queue. -/
theorem Inv.takes [DecidableEq α] (h : s.Inv) (hi : s.workers[i]? = some .taking) :
    ∃ r t, s.step (.take i) = some t ∧ s.TakesHead t i r := by
  obtain ⟨r, rest, hq⟩ := List.exists_cons_of_ne_nil (h.lock i hi).2
  have hlt := (List.getElem?_eq_some_iff.mp hi).1
  refine ⟨r, s.take i, by simp only [ThreadPool.step, hi], ?_⟩
  simp only [ThreadPool.take, hq]
  exact ⟨hq, List.getElem?_set_self hlt, fun j hj => List.getElem?_set_ne (Ne.symm hj), rfl, rfl, rfl⟩

/-- A step that puts one worker in another place, where it has no new request, is no take. -/
theorem setWorker_holding {pc : RunPc α} {j : Nat} (hpc : ∀ r, pc ≠ .holding r)
    (hj : (s.workers.set i pc)[j]? = some (.holding r)) : s.workers[j]? = some (.holding r) := by
  rcases set_at hj with ⟨-, heq⟩ | ⟨-, hj⟩
  · exact absurd heq.symm (hpc r)
  · exact hj

theorem step_only [DecidableEq α] {a : PoolAct α} (hs : s.step a = some t) (ha : ∀ i, a ≠ .take i) :
    t.taken = s.taken ∧ ∀ (i : Nat) (r : α), t.workers[i]? = some (.holding r) → s.workers[i]? = some (.holding r) := by
  cases a with
  | append i r st =>
    simp only [step] at hs
    split at hs
    next => cases Option.some.inj hs; exact ⟨enqueue_taken, fun j r hj => enqueue_workers ▸ hj⟩
    next => cases hs
  | appendP i r =>
    simp only [step] at hs
    split at hs
    next => cases Option.some.inj hs; exact ⟨enqueue_taken, fun j r hj => enqueue_workers ▸ hj⟩
    next => cases hs
  | post i =>
    simp only [step] at hs
    split at hs
    next => cases Option.some.inj hs; exact ⟨rfl, fun _ _ hj => hj⟩
    next => cases hs
  | wait i =>
    simp only [step] at hs
    split at hs
    next =>
      obtain ⟨v, _, rfl⟩ := Option.map_eq_some_iff.mp hs
      exact ⟨rfl, fun _ _ hj => setWorker_holding (by simp) hj⟩
    next => cases hs
  | spurious i =>
    simp only [step] at hs
    split at hs
    next => cases Option.some.inj hs; exact ⟨rfl, fun _ _ hj => setWorker_holding (by simp) hj⟩
    next => cases hs
  | test i =>
    simp only [step] at hs
    split at hs
    next =>
      split at hs
      next =>
        cases Option.some.inj hs
        unfold test
        split
        next => exact ⟨rfl, fun _ _ hj => setWorker_holding (by simp) hj⟩
        next => exact ⟨rfl, fun _ _ hj => setWorker_holding (by simp) hj⟩
      next => cases hs
    next => cases hs
  | take i => exact absurd rfl (ha i)
  | done i =>
    simp only [step] at hs
    split at hs
    next => cases Option.some.inj hs; exact ⟨rfl, fun _ _ hj => setWorker_holding (by simp) hj⟩
    next => cases hs

theorem test_finds [DecidableEq α] (hi : s.workers[i]? = some .past) (hl : s.queueLocker = none)
    (hne : s.workQueue ≠ []) : ∃ t, s.step (.test i) = some t ∧ t.workers[i]? = some .taking := by
  have hlt := (List.getElem?_eq_some_iff.mp hi).1
  refine ⟨s.test i, by simp only [step, hi, hl, if_true], ?_⟩
  rw [test, if_neg (by simpa using hne)]
  exact List.getElem?_set_self hlt

theorem Inv.sound [DecidableEq α] (h : s.Inv) : s.Sound where
  bounded := h.bound
  refused := fun hfull i r st => by
    refine ⟨fun t ht => ?_, fun t ht => ?_⟩
    · simp only [step] at ht
      split at ht
      next => exact ⟨(Option.some.inj ht).symm.trans (enqueue_full hfull), if_pos hfull⟩
      next => cases ht
    · simp only [step] at ht
      split at ht
      next => exact ⟨(Option.some.inj ht).symm.trans (enqueue_full hfull), if_pos hfull⟩
      next => cases ht
  order := h.order
  takes := fun _ hi => h.takes hi
  alone := fun i j hi hj => Option.some.inj ((h.lock i hi).1.symm.trans (h.lock j hj).1)
  only := fun _ _ hs ha => step_only hs ha
  fault := h.fault
  wakes := fun hs => by
    have hw := h.wake
    have hp := settled_countP hs
    omega
  finds := fun _ hi hl hne => test_finds hi hl hne
  holder := h.holder

theorem Inv.enqueue {states : α → Int} (h : s.Inv) (hi : s.posting[i]? = some none)
    (hl : s.queueLocker = none) : (s.enqueue i r states last).Inv := by
  unfold ThreadPool.enqueue
  split
  next => exact h
  next hroom =>
    have hcount := countP_move Option.isSome hi (some last)
    have hwake := h.wake
    refine ⟨?_, ?_, h.fault, ?_, fun j hj => ?_, h.holder⟩
    · change (s.workQueue ++ [r]).length ≤ s.maxRequests.value
      rw [List.length_append, List.length_singleton]
      omega
    · change s.accepted ++ [r] = s.taken.map Prod.snd ++ (s.workQueue ++ [r])
      rw [h.order, List.append_assoc]
    · change (s.workQueue ++ [r]).length ≤
        s.queueStat.value + s.workers.countP RunPc.awake + (s.posting.set i (some last)).countP Option.isSome
      rw [List.length_append, List.length_singleton]
      simp only [Option.isSome_none, Option.isSome_some, Bool.toNat_false, Bool.toNat_true] at hcount
      omega
    · have hlock := (h.lock j hj).1
      rw [hl] at hlock
      cases hlock

theorem Inv.post (h : s.Inv) (hi : s.posting[i]? = some (some last)) :
    Inv { s with queueStat := s.queueStat.post, posting := s.posting.set i none } := by
  have hcount := countP_move Option.isSome hi none
  have hwake := h.wake
  have hbound := h.bound
  have hmax := s.maxRequests.lt
  refine ⟨h.bound, h.order, h.fault, ?_, h.lock, h.holder⟩
  change s.workQueue.length ≤
    s.queueStat.post.value + s.workers.countP RunPc.awake + (s.posting.set i none).countP Option.isSome
  simp only [Option.isSome_none, Option.isSome_some, Bool.toNat_false, Bool.toNat_true] at hcount
  unfold Sem.post
  split
  next =>
    change s.workQueue.length ≤ s.queueStat.value + 1 + _ + _
    omega
  next hfull =>
    unfold semValueMax at hfull
    omega

/-- A worker that wakes up or goes back to its wait. -/
theorem Inv.setWorker {a b : RunPc α} {v : Sem} (h : s.Inv) (hi : s.workers[i]? = some a)
    (ha : a ≠ .taking) (hb : b ≠ .taking)
    (hv : s.workQueue = [] ∨ s.queueStat.value + a.awake.toNat ≤ v.value + b.awake.toNat) :
    Inv { s.setWorker i b with queueStat := v } := by
  have hcount := countP_move RunPc.awake hi b
  have hwake := h.wake
  refine ⟨h.bound, h.order, h.fault, ?_, fun j hj => ?_, fun j hj => ?_⟩
  · change s.workQueue.length ≤ v.value + (s.workers.set i b).countP RunPc.awake + s.posting.countP Option.isSome
    rcases hv with hnil | hv
    · rw [hnil]
      exact Nat.zero_le _
    · omega
  · rcases set_at hj with ⟨-, heq⟩ | ⟨-, hj⟩
    · exact absurd heq.symm hb
    · exact h.lock j hj
  · have hat := h.holder j hj
    have hne : i ≠ j := fun he => ha (Option.some.inj (hi.symm.trans (he ▸ hat)))
    exact (List.getElem?_set_ne hne).trans hat

theorem Inv.test (h : s.Inv) (hi : s.workers[i]? = some .past) (hl : s.queueLocker = none) :
    (s.test i).Inv := by
  unfold ThreadPool.test
  split
  next he => exact h.setWorker hi (by simp) (by simp) (Or.inl (List.isEmpty_iff.mp he))
  next he =>
    have hcount := countP_move RunPc.awake hi .taking
    have hwake := h.wake
    refine ⟨h.bound, h.order, h.fault, ?_, fun j hj => ?_, fun j hj => ?_⟩
    · change s.workQueue.length ≤
        s.queueStat.value + (s.workers.set i .taking).countP RunPc.awake + s.posting.countP Option.isSome
      simp only [RunPc.awake] at hcount
      omega
    · rcases set_at hj with ⟨rfl, -⟩ | ⟨-, hj⟩
      · refine ⟨rfl, ?_⟩
        change s.workQueue ≠ []
        simpa using he
      · have hlock := (h.lock j hj).1
        rw [hl] at hlock
        cases hlock
    · cases Option.some.inj hj
      exact List.getElem?_set_self (List.getElem?_eq_some_iff.mp hi).1

theorem Inv.take (h : s.Inv) (hi : s.workers[i]? = some .taking) : (s.take i).Inv := by
  obtain ⟨hlock, hne⟩ := h.lock i hi
  obtain ⟨r, rest, hq⟩ := List.exists_cons_of_ne_nil hne
  have hcount := countP_move RunPc.awake hi (.holding r)
  have hwake := h.wake
  have hbound := h.bound
  rw [hq, List.length_cons] at hwake hbound
  simp only [ThreadPool.take, hq]
  refine ⟨?_, ?_, h.fault, ?_, fun j hj => ?_, fun j hj => ?_⟩
  · change rest.length ≤ s.maxRequests.value
    omega
  · change s.accepted = (s.taken ++ [(i, r)]).map Prod.snd ++ rest
    rw [h.order, hq, List.map_append, List.append_assoc]
    rfl
  · change rest.length ≤
      s.queueStat.value + (s.workers.set i (.holding r)).countP RunPc.awake + s.posting.countP Option.isSome
    simp only [RunPc.awake, Bool.toNat_true, Bool.toNat_false] at hcount
    omega
  · rcases set_at hj with ⟨-, heq⟩ | ⟨hji, hj⟩
    · cases heq
    · have hj' := (h.lock j hj).1
      rw [hlock] at hj'
      exact absurd (Option.some.inj hj').symm hji
  · cases hj

theorem Inv.step [DecidableEq α] {a : PoolAct α} (h : s.Inv) (hs : s.step a = some t) : t.Inv := by
  cases a with
  | append i r st =>
    simp only [ThreadPool.step] at hs
    split at hs
    next hc => cases Option.some.inj hs; exact h.enqueue hc.1 hc.2
    next => cases hs
  | appendP i r =>
    simp only [ThreadPool.step] at hs
    split at hs
    next hc => cases Option.some.inj hs; exact h.enqueue hc.1 hc.2
    next => cases hs
  | post i =>
    simp only [ThreadPool.step] at hs
    split at hs
    next hc => cases Option.some.inj hs; exact h.post hc
    next => cases hs
  | wait i =>
    simp only [ThreadPool.step] at hs
    split at hs
    next hw =>
      obtain ⟨v, hv, rfl⟩ := Option.map_eq_some_iff.mp hs
      have hval := Sem.wait_value hv
      refine h.setWorker hw (by simp) (by simp) (Or.inr ?_)
      simp only [RunPc.awake, Bool.toNat_true, Bool.toNat_false]
      omega
    next => cases hs
  | spurious i =>
    simp only [ThreadPool.step] at hs
    split at hs
    next hw =>
      cases Option.some.inj hs
      refine h.setWorker (v := s.queueStat) hw (by simp) (by simp) (Or.inr ?_)
      simp only [RunPc.awake, Bool.toNat_true, Bool.toNat_false]
      omega
    next => cases hs
  | test i =>
    simp only [ThreadPool.step] at hs
    split at hs
    next hw =>
      split at hs
      next hl => cases Option.some.inj hs; exact h.test hw hl
      next => cases hs
    next => cases hs
  | take i =>
    simp only [ThreadPool.step] at hs
    split at hs
    next hw => cases Option.some.inj hs; exact h.take hw
    next => cases hs
  | done i =>
    simp only [ThreadPool.step] at hs
    split at hs
    next hw =>
      cases Option.some.inj hs
      exact h.setWorker (v := s.queueStat) hw (by simp) (by simp) (Or.inr (by simp [RunPc.awake]))
    next => cases hs

/-- Every run of the pool, with spurious returns of the wait. -/
theorem threadPool_sound [DecidableEq α] (maxRequests : MaxRequests) (states : α → Int)
    (threadNumber callers : Nat) (as : List (PoolAct α)) :
    Along step Sound (start maxRequests states threadNumber callers) as :=
  along_of_step Inv (fun _ _ _ h hs => h.step hs) (fun _ h => h.sound)
    (start_inv maxRequests states threadNumber callers) as

end ThreadPool

end CppInAction
