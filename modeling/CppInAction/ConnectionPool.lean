import CppInAction.Run
import CppInAction.Threads
import CppInAction.Locker

namespace CppInAction

/-- Where a thread is with its ConnectionRAII: outside, in front of reserve.wait(), behind
it, with a connection, with NULL, or in front of reserve.post(). -/
inductive RaiiPc
  | outside
  | tested
  | past
  | holding (conn : Nat)
  | null
  | posting
deriving DecidableEq, Repr

def RaiiPc.held : RaiiPc → Option Nat
  | .holding conn => some conn
  | _ => none

structure ConnectionPool where
  connList : List Nat
  freeConn : Int
  curConn : Int
  reserve : Sem
  threads : List RaiiPc
  fault : Bool
deriving DecidableEq, Repr

inductive ConnAct
  | test (thread : Nat)
  | wait (thread : Nat)
  | interrupt (thread : Nat)
  | take (thread : Nat)
  | release (thread : Nat)
  | post (thread : Nat)
deriving DecidableEq, Repr

namespace ConnectionPool

/-- The loop of init() that makes n connections. -/
def connect : Nat → ConnectionPool → ConnectionPool
  | 0, s => s
  | n + 1, s =>
    let s := s.connect n
    { s with connList := s.connList ++ [n], freeConn := s.freeConn + 1 }

/-- The pool after init(), with the threads that use it. -/
def init (n : Fin (2 ^ 31)) (threads : Nat) : ConnectionPool :=
  let s := connect n ⟨[], 0, 0, ⟨0⟩, List.replicate threads .outside, false⟩
  { s with reserve := ⟨s.freeConn.toNat⟩ }

def setThread (s : ConnectionPool) (i : Nat) (pc : RaiiPc) : ConnectionPool :=
  { s with threads := s.threads.set i pc }

/-- The locked part of GetConnection. -/
def take (s : ConnectionPool) (i : Nat) : ConnectionPool :=
  match s.connList with
  | [] => { s with fault := true }
  | conn :: rest => { s.setThread i (.holding conn) with
      connList := rest
      freeConn := s.freeConn - 1
      curConn := s.curConn + 1 }

/-- The locked part of ReleaseConnection. -/
def giveBack (s : ConnectionPool) (i conn : Nat) : ConnectionPool :=
  { s.setThread i .posting with
    connList := s.connList ++ [conn]
    freeConn := s.freeConn + 1
    curConn := s.curConn - 1 }

/-- With signals, sem_wait may return early with EINTR, which GetConnection does not see. -/
def step (signals : Bool) (s : ConnectionPool) : ConnAct → Option ConnectionPool
  | .test i => match s.threads[i]? with
    | some .outside => some (s.setThread i (if s.connList.isEmpty then .null else .tested))
    | _ => none
  | .wait i => match s.threads[i]? with
    | some .tested => s.reserve.wait.map fun v => { s.setThread i .past with reserve := v }
    | _ => none
  | .interrupt i => match s.threads[i]? with
    | some .tested => if signals then some (s.setThread i .past) else none
    | _ => none
  | .take i => match s.threads[i]? with
    | some .past => some (s.take i)
    | _ => none
  | .release i => match s.threads[i]? with
    | some (.holding conn) => some (s.giveBack i conn)
    | some .null => some (s.setThread i .outside)
    | _ => none
  | .post i => match s.threads[i]? with
    | some .posting => some { s.setThread i .outside with reserve := s.reserve.post }
    | _ => none

def held (s : ConnectionPool) : List Nat := s.threads.filterMap RaiiPc.held

/-- Every connection is in the list or with one thread, the counters count them, and
nothing was taken from an empty list. -/
def Balanced (n : Fin (2 ^ 31)) (s : ConnectionPool) : Prop :=
  (s.connList ++ s.held).Perm (List.range n) ∧ s.freeConn = s.connList.length ∧ s.freeConn + s.curConn = n ∧
    s.fault = false

structure Inv (n : Fin (2 ^ 31)) (s : ConnectionPool) : Prop where
  perm : (s.connList ++ s.held).Perm (List.range n)
  free : s.freeConn = s.connList.length
  sum : s.freeConn + s.curConn = n
  fault : s.fault = false
  permits : s.connList.length =
    s.reserve.value + s.threads.countP (· = .past) + s.threads.countP (· = .posting)

variable {n : Fin (2 ^ 31)} {s t : ConnectionPool} {i : Nat} {pc : RaiiPc}

theorem connect_eq (k : Nat) (s : ConnectionPool) :
    s.connect k = { s with connList := s.connList ++ List.range k, freeConn := s.freeConn + k } := by
  induction k with
  | zero => simp [connect]
  | succ k ih =>
    simp only [connect, ih, List.range_succ, List.append_assoc]
    congr 1
    omega

theorem init_inv (n : Fin (2 ^ 31)) (threads : Nat) : (init n threads).Inv n := by
  have hheld : (List.replicate threads RaiiPc.outside).filterMap RaiiPc.held = [] := by
    rw [List.filterMap_eq_nil_iff]
    intro pc hpc
    rw [(List.mem_replicate.mp hpc).2]
    rfl
  simp only [init, connect_eq]
  refine ⟨?_, ?_, ?_, rfl, ?_⟩
  · simp [held, hheld]
  · simp
  · simp
  · simp [List.countP_replicate]

theorem Inv.length_le (h : s.Inv n) : s.connList.length ≤ n := by
  have hlen := h.perm.length_eq
  rw [List.length_append, List.length_range] at hlen
  omega

/-- A thread moves on without a connection changing hands. -/
theorem Inv.move {a b : RaiiPc} {v : Sem} (h : s.Inv n) (hi : s.threads[i]? = some a) (hab : a.held = b.held)
    (hv : s.reserve.value + (decide (a = .past)).toNat + (decide (a = .posting)).toNat =
      v.value + (decide (b = .past)).toNat + (decide (b = .posting)).toNat) :
    Inv n { s.setThread i b with reserve := v } := by
  obtain ⟨rest, ha, hb⟩ := filterMap_move RaiiPc.held hi b
  have hpast := countP_move (· = RaiiPc.past) hi b
  have hpost := countP_move (· = RaiiPc.posting) hi b
  have hpermits := h.permits
  refine ⟨?_, h.free, h.sum, h.fault, ?_⟩
  · rw [hab] at ha
    exact ((hb.trans ha.symm).append_left s.connList).trans h.perm
  · change s.connList.length = v.value + (s.threads.set i b).countP (· = .past) +
      (s.threads.set i b).countP (· = .posting)
    omega

theorem Inv.take (h : s.Inv n) (hi : s.threads[i]? = some .past) : (s.take i).Inv n := by
  have hpermits := h.permits
  have hpos := countP_pos_of_at (p := (· = RaiiPc.past)) hi (by simp)
  have hne : s.connList ≠ [] := by
    intro hnil
    rw [hnil, List.length_nil] at hpermits
    omega
  obtain ⟨conn, rest, hl⟩ := List.exists_cons_of_ne_nil hne
  obtain ⟨others, ha, hb⟩ := filterMap_move RaiiPc.held hi (.holding conn)
  have hpast := countP_move (· = RaiiPc.past) hi (.holding conn)
  have hpost := countP_move (· = RaiiPc.posting) hi (.holding conn)
  have hfree := h.free
  have hsum := h.sum
  have hperm := h.perm
  simp only [hl, List.length_cons] at hpermits hfree
  simp only [ConnectionPool.take, hl]
  refine ⟨?_, ?_, ?_, h.fault, ?_⟩
  · change (rest ++ (s.threads.set i (.holding conn)).filterMap RaiiPc.held).Perm (List.range n)
    rw [hl, held] at hperm
    refine ((hb.append_left rest).trans ?_).trans hperm
    exact List.perm_middle.trans ((ha.symm.append_left rest).cons conn)
  · change s.freeConn - 1 = rest.length
    push_cast at hfree
    omega
  · change s.freeConn - 1 + (s.curConn + 1) = n
    omega
  · change rest.length = s.reserve.value + (s.threads.set i (.holding conn)).countP (· = .past) +
      (s.threads.set i (.holding conn)).countP (· = .posting)
    simp only [reduceCtorEq, decide_true, decide_false, Bool.toNat_true, Bool.toNat_false] at hpast hpost
    omega

theorem Inv.giveBack {conn : Nat} (h : s.Inv n) (hi : s.threads[i]? = some (.holding conn)) :
    (s.giveBack i conn).Inv n := by
  obtain ⟨others, ha, hb⟩ := filterMap_move RaiiPc.held hi .posting
  have hpast := countP_move (· = RaiiPc.past) hi .posting
  have hpost := countP_move (· = RaiiPc.posting) hi .posting
  have hpermits := h.permits
  have hfree := h.free
  have hsum := h.sum
  refine ⟨?_, ?_, ?_, h.fault, ?_⟩
  · change (s.connList ++ [conn] ++ (s.threads.set i .posting).filterMap RaiiPc.held).Perm (List.range n)
    rw [List.append_assoc]
    exact (((hb.append_left [conn]).trans ha.symm).append_left s.connList).trans h.perm
  · change s.freeConn + 1 = (s.connList ++ [conn]).length
    rw [List.length_append, List.length_singleton]
    push_cast
    omega
  · change s.freeConn + 1 + (s.curConn - 1) = n
    omega
  · change (s.connList ++ [conn]).length = s.reserve.value + (s.threads.set i .posting).countP (· = .past) +
      (s.threads.set i .posting).countP (· = .posting)
    rw [List.length_append, List.length_singleton]
    simp only [reduceCtorEq, decide_true, decide_false, Bool.toNat_true, Bool.toNat_false] at hpast hpost
    omega

theorem Inv.post (h : s.Inv n) (hi : s.threads[i]? = some .posting) :
    Inv n { s.setThread i .outside with reserve := s.reserve.post } := by
  have hpermits := h.permits
  have hlen := h.length_le
  have hpos := countP_pos_of_at (p := (· = RaiiPc.posting)) hi (by simp)
  have hlt : s.reserve.value < semValueMax := by
    have hn := n.isLt
    unfold semValueMax
    omega
  refine h.move hi rfl ?_
  rw [Sem.post_value hlt]
  simp

/-- What one step does, with the place its thread was at. -/
inductive Moved (signals : Bool) (s : ConnectionPool) : ConnAct → ConnectionPool → Prop
  | test {i : Nat} (hi : s.threads[i]? = some .outside) :
    Moved signals s (.test i) (s.setThread i (if s.connList.isEmpty then .null else .tested))
  | wait {i : Nat} {v : Sem} (hi : s.threads[i]? = some .tested) (hv : s.reserve.wait = some v) :
    Moved signals s (.wait i) { s.setThread i .past with reserve := v }
  | interrupt {i : Nat} (hi : s.threads[i]? = some .tested) (hsig : signals = true) :
    Moved signals s (.interrupt i) (s.setThread i .past)
  | take {i : Nat} (hi : s.threads[i]? = some .past) : Moved signals s (.take i) (s.take i)
  | giveBack {i conn : Nat} (hi : s.threads[i]? = some (.holding conn)) :
    Moved signals s (.release i) (s.giveBack i conn)
  | leave {i : Nat} (hi : s.threads[i]? = some .null) : Moved signals s (.release i) (s.setThread i .outside)
  | post {i : Nat} (hi : s.threads[i]? = some .posting) :
    Moved signals s (.post i) { s.setThread i .outside with reserve := s.reserve.post }

theorem step_moved {signals : Bool} {a : ConnAct} (hs : s.step signals a = some t) : Moved signals s a t := by
  cases a with
  | test i =>
    simp only [ConnectionPool.step] at hs
    split at hs
    next hi => cases Option.some.inj hs; exact .test hi
    next => cases hs
  | wait i =>
    simp only [ConnectionPool.step] at hs
    split at hs
    next hi =>
      obtain ⟨v, hv, rfl⟩ := Option.map_eq_some_iff.mp hs
      exact .wait hi hv
    next => cases hs
  | interrupt i =>
    simp only [ConnectionPool.step] at hs
    split at hs
    next hi =>
      split at hs
      next hsig => cases Option.some.inj hs; exact .interrupt hi hsig
      next => cases hs
    next => cases hs
  | take i =>
    simp only [ConnectionPool.step] at hs
    split at hs
    next hi => cases Option.some.inj hs; exact .take hi
    next => cases hs
  | release i =>
    simp only [ConnectionPool.step] at hs
    split at hs
    next hi => cases Option.some.inj hs; exact .giveBack hi
    next hi => cases Option.some.inj hs; exact .leave hi
    next => cases hs
  | post i =>
    simp only [ConnectionPool.step] at hs
    split at hs
    next hi => cases Option.some.inj hs; exact .post hi
    next => cases hs

/-- Only an early return of sem_wait upsets the permits. -/
theorem Inv.step {signals : Bool} {a : ConnAct} (h : s.Inv n) (ha : signals = false ∨ ∀ j, a ≠ .interrupt j)
    (hs : s.step signals a = some t) : t.Inv n := by
  cases step_moved hs with
  | test hi => refine h.move (v := s.reserve) hi ?_ ?_ <;> cases s.connList.isEmpty <;> rfl
  | wait hi hv =>
    refine h.move hi rfl ?_
    rw [Sem.wait_value hv]
    simp
  | @interrupt i hi hsig =>
    have hfalse : signals = false := ha.resolve_right fun hne => hne i rfl
    rw [hsig] at hfalse
    cases hfalse
  | take hi => exact h.take hi
  | giveBack hi => exact h.giveBack hi
  | leave hi => exact h.move (v := s.reserve) hi rfl rfl
  | post hi => exact h.post hi

theorem Inv.balanced (h : s.Inv n) : s.Balanced n := ⟨h.perm, h.free, h.sum, h.fault⟩

/-- Every run of any number of threads in which sem_wait returns with a permit only. -/
theorem connectionPool_balanced (n : Fin (2 ^ 31)) (threads : Nat) (as : List ConnAct) :
    Along (step false) (Balanced n) (init n threads) as :=
  along_of_step (Inv n) (fun _ _ _ h hs => h.step (Or.inl rfl) hs) (fun _ h => h.balanced)
    (init_inv n threads) as

/-- No caller got NULL or took from an empty list, and none is let through while all
connections are in use. -/
def Serves (s : ConnectionPool) : Prop :=
  s.fault = false ∧ RaiiPc.null ∉ s.threads ∧ (s.connList = [] → RaiiPc.past ∉ s.threads)

instance (s : ConnectionPool) : Decidable s.Serves := inferInstanceAs (Decidable (_ ∧ _ ∧ (_ → _)))

/-- The size test finds a connection in the list, and no signal ends a wait. -/
def Patient (s : ConnectionPool) : ConnAct → Prop
  | .test _ => s.connList ≠ []
  | .interrupt _ => False
  | _ => True

instance (s : ConnectionPool) (a : ConnAct) : Decidable (s.Patient a) :=
  match a with
  | .test _ => inferInstanceAs (Decidable (_ ≠ _))
  | .wait _ => .isTrue trivial
  | .interrupt _ => .isFalse id
  | .take _ => .isTrue trivial
  | .release _ => .isTrue trivial
  | .post _ => .isTrue trivial

theorem Inv.serves (h : s.Inv n) (hnull : RaiiPc.null ∉ s.threads) : s.Serves := by
  refine ⟨h.fault, hnull, fun hnil hpast => ?_⟩
  have hpermits := h.permits
  have hpos : 0 < s.threads.countP (· = .past) := List.countP_pos_iff.mpr ⟨_, hpast, by simp⟩
  rw [hnil, List.length_nil] at hpermits
  omega

theorem null_not_mem_set (h : RaiiPc.null ∉ s.threads) (hpc : pc ≠ .null) : RaiiPc.null ∉ s.threads.set i pc := by
  intro hm
  rcases List.mem_or_eq_of_mem_set hm with hm | heq
  · exact h hm
  · exact hpc heq.symm

theorem step_null {signals : Bool} {a : ConnAct} (h : RaiiPc.null ∉ s.threads) (ha : s.Patient a)
    (hs : s.step signals a = some t) : RaiiPc.null ∉ t.threads := by
  cases step_moved hs with
  | test hi =>
    have hne : s.connList.isEmpty = false := by simpa [Patient] using ha
    exact null_not_mem_set h (by rw [hne]; simp)
  | wait hi hv => exact null_not_mem_set h (by simp)
  | interrupt hi hsig => exact absurd ha id
  | take hi =>
    unfold ConnectionPool.take
    split
    next => exact h
    next => exact null_not_mem_set h (by simp)
  | giveBack hi => exact null_not_mem_set h (by simp)
  | leave hi => exact null_not_mem_set h (by simp)
  | post hi => exact null_not_mem_set h (by simp)

/-- Nobody gets NULL in a run in which every size test finds a connection and no wait is
cut short. -/
theorem connectionPool_serves_of_patient (signals : Bool) (n : Fin (2 ^ 31)) (threads : Nat)
    (as : List ConnAct) (h : StepsMeet (step signals) Patient (init n threads) as) :
    Along (step signals) Serves (init n threads) as := by
  refine along_of_invariant (fun s => s.Inv n ∧ RaiiPc.null ∉ s.threads) ?_ ?_ ⟨init_inv n threads, ?_⟩ h
  · intro s a t hinv ha hs
    refine ⟨hinv.1.step (Or.inr fun j heq => ?_) hs, step_null hinv.2 ha hs⟩
    rw [heq] at ha
    exact ha
  · exact fun s hinv => hinv.1.serves hinv.2
  · simp only [init, connect_eq]
    intro hm
    cases (List.mem_replicate.mp hm).2

/-- Two threads take turns with one connection. -/
def takingTurns : List ConnAct :=
  [.test 0, .test 1, .wait 0, .take 0, .release 0, .post 0, .wait 1, .take 1, .release 1, .post 1]

theorem connectionPool_serves_of_patient_takingTurns :
    StepsMeet (step true) Patient (init 1 2) takingTurns ∧ Along (step true) Serves (init 1 2) takingTurns :=
  ⟨by decide, connectionPool_serves_of_patient true 1 2 takingTurns (by decide)⟩

/-- With one connection in use the second caller gets NULL at once. -/
theorem connectionPool_not_always_serves :
    ¬ ∀ (signals : Bool) (n : Fin (2 ^ 31)) (threads : Nat) (as : List ConnAct), 1 ≤ n →
      Along (step signals) Serves (init n threads) as := by
  intro h
  exact absurd (h false 1 2 [.test 0, .wait 0, .take 0, .test 1] (by decide)) (by decide)

end ConnectionPool

end CppInAction
