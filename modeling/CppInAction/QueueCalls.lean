import CppInAction.Run
import CppInAction.Threads
import Mathlib.Algebra.Ring.Int.Defs

namespace CppInAction

/-- What a call gives back: nothing yet, nothing, a truth value, true with an item, a
number, or an access outside the array. -/
inductive Reply (α : Type)
  | waits
  | done
  | bool (b : Bool)
  | item (x : α)
  | int (n : Int)
  | outOfBounds
deriving DecidableEq, Repr

/-- Where a thread is: outside, or in the wait of one of the two pops. -/
inductive PopPc
  | outside
  | waiting
  | timed
deriving DecidableEq, Repr

/-- The calls, and the returns of the two waits: pthread_cond_wait may return at any time,
and pthread_cond_timedwait also with an error. -/
inductive QueueAct (α : Type)
  | push (thread : Nat) (x : α)
  | pop (thread : Nat)
  | wake (thread : Nat) (ok : Bool)
  | popTimed (thread : Nat)
  | wakeTimed (thread : Nat) (ok : Bool)
  | clear (thread : Nat)
  | full (thread : Nat)
  | empty (thread : Nat)
  | size (thread : Nat)
  | back (thread : Nat)
deriving DecidableEq, Repr

/-- The locked parts of the calls on a queue with states σ. -/
structure QueueOps (σ α : Type) where
  push : σ → α → σ × Reply α
  take : σ → σ × Reply α
  clear : σ → σ
  full : σ → Bool
  empty : σ → Bool
  size : σ → Int
  back : σ → Reply α

namespace QueueOps

variable {σ τ α : Type}

/-- The loop test of pop and what follows it; each turn waits or takes an item. -/
def tryPop (o : QueueOps σ α) (s : σ × List PopPc) (i : Nat) (wait : PopPc) :
    (σ × List PopPc) × Reply α :=
  if o.empty s.1 then ((s.1, s.2.set i wait), .waits)
  else (((o.take s.1).1, s.2.set i .outside), (o.take s.1).2)

/-- The end of the timed pop, which tests once. -/
def endPop (o : QueueOps σ α) (s : σ × List PopPc) (i : Nat) (ok : Bool) : (σ × List PopPc) × Reply α :=
  if !ok || o.empty s.1 then ((s.1, s.2.set i .outside), .bool false)
  else (((o.take s.1).1, s.2.set i .outside), (o.take s.1).2)

/-- A call of a thread that is outside. -/
def call (s : σ × List PopPc) (i : Nat) (r : (σ × List PopPc) × Reply α) :
    Option ((σ × List PopPc) × Reply α) :=
  if s.2[i]? = some .outside then some r else none

def step (o : QueueOps σ α) (s : σ × List PopPc) : QueueAct α → Option ((σ × List PopPc) × Reply α)
  | .push i x => call s i (((o.push s.1 x).1, s.2), (o.push s.1 x).2)
  | .pop i => call s i (o.tryPop s i .waiting)
  | .wake i ok =>
    if s.2[i]? = some .waiting then
      some (if ok then o.tryPop s i .waiting else ((s.1, s.2.set i .outside), .bool false))
    else none
  | .popTimed i => call s i (o.tryPop s i .timed)
  | .wakeTimed i ok => if s.2[i]? = some .timed then some (o.endPop s i ok) else none
  | .clear i => call s i ((o.clear s.1, s.2), .done)
  | .full i => call s i (s, .bool (o.full s.1))
  | .empty i => call s i (s, .bool (o.empty s.1))
  | .size i => call s i (s, .int (o.size s.1))
  | .back i => call s i (s, o.back s.1)

/-- The replies of a run up to the first call that is not possible. -/
def replies (o : QueueOps σ α) : σ × List PopPc → List (QueueAct α) → List (Reply α)
  | _, [] => []
  | s, a :: as => match o.step s a with
    | none => []
    | some (t, r) => r :: o.replies t as

/-- Related states give the same replies and related states. -/
structure Simulates (o : QueueOps σ α) (p : QueueOps τ α) (R : σ → τ → Prop) : Prop where
  push : ∀ {s t} x, R s t → R (o.push s x).1 (p.push t x).1 ∧ (o.push s x).2 = (p.push t x).2
  take : ∀ {s t}, R s t → p.empty t = false → R (o.take s).1 (p.take t).1 ∧ (o.take s).2 = (p.take t).2
  clear : ∀ {s t}, R s t → R (o.clear s) (p.clear t)
  full : ∀ {s t}, R s t → o.full s = p.full t
  empty : ∀ {s t}, R s t → o.empty s = p.empty t
  size : ∀ {s t}, R s t → o.size s = p.size t
  back : ∀ {s t}, R s t → o.back s = p.back t

/-- The states are related and the threads are at the same places. -/
def Beside (R : σ → τ → Prop) (s : σ × List PopPc) (t : τ × List PopPc) : Prop := R s.1 t.1 ∧ s.2 = t.2

variable {o : QueueOps σ α} {p : QueueOps τ α} {R : σ → τ → Prop} {s : σ × List PopPc} {t : τ × List PopPc}

theorem Simulates.tryPop (h : o.Simulates p R) (hs : Beside R s t) (i : Nat) (wait : PopPc) :
    Beside R (o.tryPop s i wait).1 (p.tryPop t i wait).1 ∧ (o.tryPop s i wait).2 = (p.tryPop t i wait).2 := by
  unfold QueueOps.tryPop
  rw [h.empty hs.1, hs.2]
  split
  next => exact ⟨⟨hs.1, rfl⟩, rfl⟩
  next he =>
    obtain ⟨hr, heq⟩ := h.take hs.1 (Bool.eq_false_iff.mpr he)
    exact ⟨⟨hr, rfl⟩, heq⟩

theorem Simulates.endPop (h : o.Simulates p R) (hs : Beside R s t) (i : Nat) (ok : Bool) :
    Beside R (o.endPop s i ok).1 (p.endPop t i ok).1 ∧ (o.endPop s i ok).2 = (p.endPop t i ok).2 := by
  unfold QueueOps.endPop
  rw [h.empty hs.1, hs.2]
  split
  next => exact ⟨⟨hs.1, rfl⟩, rfl⟩
  next he =>
    have hempty : p.empty t.1 = false := by
      cases hp : p.empty t.1 <;> simp [hp] at he ⊢
    obtain ⟨hr, heq⟩ := h.take hs.1 hempty
    exact ⟨⟨hr, rfl⟩, heq⟩

/-- Both runs can take the step or neither can, with the same reply. -/
def Agree (R : σ → τ → Prop) :
    Option ((σ × List PopPc) × Reply α) → Option ((τ × List PopPc) × Reply α) → Prop
  | none, none => True
  | some x, some y => Beside R x.1 y.1 ∧ x.2 = y.2
  | _, _ => False

theorem agree_ite {c c' : Prop} [Decidable c] [Decidable c'] (hc : c ↔ c') {x : (σ × List PopPc) × Reply α}
    {y : (τ × List PopPc) × Reply α} (h : Beside R x.1 y.1 ∧ x.2 = y.2) :
    Agree R (if c then some x else none) (if c' then some y else none) := by
  by_cases hc' : c'
  · rw [if_pos hc', if_pos (hc.mpr hc')]
    exact h
  · rw [if_neg hc', if_neg (hc.not.mpr hc')]
    trivial

theorem Simulates.step (h : o.Simulates p R) (hs : Beside R s t) (a : QueueAct α) :
    Agree R (o.step s a) (p.step t a) := by
  have hpc : ∀ (i : Nat) (pc : PopPc), s.2[i]? = some pc ↔ t.2[i]? = some pc := fun i pc => by rw [hs.2]
  cases a with
  | push i x => exact agree_ite (hpc i _) ⟨⟨(h.push x hs.1).1, hs.2⟩, (h.push x hs.1).2⟩
  | pop i => exact agree_ite (hpc i _) (h.tryPop hs i .waiting)
  | wake i ok =>
    refine agree_ite (hpc i _) ?_
    cases ok with
    | true => exact h.tryPop hs i .waiting
    | false => exact ⟨⟨hs.1, congrArg (·.set i .outside) hs.2⟩, rfl⟩
  | popTimed i => exact agree_ite (hpc i _) (h.tryPop hs i .timed)
  | wakeTimed i ok => exact agree_ite (hpc i _) (h.endPop hs i ok)
  | clear i => exact agree_ite (hpc i _) ⟨⟨h.clear hs.1, hs.2⟩, rfl⟩
  | full i => exact agree_ite (hpc i _) ⟨hs, congrArg Reply.bool (h.full hs.1)⟩
  | empty i => exact agree_ite (hpc i _) ⟨hs, congrArg Reply.bool (h.empty hs.1)⟩
  | size i => exact agree_ite (hpc i _) ⟨hs, congrArg Reply.int (h.size hs.1)⟩
  | back i => exact agree_ite (hpc i _) ⟨hs, h.back hs.1⟩

theorem Simulates.replies (h : o.Simulates p R) (hs : Beside R s t) (as : List (QueueAct α)) :
    o.replies s as = p.replies t as := by
  induction as generalizing s t with
  | nil => rfl
  | cons a as ih =>
    have hstep := h.step hs a
    cases hx : o.step s a with
    | none =>
      cases hy : p.step t a with
      | none => simp only [QueueOps.replies, hx, hy]
      | some y =>
        rw [hx, hy] at hstep
        exact absurd hstep id
    | some x =>
      cases hy : p.step t a with
      | none =>
        rw [hx, hy] at hstep
        exact absurd hstep id
      | some y =>
        rw [hx, hy] at hstep
        obtain ⟨hr, heq⟩ := hstep
        simp only [QueueOps.replies, hx, hy, heq]
        rw [ih hr]

/-- The state after a step. -/
def next (o : QueueOps σ α) (s : σ × List PopPc) (a : QueueAct α) : Option (σ × List PopPc) :=
  (o.step s a).map Prod.fst

/-- A run of one queue is a run of the other. -/
theorem Simulates.runSteps (h : o.Simulates p R) (hs : Beside R s t) (as : List (QueueAct α))
    {s' : σ × List PopPc} (hrun : CppInAction.runSteps o.next s as = some s') :
    ∃ t', CppInAction.runSteps p.next t as = some t' ∧ Beside R s' t' := by
  induction as generalizing s t with
  | nil =>
    cases Option.some.inj hrun
    exact ⟨t, rfl, hs⟩
  | cons a as ih =>
    rw [runSteps_cons] at hrun
    obtain ⟨u, hu, hrun⟩ := Option.bind_eq_some_iff.mp hrun
    obtain ⟨x, hx, rfl⟩ := Option.map_eq_some_iff.mp hu
    have hstep := h.step hs a
    rw [hx] at hstep
    cases hy : p.step t a with
    | none =>
      rw [hy] at hstep
      exact absurd hstep id
    | some y =>
      rw [hy] at hstep
      obtain ⟨t', ht', hs'⟩ := ih hstep.1 hrun
      refine ⟨t', ?_, hs'⟩
      rw [runSteps_cons, next, hy]
      exact ht'

/-- What the locked parts keep of a state and what they reply, every step keeps and replies. -/
structure Keeps (o : QueueOps σ α) (P : σ → Prop) (Q : Reply α → Prop) : Prop where
  push : ∀ s x, P s → P (o.push s x).1 ∧ Q (o.push s x).2
  take : ∀ s, P s → o.empty s = false → P (o.take s).1 ∧ Q (o.take s).2
  clear : ∀ s, P s → P (o.clear s)
  back : ∀ s, P s → Q (o.back s)
  other : ∀ r, (∀ x, r ≠ .item x) → r ≠ .outOfBounds → Q r

variable {P : σ → Prop} {Q : Reply α → Prop}

theorem Keeps.step (h : o.Keeps P Q) (hs : P s.1) {a : QueueAct α} {x : (σ × List PopPc) × Reply α}
    (hx : o.step s a = some x) : P x.1.1 ∧ Q x.2 := by
  have hpop : ∀ i wait, P (o.tryPop s i wait).1.1 ∧ Q (o.tryPop s i wait).2 := by
    intro i wait
    unfold tryPop
    split
    next => exact ⟨hs, h.other _ (by simp) (by simp)⟩
    next he => exact h.take s.1 hs (Bool.eq_false_iff.mpr he)
  have hite : ∀ {c : Prop} [Decidable c] {y : (σ × List PopPc) × Reply α},
      (if c then some y else none) = some x → P y.1.1 ∧ Q y.2 → P x.1.1 ∧ Q x.2 := by
    intro c _ y hy hkeeps
    split at hy
    next => exact Option.some.inj hy ▸ hkeeps
    next => cases hy
  cases a with
  | push i y => exact hite hx (h.push s.1 y hs)
  | pop i => exact hite hx (hpop i .waiting)
  | wake i ok =>
    refine hite hx ?_
    cases ok with
    | true => exact hpop i .waiting
    | false => exact ⟨hs, h.other _ (by simp) (by simp)⟩
  | popTimed i => exact hite hx (hpop i .timed)
  | wakeTimed i ok =>
    refine hite hx ?_
    unfold endPop
    split
    next => exact ⟨hs, h.other _ (by simp) (by simp)⟩
    next he =>
      have hempty : o.empty s.1 = false := by
        cases hp : o.empty s.1 <;> simp [hp] at he ⊢
      exact h.take s.1 hs hempty
  | clear i => exact hite hx ⟨h.clear s.1 hs, h.other _ (by simp) (by simp)⟩
  | full i => exact hite hx ⟨hs, h.other _ (by simp) (by simp)⟩
  | empty i => exact hite hx ⟨hs, h.other _ (by simp) (by simp)⟩
  | size i => exact hite hx ⟨hs, h.other _ (by simp) (by simp)⟩
  | back i => exact hite hx ⟨hs, h.back s.1 hs⟩

theorem Keeps.along (h : o.Keeps P Q) (hs : P s.1) (as : List (QueueAct α)) :
    Along o.next (fun s => P s.1) s as := by
  refine along_of_step (fun s : σ × List PopPc => P s.1) (fun s a t hs ht => ?_) (fun _ hs => hs) hs as
  obtain ⟨x, hx, rfl⟩ := Option.map_eq_some_iff.mp ht
  exact (h.step hs hx).1

theorem Keeps.replies (h : o.Keeps P Q) (hs : P s.1) (as : List (QueueAct α)) : ∀ r ∈ o.replies s as, Q r := by
  induction as generalizing s with
  | nil => exact fun r hr => absurd hr List.not_mem_nil
  | cons a as ih =>
    intro r hr
    simp only [QueueOps.replies] at hr
    split at hr
    next => cases hr
    next t r' hx =>
      obtain ⟨ht, hq⟩ := h.step hs hx
      rcases List.mem_cons.mp hr with rfl | hr
      · exact hq
      · exact ih ht r hr

end QueueOps

end CppInAction
