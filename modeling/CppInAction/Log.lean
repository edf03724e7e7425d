import CppInAction.BlockQueue

namespace CppInAction

/-- Where a thread is in write_log: outside, in front of the test with its record, in front
of the push, or in front of fputs. -/
inductive WritePc (α : Type)
  | outside
  | formatted (record : α)
  | pushing (record : α)
  | writing (record : α)
deriving DecidableEq, Repr

def WritePc.record {α : Type} : WritePc α → Option α
  | .outside => none
  | .formatted record => some record
  | .pushing record => some record
  | .writing record => some record

/-- Where the flush thread is: in pop, in front of fputs, or behind its loop. -/
inductive FlushPc (α : Type)
  | popping
  | writing (record : α)
  | stopped
deriving DecidableEq, Repr

def FlushPc.record {α : Type} : FlushPc α → Option α
  | .writing record => some record
  | _ => none

/-- The log with the threads that write to it; issued only records what was formatted. -/
structure Log (α : Type) where
  queue : Option (BlockQueue α × List PopPc)
  writers : List (WritePc α)
  flusher : FlushPc α
  file : List α
  issued : List α

inductive LogAct (α : Type)
  | format (writer : Nat) (record : α)
  | test (writer : Nat)
  | push (writer : Nat)
  | put (writer : Nat)
  | pop
  | wake (ok : Bool)
  | flush
deriving DecidableEq, Repr

namespace Log

variable {α : Type}

/-- The log after init(): a queue and a flush thread if max_queue_size is positive. -/
def init (maxQueueSize : Int) (junk : Int → α) (writers : Nat) : Log α where
  queue := if 0 < maxQueueSize then some (.new maxQueueSize junk, [.outside]) else none
  writers := List.replicate writers .outside
  flusher := if 0 < maxQueueSize then .popping else .stopped
  file := []
  issued := []

def setWriter (s : Log α) (i : Nat) (pc : WritePc α) : Log α := { s with writers := s.writers.set i pc }

/-- The test for the queue, which is only asked when there is one. -/
def hasRoom (s : Log α) : Bool := s.queue.any fun q => !q.1.full

/-- What the loop of async_write_log does with the reply of pop. -/
def popped (s : Log α) (x : (BlockQueue α × List PopPc) × Reply α) : Log α :=
  { s with
    queue := some x.1
    flusher := match x.2 with
      | .item record => .writing record
      | .waits => .popping
      | _ => .stopped }

def step (s : Log α) : LogAct α → Option (Log α)
  | .format i record => match s.writers[i]? with
    | some .outside => some { s.setWriter i (.formatted record) with issued := s.issued ++ [record] }
    | _ => none
  | .test i => match s.writers[i]? with
    | some (.formatted record) => some (s.setWriter i (if s.hasRoom then .pushing record else .writing record))
    | _ => none
  | .push i => match s.writers[i]?, s.queue with
    | some (.pushing record), some q =>
      some { s.setWriter i .outside with queue := some ((q.1.push record).1, q.2) }
    | _, _ => none
  | .put i => match s.writers[i]? with
    | some (.writing record) => some { s.setWriter i .outside with file := s.file ++ [record] }
    | _ => none
  | .pop => match s.flusher, s.queue with
    | .popping, some q => (BlockQueue.ops.step q (.pop 0)).map s.popped
    | _, _ => none
  | .wake ok => match s.flusher, s.queue with
    | .popping, some q => (BlockQueue.ops.step q (.wake 0 ok)).map s.popped
    | _, _ => none
  | .flush => match s.flusher with
    | .writing record => some { s with file := s.file ++ [record], flusher := .popping }
    | _ => none

def queued (s : Log α) : List α := match s.queue with
  | none => []
  | some q => q.1.contents

/-- The records that a thread has in hand. -/
def inHand (s : Log α) : List α := s.writers.filterMap WritePc.record ++ s.flusher.record.toList

/-- The records that are formatted and not written yet. -/
def pending (s : Log α) : List α := s.queued ++ s.inHand

/-- Every record that was formatted is in one place: written, queued or in hand. -/
def Kept (s : Log α) : Prop := s.issued.Perm (s.file ++ (s.queued ++ s.inHand))

instance [DecidableEq α] (s : Log α) : Decidable s.Kept := inferInstanceAs (Decidable (List.Perm _ _))

/-- A push finds the queue as the test has left it: not full. -/
def FindsRoom (s : Log α) : LogAct α → Prop
  | .push _ => s.hasRoom = true
  | _ => True

variable {s t : Log α} {i : Nat}

structure Inv (s : Log α) : Prop where
  ring : ∀ q, s.queue = some q → ∃ f, q.1.Holds f
  kept : s.Kept

theorem init_inv (maxQueueSize : Int) (junk : Int → α) (writers : Nat) :
    (init maxQueueSize junk writers).Inv := by
  have hout : (List.replicate writers (WritePc.outside : WritePc α)).filterMap WritePc.record = [] := by
    rw [List.filterMap_eq_nil_iff]
    intro pc hpc
    rw [(List.mem_replicate.mp hpc).2]
    rfl
  by_cases hpos : 0 < maxQueueSize
  · have hholds := BlockQueue.new_holds (by omega : 1 ≤ maxQueueSize) junk
    refine ⟨fun q hq => ?_, ?_⟩
    · simp only [init, if_pos hpos] at hq
      cases Option.some.inj hq
      exact ⟨_, hholds⟩
    · simp [Kept, queued, inHand, init, hpos, hout, hholds.contents, Fifo.new, FlushPc.record]
  · refine ⟨fun q hq => ?_, ?_⟩
    · simp only [init, if_neg hpos] at hq
      cases hq
    · simp [Kept, queued, inHand, init, hpos, hout, FlushPc.record]

/-- A writer moves on with its record in hand. -/
theorem inHand_move {a b : WritePc α} (hi : s.writers[i]? = some a) (hab : a.record = b.record) :
    (s.setWriter i b).inHand.Perm s.inHand := by
  obtain ⟨rest, ha, hb⟩ := filterMap_move WritePc.record hi b
  rw [hab] at ha
  exact (hb.trans ha.symm).append_right _

/-- A writer that is done has its record no longer in hand. -/
theorem inHand_done {a : WritePc α} {record : α} (hi : s.writers[i]? = some a) (ha : a.record = some record) :
    s.inHand.Perm (record :: (s.setWriter i .outside).inHand) := by
  obtain ⟨rest, hp, hb⟩ := filterMap_move WritePc.record hi .outside
  rw [ha] at hp
  exact (hp.trans (hb.symm.cons record)).append_right _

/-- A writer that begins has its record in hand. -/
theorem inHand_new {record : α} (hi : s.writers[i]? = some .outside) :
    (s.setWriter i (.formatted record)).inHand.Perm (record :: s.inHand) := by
  obtain ⟨rest, ha, hb⟩ := filterMap_move WritePc.record hi (.formatted record)
  exact (hb.trans (ha.symm.cons record)).append_right _

theorem pending_format {record : α} (hi : s.writers[i]? = some .outside) :
    (pending { s.setWriter i (.formatted record) with issued := s.issued ++ [record] }).Perm (record :: s.pending) :=
  ((inHand_new hi).append_left s.queued).trans List.perm_middle

theorem pending_test {record : α} (hi : s.writers[i]? = some (.formatted record)) :
    (s.setWriter i (if s.hasRoom then .pushing record else .writing record)).pending.Perm s.pending := by
  refine (inHand_move hi ?_).append_left s.queued
  cases s.hasRoom <;> rfl

theorem pending_put {record : α} (hi : s.writers[i]? = some (.writing record)) :
    s.pending.Perm (record :: pending { s.setWriter i .outside with file := s.file ++ [record] }) :=
  ((inHand_done hi rfl).append_left s.queued).trans List.perm_middle

/-- A push with room moves the record to the queue, and without room drops it. -/
theorem pending_push {record : α} {q : BlockQueue α × List PopPc} {f : Fifo α} (hf : q.1.Holds f)
    (hi : s.writers[i]? = some (.pushing record)) (hq : s.queue = some q) :
    s.pending.Perm ((if q.1.full then [record] else []) ++
      pending { s.setWriter i .outside with queue := some ((q.1.push record).1, q.2) }) := by
  have hqueued : s.queued = q.1.contents := by
    rw [queued, hq]
  have hdone := (inHand_done hi rfl).append_left s.queued
  rw [hqueued] at hdone
  have hpushed : pending { s.setWriter i .outside with queue := some ((q.1.push record).1, q.2) } =
      (if q.1.full then q.1.contents else q.1.contents ++ [record]) ++ (s.setWriter i .outside).inHand := by
    rw [← hf.contents_push]
    rfl
  rw [pending, hqueued, hpushed]
  refine hdone.trans ?_
  cases q.1.full with
  | true => exact List.perm_middle
  | false =>
    simp only [Bool.false_eq_true, if_false, List.nil_append, List.append_assoc]
    exact List.Perm.refl _

theorem pending_pop {q : BlockQueue α × List PopPc} {x : (BlockQueue α × List PopPc) × Reply α} {a : QueueAct α}
    {f : Fifo α} (hf : q.1.Holds f) (hm : s.flusher = .popping) (hq : s.queue = some q)
    (ha : a = .pop 0 ∨ ∃ ok, a = .wake 0 ok) (hs : BlockQueue.ops.step q a = some x) :
    s.pending.Perm (s.popped x).pending := by
  have hcontents := (hf.popTurn ha hs).2
  have hqueued : s.queued = q.1.contents := by
    rw [queued, hq]
  have hhand : s.inHand = s.writers.filterMap WritePc.record := by
    rw [inHand, hm]
    exact List.append_nil _
  rw [pending, hqueued, hhand]
  rcases hcontents with ⟨heq, hne⟩ | ⟨record, hr, hc⟩
  · have hrecord : (s.popped x).inHand = s.writers.filterMap WritePc.record := by
      obtain ⟨p, r⟩ := x
      cases r with
      | item record => exact absurd rfl (hne record)
      | _ => exact List.append_nil _
    rw [pending, hrecord, ← heq]
    exact List.Perm.refl _
  · obtain ⟨p, r⟩ := x
    cases hr
    rw [hc]
    change (record :: p.1.contents ++ s.writers.filterMap WritePc.record).Perm
      (p.1.contents ++ (s.writers.filterMap WritePc.record ++ [record]))
    rw [← List.append_assoc]
    exact (List.perm_append_singleton record _).symm

theorem pending_flush {record : α} (hm : s.flusher = .writing record) :
    s.pending.Perm (record :: pending { s with file := s.file ++ [record], flusher := .popping }) := by
  have hhand : s.inHand = s.writers.filterMap WritePc.record ++ [record] := by
    rw [inHand, hm]
    rfl
  rw [pending, hhand]
  change (s.queued ++ (s.writers.filterMap WritePc.record ++ [record])).Perm
    (record :: (s.queued ++ (s.writers.filterMap WritePc.record ++ [])))
  rw [List.append_nil, ← List.append_assoc]
  exact List.perm_append_singleton record _

theorem Inv.format {record : α} (h : s.Inv) (hi : s.writers[i]? = some .outside) :
    Inv { s.setWriter i (.formatted record) with issued := s.issued ++ [record] } := by
  refine ⟨h.ring, (List.perm_append_singleton record s.issued).trans ?_⟩
  refine (h.kept.cons record).trans (List.perm_middle.symm.trans ?_)
  exact (pending_format hi).symm.append_left s.file

theorem Inv.test {record : α} (h : s.Inv) (hi : s.writers[i]? = some (.formatted record)) :
    (s.setWriter i (if s.hasRoom then .pushing record else .writing record)).Inv :=
  ⟨h.ring, h.kept.trans ((pending_test hi).symm.append_left s.file)⟩

/-- A record that is written leaves the pending ones for the file. -/
theorem Kept.write {record : α} (h : s.Kept) (hissued : t.issued = s.issued) (hfile : t.file = s.file ++ [record])
    (hpending : s.pending.Perm (record :: t.pending)) : t.Kept := by
  rw [Kept, hissued, hfile, List.append_assoc]
  exact h.trans (hpending.append_left s.file)

theorem Inv.put {record : α} (h : s.Inv) (hi : s.writers[i]? = some (.writing record)) :
    Inv { s.setWriter i .outside with file := s.file ++ [record] } :=
  ⟨h.ring, h.kept.write rfl rfl (pending_put hi)⟩

theorem Inv.push {record : α} {q : BlockQueue α × List PopPc} (h : s.Inv)
    (hi : s.writers[i]? = some (.pushing record)) (hq : s.queue = some q) :
    (∀ p, some ((q.1.push record).1, q.2) = some p → ∃ f, p.1.Holds f) ∧
      (s.hasRoom = true ↔ Kept { s.setWriter i .outside with queue := some ((q.1.push record).1, q.2) }) := by
  obtain ⟨f, hf⟩ := h.ring q hq
  refine ⟨fun p hp => ?_, ?_⟩
  · cases Option.some.inj hp
    exact ⟨_, (hf.push record).1⟩
  have hroom : s.hasRoom = !q.1.full := by
    rw [hasRoom, hq]
    rfl
  have hkept := h.kept.trans ((pending_push hf hi hq).append_left s.file)
  rw [hroom]
  cases hfull : q.1.full with
  | true =>
    refine ⟨fun hne => absurd hne (by decide), fun hp => ?_⟩
    have hlen := List.Perm.length_eq hp
    have hlen' := hkept.length_eq
    simp only [hfull, if_true, List.length_append, List.length_cons, List.length_nil, pending] at hlen hlen'
    simp only [setWriter] at hlen hlen'
    omega
  | false =>
    rw [hfull] at hkept
    exact ⟨fun _ => hkept, fun _ => rfl⟩

theorem Inv.pop {q : BlockQueue α × List PopPc} {x : (BlockQueue α × List PopPc) × Reply α} {a : QueueAct α}
    (h : s.Inv) (hm : s.flusher = .popping) (hq : s.queue = some q) (ha : a = .pop 0 ∨ ∃ ok, a = .wake 0 ok)
    (hs : BlockQueue.ops.step q a = some x) : (s.popped x).Inv := by
  obtain ⟨f, hf⟩ := h.ring q hq
  refine ⟨fun p hp => ?_, h.kept.trans ((pending_pop hf hm hq ha hs).append_left s.file)⟩
  cases Option.some.inj hp
  exact (hf.popTurn ha hs).1

theorem Inv.flush {record : α} (h : s.Inv) (hm : s.flusher = .writing record) :
    Inv { s with file := s.file ++ [record], flusher := .popping } :=
  ⟨h.ring, h.kept.write rfl rfl (pending_flush hm)⟩

/-- What a step finds and what it leaves. -/
inductive Stepped (s : Log α) : LogAct α → Log α → Prop
  | format {i : Nat} {record : α} (hi : s.writers[i]? = some .outside) :
    Stepped s (.format i record) { s.setWriter i (.formatted record) with issued := s.issued ++ [record] }
  | test {i : Nat} {record : α} (hi : s.writers[i]? = some (.formatted record)) :
    Stepped s (.test i) (s.setWriter i (if s.hasRoom then .pushing record else .writing record))
  | push {i : Nat} {record : α} {q : BlockQueue α × List PopPc} (hi : s.writers[i]? = some (.pushing record))
      (hq : s.queue = some q) :
    Stepped s (.push i) { s.setWriter i .outside with queue := some ((q.1.push record).1, q.2) }
  | put {i : Nat} {record : α} (hi : s.writers[i]? = some (.writing record)) :
    Stepped s (.put i) { s.setWriter i .outside with file := s.file ++ [record] }
  | pop {q : BlockQueue α × List PopPc} {x : (BlockQueue α × List PopPc) × Reply α} (hm : s.flusher = .popping)
      (hq : s.queue = some q) (hx : BlockQueue.ops.step q (.pop 0) = some x) : Stepped s .pop (s.popped x)
  | wake {ok : Bool} {q : BlockQueue α × List PopPc} {x : (BlockQueue α × List PopPc) × Reply α}
      (hm : s.flusher = .popping) (hq : s.queue = some q) (hx : BlockQueue.ops.step q (.wake 0 ok) = some x) :
    Stepped s (.wake ok) (s.popped x)
  | flush {record : α} (hm : s.flusher = .writing record) :
    Stepped s .flush { s with file := s.file ++ [record], flusher := .popping }

theorem stepped {a : LogAct α} (hs : s.step a = some t) : s.Stepped a t := by
  cases a with
  | format i record =>
    simp only [Log.step] at hs
    split at hs
    next hi => cases Option.some.inj hs; exact .format hi
    next => cases hs
  | test i =>
    simp only [Log.step] at hs
    split at hs
    next hi => cases Option.some.inj hs; exact .test hi
    next => cases hs
  | push i =>
    simp only [Log.step] at hs
    split at hs
    next hi hq => cases Option.some.inj hs; exact .push hi hq
    next => cases hs
  | put i =>
    simp only [Log.step] at hs
    split at hs
    next hi => cases Option.some.inj hs; exact .put hi
    next => cases hs
  | pop =>
    simp only [Log.step] at hs
    split at hs
    next hm hq =>
      obtain ⟨x, hx, rfl⟩ := Option.map_eq_some_iff.mp hs
      exact .pop hm hq hx
    next => cases hs
  | wake ok =>
    simp only [Log.step] at hs
    split at hs
    next hm hq =>
      obtain ⟨x, hx, rfl⟩ := Option.map_eq_some_iff.mp hs
      exact .wake hm hq hx
    next => cases hs
  | flush =>
    simp only [Log.step] at hs
    split at hs
    next hm => cases Option.some.inj hs; exact .flush hm
    next => cases hs

/-- A step keeps the records if and only if it is no push into a full queue. -/
theorem Inv.step {a : LogAct α} (h : s.Inv) (hs : s.step a = some t) :
    (∀ q, t.queue = some q → ∃ f, q.1.Holds f) ∧ (s.FindsRoom a ↔ t.Kept) := by
  have hinv : t.Inv → (∀ q, t.queue = some q → ∃ f, q.1.Holds f) ∧ (True ↔ t.Kept) := fun ht =>
    ⟨ht.ring, fun _ => ht.kept, fun _ => trivial⟩
  cases stepped hs with
  | format hi => exact hinv (h.format hi)
  | test hi => exact hinv (h.test hi)
  | push hi hq => exact h.push hi hq
  | put hi => exact hinv (h.put hi)
  | pop hm hq hx => exact hinv (h.pop hm hq (Or.inl rfl) hx)
  | wake hm hq hx => exact hinv (h.pop hm hq (Or.inr ⟨_, rfl⟩) hx)
  | flush hm => exact hinv (h.flush hm)

/-- The log keeps every record exactly in the runs in which no push finds a full queue. -/
theorem log_kept_iff_findsRoom (maxQueueSize : Int) (junk : Int → α) (writers : Nat) (as : List (LogAct α)) :
    Along step Kept (init maxQueueSize junk writers) as ↔
      StepsMeet step FindsRoom (init maxQueueSize junk writers) as := by
  refine along_iff_stepsMeet Inv (fun s a t h ha hs => ?_) (fun _ h => h.kept) (fun s a t h ha hs hk => ?_) as
    (init_inv maxQueueSize junk writers)
  · obtain ⟨hring, hroom⟩ := h.step hs
    exact ⟨hring, hroom.mp ha⟩
  · exact ha ((h.step hs).2.mpr hk)

/-- Two writers find one free place; the record of the second is dropped. -/
theorem log_not_always_kept : ¬ ∀ (maxQueueSize : Int) (junk : Int → Nat) (writers : Nat) (as : List (LogAct Nat)),
    Along step Kept (init maxQueueSize junk writers) as := by
  intro h
  exact absurd (h 1 (fun _ => 0) 2 [.format 0 1, .format 1 2, .test 0, .test 1, .push 0, .push 1]) (by decide)

end Log

end CppInAction
