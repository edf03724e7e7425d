import CppInAction.HttpConn
import CppInAction.Run

namespace CppInAction

/-- Where the main thread stands in deal_with_read or deal_with_write. -/
inductive MainPc
  | renewFirst (ev : Ev)
  | append (ev : Ev)
  | poll (ev : Ev)
  | sawImprov (ev : Ev)
  | remove (ev : Ev)
  | clearFlag (ev : Ev)
  | clearImprov (ev : Ev)
  | read
  | appendP
  | write
  | renewLast
  | removeLast
deriving DecidableEq, Repr

/-- Where a worker stands with the request it has taken. -/
inductive WorkerPc
  | reading | writing | improvRead | improvWrite | improvFail | flagFail | processing
deriving DecidableEq, Repr

/-- m_improv and m_timer_flag, which only hold 0 and 1. -/
structure Flags where
  improv : Bool
  timerFlag : Bool
deriving DecidableEq, Repr

/-- The first statement of the handler for an event. -/
def MainPc.enter (reactor : Bool) : Ev → MainPc
  | .epollin => if reactor then .renewFirst .epollin else .read
  | .epollout => if reactor then .renewFirst .epollout else .write

/-- What a worker does first with a request; m_state is only looked at in reactor mode. -/
def WorkerPc.start (reactor : Bool) : Ev → WorkerPc
  | .epollin => if reactor then .reading else .processing
  | .epollout => if reactor then .writing else .processing

/-- The statements of the wait loops that only look at the flags or clear them. The
loop for a write clears both flags in one round and then falls through to the write. -/
def MainPc.onFlags (f : Flags) : MainPc → Option (Option MainPc × Flags)
  | .poll ev => some (if f.improv then some (.sawImprov ev) else some (.poll ev), f)
  | .sawImprov ev => some (if f.timerFlag then some (.remove ev) else some (.clearImprov ev), f)
  | .clearFlag .epollin => some (some (.poll .epollin), { f with timerFlag := false })
  | .clearFlag .epollout => some (some (.clearImprov .epollout), { f with timerFlag := false })
  | .clearImprov .epollin => some (none, { f with improv := false })
  | .clearImprov .epollout => some (some .write, { f with improv := false })
  | _ => none

/-- The stores of a worker to the flags. -/
def WorkerPc.onFlags (f : Flags) : WorkerPc → Option (Option WorkerPc × Flags)
  | .improvRead => some (some .processing, { f with improv := true })
  | .improvWrite => some (none, { f with improv := true })
  | .improvFail => some (some .flagFail, { f with improv := true })
  | .flagFail => some (none, { f with timerFlag := true })
  | _ => none

/-- The calls made for a connection. -/
inductive Call
  | readOnce (ok : Bool) | write (ok : Bool) | process | delTimer
deriving DecidableEq, Repr

/-- One connection between the two threads: at most one request of it is queued
or taken, since its events are one-shot. -/
structure Control where
  reactor : Bool
  flags : Flags
  main : Option MainPc
  queued : Option Ev
  worker : Option WorkerPc
deriving DecidableEq, Repr

def Control.quiescent (s : Control) : Bool := s.main = none && s.queued = none && s.worker = none

/-- The results a step may meet: of read_once or write, of the queue, and whether
write ran init(). -/
structure Outcome where
  ok : Bool
  full : Bool
  inits : Bool
deriving DecidableEq, Repr

/-- The calls of a step, and the event it decided with its result. -/
structure Effect where
  calls : List Call
  decided : Option (Ev × Bool)
deriving DecidableEq, Repr

def Effect.none : Effect := ⟨[], .none⟩

def Flags.afterWrite (f : Flags) (r : Outcome) : Flags := if r.ok && r.inits then ⟨false, false⟩ else f

def Control.mainStep (s : Control) (r : Outcome) : Option (Control × Effect) := do
  let pc ← s.main
  match pc with
  | .renewFirst ev => some ({ s with main := some (.append ev) }, .none)
  | .append ev =>
    some ({ s with main := some (.poll ev), queued := if r.full then s.queued else some ev }, .none)
  | .remove ev => some ({ s with main := some (.clearFlag ev) }, ⟨[.delTimer], .none⟩)
  | .read =>
    some ({ s with main := some (if r.ok then .appendP else .removeLast) },
      ⟨[.readOnce r.ok], some (.epollin, r.ok)⟩)
  | .appendP =>
    some ({ s with main := some .renewLast, queued := if r.full then s.queued else some .epollin }, .none)
  | .write =>
    some ({ s with main := some (if r.ok then .renewLast else .removeLast), flags := s.flags.afterWrite r },
      ⟨[.write r.ok], if s.reactor then .none else some (.epollout, r.ok)⟩)
  | .renewLast => some ({ s with main := none }, .none)
  | .removeLast => some ({ s with main := none }, ⟨[.delTimer], .none⟩)
  | pc => (pc.onFlags s.flags).map fun x => ({ s with main := x.1, flags := x.2 }, .none)

def Control.workerStep (s : Control) (r : Outcome) : Option (Control × Effect) :=
  match s.worker, s.queued with
  | none, none => none
  | none, some ev => some ({ s with worker := some (.start s.reactor ev), queued := none }, .none)
  | some .reading, _ =>
    some ({ s with worker := some (if r.ok then .improvRead else .improvFail) },
      ⟨[.readOnce r.ok], some (.epollin, r.ok)⟩)
  | some .writing, _ =>
    some ({ s with worker := some (if r.ok then .improvWrite else .improvFail), flags := s.flags.afterWrite r },
      ⟨[.write r.ok], some (.epollout, r.ok)⟩)
  | some .processing, _ => some ({ s with worker := none }, ⟨[.process], .none⟩)
  | some pc, _ => (pc.onFlags s.flags).map fun x => ({ s with worker := x.1, flags := x.2 }, .none)

inductive ActorAct
  | event (ev : Ev)
  | main (r : Outcome)
  | worker (r : Outcome)
deriving DecidableEq, Repr

def Control.step (s : Control) : ActorAct → Option (Control × Effect)
  | .event ev =>
    if s.quiescent then some ({ s with main := some (.enter s.reactor ev) }, .none) else none
  | .main r => s.mainStep r
  | .worker r => s.workerStep r

/-- The event an action brings. -/
def ActorAct.brings : ActorAct → List Ev
  | .event ev => [ev]
  | .main _ => []
  | .worker _ => []

/-- A connection with its events so far, the decided ones with their results, and
the calls made. -/
structure Actor where
  control : Control
  events : List Ev
  history : List (Ev × Bool)
  log : List Call
deriving DecidableEq, Repr

def Actor.step (s : Actor) (a : ActorAct) : Option Actor :=
  (s.control.step a).map fun x =>
    ⟨x.1, s.events ++ a.brings, s.history ++ x.2.decided.toList, s.log ++ x.2.calls⟩

def Actor.start (reactor : Bool) : Actor := ⟨⟨reactor, ⟨false, false⟩, none, none, none⟩, [], [], []⟩

/-- The calls that belong to an event with its result, in either mode. -/
def block : Ev × Bool → List Call
  | (.epollin, true) => [.readOnce true, .process]
  | (.epollin, false) => [.readOnce false, .delTimer]
  | (.epollout, true) => [.write true]
  | (.epollout, false) => [.write false, .delTimer]

/-- The main thread waits for an answer that nobody will give. -/
def Control.stuck (s : Control) : Bool :=
  (s.main = some (.poll .epollin) || s.main = some (.poll .epollout)) && s.flags.improv = false &&
    s.queued = none && s.worker = none

/-- Whenever no event is being handled, every event has been decided and exactly
the calls of the events were made. -/
def Actor.Agrees (s : Actor) : Prop :=
  s.control.stuck = false ∧ (s.control.quiescent = true →
    s.history.map Prod.fst = s.events ∧ s.log = s.history.flatMap block)

/-- The statements that hand a request to the queue. -/
def MainPc.appends : MainPc → Bool
  | .append _ => true
  | .appendP => true
  | _ => false

def MainPc.readsFlag : MainPc → Bool
  | .sawImprov _ => true
  | _ => false

/-- The step is outside the defects: no write event in reactor mode, no request
refused by a full queue, and no look at m_timer_flag between the two stores of a
worker whose read has failed. -/
def Actor.Calm (s : Actor) : ActorAct → Prop
  | .event ev => s.control.reactor = true → ev = .epollin
  | .main r => (s.control.main.any MainPc.appends = true → r.full = false) ∧
      (s.control.main.any MainPc.readsFlag = true → s.control.worker ≠ some .flagFail)
  | .worker _ => True

instance (s : Actor) : Decidable s.Agrees := inferInstanceAs (Decidable (_ ∧ (_ → _)))

instance (s : Actor) (a : ActorAct) : Decidable (s.Calm a) :=
  match a with
  | .event _ => inferInstanceAs (Decidable (_ → _))
  | .main _ => inferInstanceAs (Decidable ((_ → _) ∧ (_ → _)))
  | .worker _ => inferInstanceAs (Decidable True)

/-- The control states that calm runs reach, with the event in hand while it is
undecided and the calls that are still to come for it. -/
inductive Control.Owes : Control → List Ev → List Call → Prop
  | idle (b : Bool) : Owes ⟨b, ⟨false, false⟩, none, none, none⟩ [] []
  | read : Owes ⟨false, ⟨false, false⟩, some .read, none, none⟩ [.epollin] []
  | write : Owes ⟨false, ⟨false, false⟩, some .write, none, none⟩ [.epollout] []
  | appendP : Owes ⟨false, ⟨false, false⟩, some .appendP, none, none⟩ [] [.process]
  | removeLast : Owes ⟨false, ⟨false, false⟩, some .removeLast, none, none⟩ [] [.delTimer]
  | queued {m : Option MainPc} (hm : m = some .renewLast ∨ m = none) :
      Owes ⟨false, ⟨false, false⟩, m, some .epollin, none⟩ [] [.process]
  | taken {m : Option MainPc} (hm : m = some .renewLast ∨ m = none) :
      Owes ⟨false, ⟨false, false⟩, m, none, some .processing⟩ [] [.process]
  | renewLast : Owes ⟨false, ⟨false, false⟩, some .renewLast, none, none⟩ [] []
  | renewFirst : Owes ⟨true, ⟨false, false⟩, some (.renewFirst .epollin), none, none⟩ [.epollin] []
  | append : Owes ⟨true, ⟨false, false⟩, some (.append .epollin), none, none⟩ [.epollin] []
  | waiting : Owes ⟨true, ⟨false, false⟩, some (.poll .epollin), some .epollin, none⟩ [.epollin] []
  | reading : Owes ⟨true, ⟨false, false⟩, some (.poll .epollin), none, some .reading⟩ [.epollin] []
  | improvRead : Owes ⟨true, ⟨false, false⟩, some (.poll .epollin), none, some .improvRead⟩ [] [.process]
  | processing {m : MainPc} (hm : m = .poll .epollin ∨ m = .sawImprov .epollin ∨ m = .clearImprov .epollin) :
      Owes ⟨true, ⟨true, false⟩, some m, none, some .processing⟩ [] [.process]
  | released : Owes ⟨true, ⟨false, false⟩, none, none, some .processing⟩ [] [.process]
  | answered {m : MainPc} (hm : m = .poll .epollin ∨ m = .sawImprov .epollin ∨ m = .clearImprov .epollin) :
      Owes ⟨true, ⟨true, false⟩, some m, none, none⟩ [] []
  | improvFail : Owes ⟨true, ⟨false, false⟩, some (.poll .epollin), none, some .improvFail⟩ [] [.delTimer]
  | flagFail {m : MainPc} (hm : m = .poll .epollin ∨ m = .sawImprov .epollin) :
      Owes ⟨true, ⟨true, false⟩, some m, none, some .flagFail⟩ [] [.delTimer]
  | failed {m : MainPc} (hm : m = .poll .epollin ∨ m = .sawImprov .epollin ∨ m = .remove .epollin) :
      Owes ⟨true, ⟨true, true⟩, some m, none, none⟩ [] [.delTimer]
  | removed : Owes ⟨true, ⟨true, true⟩, some (.clearFlag .epollin), none, none⟩ [] []

theorem Control.Owes.notStuck {s : Control} {u : List Ev} {w : List Call} (h : s.Owes u w) : s.stuck = false := by
  cases h with
  | queued hm => rcases hm with rfl | rfl <;> rfl
  | taken hm => rcases hm with rfl | rfl <;> rfl
  | processing hm => rcases hm with rfl | rfl | rfl <;> rfl
  | answered hm => rcases hm with rfl | rfl | rfl <;> rfl
  | flagFail hm => rcases hm with rfl | rfl <;> rfl
  | failed hm => rcases hm with rfl | rfl | rfl <;> rfl
  | _ => rfl

theorem Control.Owes.quiescent {s : Control} {u : List Ev} {w : List Call} (h : s.Owes u w)
    (hq : s.quiescent = true) : u = [] ∧ w = [] := by
  cases h with
  | idle => exact ⟨rfl, rfl⟩
  | _ => simp_all [Control.quiescent]

/-- What a step does to the undecided event and to the calls still owed. -/
def Control.Pays (u : List Ev) (w : List Call) (x : Control × Effect) : Prop :=
  ∃ u' w', x.1.Owes u' w' ∧ x.2.decided.toList.map Prod.fst ++ u' = u ∧
    x.2.calls ++ w' = w ++ x.2.decided.toList.flatMap block

theorem Control.Owes.event {s : Control} {u : List Ev} {w : List Call} {ev : Ev} {x : Control × Effect}
    (h : s.Owes u w) (hcalm : s.reactor = true → ev = .epollin) (hs : s.step (.event ev) = some x) :
    Control.Pays (u ++ [ev]) w x := by
  have hq : s.quiescent = true := by
    by_contra hq
    simp [Control.step, hq] at hs
  simp only [Control.step, hq, if_true, Option.some.injEq] at hs
  subst hs
  cases h with
  | idle b =>
    cases b with
    | false =>
      cases ev with
      | epollin => exact ⟨_, _, .read, rfl, rfl⟩
      | epollout => exact ⟨_, _, .write, rfl, rfl⟩
    | true =>
      cases hcalm rfl
      exact ⟨_, _, .renewFirst, rfl, rfl⟩
  | _ => simp [Control.quiescent] at hq

theorem Control.Owes.worker {s : Control} {u : List Ev} {w : List Call} {r : Outcome} {x : Control × Effect}
    (h : s.Owes u w) (hs : s.workerStep r = some x) : Control.Pays u w x := by
  cases h with
  | queued hm => cases Option.some.inj hs; exact ⟨_, _, .taken hm, rfl, rfl⟩
  | taken hm =>
    cases Option.some.inj hs
    rcases hm with rfl | rfl
    · exact ⟨_, _, .renewLast, rfl, rfl⟩
    · exact ⟨_, _, .idle false, rfl, rfl⟩
  | waiting => cases Option.some.inj hs; exact ⟨_, _, .reading, rfl, rfl⟩
  | reading =>
    cases Option.some.inj hs
    obtain ⟨ok, full, inits⟩ := r
    cases ok with
    | false => exact ⟨_, _, .improvFail, rfl, rfl⟩
    | true => exact ⟨_, _, .improvRead, rfl, rfl⟩
  | improvRead => cases Option.some.inj hs; exact ⟨_, _, .processing (Or.inl rfl), rfl, rfl⟩
  | processing hm => cases Option.some.inj hs; exact ⟨_, _, .answered hm, rfl, rfl⟩
  | released => cases Option.some.inj hs; exact ⟨_, _, .idle true, rfl, rfl⟩
  | improvFail => cases Option.some.inj hs; exact ⟨_, _, .flagFail (Or.inl rfl), rfl, rfl⟩
  | flagFail hm =>
    cases Option.some.inj hs
    exact ⟨_, _, .failed (hm.imp_right Or.inl), rfl, rfl⟩
  | _ => cases hs

theorem Control.Owes.main {s : Control} {u : List Ev} {w : List Call} {r : Outcome} {x : Control × Effect}
    (h : s.Owes u w)
    (hfull : s.main.any MainPc.appends = true → r.full = false)
    (hflag : s.main.any MainPc.readsFlag = true → s.worker ≠ some .flagFail)
    (hs : s.mainStep r = some x) : Control.Pays u w x := by
  cases h with
  | idle => cases hs
  | released => cases hs
  | read =>
    cases Option.some.inj hs
    obtain ⟨ok, full, inits⟩ := r
    cases ok with
    | false => exact ⟨_, _, .removeLast, rfl, rfl⟩
    | true => exact ⟨_, _, .appendP, rfl, rfl⟩
  | write =>
    cases Option.some.inj hs
    obtain ⟨ok, full, inits⟩ := r
    cases ok with
    | false => exact ⟨_, _, .removeLast, rfl, rfl⟩
    | true => cases inits <;> exact ⟨_, _, .renewLast, rfl, rfl⟩
  | appendP =>
    cases Option.some.inj hs
    rw [hfull rfl]
    exact ⟨_, _, .queued (Or.inl rfl), rfl, rfl⟩
  | removeLast => cases Option.some.inj hs; exact ⟨_, _, .idle false, rfl, rfl⟩
  | queued hm =>
    rcases hm with rfl | rfl
    · cases Option.some.inj hs; exact ⟨_, _, .queued (Or.inr rfl), rfl, rfl⟩
    · cases hs
  | taken hm =>
    rcases hm with rfl | rfl
    · cases Option.some.inj hs; exact ⟨_, _, .taken (Or.inr rfl), rfl, rfl⟩
    · cases hs
  | renewLast => cases Option.some.inj hs; exact ⟨_, _, .idle false, rfl, rfl⟩
  | renewFirst => cases Option.some.inj hs; exact ⟨_, _, .append, rfl, rfl⟩
  | append =>
    cases Option.some.inj hs
    rw [hfull rfl]
    exact ⟨_, _, .waiting, rfl, rfl⟩
  | waiting => cases Option.some.inj hs; exact ⟨_, _, .waiting, rfl, rfl⟩
  | reading => cases Option.some.inj hs; exact ⟨_, _, .reading, rfl, rfl⟩
  | improvRead => cases Option.some.inj hs; exact ⟨_, _, .improvRead, rfl, rfl⟩
  | improvFail => cases Option.some.inj hs; exact ⟨_, _, .improvFail, rfl, rfl⟩
  | processing hm =>
    rcases hm with rfl | rfl | rfl
    · cases Option.some.inj hs; exact ⟨_, _, .processing (Or.inr (Or.inl rfl)), rfl, rfl⟩
    · cases Option.some.inj hs; exact ⟨_, _, .processing (Or.inr (Or.inr rfl)), rfl, rfl⟩
    · cases Option.some.inj hs; exact ⟨_, _, .released, rfl, rfl⟩
  | answered hm =>
    rcases hm with rfl | rfl | rfl
    · cases Option.some.inj hs; exact ⟨_, _, .answered (Or.inr (Or.inl rfl)), rfl, rfl⟩
    · cases Option.some.inj hs; exact ⟨_, _, .answered (Or.inr (Or.inr rfl)), rfl, rfl⟩
    · cases Option.some.inj hs; exact ⟨_, _, .idle true, rfl, rfl⟩
  | flagFail hm =>
    rcases hm with rfl | rfl
    · cases Option.some.inj hs; exact ⟨_, _, .flagFail (Or.inr rfl), rfl, rfl⟩
    · exact absurd rfl (hflag rfl)
  | failed hm =>
    rcases hm with rfl | rfl | rfl
    · cases Option.some.inj hs; exact ⟨_, _, .failed (Or.inr (Or.inl rfl)), rfl, rfl⟩
    · cases Option.some.inj hs; exact ⟨_, _, .failed (Or.inr (Or.inr rfl)), rfl, rfl⟩
    · cases Option.some.inj hs; exact ⟨_, _, .removed, rfl, rfl⟩
  | removed => cases Option.some.inj hs; exact ⟨_, _, .answered (Or.inl rfl), rfl, rfl⟩

/-- The decided events with the one in hand are all events, and the log is the
calls of the decided ones, but for those still owed. -/
def Actor.Inv (s : Actor) : Prop :=
  ∃ u w, s.control.Owes u w ∧ s.history.map Prod.fst ++ u = s.events ∧
    s.log ++ w = s.history.flatMap block

theorem Actor.step_inv {s t : Actor} {a : ActorAct} (h : s.Inv) (hcalm : s.Calm a) (hs : s.step a = some t) :
    t.Inv := by
  obtain ⟨u, w, howes, hevents, hlog⟩ := h
  obtain ⟨x, hx, rfl⟩ := Option.map_eq_some_iff.mp hs
  have hpays : Control.Pays (u ++ a.brings) w x := by
    cases a with
    | event ev => exact howes.event hcalm hx
    | main r =>
      rw [ActorAct.brings, List.append_nil]
      exact howes.main hcalm.1 hcalm.2 hx
    | worker r =>
      rw [ActorAct.brings, List.append_nil]
      exact howes.worker hx
  obtain ⟨u', w', howes', hdecided, hcalls⟩ := hpays
  refine ⟨u', w', howes', ?_, ?_⟩
  · simp only [List.map_append, List.append_assoc, hdecided, ← hevents]
  · simp only [List.flatMap_append, ← hlog, List.append_assoc, hcalls]

theorem Actor.Inv.agrees {s : Actor} (h : s.Inv) : s.Agrees := by
  obtain ⟨u, w, howes, hevents, hlog⟩ := h
  refine ⟨howes.notStuck, fun hq => ?_⟩
  obtain ⟨rfl, rfl⟩ := howes.quiescent hq
  exact ⟨by simpa using hevents, by simpa using hlog⟩

/-- In either mode, a run that keeps clear of the defects makes exactly the calls of its events. -/
theorem actor_agrees_of_calm (reactor : Bool) (as : List ActorAct)
    (h : StepsMeet Actor.step Actor.Calm (Actor.start reactor) as) :
    Along Actor.step Actor.Agrees (Actor.start reactor) as :=
  along_of_invariant Actor.Inv (fun _ _ _ => Actor.step_inv) (fun _ => Actor.Inv.agrees)
    ⟨[], [], .idle reactor, rfl, rfl⟩ h

/-- A read that fails in reactor mode, with the worker done before the main thread looks. -/
def failedRead : List ActorAct :=
  let r : Outcome := ⟨false, false, false⟩
  [.event .epollin, .main r, .main r, .worker r, .worker r, .worker r, .worker r,
    .main r, .main r, .main r, .main r, .main r, .main r, .main r]

theorem actor_agrees_of_calm_failedRead :
    StepsMeet Actor.step Actor.Calm (Actor.start true) failedRead ∧
      Along Actor.step Actor.Agrees (Actor.start true) failedRead :=
  ⟨by decide, actor_agrees_of_calm true failedRead (by decide)⟩

/-- In reactor mode a write event is written by the worker and again by the main thread. -/
theorem actor_not_always_agrees :
    ¬ ∀ (reactor : Bool) (as : List ActorAct), Along Actor.step Actor.Agrees (Actor.start reactor) as := by
  intro h
  let r : Outcome := ⟨true, false, false⟩
  exact absurd (h true [.event .epollout, .main r, .main r, .worker r, .worker r, .worker r,
    .main r, .main r, .main r, .main r, .main r]) (by decide)

end CppInAction
