import CppInAction.Actor

namespace CppInAction

/-- Where the worker is with the event: its request is queued, it is in front of read_once or
write, inside init() in front of one of its two stores to the flags, in front of a store of
its own, or done with the flags. -/
inductive ServePc
  | queued
  | calling
  | initFlag
  | initImprov
  | storing (pc : WorkerPc)
  | done
deriving DecidableEq, Repr

/-- The worker behind one of its stores; process() leaves the flags alone. -/
def ServePc.behind : Option WorkerPc → ServePc
  | some .flagFail => .storing .flagFail
  | _ => .done

/-- The two threads in reactor mode, for the event that was delivered last: what read_once or
write has returned for it and how often del_timer was called. -/
structure WaitLoop where
  ev : Ev
  main : Option MainPc
  worker : ServePc
  flags : Flags
  result : Option Bool
  delTimers : Nat
deriving DecidableEq, Repr

inductive WaitAct
  | event (ev : Ev) (full : Bool)
  | main
  | worker (ok inits : Bool)
deriving DecidableEq, Repr

namespace WaitLoop

/-- A connection after init(), before its first event. -/
def start : WaitLoop := ⟨.epollin, none, .done, ⟨false, false⟩, none, 0⟩

/-- The main thread is outside its wait loop; behind the one for writes it goes on to write. -/
def left (s : WaitLoop) : Bool := s.main = none || s.main = some .write

/-- read_once or write has returned; a write that ends a response runs init() first. -/
def called (s : WaitLoop) (ok inits : Bool) : WaitLoop :=
  if ok then
    match s.ev with
    | .epollin => { s with worker := .storing .improvRead, result := some true }
    | .epollout =>
      if inits then { s with worker := .initFlag }
      else { s with worker := .storing .improvWrite, result := some true }
  else { s with worker := .storing .improvFail, result := some false }

def workerStep (s : WaitLoop) (ok inits : Bool) : Option WaitLoop :=
  match s.worker with
  | .queued => some { s with worker := .calling }
  | .calling => some (s.called ok inits)
  | .initFlag => some { s with worker := .initImprov, flags := { s.flags with timerFlag := false } }
  | .initImprov =>
    some { s with
      worker := .storing .improvWrite
      flags := { s.flags with improv := false }
      result := some true }
  | .storing pc => (pc.onFlags s.flags).map fun x => { s with worker := .behind x.1, flags := x.2 }
  | .done => none

def mainStep (s : WaitLoop) : Option WaitLoop :=
  match s.main with
  | some (.remove ev) => some { s with main := some (.clearFlag ev), delTimers := s.delTimers + 1 }
  | some pc => (pc.onFlags s.flags).map fun x => { s with main := x.1, flags := x.2 }
  | none => none

/-- An event comes when the one before it is dealt with; a full queue refuses its request. -/
def step (s : WaitLoop) : WaitAct → Option WaitLoop
  | .event ev full =>
    if s.left ∧ s.worker = .done then
      some ⟨ev, some (.poll ev), if full then .done else .queued, s.flags, none, 0⟩
    else none
  | .main => s.mainStep
  | .worker ok inits => s.workerStep ok inits

/-- The statements of the loop are those of the handler. -/
theorem mainStep_control {s t : WaitLoop} (hs : s.mainStep = some t) (queued : Option Ev)
    (worker : Option WorkerPc) (r : Outcome) :
    ∃ e, Control.mainStep ⟨true, s.flags, s.main, queued, worker⟩ r =
      some (⟨true, t.flags, t.main, queued, worker⟩, e) ∧ t.delTimers = s.delTimers + e.calls.count .delTimer := by
  unfold mainStep at hs
  split at hs
  next ev hm =>
    cases Option.some.inj hs
    rw [hm]
    exact ⟨_, rfl, rfl⟩
  next pc hne hm =>
    obtain ⟨x, hx, rfl⟩ := Option.map_eq_some_iff.mp hs
    rw [hm]
    refine ⟨.none, ?_, rfl⟩
    cases pc with
    | poll ev => cases Option.some.inj hx; rfl
    | sawImprov ev => cases Option.some.inj hx; rfl
    | clearFlag ev => cases ev <;> cases Option.some.inj hx <;> rfl
    | clearImprov ev => cases ev <;> cases Option.some.inj hx <;> rfl
    | _ => cases hx
  next => cases hs

/-- Behind the loop, del_timer was called if and only if read_once or write had failed, and
both flags are clear. -/
def Settled (s : WaitLoop) : Prop :=
  s.left = true → (0 < s.delTimers ↔ s.result = some false) ∧ s.flags = ⟨false, false⟩

instance (s : WaitLoop) : Decidable s.Settled := inferInstanceAs (Decidable (_ → _))

/-- The main thread does not look at m_timer_flag between the two stores of a worker whose
read_once or write has failed. -/
def LooksLate (s : WaitLoop) : WaitAct → Prop
  | .main => s.main.any MainPc.readsFlag = true → s.worker ≠ .storing .flagFail
  | _ => True

instance (s : WaitLoop) : (a : WaitAct) → Decidable (s.LooksLate a)
  | .main => inferInstanceAs (Decidable (_ → _))
  | .event _ _ | .worker _ _ => inferInstanceAs (Decidable True)

/-- The states that such runs reach, from the delivery of an event to the way out. -/
inductive Phase : WaitLoop → Prop
  | outside {ev : Ev} {m : Option MainPc} {result : Option Bool} {n : Nat} (hm : m = none ∨ m = some .write)
      (hn : 0 < n ↔ result = some false) : Phase ⟨ev, m, .done, ⟨false, false⟩, result, n⟩
  | waiting {ev : Ev} {w : ServePc} (hw : w = .queued ∨ w = .calling ∨ w = .done) :
      Phase ⟨ev, some (.poll ev), w, ⟨false, false⟩, none, 0⟩
  | resetting {w : ServePc} (hw : w = .initFlag ∨ w = .initImprov) :
      Phase ⟨.epollout, some (.poll .epollout), w, ⟨false, false⟩, none, 0⟩
  | succeeded {ev : Ev} {pc : WorkerPc} (hpc : pc = .improvRead ∨ pc = .improvWrite) :
      Phase ⟨ev, some (.poll ev), .storing pc, ⟨false, false⟩, some true, 0⟩
  | answered {ev : Ev} {m : MainPc} (hm : m = .poll ev ∨ m = .sawImprov ev ∨ m = .clearImprov ev) :
      Phase ⟨ev, some m, .done, ⟨true, false⟩, some true, 0⟩
  | failing {ev : Ev} : Phase ⟨ev, some (.poll ev), .storing .improvFail, ⟨false, false⟩, some false, 0⟩
  | halfway {ev : Ev} {m : MainPc} (hm : m = .poll ev ∨ m = .sawImprov ev) :
      Phase ⟨ev, some m, .storing .flagFail, ⟨true, false⟩, some false, 0⟩
  | failed {ev : Ev} {m : MainPc} (hm : m = .poll ev ∨ m = .sawImprov ev ∨ m = .remove ev) :
      Phase ⟨ev, some m, .done, ⟨true, true⟩, some false, 0⟩
  | removed {ev : Ev} : Phase ⟨ev, some (.clearFlag ev), .done, ⟨true, true⟩, some false, 1⟩
  | cleared {ev : Ev} {m : MainPc} (hm : m = .poll ev ∨ m = .sawImprov ev ∨ m = .clearImprov ev) :
      Phase ⟨ev, some m, .done, ⟨true, false⟩, some false, 1⟩

variable {s t : WaitLoop}

theorem Phase.settled (h : s.Phase) : s.Settled := by
  intro hleft
  cases h with
  | outside hm hn => exact ⟨hn, rfl⟩
  | answered hm => rcases hm with rfl | rfl | rfl <;> exact Bool.noConfusion hleft
  | halfway hm => rcases hm with rfl | rfl <;> exact Bool.noConfusion hleft
  | failed hm => rcases hm with rfl | rfl | rfl <;> exact Bool.noConfusion hleft
  | cleared hm => rcases hm with rfl | rfl | rfl <;> exact Bool.noConfusion hleft
  | _ => exact Bool.noConfusion hleft

theorem Phase.event {ev : Ev} {full : Bool} (h : s.Phase) (hs : s.step (.event ev full) = some t) : t.Phase := by
  simp only [WaitLoop.step] at hs
  split at hs
  next hleft =>
    obtain ⟨_, hflags⟩ := h.settled hleft.1
    cases Option.some.inj hs
    rw [hflags]
    cases full with
    | true => exact .waiting (Or.inr (Or.inr rfl))
    | false => exact .waiting (Or.inl rfl)
  next => cases hs

theorem Phase.called {ev : Ev} (ok inits : Bool) :
    (WaitLoop.called ⟨ev, some (.poll ev), .calling, ⟨false, false⟩, none, 0⟩ ok inits).Phase := by
  cases ok with
  | false => exact .failing
  | true =>
    cases ev with
    | epollin => exact .succeeded (Or.inl rfl)
    | epollout =>
      cases inits with
      | false => exact .succeeded (Or.inr rfl)
      | true => exact .resetting (Or.inl rfl)

theorem Phase.worker {ok inits : Bool} (h : s.Phase) (hs : s.workerStep ok inits = some t) : t.Phase := by
  cases h with
  | waiting hw =>
    rcases hw with rfl | rfl | rfl
    · cases Option.some.inj hs; exact .waiting (Or.inr (Or.inl rfl))
    · cases Option.some.inj hs
      exact Phase.called ok inits
    · cases hs
  | resetting hw =>
    rcases hw with rfl | rfl
    · cases Option.some.inj hs; exact .resetting (Or.inr rfl)
    · cases Option.some.inj hs; exact .succeeded (Or.inr rfl)
  | succeeded hpc => rcases hpc with rfl | rfl <;> cases Option.some.inj hs <;> exact .answered (Or.inl rfl)
  | failing => cases Option.some.inj hs; exact .halfway (Or.inl rfl)
  | halfway hm =>
    cases Option.some.inj hs
    exact .failed (hm.imp_right Or.inl)
  | _ => cases hs

theorem Phase.main (h : s.Phase) (hlate : s.main.any MainPc.readsFlag = true → s.worker ≠ .storing .flagFail)
    (hs : s.mainStep = some t) : t.Phase := by
  cases h with
  | outside hm => rcases hm with rfl | rfl <;> cases hs
  | waiting hw => cases Option.some.inj hs; exact .waiting hw
  | resetting hw => cases Option.some.inj hs; exact .resetting hw
  | succeeded hpc => cases Option.some.inj hs; exact .succeeded hpc
  | failing => cases Option.some.inj hs; exact .failing
  | answered hm =>
    rcases hm with rfl | rfl | rfl
    · cases Option.some.inj hs; exact .answered (Or.inr (Or.inl rfl))
    · cases Option.some.inj hs; exact .answered (Or.inr (Or.inr rfl))
    · next ev =>
      cases ev with
      | epollin => cases Option.some.inj hs; exact .outside (Or.inl rfl) (by decide)
      | epollout => cases Option.some.inj hs; exact .outside (Or.inr rfl) (by decide)
  | halfway hm =>
    rcases hm with rfl | rfl
    · cases Option.some.inj hs; exact .halfway (Or.inr rfl)
    · exact absurd rfl (hlate rfl)
  | failed hm =>
    rcases hm with rfl | rfl | rfl
    · cases Option.some.inj hs; exact .failed (Or.inr (Or.inl rfl))
    · cases Option.some.inj hs; exact .failed (Or.inr (Or.inr rfl))
    · cases Option.some.inj hs; exact .removed
  | @removed ev =>
    cases ev with
    | epollin => cases Option.some.inj hs; exact .cleared (Or.inl rfl)
    | epollout => cases Option.some.inj hs; exact .cleared (Or.inr (Or.inr rfl))
  | cleared hm =>
    rcases hm with rfl | rfl | rfl
    · cases Option.some.inj hs; exact .cleared (Or.inr (Or.inl rfl))
    · cases Option.some.inj hs; exact .cleared (Or.inr (Or.inr rfl))
    · next ev =>
      cases ev with
      | epollin => cases Option.some.inj hs; exact .outside (Or.inl rfl) (by decide)
      | epollout => cases Option.some.inj hs; exact .outside (Or.inr rfl) (by decide)

/-- Every event of a run in which the main thread looks late is charged with its own outcome. -/
theorem waitLoop_settled_of_looksLate (as : List WaitAct) (h : StepsMeet step LooksLate start as) :
    Along step Settled start as := by
  refine along_of_invariant Phase (fun s a t hp ha hs => ?_) (fun _ hp => hp.settled)
    (.outside (Or.inl rfl) (by decide)) h
  cases a with
  | event ev full => exact hp.event hs
  | main => exact hp.main ha hs
  | worker ok inits => exact hp.worker hs

/-- A read that fails, with both stores made before the main thread looks, and then a write. -/
theorem waitLoop_settled_of_looksLate_twoEvents :
    Along step Settled start [.event .epollin false, .worker false false, .worker false false, .worker false false,
      .worker false false, .main, .main, .main, .main, .main, .main, .main, .event .epollout false, .main] :=
  waitLoop_settled_of_looksLate _ (by decide)

/-- The main thread looks at m_timer_flag before the worker has stored to it: it leaves the loop
without del_timer, and the flag is set behind it. -/
theorem waitLoop_not_always_settled : ¬ ∀ as, Along step Settled start as := by
  intro h
  exact absurd (h [.event .epollin false, .worker false false, .worker false false, .worker false false,
    .main, .main, .main, .worker false false]) (by decide)

end WaitLoop

end CppInAction
