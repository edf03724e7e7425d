import CppInAction.Run

namespace CppInAction

namespace EchoMpServer

/-- Where the handler read_childproc is; SIGCHLD is blocked while it runs. -/
inductive Handler where
  | idle
  | entered
  | waited
deriving DecidableEq, Repr

/-- The children by their pids, and the signal; a SIGCHLD that is pending already is not queued again. -/
structure Server where
  running : List Nat
  exited : List Nat
  pending : Bool
  handler : Handler
deriving DecidableEq, Repr

inductive Action where
  /-- The main loop has accepted a client and forks. -/
  | fork (pid : Nat)
  /-- A child ends its loop. -/
  | exit (pid : Nat)
  | deliver
  /-- waitpid(-1, &status, WNOHANG), with the child that it takes; none is a return without a child. -/
  | waitpid (pid : Option Nat)
  | handlerReturn
deriving DecidableEq, Repr

def start : Server := { running := [], exited := [], pending := false, handler := .idle }

/-- One action; none where it cannot be taken. The handler interrupts the main loop. -/
def step (s : Server) : Action → Option Server
  | .fork pid =>
    if s.handler = .idle ∧ pid ∉ s.running ∧ pid ∉ s.exited then some { s with running := s.running ++ [pid] }
    else none
  | .exit pid =>
    if pid ∈ s.running then
      some { s with running := s.running.erase pid, exited := s.exited ++ [pid], pending := true }
    else none
  | .deliver =>
    if s.pending ∧ s.handler = .idle then some { s with pending := false, handler := .entered } else none
  | .waitpid (some pid) =>
    if s.handler = .entered ∧ pid ∈ s.exited then
      some { s with exited := s.exited.erase pid, handler := .waited }
    else none
  | .waitpid none =>
    if s.handler = .entered ∧ s.exited = [] then some { s with handler := .waited } else none
  | .handlerReturn => if s.handler = .waited then some { s with handler := .idle } else none

/-- No signal is pending and no handler is running. -/
def Quiet (s : Server) : Prop := s.pending = false ∧ s.handler = .idle

instance (s : Server) : Decidable (Quiet s) := inferInstanceAs (Decidable (_ ∧ _))

/-- No child exits while the signal of another one is pending. -/
def Alone (s : Server) : Action → Prop
  | .exit _ => s.pending = false
  | _ => True

instance (s : Server) : (a : Action) → Decidable (Alone s a)
  | .exit _ => inferInstanceAs (Decidable (s.pending = false))
  | .fork _ | .deliver | .waitpid _ | .handlerReturn => inferInstanceAs (Decidable True)

/-- The calls of waitpid that are still to come for the signals there are. -/
def owed (s : Server) : Nat := (if s.pending then 1 else 0) + if s.handler = .entered then 1 else 0

variable {s t : Server} {a : Action} {as : List Action}

/-- A child that exits while a signal is pending is one more than the calls of waitpid to come. -/
theorem step_owed (h : step s a = some t) (howed : owed s ≤ s.exited.length) :
    ∃ lost, t.exited.length + owed s = s.exited.length + owed t + lost ∧ (lost = 0 ↔ Alone s a) := by
  cases a with
  | fork pid =>
    obtain ⟨_, ⟨⟩⟩ := Option.ite_none_right_eq_some.mp h
    exact ⟨0, rfl, iff_of_true rfl trivial⟩
  | exit pid =>
    obtain ⟨_, ⟨⟩⟩ := Option.ite_none_right_eq_some.mp h
    cases hp : s.pending with
    | false =>
      refine ⟨0, ?_, iff_of_true rfl hp⟩
      simp only [owed, hp, List.length_append, List.length_singleton, if_true, Bool.false_eq_true, if_false]
      omega
    | true =>
      refine ⟨1, ?_, iff_of_false Nat.one_ne_zero fun h : s.pending = false => ?_⟩
      · simp only [owed, hp, List.length_append, List.length_singleton, if_true]
        omega
      · cases hp.symm.trans h
  | deliver =>
    obtain ⟨⟨hp, hi⟩, ⟨⟩⟩ := Option.ite_none_right_eq_some.mp h
    refine ⟨0, ?_, iff_of_true rfl trivial⟩
    simp [owed, hp, hi]
  | waitpid child =>
    cases child with
    | some pid =>
      obtain ⟨⟨hi, hmem⟩, ⟨⟩⟩ := Option.ite_none_right_eq_some.mp h
      have hpos := List.length_pos_of_mem hmem
      refine ⟨0, ?_, iff_of_true rfl trivial⟩
      simp only [owed, hi, List.length_erase_of_mem hmem, if_true, reduceCtorEq, if_false]
      omega
    | none =>
      -- a handler that was entered always finds a child
      obtain ⟨⟨hi, hnil⟩, _⟩ := Option.ite_none_right_eq_some.mp h
      simp [owed, hi, hnil] at howed
  | handlerReturn =>
    obtain ⟨hi, ⟨⟩⟩ := Option.ite_none_right_eq_some.mp h
    exact ⟨0, by simp [owed, hi], iff_of_true rfl trivial⟩

theorem run_owed (h : runSteps step s as = some t) (howed : owed s ≤ s.exited.length) :
    ∃ lost, t.exited.length + owed s = s.exited.length + owed t + lost ∧
      (lost = 0 ↔ StepsMeet step Alone s as) := by
  induction as generalizing s with
  | nil =>
    cases Option.some.inj h
    exact ⟨0, rfl, iff_of_true rfl trivial⟩
  | cons a as ih =>
    rw [runSteps_cons] at h
    obtain ⟨u, hu, h⟩ := Option.bind_eq_some_iff.mp h
    obtain ⟨lost, hlost, halone⟩ := step_owed hu howed
    obtain ⟨later, hlater, hmeet⟩ := ih h (by omega)
    refine ⟨lost + later, by omega, ?_⟩
    rw [stepsMeet_cons_some hu, ← halone, ← hmeet]
    omega

/-- When no signal is pending and no handler is running, every child that exited has been
reaped exactly when no child exited while the signal of another one was pending. -/
theorem quiet_reaped_iff (h : runSteps step start as = some t) (hquiet : Quiet t) :
    t.exited = [] ↔ StepsMeet step Alone start as := by
  have hnone : owed start = 0 := rfl
  obtain ⟨lost, hlost, hmeet⟩ := run_owed h (Nat.zero_le _)
  have hdone : owed t = 0 := by simp [owed, hquiet.1, hquiet.2]
  have hstart : start.exited.length = 0 := rfl
  rw [← hmeet, ← List.length_eq_zero_iff]
  omega

/-- Two children, the second of which exits while the handler runs for the first. -/
theorem quiet_reaped_apart :
    ∃ as t, runSteps step start as = some t ∧ Action.exit 1 ∈ as ∧ Action.exit 2 ∈ as ∧
      Quiet t ∧ t.exited = [] := by
  have hrun : runSteps step start [.fork 1, .fork 2, .exit 1, .deliver, .exit 2, .waitpid (some 2), .handlerReturn,
      .deliver, .waitpid (some 1), .handlerReturn] = some start := rfl
  exact ⟨_, _, hrun, by decide, by decide, by decide, (quiet_reaped_iff hrun (by decide)).mpr (by decide)⟩

/-- Two children that exit before the signal is delivered: one call of waitpid for the two. -/
theorem quiet_not_always_reaped :
    ¬∀ as t, runSteps step start as = some t → Quiet t → t.exited = [] := by
  intro h
  have hrun : runSteps step start [.fork 1, .fork 2, .exit 1, .exit 2, .deliver, .waitpid (some 1), .handlerReturn] =
      some { start with exited := [2] } := rfl
  cases h _ _ hrun (by decide)

end EchoMpServer

end CppInAction
