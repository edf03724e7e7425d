import CppInAction.Run
import CppInAction.TimerList

namespace CppInAction

/-- The signals that Utils::sig_handler is set for. -/
inductive Sig
  | alrm | term
deriving DecidableEq, Repr

/-- What epoll_wait reports: the reading end of the pipe, or another descriptor. -/
inductive Ready
  | pipe | other
deriving DecidableEq, Repr

/-- Where the main thread is in WebServer::event_loop: before the test of stop_server, in
epoll_wait, in the loop over the events, before tick and before alarm in Utils::time_handler,
before timeout is reset, or behind the loop. -/
inductive LoopPc
  | test | waiting | events (rest : List Ready) | tick | alarm | reset | left
deriving DecidableEq, Repr

structure SignalLoop where
  pc : LoopPc
  timeout : Bool
  stopServer : Bool
  pipe : List Sig
  /-- The runs of sig_handler that have not sent yet, in whatever thread. -/
  handling : List Sig
  pending : Sig → Bool
  /-- When alarm goes off. -/
  armed : Option Int
  now : Int
  /-- When alarm was called last, the times of the ticks, and the reads of the pipe. -/
  armedAt : Int
  ticks : List Int
  reads : Nat

inductive LoopAct
  | clock
  | expire
  /-- Another process sends the signal. -/
  | kill (sig : Sig)
  | deliver (sig : Sig)
  /-- The send of sig_handler; without room it fails. -/
  | send (sig : Sig) (room : Bool)
  /-- epoll_wait returns; none is a failure other than EINTR, which reports no event. -/
  | wake (events : Option (List Ready))
  /-- The next step of the main thread; recv returns so many bytes, or fails. -/
  | main (got : Option Nat)
deriving DecidableEq, Repr

namespace SignalLoop

/-- The size of the array signals in deal_with_signal. -/
def signalsSize : Nat := 1024

/-- The switch of deal_with_signal. -/
def note (s : SignalLoop) : Sig → SignalLoop
  | .alrm => { s with timeout := true }
  | .term => { s with stopServer := true }

/-- deal_with_signal behind a recv of so many bytes. -/
def dealWithSignal (s : SignalLoop) (got : Nat) : SignalLoop :=
  (s.pipe.take got).foldl note { s with pipe := s.pipe.drop got, reads := s.reads + 1 }

def mainStep (s : SignalLoop) (got : Option Nat) : Option SignalLoop :=
  match s.pc with
  | .test => some { s with pc := if s.stopServer then .left else .waiting }
  | .waiting | .left => none
  | .events (.other :: rest) => some { s with pc := .events rest }
  | .events (.pipe :: rest) =>
    match got with
    | none => some { s with pc := .events rest }
    | some n =>
      if 0 < n ∧ n ≤ s.pipe.length ∧ n ≤ signalsSize then some ({ s with pc := .events rest }.dealWithSignal n) else none
  | .events [] => some { s with pc := if s.timeout then .tick else .test }
  | .tick => some { s with pc := .alarm, ticks := s.now :: s.ticks }
  | .alarm => some { s with pc := .reset, armed := some (s.now + timeslot), armedAt := s.now }
  | .reset => some { s with pc := .test, timeout := false }

/-- What the level-triggered epoll may report: the pipe only when there is something in it. -/
def CanWake (s : SignalLoop) (events : List Ready) : Prop :=
  s.pc = .waiting ∧ events.count .pipe ≤ 1 ∧ (.pipe ∈ events → s.pipe ≠ [])

instance (s : SignalLoop) (events : List Ready) : Decidable (s.CanWake events) := inferInstanceAs (Decidable (_ ∧ _))

/-- One action; none where it cannot be taken. All signals are blocked in sig_handler, but
another thread may run it at the same time. -/
def step (s : SignalLoop) : LoopAct → Option SignalLoop
  | .clock => some { s with now := s.now + 1 }
  | .expire => if s.armed.any (· ≤ s.now) then some { s with armed := none, pending := Function.update s.pending .alrm true } else none
  | .kill sig => some { s with pending := Function.update s.pending sig true }
  | .deliver sig =>
    if s.pending sig then some { s with pending := Function.update s.pending sig false, handling := sig :: s.handling }
    else none
  | .send sig room =>
    if sig ∈ s.handling ∧ (room = false → s.pipe ≠ []) then
      some { s with handling := s.handling.erase sig, pipe := if room then s.pipe ++ [sig] else s.pipe }
    else none
  | .wake none => if s.pc = .waiting then some { s with pc := .left } else none
  | .wake (some events) => if s.CanWake events then some { s with pc := .events events } else none
  | .main got => s.mainStep got

/-- Behind event_listen, which has called alarm. -/
def start (now : Int) : SignalLoop where
  pc := .test
  timeout := false
  stopServer := false
  pipe := []
  handling := []
  pending := fun _ => false
  armed := some (now + timeslot)
  now := now
  armedAt := now
  ticks := []
  reads := 0

/-- The SIGALRM that are on their way from the alarm to the tick. -/
def underway (s : SignalLoop) : Nat :=
  (if s.pending .alrm then 1 else 0) + s.handling.count .alrm + s.pipe.count .alrm +
    if s.timeout ∧ s.pc ≠ .reset then 1 else 0

/-- The loop is left, or will be. -/
def Ending (s : SignalLoop) : Prop := s.pc = .left ∨ s.stopServer = true ∨ .term ∈ s.pipe

/-- No other process sends SIGALRM. -/
def OwnAlarm (_ : SignalLoop) : LoopAct → Prop
  | .kill sig => sig = .term
  | _ => True

instance : ∀ s a, Decidable (OwnAlarm s a)
  | _, .kill sig => inferInstanceAs (Decidable (sig = .term))
  | _, .clock | _, .expire | _, .deliver _ | _, .send _ _ | _, .wake _ | _, .main _ => inferInstanceAs (Decidable True)

end SignalLoop

end CppInAction
