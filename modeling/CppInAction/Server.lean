import CppInAction.Actor
import CppInAction.TimerMove

namespace CppInAction

def maxFd : Nat := 65536

/-- The size of the request queue that thread_pool() asks for. -/
def maxRequests : Nat := 10

/-- What ends a run: an access to a timer that is not there, or past the tables. -/
inductive Fault
  | timer (f : TimerFault) | outOfBounds
deriving DecidableEq, Repr

/-- The members of users[fd] that the threads share. -/
structure Slot where
  sockfd : Int
  flags : Flags
  state : Ev
deriving DecidableEq, Repr

structure ClientData where
  sockfd : Nat
  timer : Option Nat
deriving DecidableEq, Repr

inductive Event
  | readable | writable | hangup
deriving DecidableEq, Repr

/-- How HttpConn::write ends: EAGAIN, all sent on a kept connection (or nothing to
send), all sent on another one, or an error. -/
inductive WriteResult
  | again | finished | lastSent | failed
deriving DecidableEq, Repr

def WriteResult.ok : WriteResult → Bool
  | .again => true
  | .finished => true
  | _ => false

/-- How process() goes: more bytes are needed, a response is ready, or there is none. -/
inductive ProcessResult
  | noRequest | responded | failed
deriving DecidableEq, Repr

/-- A call of close: the connection it is meant for and the one that has the descriptor. -/
structure Close where
  meant : Option Nat
  hit : Option Nat
deriving DecidableEq, Repr

/-- Where the main thread is: in epoll_wait or between events, in a handler, between
cb_func and the rest of del_timer, or in tick. -/
inductive MainAt
  | idle
  | handling (fd : Nat) (pc : MainPc)
  | unlink (timer : Nat) (next : MainAt)
  | ticking (cur : Int)
deriving DecidableEq, Repr

/-- Where a worker is with users[fd], which it took for a connection: in run(), or
inside close_conn before m_sockfd or the counter is set, or before the last modfd. -/
inductive WorkerAt
  | idle
  | running (fd : Nat) (conn : Option Nat) (pc : WorkerPc)
  | closing (fd : Nat) (conn : Option Nat)
  | counting (fd : Nat) (conn : Option Nat)
  | rearm (fd : Nat) (conn : Option Nat) (ev : Ev) (closed : Bool)
deriving DecidableEq, Repr

/-- The server with the kernel's tables. Connections are numbered in the order of
their accepts; madeFor, closes, indexed and handed only record what happened. -/
structure Server where
  reactor : Bool
  conns : List (Nat × Nat)
  nextConn : Nat
  epoll : Nat → Option (Option Ev)
  slots : Nat → Slot
  clientData : Nat → ClientData
  timers : TimerList
  madeFor : Nat → Nat
  userCount : Int
  queue : List (Nat × Option Nat)
  workers : Nat → WorkerAt
  main : MainAt
  pending : List (Nat × Event)
  handed : Bool
  indexed : List Nat
  closes : List Close
  fault : Option Fault

def Server.start (reactor : Bool) : Server where
  reactor := reactor
  conns := []
  nextConn := 0
  epoll := fun _ => none
  slots := fun _ => ⟨-1, ⟨false, false⟩, .epollin⟩
  clientData := fun _ => ⟨0, none⟩
  timers := .empty
  madeFor := fun _ => 0
  userCount := 0
  queue := []
  workers := fun _ => .idle
  main := .idle
  pending := []
  handed := true
  indexed := []
  closes := []
  fault := none

/-- The lowest descriptor that is not in use. -/
def lowestFree (used : List Nat) : Nat := ((List.range (used.length + 1)).find? (· ∉ used)).getD 0

namespace Server

def fds (s : Server) : List Nat := s.conns.map Prod.fst

/-- The connection that has a descriptor. -/
def owner (s : Server) (fd : Nat) : Option Nat := s.conns.lookup fd

/-- EPOLL_CTL_MOD, which fails on a descriptor that is not registered. -/
def modfd (s : Server) (fd : Int) (ev : Ev) : Server :=
  { s with epoll := fun n => if (n : Int) = fd ∧ (s.epoll n).isSome then some (some ev) else s.epoll n }

/-- EPOLL_CTL_DEL and close. -/
def closeFd (s : Server) (fd : Nat) (meant : Option Nat) : Server :=
  { s with
    conns := s.conns.filter fun c => c.1 ≠ fd
    epoll := Function.update s.epoll fd none
    closes := s.closes ++ [⟨meant, s.owner fd⟩] }

def setSlot (s : Server) (fd : Nat) (x : Slot) : Server :=
  { s with slots := Function.update s.slots fd x }

def setFlags (s : Server) (fd : Nat) (f : Flags) : Server := s.setSlot fd { s.slots fd with flags := f }

def setWorker (s : Server) (i : Nat) (w : WorkerAt) : Server :=
  { s with workers := Function.update s.workers i w }

def crash (s : Server) (f : TimerFault) : Server := { s with fault := some (.timer f) }

/-- WebServer::timer for a new connection on fd. -/
def timer (s : Server) (fd : Nat) (now : Int) : Server :=
  let s := { s with conns := (fd, s.nextConn) :: s.conns, nextConn := s.nextConn + 1,
                    indexed := fd :: s.indexed }
  if maxFd ≤ fd then { s with fault := some .outOfBounds }
  else
    let s := { s with
      slots := Function.update s.slots fd ⟨fd, ⟨false, false⟩, .epollin⟩
      epoll := Function.update s.epoll fd (some (some .epollin)) }
    let t := s.timers.newTimer (now + 3 * timeslot) fd
    let s := { s with
      clientData := Function.update s.clientData fd ⟨fd, some t.2⟩
      madeFor := Function.update s.madeFor t.2 (s.nextConn - 1) }
    match t.1.addTimer t.2 with
    | .error f => s.crash f
    | .ok l => { s with timers := l }

/-- accept in deal_client_data; others are the descriptors the process has open
for other purposes. -/
def accept (s : Server) (others : List Nat) (now : Int) : Server :=
  if (maxFd : Int) ≤ s.userCount then
    { s with nextConn := s.nextConn + 1, closes := s.closes ++ [⟨some s.nextConn, some s.nextConn⟩] }
  else s.timer (lowestFree (others ++ s.fds)) now

/-- The events epoll_wait may return: each for a descriptor armed for it, which is
disarmed by that, or a hang-up. -/
def canFetch (s : Server) (events : List (Nat × Event)) : Bool :=
  decide (events.map Prod.fst).Nodup && events.all fun e => match s.epoll e.1, e.2 with
    | some (some .epollin), .readable => true
    | some (some .epollout), .writable => true
    | some (some _), .hangup => true
    | _, _ => false

def fetch (s : Server) (events : List (Nat × Event)) : Server :=
  { s with
    pending := events
    epoll := fun n => if n ∈ events.map Prod.fst then some none else s.epoll n }

/-- adjust_timer on the timer of a connection, if it has one. -/
def renew (s : Server) (fd : Nat) (now : Int) (next : MainAt) : Server :=
  match (s.clientData fd).timer with
  | none => { s with main := next }
  | some t => match s.timers.renew t now with
    | .error f => s.crash f
    | .ok l => { s with timers := l, main := next }

/-- append and append_p; the first also sets m_state. -/
def append (s : Server) (fd : Nat) (state : Option Ev) (next : MainAt) : Server :=
  if maxRequests ≤ s.queue.length then { s with main := next, handed := false }
  else
    let s := match state with
      | none => s
      | some ev => s.setSlot fd { s.slots fd with state := ev }
    { s with queue := s.queue ++ [(fd, s.owner fd)], main := next, handed := true }

/-- cb_func on an entry of client_data. -/
def cbFunc (s : Server) (d : ClientData) (t : Nat) : Server :=
  let s := s.closeFd d.sockfd (some (s.madeFor t))
  { s with userCount := s.userCount - 1 }

/-- The first half of WebServer::del_timer: the callback through the timer pointer. -/
def delTimer (s : Server) (fd : Nat) (next : MainAt) : Server :=
  match s.timers.deref (s.clientData fd).timer with
  | .error f => s.crash f
  | .ok (t, _) => { s.cbFunc (s.clientData fd) t with main := .unlink t next }

/-- One round of the loop in tick. -/
def tickStep (s : Server) (cur : Int) : Server :=
  match s.timers.expired cur with
  | .error f => s.crash f
  | .ok none => { s with main := .idle }
  | .ok (some (t, c)) =>
    let s := s.cbFunc (s.clientData c.userData) t
    match s.timers.popTimer t c with
    | .error f => s.crash f
    | .ok l => { s with timers := l }

/-- What HttpConn::write does to the tables; init() comes after the modfd. -/
def write (s : Server) (fd : Nat) : WriteResult → Server
  | .again => s.modfd (s.slots fd).sockfd .epollout
  | .finished => (s.modfd (s.slots fd).sockfd .epollin).setSlot fd
      { s.slots fd with flags := ⟨false, false⟩, state := .epollin }
  | .lastSent => s.modfd (s.slots fd).sockfd .epollin
  | .failed => s

/-- What a step may meet. -/
structure Choice where
  now : Int
  ok : Bool
  write : WriteResult
  process : ProcessResult
deriving DecidableEq, Repr

/-- A statement of deal_with_read or deal_with_write. -/
def handler (s : Server) (fd : Nat) (r : Choice) : MainPc → Server
  | .renewFirst ev => s.renew fd r.now (.handling fd (.append ev))
  | .append ev => s.append fd (some ev) (.handling fd (.poll ev))
  | .remove ev => s.delTimer fd (.handling fd (.clearFlag ev))
  | .read => { s with main := .handling fd (if r.ok then .appendP else .removeLast) }
  | .appendP => s.append fd none (.handling fd .renewLast)
  | .write => { s.write fd r.write with
      main := .handling fd (if r.write.ok then .renewLast else .removeLast) }
  | .renewLast => s.renew fd r.now .idle
  | .removeLast => s.delTimer fd .idle
  | pc => match pc.onFlags (s.slots fd).flags with
    | none => s
    | some (next, f) => { s.setFlags fd f with main := (next.map (.handling fd)).getD .idle }

/-- Where the event loop goes with an event. -/
def dispatch (s : Server) : Event → MainPc
  | .readable => .enter s.reactor .epollin
  | .writable => .enter s.reactor .epollout
  | .hangup => .removeLast

def mainStep (s : Server) (r : Choice) : Option Server :=
  match s.main with
  | .idle => match s.pending with
    | [] => none
    | (fd, e) :: rest => some { s with pending := rest, main := .handling fd (s.dispatch e) }
  | .handling fd pc => some (s.handler fd r pc)
  | .unlink t next => some (match s.timers.dropTimer t with
    | .error f => s.crash f
    | .ok l => { s with timers := l, main := next })
  | .ticking cur => some (s.tickStep cur)

/-- process(): the request is read and answered, or the connection is closed when
there is no answer. -/
def processStep (s : Server) (i fd : Nat) (conn : Option Nat) : ProcessResult → Server
  | .noRequest => s.setWorker i (.rearm fd conn .epollin false)
  | .responded => s.setWorker i (.rearm fd conn .epollout false)
  | .failed =>
    if (s.slots fd).sockfd ≠ -1 then
      (s.closeFd (s.slots fd).sockfd.toNat conn).setWorker i (.closing fd conn)
    else s.setWorker i (.rearm fd conn .epollout true)

def workerStep (s : Server) (i : Nat) (r : Choice) : Option Server :=
  match s.workers i with
  | .idle => match s.queue with
    | [] => none
    | (fd, conn) :: rest =>
      some ({ s with queue := rest }.setWorker i (.running fd conn (.start s.reactor (s.slots fd).state)))
  | .running fd conn .reading =>
    some (s.setWorker i (.running fd conn (if r.ok then .improvRead else .improvFail)))
  | .running fd conn .writing =>
    some ((s.write fd r.write).setWorker i (.running fd conn (if r.write.ok then .improvWrite else .improvFail)))
  | .running fd conn .processing => some (s.processStep i fd conn r.process)
  | .running fd conn pc => match pc.onFlags (s.slots fd).flags with
    | none => none
    | some (next, f) => some ((s.setFlags fd f).setWorker i ((next.map (.running fd conn)).getD .idle))
  | .closing fd conn => some ((s.setSlot fd { s.slots fd with sockfd := -1 }).setWorker i (.counting fd conn))
  | .counting fd conn =>
    some ({ s with userCount := s.userCount - 1 }.setWorker i (.rearm fd conn .epollout true))
  | .rearm fd _ ev _ => some ((s.modfd (s.slots fd).sockfd ev).setWorker i .idle)

inductive Act
  | accept (others : List Nat) (now : Int)
  | fetch (events : List (Nat × Event))
  | tick (cur : Int)
  | main (r : Choice)
  | worker (i : Nat) (r : Choice)
deriving DecidableEq, Repr

/-- A step of the server. Accepts come between events, and tick after the last
event of a batch; after a fault there is no step. -/
def step (s : Server) (a : Act) : Option Server :=
  if s.fault ≠ none then none
  else match a with
    | .accept others now => if s.main = .idle then some (s.accept others now) else none
    | .fetch events =>
      if s.main = .idle ∧ s.pending = [] ∧ s.canFetch events = true then some (s.fetch events) else none
    | .tick cur => if s.main = .idle ∧ s.pending = [] then some { s with main := .ticking cur } else none
    | .main r => s.mainStep r
    | .worker i r => s.workerStep i r

end Server

end CppInAction
