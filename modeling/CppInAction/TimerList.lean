import CppInAction.LinkedPath

namespace CppInAction

def timeslot : Int := 5

inductive TimerFault
  | nullDeref | useAfterFree | doubleFree | diverges
deriving DecidableEq, Repr

/-- A timer; user_data is the index of its entry in client_data. -/
structure UtilTimer where
  expire : Int
  userData : Nat
  prev : Option Nat
  next : Option Nat
deriving DecidableEq, Repr

/-- The heap of timers and the list over it; an address is never used twice. -/
structure TimerList where
  cells : Nat → Option UtilTimer
  fresh : Nat
  head : Option Nat
  tail : Option Nat

namespace TimerList

def empty : TimerList := ⟨fun _ => none, 0, none, none⟩

def deref (l : TimerList) : Option Nat → Except TimerFault (Nat × UtilTimer)
  | none => .error .nullDeref
  | some a => match l.cells a with
    | none => .error .useAfterFree
    | some c => .ok (a, c)

def put (l : TimerList) (a : Nat) (c : UtilTimer) : TimerList :=
  { l with cells := Function.update l.cells a (some c) }

def setNext (l : TimerList) (p q : Option Nat) : Except TimerFault TimerList := do
  let (a, c) ← l.deref p
  .ok (l.put a { c with next := q })

def setPrev (l : TimerList) (p q : Option Nat) : Except TimerFault TimerList := do
  let (a, c) ← l.deref p
  .ok (l.put a { c with prev := q })

def delete (l : TimerList) (a : Nat) : Except TimerFault TimerList :=
  match l.cells a with
  | none => .error .doubleFree
  | some _ => .ok { l with cells := Function.update l.cells a none }

/-- new UtilTimer with its members set. -/
def newTimer (l : TimerList) (expire : Int) (userData : Nat) : TimerList × Nat :=
  ({ l.put l.fresh ⟨expire, userData, none, none⟩ with fresh := l.fresh + 1 }, l.fresh)

/-- The loop of the private add_timer: the last node before the first later timer,
and that timer; a walk longer than the heap never ends. -/
def findPlace (l : TimerList) (expire : Int) : Nat → Nat → Option Nat →
    Except TimerFault (Nat × Option Nat)
  | 0, _, _ => .error .diverges
  | _ + 1, prev, none => .ok (prev, none)
  | fuel + 1, prev, some tmp => do
    let (_, c) ← l.deref (some tmp)
    if expire < c.expire then .ok (prev, some tmp) else l.findPlace expire fuel tmp c.next

/-- The private add_timer. Between two timers the new one is linked to itself, and
at the end its prev is itself, as in the source. -/
def addAfter (l : TimerList) (timer : Nat) (lstHead : Option Nat) : Except TimerFault TimerList := do
  let (h, hc) ← l.deref lstHead
  let (_, c) ← l.deref (some timer)
  let (prev, tmp) ← l.findPlace c.expire (l.fresh + 1) h hc.next
  match tmp with
  | some _ => do
    let l ← l.setNext (some prev) (some timer)
    let l ← l.setPrev (some timer) (some prev)
    let l ← l.setPrev tmp (some timer)
    l.setNext (some timer) (some timer)
  | none => do
    let l ← l.setNext l.tail (some timer)
    let l ← l.setPrev (some timer) (some timer)
    let l ← l.setNext (some timer) none
    .ok { l with tail := some timer }

def addTimer (l : TimerList) (timer : Nat) : Except TimerFault TimerList :=
  match l.head with
  | none => .ok { l with head := some timer, tail := some timer }
  | some h => do
    let (_, c) ← l.deref (some timer)
    let (_, hc) ← l.deref (some h)
    if c.expire < hc.expire then do
      let l ← l.setPrev (some h) (some timer)
      let l ← l.setNext (some timer) (some h)
      .ok { l with head := some timer }
    else l.addAfter timer (some h)

/-- The part of adjust_timer that moves a timer which is no longer before its successor. -/
def moveTimer (l : TimerList) (timer : Nat) (c : UtilTimer) : Except TimerFault TimerList :=
  if l.head = some timer then do
    let l := { l with head := c.next }
    let l ← l.setPrev c.next none
    let l ← l.setNext (some timer) none
    l.addAfter timer l.head
  else do
    let l ← l.setNext c.prev c.next
    let (_, c) ← l.deref (some timer)
    let l ← l.setPrev c.next c.prev
    l.addAfter timer l.head

def adjustTimer (l : TimerList) (timer : Nat) : Except TimerFault TimerList :=
  if l.head = some timer ∧ l.tail = some timer then .ok l
  else do
    let (_, c) ← l.deref (some timer)
    match c.next with
    | none => .ok l
    | some tmp => do
      let (_, tc) ← l.deref (some tmp)
      if c.expire < tc.expire then .ok l else l.moveTimer timer c

/-- WebServer::adjust_timer on a timer pointer that is not null. -/
def renew (l : TimerList) (timer : Nat) (now : Int) : Except TimerFault TimerList := do
  let (_, c) ← l.deref (some timer)
  (l.put timer { c with expire := now + 3 * timeslot }).adjustTimer timer

def delTimer (l : TimerList) (timer : Nat) : Except TimerFault TimerList :=
  if l.head = some timer ∨ l.head = l.tail then
    if l.head = l.tail then do
      let l ← l.delete timer
      .ok { l with head := none, tail := none }
    else if l.head = some timer then do
      let (_, c) ← l.deref l.head
      let l := { l with head := c.next }
      let l ← l.setPrev l.head none
      l.delete timer
    else if l.tail = some timer then do
      let (_, c) ← l.deref l.tail
      let l := { l with tail := c.prev }
      let l ← l.setNext l.tail none
      l.delete timer
    else .ok l
  else do
    let (_, c) ← l.deref (some timer)
    let l ← l.setNext c.prev c.next
    let (_, c) ← l.deref (some timer)
    let l ← l.setPrev c.next c.prev
    l.delete timer

/-- The end of WebServer::del_timer: the list frees the timer, and it is freed again. -/
def dropTimer (l : TimerList) (timer : Nat) : Except TimerFault TimerList := do
  let l ← l.delTimer timer
  l.delete timer

/-- The head of the list, if it has expired. -/
def expired (l : TimerList) (cur : Int) : Except TimerFault (Option (Nat × UtilTimer)) :=
  match l.head with
  | none => .ok none
  | some a => do
    let (a, c) ← l.deref (some a)
    if cur < c.expire then .ok none else .ok (some (a, c))

def clearPrev (l : TimerList) : Option Nat → Except TimerFault TimerList
  | none => .ok l
  | some a => l.setPrev (some a) none

/-- What tick does to an expired head, apart from the callback. -/
def popTimer (l : TimerList) (timer : Nat) (c : UtilTimer) : Except TimerFault TimerList := do
  let l ← { l with head := c.next }.clearPrev c.next
  l.delete timer

/-- The loop of tick, with the arguments of the calls of cb_func so far. -/
def tickLoop (cur : Int) : Nat → TimerList → List Nat → Except TimerFault (TimerList × List Nat)
  | 0, _, _ => .error .diverges
  | fuel + 1, l, calls => do
    match ← l.expired cur with
    | none => .ok (l, calls)
    | some (a, c) => do
      let l ← l.popTimer a c
      tickLoop cur fuel l (calls ++ [c.userData])

/-- SortTimeLst::tick for a callback that leaves the list alone; a loop that takes
more timers than there are addresses never ends. -/
def tick (l : TimerList) (cur : Int) : Except TimerFault (TimerList × List Nat) :=
  tickLoop cur (l.fresh + 1) l []

end TimerList

end CppInAction
