import CppInAction.CMemory
import CppInAction.Run

namespace CppInAction

/-- Where the pattern first occurs, as std::string::find gives it. -/
def findText (pattern : List UInt8) : List UInt8 → Option Nat
  | [] => if pattern = [] then some 0 else none
  | b :: rest => if pattern.isPrefixOf (b :: rest) then some 0 else (findText pattern rest).map (· + 1)

/-- At most n characters from pos on; none is out_of_range. -/
def substr (s : List UInt8) (pos n : Nat) : Option (List UInt8) :=
  if pos ≤ s.length then some ((s.drop pos).take n) else none

/-- std::stoi; none is invalid_argument, without a digit, or out_of_range. -/
def stoi (s : List UInt8) : Option Int :=
  let s := s.dropWhile isSpace
  let number : Int × List UInt8 := match s with
    | 45 :: rest => (-1, rest)
    | 43 :: rest => (1, rest)
    | _ => (1, s)
  if number.2.takeWhile isDigit = [] then none
  else if -(2 ^ 31) ≤ number.1 * digitsValue number.2 ∧ number.1 * digitsValue number.2 < 2 ^ 31 then
    some (number.1 * digitsValue number.2)
  else none

def timeToSeconds (s : List UInt8) : Option Int := do
  let hour ← stoi (← substr s 0 2)
  let minute ← stoi (← substr s 3 2)
  let seconds ← stoi (← substr s 6 2)
  some (hour * 3600 + minute * 60 + seconds)

/-- The members of an FFTask that the output of the command sets. -/
structure Meter where
  totalSeconds : Int
  progress : Int
deriving DecidableEq, Repr

/-- The time behind the first occurrence of the pattern, of n characters; none is an exception. -/
def timeBehind (pattern : List UInt8) (n : Nat) (line : List UInt8) : Option (Option Int) :=
  match findText pattern line with
  | some pos => do
    let seconds ← timeToSeconds (← substr line (pos + n) 8)
    some (some seconds)
  | none => some none

def durationOf (line : List UInt8) : Option (Option Int) := timeBehind (bytes "Duration: ") 10 line

def stampOf (line : List UInt8) : Option (Option Int) := timeBehind (bytes "time=") 5 line

/-- The end of the callback: a time stamp becomes the progress, once the duration is known. -/
def Meter.stamp (m : Meter) (line : List UInt8) : Option Meter := do
  match ← stampOf line with
  | some seconds =>
    if 0 < m.totalSeconds then some { m with progress := (100 * seconds).tdiv m.totalSeconds } else some m
  | none => some m

/-- The callback given to XExec::Start, for one line of output; an exception, which nothing
catches in the worker thread, is none. -/
def Meter.callback (m : Meter) (line : List UInt8) : Option Meter :=
  if m.totalSeconds ≤ 0 then do
    match ← durationOf line with
    | some total => some { m with totalSeconds := total }
    | none => m.stamp line
  else m.stamp line

/-- Where the worker thread is in RunCommand: in front of popen, reading with the characters
of the unfinished line, behind the last line, behind running_ = false, or returned; a thread
that Stop has joined is gone. -/
inductive CommandPc
  | joined
  | opening
  | reading (result : List UInt8)
  | flushed
  | stored
  | finished
deriving DecidableEq, Repr

/-- Where the calling thread is: outside a task, in XExec::Start behind the creation of the
thread, in the two loops of RunTask, or in Stop. -/
inductive TaskPc
  | outside
  | started (play : Bool)
  | waiting
  | polling
  | joining
deriving DecidableEq, Repr

/-- An FFTask with its two threads; lines are those handed to the callback since the thread
was created. -/
structure FFTask where
  meter : Meter
  running : Bool
  worker : CommandPc
  caller : TaskPc
  lines : List (List UInt8)
deriving DecidableEq, Repr

inductive TaskAct
  | start (play : Bool)
  | caller
  | worker
  | read (c : Option UInt8)
deriving DecidableEq, Repr

namespace FFTask

def fresh : FFTask := ⟨⟨0, 0⟩, false, .joined, .outside, []⟩

def handOver (s : FFTask) (line : List UInt8) (worker : CommandPc) : Option FFTask :=
  (s.meter.callback line).map fun m => { s with meter := m, worker := worker, lines := s.lines ++ [line] }

/-- Behind the reading loop: an unfinished line is handed over too. -/
def endOfOutput (s : FFTask) (result : List UInt8) : Option FFTask :=
  if result = [] then some { s with worker := .flushed } else s.handOver result .flushed

/-- One turn of the reading loop; the character is kept in a char, so that the byte 255 is
taken for EOF. -/
def readChar (s : FFTask) (result : List UInt8) : Option UInt8 → Option FFTask
  | none => s.endOfOutput result
  | some c =>
    if c = 255 then s.endOfOutput result
    else if c = 10 ∨ c = 13 then s.handOver (result ++ [c]) (.reading [])
    else some { s with worker := .reading (result ++ [c]) }

/-- The rest of RunCommand; a popen that fails ends the process. -/
def workerStep (s : FFTask) : Option FFTask :=
  match s.worker with
  | .opening => some { s with worker := .reading [] }
  | .flushed => some { s with running := false, worker := .stored }
  | .stored => some { s with worker := .finished }
  | _ => none

/-- The calling thread: the end of XExec::Start, then RunTask, or Stop for a task that plays. -/
def callerStep (s : FFTask) : Option FFTask :=
  match s.caller with
  | .started play => some { s with running := true, caller := if play then .joining else .waiting }
  | .waiting => if s.running then some { s with caller := .polling } else some s
  | .polling => if s.running then some s else some { s with caller := .joining }
  | .joining => if s.worker = .finished then some { s with worker := .joined, caller := .outside } else none
  | .outside => none

def step (s : FFTask) : TaskAct → Option FFTask
  | .start play =>
    if s.caller = .outside ∧ s.worker = .joined then
      some { s with worker := .opening, caller := .started play, lines := [] }
    else none
  | .caller => s.callerStep
  | .worker => s.workerStep
  | .read c => match s.worker with
    | .reading result => s.readChar result c
    | _ => none

/-- The line that a turn of the reading loop hands to the callback. -/
def handed (s : FFTask) (c : Option UInt8) : Option (List UInt8) :=
  match s.worker, c with
  | .reading result, some c =>
    if c = 255 then (if result = [] then none else some result)
    else if c = 10 ∨ c = 13 then some (result ++ [c]) else none
  | .reading result, none => if result = [] then none else some result
  | _, _ => none

variable {s t : FFTask}

/-- What a turn of the reading loop does: at most one line is handed over, and the worker stays
in the loop or comes out of it. -/
theorem readChar_cases {result : List UInt8} {c : Option UInt8} (hw : s.worker = .reading result)
    (h : s.readChar result c = some t) : ∃ worker, (worker = .flushed ∨ ∃ rest, worker = .reading rest) ∧
      (s.handed c = none ∧ t = { s with worker := worker } ∨
        ∃ line, s.handed c = some line ∧ s.handOver line worker = some t) := by
  have hend : s.endOfOutput result = some t → result = [] ∧ t = { s with worker := .flushed } ∨
      result ≠ [] ∧ s.handOver result .flushed = some t := by
    intro hh
    unfold endOfOutput at hh
    split at hh
    next hnil => exact Or.inl ⟨hnil, (Option.some.inj hh).symm⟩
    next hne => exact Or.inr ⟨hne, hh⟩
  cases c with
  | none =>
    refine ⟨.flushed, Or.inl rfl, ?_⟩
    rcases hend h with ⟨hnil, ht⟩ | ⟨hne, ht⟩
    · exact Or.inl ⟨by simp [handed, hw, hnil], ht⟩
    · exact Or.inr ⟨result, by simp [handed, hw, hne], ht⟩
  | some c =>
    simp only [readChar] at h
    split at h
    next h255 =>
      refine ⟨.flushed, Or.inl rfl, ?_⟩
      rcases hend h with ⟨hnil, ht⟩ | ⟨hne, ht⟩
      · exact Or.inl ⟨by simp [handed, hw, h255, hnil], ht⟩
      · exact Or.inr ⟨result, by simp [handed, hw, h255, hne], ht⟩
    next h255 =>
      split at h
      next hnl => exact ⟨_, Or.inr ⟨_, rfl⟩, Or.inr ⟨result ++ [c], by simp [handed, hw, h255, hnl], h⟩⟩
      next hnl => exact ⟨_, Or.inr ⟨_, rfl⟩, Or.inl ⟨by simp [handed, hw, h255, hnl], (Option.some.inj h).symm⟩⟩

theorem handOver_eq {line : List UInt8} {worker : CommandPc} (h : s.handOver line worker = some t) :
    ∃ m, s.meter.callback line = some m ∧
      t = { s with meter := m, worker := worker, lines := s.lines ++ [line] } := by
  obtain ⟨m, hm, ht⟩ := Option.map_eq_some_iff.mp h
  exact ⟨m, hm, ht.symm⟩

end FFTask

end CppInAction
