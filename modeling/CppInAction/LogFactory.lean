import CppInAction.XConfig
import CppInAction.DecimalText

namespace CppInAction

inductive LogLevel
  | debug | info | error | fatal
deriving DecidableEq, Repr

def LogLevel.toInt : LogLevel → Int
  | .debug => 0
  | .info => 1
  | .error => 2
  | .fatal => 3

/-- Where a LogOutput writes: LogConsoleOutput, or LogFileOutput with the file it has opened. -/
inductive LogOutput
  | console
  | file (name : List UInt8)
deriving DecidableEq, Repr

/-- The level is a number: LogFactory::init may set it to a value that was never assigned. -/
structure Logger where
  hasFormat : Bool
  output : Option LogOutput
  logLevel : Int
deriving DecidableEq, Repr

/-- The arguments of a Write, with what GetNow returns in it. -/
structure WriteCall where
  level : LogLevel
  now : List UInt8
  log : List UInt8
  file : List UInt8
  line : Int
deriving DecidableEq, Repr

/-- The lines of the outputs. -/
abbrev LogLines := LogOutput → List (List UInt8)

/-- XLogFormat::Format. -/
def xLogFormat (now level log file : List UInt8) (line : Int) : List UInt8 :=
  now ++ bytes " " ++ level ++ bytes " " ++ log ++ bytes " " ++ file ++ bytes ": " ++ decimal line

namespace Logger

def new : Logger := ⟨false, none, LogLevel.debug.toInt⟩

/-- The switch of Write. -/
def levelStr : LogLevel → List UInt8
  | .info => bytes "info"
  | .error => bytes "error"
  | .fatal => bytes "fatal"
  | .debug => bytes "debug"

/-- What Write outputs for a call. -/
def formatted (call : WriteCall) : List UInt8 := xLogFormat call.now (levelStr call.level) call.log call.file call.line

/-- Logger::Write; none is a use of a pointer that was not set. -/
def write (l : Logger) (lines : LogLines) (call : WriteCall) : Option LogLines :=
  if l.logLevel > call.level.toInt then some lines
  else if l.hasFormat then
    match l.output with
    | none => none
    | some out => some (Function.update lines out (lines out ++ [formatted call]))
  else none

/-- One Write after the other. -/
def writeAll (l : Logger) (lines : LogLines) (calls : List WriteCall) : Option LogLines := calls.foldlM l.write lines

/-- The calls of Write whose level is not below that of the logger. -/
def passed (level : Int) (calls : List WriteCall) : List WriteCall := calls.filter (level ≤ ·.level.toInt)

variable {l : Logger} {lines : LogLines} {out : LogOutput} {call : WriteCall} {calls : List WriteCall}

theorem writeAll_output (hf : l.hasFormat = true) (ho : l.output = some out) :
    l.writeAll lines calls = some (Function.update lines out (lines out ++ (passed l.logLevel calls).map formatted)) := by
  induction calls generalizing lines with
  | nil => simp [writeAll, passed]
  | cons call calls ih =>
    have hcons : l.writeAll lines (call :: calls) = (l.write lines call).bind fun lines => l.writeAll lines calls := rfl
    rw [hcons]
    by_cases hlevel : l.logLevel ≤ call.level.toInt
    · have hwrite : l.write lines call = some (Function.update lines out (lines out ++ [formatted call])) := by
        simp [write, hlevel, hf, ho]
      rw [hwrite, Option.bind_some, ih]
      simp [passed, hlevel]
    · have hwrite : l.write lines call = some lines := if_pos (Int.not_le.mp hlevel)
      rw [hwrite, Option.bind_some, ih]
      simp [passed, hlevel]

theorem toInt_nonneg (level : LogLevel) : 0 ≤ level.toInt := by
  cases level <;> decide

/-- Without an output the first record that is not filtered ends the program. -/
theorem writeAll_none (ho : l.output = none) :
    l.writeAll lines calls = if passed l.logLevel calls = [] then some lines else none := by
  induction calls with
  | nil => rfl
  | cons call calls ih =>
    have hcons : l.writeAll lines (call :: calls) = (l.write lines call).bind fun lines => l.writeAll lines calls := rfl
    rw [hcons]
    by_cases hlevel : l.logLevel ≤ call.level.toInt
    · have hwrite : l.write lines call = none := by
        simp [write, hlevel, ho]
      simp [hwrite, passed, hlevel]
    · have hwrite : l.write lines call = some lines := if_pos (Int.not_le.mp hlevel)
      rw [hwrite, Option.bind_some, ih]
      simp [passed, hlevel]

end Logger

namespace LogFactory

def logType : List UInt8 := bytes "console"
def logFile : List UInt8 := bytes "log.txt"
def logLevel : List UInt8 := bytes "debug"

/-- The setting of init for a key: the default, unless the file gives a text that is not empty. -/
def setting (config : Option XConfig) (key default : List UInt8) : List UInt8 :=
  match config with
  | none => default
  | some x => if (x.get key).1 ≠ [] then (x.get key).1 else default

/-- The comparisons of init with the names of the levels; unset is what is in the variable
when none is equal. -/
def levelOf (unset : Int) (name : List UInt8) : Int :=
  if name = bytes "debug" then LogLevel.debug.toInt
  else if name = bytes "info" then LogLevel.debug.toInt
  else if name = bytes "error" then LogLevel.error.toInt
  else if name = bytes "fatal" then LogLevel.fatal.toInt
  else unset

/-- LogFactory::init for the text of the configuration file, if there is one; opens tells which
log files can be opened. -/
def init (l : Logger) (file : Option (List UInt8)) (opens : List UInt8 → Bool) (unset : Int) : Logger :=
  let l := { l with hasFormat := true }
  let (result, x) := XConfig.read { config := [] } file
  let config := if result then some x else none
  let type := setting config (bytes "log_type") logType
  let name := setting config (bytes "log_file") logFile
  let level := setting config (bytes "log_level") logLevel
  if type = bytes "console" then { l with output := some .console, logLevel := levelOf unset level }
  else if opens name then { l with output := some (.file name), logLevel := levelOf unset level }
  else l

/-- What init takes a key of the file for. -/
def configured (file : Option (List UInt8)) (key default : List UInt8) : List UInt8 :=
  match file with
  | none => default
  | some text => if XConfig.answer key (text.splitOn 10) ≠ [] then XConfig.answer key (text.splitOn 10) else default

theorem setting_read (file : Option (List UInt8)) {key : List UInt8} (default : List UInt8) (hkey : key ≠ XConfig.null) :
    setting (if (XConfig.read { config := [] } file).1 then some (XConfig.read { config := [] } file).2 else none) key default =
      configured file key default := by
  cases file with
  | none => rfl
  | some text =>
    have hget := XConfig.get_read hkey text
    simp only [XConfig.read] at hget ⊢
    simp only [if_true, setting, configured, hget]

theorem init_eq (l : Logger) (file : Option (List UInt8)) (opens : List UInt8 → Bool) (unset : Int) :
    init l file opens unset =
      if configured file (bytes "log_type") logType = bytes "console" then
        ⟨true, some .console, levelOf unset (configured file (bytes "log_level") logLevel)⟩
      else if opens (configured file (bytes "log_file") logFile) then
        ⟨true, some (.file (configured file (bytes "log_file") logFile)),
          levelOf unset (configured file (bytes "log_level") logLevel)⟩
      else ⟨true, l.output, l.logLevel⟩ := by
  have htype := setting_read file logType (show bytes "log_type" ≠ XConfig.null by decide)
  have hfile := setting_read file logFile (show bytes "log_file" ≠ XConfig.null by decide)
  have hlevel := setting_read file logLevel (show bytes "log_level" ≠ XConfig.null by decide)
  simp only [init, htype, hfile, hlevel]

/-- Where the records go that are written behind init; none is a log file that cannot be opened. -/
def target (file : Option (List UInt8)) (opens : List UInt8 → Bool) : Option LogOutput :=
  if configured file (bytes "log_type") logType = bytes "console" then some .console
  else if opens (configured file (bytes "log_file") logFile) then some (.file (configured file (bytes "log_file") logFile))
  else none

/-- Behind init every record at or above the level of the file is one more line of the output
that the file asks for, in the order of the calls, and no other output changes. A log file that
cannot be opened leaves no output, and the first record ends the program. -/
theorem init_writes (file : Option (List UInt8)) (opens : List UInt8 → Bool) (unset : Int) (lines : LogLines) (calls : List WriteCall) :
    (init .new file opens unset).writeAll lines calls =
      match target file opens with
      | some out => some (Function.update lines out (lines out ++
          (Logger.passed (levelOf unset (configured file (bytes "log_level") logLevel)) calls).map Logger.formatted))
      | none => if calls = [] then some lines else none := by
  rw [init_eq]
  unfold target
  split
  next => exact Logger.writeAll_output rfl rfl
  next =>
    split
    next => exact Logger.writeAll_output rfl rfl
    next =>
      rw [Logger.writeAll_none rfl]
      have hall : Logger.passed Logger.new.logLevel calls = calls :=
        List.filter_eq_self.mpr fun call _ => decide_eq_true (Logger.toInt_nonneg call.level)
      simp only [hall]

/-- A file that asks for the level info gets the debug records too. -/
theorem passed_info (file : Option (List UInt8)) (unset : Int) (calls : List WriteCall)
    (h : configured file (bytes "log_level") logLevel = bytes "info") :
    Logger.passed (levelOf unset (configured file (bytes "log_level") logLevel)) calls = calls := by
  rw [h]
  exact List.filter_eq_self.mpr fun call _ => decide_eq_true (Logger.toInt_nonneg call.level)

end LogFactory

end CppInAction
