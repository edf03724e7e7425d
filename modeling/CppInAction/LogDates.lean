import CppInAction.Log
import CppInAction.LogFiles

namespace CppInAction

namespace Log

variable {α : Type} {s t : Log α}

/-- What fputs is called with in a step. -/
def puts (s : Log α) : LogAct α → Option α
  | .put i => match s.writers[i]? with
    | some (.writing record) => some record
    | _ => none
  | .flush => s.flusher.record
  | _ => none

theorem mem_pending_of_puts {a : LogAct α} {record : α} (h : s.puts a = some record) : record ∈ s.pending := by
  unfold puts at h
  split at h
  next =>
    split at h
    next hi =>
      cases h
      exact (pending_put hi).mem_iff.mpr List.mem_cons_self
    next => cases h
  next =>
    refine List.mem_append_right _ (List.mem_append_right _ ?_)
    rw [h]
    exact List.mem_cons_self
  next => cases h

/-- A queue stays one, and only a call brings a record. -/
theorem step_pending {a : LogAct α} (hring : ∀ q, s.queue = some q → ∃ f, q.1.Holds f) (hs : s.step a = some t) :
    (∀ q, t.queue = some q → ∃ f, q.1.Holds f) ∧ ∀ r ∈ t.pending, r ∈ s.pending ∨ ∃ i, a = .format i r := by
  have hpopped : ∀ {q : BlockQueue α × List PopPc} {x : (BlockQueue α × List PopPc) × Reply α} {b : QueueAct α},
      s.flusher = .popping → s.queue = some q → (b = .pop 0 ∨ ∃ ok, b = .wake 0 ok) → BlockQueue.ops.step q b = some x →
      (∀ p, (s.popped x).queue = some p → ∃ f, p.1.Holds f) ∧
        ∀ r ∈ (s.popped x).pending, r ∈ s.pending ∨ ∃ i, a = .format i r := by
    intro q x b hm hq hb hx
    obtain ⟨f, hf⟩ := hring q hq
    refine ⟨fun p hp => ?_, fun r hr => Or.inl ((pending_pop hf hm hq hb hx).mem_iff.mpr hr)⟩
    cases Option.some.inj hp
    exact (hf.popTurn hb hx).1
  cases stepped hs with
  | format hi =>
    refine ⟨hring, fun r hr => ?_⟩
    rcases List.mem_cons.mp ((pending_format hi).mem_iff.mp hr) with rfl | hr
    · exact Or.inr ⟨_, rfl⟩
    · exact Or.inl hr
  | test hi => exact ⟨hring, fun r hr => Or.inl ((pending_test hi).mem_iff.mp hr)⟩
  | push hi hq =>
    obtain ⟨f, hf⟩ := hring _ hq
    refine ⟨fun p hp => ?_, fun r hr => Or.inl ((pending_push hf hi hq).mem_iff.mpr (List.mem_append_right _ hr))⟩
    cases Option.some.inj hp
    exact ⟨_, (hf.push _).1⟩
  | put hi => exact ⟨hring, fun r hr => Or.inl ((pending_put hi).mem_iff.mpr (List.mem_cons_of_mem _ hr))⟩
  | pop hm hq hx => exact hpopped hm hq (Or.inl rfl) hx
  | wake hm hq hx => exact hpopped hm hq (Or.inr ⟨_, rfl⟩) hx
  | flush hm => exact ⟨hring, fun r hr => Or.inl ((pending_flush hm).mem_iff.mpr (List.mem_cons_of_mem _ hr))⟩

end Log

/-- What a path gives of itself to the name of a log file: up to its last slash, and the rest. -/
def pathDir (path : List UInt8) : List UInt8 := (strrchr path 47).elim [] fun p => path.take (p + 1)

def pathBase (path : List UInt8) : List UInt8 := (strrchr path 47).elim path fun p => path.drop (p + 1)

/-- The directory, the date and the base name, and a number or none behind them. -/
def NamedFor (path : List UInt8) (d : Date) (name : List UInt8) : Prop :=
  ∃ number, name = partName (pathDir path) (pathBase path) (d, number)

namespace LogFiles

variable {α : Type} {s t : LogFiles α} {fopen : List UInt8 → Bool} {d : Date}

/-- What write_log does under its first lock. -/
def enter (fopen : List UInt8 → Bool) (s : LogFiles α) (d : Date) : Option (LogFiles α) :=
  let s : LogFiles α := { s with count := s.count + 1 }
  if s.today ≠ d.mday ∨ s.count % s.splitLines = 0 then s.rotate fopen d else some s

/-- The part that a call at a date opens, if it opens one. -/
def opensPart (s : LogFiles α) (d : Date) : Option (Date × Option Nat) :=
  if s.today ≠ d.mday then some (d, none)
  else if (s.count + 1) % s.splitLines = 0 then some (d, some ((s.count + 1) / s.splitLines))
  else none

/-- The file that is open, if one is. -/
def current (s : LogFiles α) : Option (Opened α) := if s.fpOpen then s.opens.head? else none

theorem newLog_part (s : LogFiles α) (d : Date) (number : Option Nat) :
    s.newLog d (number.elim [] fun k => bytes "." ++ decimal k) = (partName s.dirName s.logName (d, number)).take 254 := by
  rw [newLog, List.take_of_length_le (dateText_length d), partName]

theorem current_isSome (h : s.current.isSome) : s.fpOpen = true ∧ ∃ o opens, s.opens = o :: opens := by
  unfold current at h
  split at h
  next hopen =>
    refine ⟨hopen, ?_⟩
    cases hopens : s.opens with
    | nil =>
      rw [hopens] at h
      cases h
    | cons o opens => exact ⟨o, opens, rfl⟩
  next => cases h

/-- While a file is open and fopen succeeds, a call and a fputs leave one open. -/
theorem enter_open (hopen : ∀ name, fopen name = true) (h : s.current.isSome) (d : Date) :
    ∃ t, s.enter fopen d = some t ∧ t.current.isSome := by
  have hrotate : ∀ u : LogFiles α, u.fpOpen = true → ∃ t, u.rotate fopen d = some t ∧ t.current.isSome := by
    intro u hu
    unfold rotate
    rw [if_neg (by simp [hu]), openFile_of_fopen hopen, openFile_of_fopen hopen]
    split
    next => exact ⟨_, rfl, rfl⟩
    next => exact ⟨_, rfl, rfl⟩
  unfold enter
  dsimp only
  split
  next => exact hrotate _ (current_isSome h).1
  next => exact ⟨_, rfl, h⟩

theorem fputs_open (h : s.current.isSome) (record : α) : ∃ t, s.fputs record = some t ∧ t.current.isSome := by
  obtain ⟨hopen, o, opens, hopens⟩ := current_isSome h
  refine ⟨{ s with opens := { o with records := o.records ++ [record] } :: opens }, ?_, ?_⟩
  · simp only [fputs, hopen, hopens]
  · rw [current, hopen]
    rfl

/-- The files of a path: every record is in a file with a name for its date, and the open file has
one for the given date. -/
structure Dated (path : List UInt8) (last : Date) (s : LogFiles (Date × α)) : Prop where
  names : 47 ∈ path ∨ path = [] → s.dirName = pathDir path ∧ s.logName = pathBase path
  named : ∀ o ∈ s.opens, ∀ record ∈ o.records, NamedFor path record.1 o.name
  current : ∀ o ∈ s.current, NamedFor path last o.name

section Dated

variable {s t : LogFiles (Date × α)} {path : List UInt8} {last : Date}

/-- A file is opened with a name for the date, or none is open. -/
theorem Dated.openFile (hnames : 47 ∈ path ∨ path = [] → s.dirName = pathDir path ∧ s.logName = pathBase path)
    (hnamed : ∀ o ∈ s.opens, ∀ record ∈ o.records, NamedFor path record.1 o.name) {name : List UInt8}
    (hname : NamedFor path d name) : (s.openFile fopen name).Dated path d := by
  unfold LogFiles.openFile
  split
  next =>
    refine ⟨hnames, fun o ho => ?_, ?_⟩
    · rcases List.mem_cons.mp ho with rfl | ho
      · exact List.forall_mem_nil _
      · exact hnamed o ho
    · rintro _ ⟨⟩
      exact hname
  next => exact ⟨hnames, hnamed, fun o ho => by cases ho⟩

theorem not_mem_of_strrchr (h : strrchr path 47 = none) : 47 ∉ path := by
  intro hmem
  obtain ⟨front, name, rfl, hname⟩ := exists_last hmem
  rw [strrchr_append hname] at h
  cases h

/-- init opens the file of its date. -/
theorem dated_init {splitLines : Nat} {hsplit : 0 < splitLines} (h : init fopen path splitLines hsplit d = some s)
    (hfits : (partName (pathDir path) (pathBase path) (d, none)).length ≤ 254) : s.Dated path d := by
  have hname : NamedFor path d ((pathDir path ++ dateText d ++ pathBase path).take 254) := by
    rw [← List.append_nil (pathDir path ++ dateText d ++ pathBase path)]
    exact ⟨none, List.take_of_length_le hfits⟩
  unfold init at h
  cases hslash : strrchr path 47 with
  | none =>
    have hdir : pathDir path = [] := by
      rw [pathDir, hslash]
      rfl
    have hbase : pathBase path = path := by
      rw [pathBase, hslash]
      rfl
    rw [hslash] at h
    rw [hdir, hbase, List.nil_append] at hname
    rw [← Option.some.inj h]
    refine Dated.openFile (fun hpath => ?_) (List.forall_mem_nil _) hname
    rw [hdir, hbase]
    exact ⟨rfl, (hpath.resolve_left (not_mem_of_strrchr hslash)).symm⟩
  | some p =>
    have hdir : pathDir path = path.take (p + 1) := by
      rw [pathDir, hslash]
      rfl
    have hbase : pathBase path = path.drop (p + 1) := by
      rw [pathBase, hslash]
      rfl
    rw [hslash] at h
    rw [hdir, hbase] at hname
    dsimp only at h
    split at h
    next =>
      rw [← Option.some.inj h]
      exact Dated.openFile (fun _ => ⟨hdir.symm, hbase.symm⟩) (List.forall_mem_nil _) hname
    next => cases h

/-- A part that is opened with a whole name has one for its date. -/
theorem Dated.part (h : s.Dated path last) {number : Option Nat} (hpath : 47 ∈ path ∨ path = [])
    (hfits : (partName (pathDir path) (pathBase path) (d, number)).length ≤ 254) :
    NamedFor path d (s.newLog d (number.elim [] fun k => bytes "." ++ decimal k)) := by
  obtain ⟨hdir, hlog⟩ := h.names hpath
  rw [newLog_part, hdir, hlog, List.take_of_length_le hfits]
  exact ⟨number, rfl⟩

/-- A call leaves the open file, if there is one, with a name for its date. -/
theorem Dated.enter (h : s.Dated path last)
    (hother : d ≠ last → s.today ≠ d.mday ∨ (s.count + 1) % s.splitLines = 0)
    (hparts : ∀ part ∈ s.opensPart d,
      (47 ∈ path ∨ path = []) ∧ (partName (pathDir path) (pathBase path) part).length ≤ 254)
    (ht : s.enter fopen d = some t) : t.Dated path d := by
  unfold LogFiles.enter at ht
  dsimp only at ht
  by_cases hday : s.today = d.mday
  · by_cases hmod : (s.count + 1) % s.splitLines = 0
    · obtain ⟨hpath, hfits⟩ := hparts (d, some ((s.count + 1) / s.splitLines)) (by simp [opensPart, hday, hmod])
      rw [if_pos (Or.inr hmod), rotate] at ht
      split at ht
      next => cases ht
      next =>
        rw [if_neg (by simp [hday])] at ht
        rw [← Option.some.inj ht]
        exact Dated.openFile (s := { s with count := s.count + 1 }) h.names h.named (h.part hpath hfits)
    · have hsame : d = last := by
        by_contra hne
        rcases hother hne with hday' | hmod'
        · exact hday' hday
        · exact hmod hmod'
      rw [if_neg (by simp [hday, hmod])] at ht
      rw [← Option.some.inj ht, hsame]
      exact ⟨h.names, h.named, h.current⟩
  · obtain ⟨hpath, hfits⟩ := hparts (d, none) (by simp [opensPart, hday])
    rw [if_pos (Or.inl hday), rotate] at ht
    split at ht
    next => cases ht
    next =>
      rw [← Option.some.inj ht]
      exact Dated.openFile (s := { s with today := d.mday, count := 0 }) h.names h.named (h.part hpath hfits)

/-- A record of the date goes to the open file. -/
theorem Dated.fputs (h : s.Dated path last) {record : Date × α} (hrecord : record.1 = last)
    (ht : s.fputs record = some t) : t.Dated path last := by
  unfold LogFiles.fputs at ht
  split at ht
  next o opens hopen hopens =>
    cases ht
    have hnamed := h.named
    rw [hopens] at hnamed
    have hname : NamedFor path last o.name := by
      refine h.current o ?_
      rw [LogFiles.current, hopen, hopens]
      rfl
    refine ⟨h.names, fun o' ho' r hr => ?_, ?_⟩
    · rcases List.mem_cons.mp ho' with rfl | ho'
      · rcases List.mem_append.mp hr with hr | hr
        · exact hnamed o List.mem_cons_self r hr
        · rw [List.mem_singleton.mp hr, hrecord]
          exact hname
      · exact hnamed o' (List.mem_cons_of_mem _ ho') r hr
    · rw [LogFiles.current, hopen]
      rintro _ ⟨⟩
      exact hname
  next => cases ht

end Dated

end LogFiles

/-- The log with its files; the records carry the dates of their calls. last only records the
date of the last call, and at first that of init. -/
structure DatedLog (α : Type) where
  log : Log (Date × α)
  files : LogFiles (Date × α)
  last : Date

namespace DatedLog

variable {α : Type} {s t : DatedLog α} {fopen : List UInt8 → Bool} {path : List UInt8} {d : Date}

def init (fopen : List UInt8 → Bool) (path : List UInt8) (maxQueueSize : Int) (splitLines : Nat) (split_pos : 0 < splitLines)
    (junk : Int → Date × α) (writers : Nat) (d : Date) : Option (DatedLog α) :=
  (LogFiles.init fopen path splitLines split_pos d).map fun files => ⟨Log.init maxQueueSize junk writers, files, d⟩

/-- What a step does to the files: a call begins with the part under the first lock, and a
record is put into the file that is open then. -/
def filesStep (fopen : List UInt8 → Bool) (s : DatedLog α) (a : LogAct (Date × α)) : Option (LogFiles (Date × α)) :=
  match a with
  | .format _ record => s.files.enter fopen record.1
  | a => (s.log.puts a).elim (some s.files) s.files.fputs

def lastDate (s : DatedLog α) : LogAct (Date × α) → Date
  | .format _ record => record.1
  | _ => s.last

def step (fopen : List UInt8 → Bool) (s : DatedLog α) (a : LogAct (Date × α)) : Option (DatedLog α) := do
  let log ← s.log.step a
  let files ← s.filesStep fopen a
  some ⟨log, files, s.lastDate a⟩

/-- Every record is in a file with a name for the date of the record. -/
def Named (path : List UInt8) (s : DatedLog α) : Prop :=
  ∀ o ∈ s.files.opens, ∀ record ∈ o.records, NamedFor path record.1 o.name

/-- A call with another date than the last one opens a file, and no record is pending then. A
file is opened only if the path has a slash (or nothing at all), and its name fits the array. -/
def Timely (path : List UInt8) (s : DatedLog α) : LogAct (Date × α) → Prop
  | .format _ record =>
    (record.1 ≠ s.last →
      (s.files.today ≠ record.1.mday ∨ (s.files.count + 1) % s.files.splitLines = 0) ∧ s.log.pending = []) ∧
    ∀ part ∈ s.files.opensPart record.1,
      (47 ∈ path ∨ path = []) ∧ (partName (pathDir path) (pathBase path) part).length ≤ 254
  | _ => True

instance [DecidableEq α] (s : DatedLog α) : (a : LogAct (Date × α)) → Decidable (s.Timely path a)
  | .format _ _ => inferInstanceAs (Decidable ((_ → _ ∧ _) ∧ _))
  | .test _ | .push _ | .put _ | .pop | .wake _ | .flush => inferInstanceAs (Decidable True)

structure Inv (path : List UInt8) (s : DatedLog α) : Prop where
  ring : ∀ q, s.log.queue = some q → ∃ f, q.1.Holds f
  files : s.files.Dated path s.last
  pending : ∀ record ∈ s.log.pending, record.1 = s.last

theorem pending_init (maxQueueSize : Int) (junk : Int → Date × α) (writers : Nat) :
    (Log.init maxQueueSize junk writers).pending = [] := by
  have hkept : List.Perm [] ([] ++ (Log.init maxQueueSize junk writers).pending) := (Log.init_inv maxQueueSize junk writers).kept
  exact hkept.nil_eq.symm

theorem init_inv {maxQueueSize : Int} {splitLines : Nat} {hsplit : 0 < splitLines} {junk : Int → Date × α}
    {writers : Nat} (h : init fopen path maxQueueSize splitLines hsplit junk writers d = some s)
    (hfits : (partName (pathDir path) (pathBase path) (d, none)).length ≤ 254) : s.Inv path := by
  obtain ⟨files, hfiles, rfl⟩ := Option.map_eq_some_iff.mp h
  refine ⟨(Log.init_inv maxQueueSize junk writers).ring, LogFiles.dated_init hfiles hfits, fun record hr => ?_⟩
  rw [pending_init] at hr
  cases hr

/-- What happens to the files in a step: a call, or a record is put, or nothing. -/
theorem filesStep_cases {a : LogAct (Date × α)} {files : LogFiles (Date × α)} (h : s.filesStep fopen a = some files) :
    (∃ i record, a = .format i record ∧ s.files.enter fopen record.1 = some files) ∨
      (∀ i record, a ≠ .format i record) ∧ s.lastDate a = s.last ∧
        ((∃ record, s.log.puts a = some record ∧ s.files.fputs record = some files) ∨ files = s.files) := by
  have hput : (s.log.puts a).elim (some s.files) s.files.fputs = some files →
      (∃ record, s.log.puts a = some record ∧ s.files.fputs record = some files) ∨ files = s.files := by
    intro hput
    cases hr : s.log.puts a with
    | none =>
      rw [hr] at hput
      exact Or.inr (Option.some.inj hput).symm
    | some record =>
      rw [hr] at hput
      exact Or.inl ⟨record, rfl, hput⟩
  cases a with
  | format i record => exact Or.inl ⟨i, record, rfl, h⟩
  | _ => exact Or.inr ⟨fun _ _ heq => (by cases heq), rfl, hput h⟩

theorem Inv.step {a : LogAct (Date × α)} (h : s.Inv path) (ha : s.Timely path a) (hs : s.step fopen a = some t) :
    t.Inv path := by
  obtain ⟨log, hlog, hs⟩ := Option.bind_eq_some_iff.mp hs
  obtain ⟨files, hfiles, hs⟩ := Option.bind_eq_some_iff.mp hs
  cases Option.some.inj hs
  obtain ⟨hring, hpending⟩ := Log.step_pending h.ring hlog
  rcases filesStep_cases hfiles with ⟨i, record, rfl, henter⟩ | ⟨hno, hlast, hcases⟩
  · refine ⟨hring, h.files.enter (fun hne => (ha.1 hne).1) ha.2 henter, fun r hr => ?_⟩
    rcases hpending r hr with hr | ⟨j, hj⟩
    · by_contra hne
      have hold := h.pending r hr
      rw [(ha.1 fun heq => hne (hold.trans heq.symm)).2] at hr
      cases hr
    · cases hj
      rfl
  · have hold : ∀ r ∈ log.pending, r.1 = s.last := by
      intro r hr
      rcases hpending r hr with hr | ⟨j, hj⟩
      · exact h.pending r hr
      · exact absurd hj (hno j r)
    rw [← hlast] at hold
    refine ⟨hring, ?_, hold⟩
    change files.Dated path (s.lastDate a)
    rw [hlast]
    rcases hcases with ⟨record, hputs, hfputs⟩ | rfl
    · exact h.files.fputs (h.pending record (Log.mem_pending_of_puts hputs)) hfputs
    · exact h.files

/-- In every run in which each call with another date than the last one opens a file while no
record is pending, and files are opened with whole names, each record is in a file of its date. -/
theorem log_named (fopen : List UInt8 → Bool) (path : List UInt8) (maxQueueSize : Int) (splitLines : Nat)
    (hsplit : 0 < splitLines) (junk : Int → Date × α) (writers : Nat) (first : Date) (s : DatedLog α)
    (hinit : init fopen path maxQueueSize splitLines hsplit junk writers first = some s)
    (hfits : (partName (pathDir path) (pathBase path) (first, none)).length ≤ 254) (as : List (LogAct (Date × α)))
    (htimely : StepsMeet (DatedLog.step fopen) (Timely path) s as) : Along (DatedLog.step fopen) (Named path) s as :=
  along_of_invariant (Inv path) (fun _ _ _ h ha hs => h.step ha hs) (fun _ h => h.files.named) (init_inv hinit hfits) htimely

theorem filesStep_open (hopen : ∀ name, fopen name = true) (h : s.files.current.isSome) (a : LogAct (Date × α)) :
    ∃ files, s.filesStep fopen a = some files ∧ files.current.isSome := by
  have hput : ∃ files, (s.log.puts a).elim (some s.files) s.files.fputs = some files ∧ files.current.isSome := by
    cases s.log.puts a with
    | none => exact ⟨s.files, rfl, h⟩
    | some record => exact LogFiles.fputs_open h record
  cases a with
  | format i record => exact LogFiles.enter_open hopen h record.1
  | _ => exact hput

/-- While fopen succeeds the files never hold up a run: it goes as the run of the log alone. -/
theorem runSteps_log (hopen : ∀ name, fopen name = true) (h : s.files.current.isSome) (as : List (LogAct (Date × α))) :
    (runSteps (DatedLog.step fopen) s as).map DatedLog.log = runSteps Log.step s.log as := by
  induction as generalizing s with
  | nil => rfl
  | cons a as ih =>
    obtain ⟨files, hfiles, hcurrent⟩ := filesStep_open hopen h a
    rw [runSteps_cons, runSteps_cons, DatedLog.step, hfiles]
    cases hlog : s.log.step a with
    | none => rfl
    | some log => exact ih hcurrent

/-- The log behind an init with a queue for four records. -/
def sampleLog : DatedLog Nat where
  log := Log.init 4 (fun _ => (sampleClock.toDate, 0)) 1
  files := ⟨bytes "./", bytes "ServerLog", 9, by decide, 0, 17, true, [⟨bytes "./2024_05_17_ServerLog", []⟩]⟩
  last := sampleClock.toDate

/-- A record is queued and written, and a call on the next day opens its file. -/
theorem log_named_two :
    Along (DatedLog.step fun _ => true) (Named (bytes "./ServerLog")) sampleLog
      [.format 0 (sampleClock.toDate, 1), .test 0, .push 0, .pop, .flush,
        .format 0 (⟨2024, 5, 18, by decide, by decide, by decide⟩, 2), .test 0, .push 0, .pop, .flush] :=
  log_named (fun _ => true) (bytes "./ServerLog") 4 9 (by decide) (fun _ => (sampleClock.toDate, 0)) 1 sampleClock.toDate
    sampleLog rfl (by decide) _ (by decide)

theorem Named.starts (h : s.Named path) :
    ∀ o ∈ s.files.opens, ∀ record ∈ o.records, pathDir path ++ dateText record.1 <+: o.name := by
  intro o ho record hr
  obtain ⟨number, hname⟩ := h o ho record hr
  rw [hname, partName, List.append_assoc]
  exact List.prefix_append _ _

/-- From the fifth of January to the fifth of February the day of the month is the same. -/
theorem log_not_always_named :
    ¬ ∀ (fopen : List UInt8 → Bool) (path : List UInt8) (maxQueueSize : Int) (splitLines : Nat) (hsplit : 0 < splitLines)
      (junk : Int → Date × Nat) (writers : Nat) (first : Date) (s : DatedLog Nat),
      init fopen path maxQueueSize splitLines hsplit junk writers first = some s →
      ∀ as : List (LogAct (Date × Nat)),
        StepsMeet (DatedLog.step fopen) (fun s a => s.last.key ≤ (s.lastDate a).key) s as →
        Along (DatedLog.step fopen) (Named path) s as := by
  intro h
  have hrun := h (fun _ => true) (bytes "./ServerLog") 0 9 (by decide) (fun _ => (sampleClock.toDate, 0)) 1
    ⟨2024, 1, 5, by decide, by decide, by decide⟩ _ rfl
    [.format 0 (⟨2024, 2, 5, by decide, by decide, by decide⟩, 1), .test 0, .put 0] (by decide)
  exact absurd (hrun.imp fun _ => Named.starts) (by decide)

end DatedLog

end CppInAction
