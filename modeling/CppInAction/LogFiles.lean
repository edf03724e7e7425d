import CppInAction.LogRecord
import Mathlib.Data.List.Nodup

namespace CppInAction

/-- A log file from its fopen to the next one, with the records written to it. -/
structure Opened (α : Type) where
  name : List UInt8
  records : List α

/-- The members of Log that name and count, and the files opened so far, the last one first;
fpOpen says that m_fp is not null. -/
structure LogFiles (α : Type) where
  dirName : List UInt8
  logName : List UInt8
  splitLines : Nat
  split_pos : 0 < splitLines
  count : Nat
  today : Nat
  fpOpen : Bool
  opens : List (Opened α)

/-- The date in a file name. -/
def dateText (d : Date) : List UInt8 :=
  decimal d.year ++ bytes "_" ++ padded 2 d.mon ++ bytes "_" ++ padded 2 d.mday ++ bytes "_"

namespace LogFiles

variable {α : Type}

def openFile (s : LogFiles α) (fopen : List UInt8 → Bool) (name : List UInt8) : LogFiles α :=
  if fopen name then { s with opens := ⟨name, []⟩ :: s.opens, fpOpen := true } else { s with fpOpen := false }

/-- Log::init on the static object: the path is cut at its last slash into two arrays of 128;
without a slash they stay empty. -/
def init (fopen : List UInt8 → Bool) (path : List UInt8) (splitLines : Nat) (split_pos : 0 < splitLines) (d : Date) :
    Option (LogFiles α) :=
  match strrchr path 47 with
  | none => some (openFile ⟨[], [], splitLines, split_pos, 0, d.mday, false, []⟩ fopen ((dateText d ++ path).take 254))
  | some p =>
    if p + 1 < 128 ∧ (path.drop (p + 1)).length < 128 then
      some (openFile ⟨path.take (p + 1), path.drop (p + 1), splitLines, split_pos, 0, d.mday, false, []⟩ fopen
        ((path.take (p + 1) ++ dateText d ++ path.drop (p + 1)).take 254))
    else none

/-- The name that write_log builds, with the date in an array of 16. -/
def newLog (s : LogFiles α) (d : Date) (suffix : List UInt8) : List UInt8 :=
  (s.dirName ++ (dateText d).take 15 ++ s.logName ++ suffix).take 254

/-- The file is closed and another one opened: with the new date and the count at 0 on another
day of the month, else with the number of the part behind its name. -/
def rotate (s : LogFiles α) (fopen : List UInt8 → Bool) (d : Date) : Option (LogFiles α) :=
  if s.fpOpen = false then none
  else if s.today ≠ d.mday then some (openFile { s with today := d.mday, count := 0 } fopen (s.newLog d []))
  else some (s.openFile fopen (s.newLog d (bytes "." ++ decimal (s.count / s.splitLines : Nat))))

def fputs (s : LogFiles α) (record : α) : Option (LogFiles α) :=
  match s.fpOpen, s.opens with
  | true, o :: opens => some { s with opens := { o with records := o.records ++ [record] } :: opens }
  | _, _ => none

/-- A synchronous write_log at a date. -/
def writeLog (fopen : List UInt8 → Bool) (s : LogFiles α) (call : Date × α) : Option (LogFiles α) :=
  let s : LogFiles α := { s with count := s.count + 1 }
  (if s.today ≠ call.1.mday ∨ s.count % s.splitLines = 0 then s.rotate fopen call.1 else some s).bind (·.fputs call.2)

/-- All records in the order in which they went to the files. -/
def written (s : LogFiles α) : List α := s.opens.reverse.flatMap Opened.records

end LogFiles

/-- Dates in the order of the calendar. -/
def Date.key (d : Date) : Nat := (d.year * 12 + d.mon) * 31 + d.mday

theorem Date.key_injective {d d' : Date} (h : d.key = d'.key) : d = d' := by
  obtain ⟨year, mon, mday, _, hmon, hmday⟩ := d
  obtain ⟨year', mon', mday', _, hmon', hmday'⟩ := d'
  simp only [Date.key] at h
  have hday : mday = mday' := by omega
  have hmonth : mon = mon' := by omega
  have hyear : year = year' := by omega
  subst hday hmonth hyear
  rfl

theorem dateText_length (d : Date) : (dateText d).length ≤ 15 := by
  have hyear := digits_length_le (by decide) d.year_lt
  have hmon : (padded 2 d.mon).length = 2 := padded_length (by decide) (by have := d.mon_range; omega)
  have hmday : (padded 2 d.mday).length = 2 := padded_length (by decide) (by have := d.mday_range; omega)
  have hline : (bytes "_").length = 1 := rfl
  rw [← decimal_ofNat] at hyear
  simp only [dateText, List.length_append, hmon, hmday, hline]
  omega

theorem dateText_inj {d d' : Date} {as bs : List UInt8} (h : dateText d ++ as = dateText d' ++ bs) :
    d = d' ∧ as = bs := by
  have hshape : ∀ (d : Date) (as : List UInt8), dateText d ++ as =
      digits d.year ++ 95 :: (padded 2 d.mon ++ 95 :: (padded 2 d.mday ++ 95 :: as)) := by
    intro d as
    have hline : bytes "_" = [95] := rfl
    simp [dateText, decimal_ofNat, hline]
  rw [hshape, hshape] at h
  obtain ⟨hyear, h⟩ := digits_append_inj (isDigit_digits _) (isDigit_digits _) rfl h
  obtain ⟨hmon, h⟩ := digits_append_inj (isDigit_padded _ _) (isDigit_padded _ _) rfl h
  obtain ⟨hmday, h⟩ := digits_append_inj (isDigit_padded _ _) (isDigit_padded _ _) rfl h
  refine ⟨Date.key_injective ?_, h⟩
  rw [Date.key, Date.key, digits_injective hyear, padded_injective hmon, padded_injective hmday]

/-- The name of a part of the log of a day; the first part has no number. -/
def partName (dir log : List UInt8) (part : Date × Option Nat) : List UInt8 :=
  dir ++ dateText part.1 ++ log ++ part.2.elim [] fun k => bytes "." ++ decimal k

theorem partName_injective {dir log : List UInt8} {x y : Date × Option Nat} (h : partName dir log x = partName dir log y) :
    x = y := by
  obtain ⟨d, k⟩ := x
  obtain ⟨d', k'⟩ := y
  have hdot : bytes "." = [46] := rfl
  simp only [partName, List.append_assoc, hdot] at h
  obtain ⟨hdate, h⟩ := dateText_inj (List.append_cancel_left h)
  have hpart := List.append_cancel_left h
  subst hdate
  cases k with
  | none =>
    cases k' with
    | none => rfl
    | some k' => simp at hpart
  | some k =>
    cases k' with
    | none => simp at hpart
    | some k' =>
      have hdigits : decimal k = decimal k' := List.append_cancel_left hpart
      rw [decimal_ofNat, decimal_ofNat] at hdigits
      rw [digits_injective hdigits]

namespace LogFiles

variable {α : Type} {s t : LogFiles α} {last d : Date} {parts : List (Date × Option Nat)} {more : Nat}

/-- The parts opened up to the date of the last call, and how many records they have; more is what
the last one may have above m_count. -/
structure Kept (s : LogFiles α) (last : Date) (parts : List (Date × Option Nat)) (more : Nat) : Prop where
  names : s.opens.map Opened.name = parts.map (partName s.dirName s.logName)
  nodup : parts.Nodup
  past : ∀ part ∈ parts, part.1.key ≤ last.key
  numbers : ∀ part ∈ parts, part.1 = last → ∀ k ∈ part.2, k ≤ s.count / s.splitLines
  today : s.today = last.mday
  isOpen : s.fpOpen = true
  nonempty : s.opens ≠ []
  current : ∀ o ∈ s.opens.head?, o.records.length ≤ s.count % s.splitLines + more
  full : ∀ o ∈ s.opens.tail, o.records.length ≤ s.splitLines
  short : s.dirName.length + s.logName.length ≤ 100

theorem newLog_eq {suffix : List UInt8} (hshort : s.dirName.length + s.logName.length ≤ 100) (h : suffix.length ≤ 100) :
    s.newLog d suffix = s.dirName ++ dateText d ++ s.logName ++ suffix := by
  have hdate := dateText_length d
  rw [newLog, List.take_of_length_le hdate, List.take_of_length_le]
  simp only [List.length_append]
  omega

theorem Kept.records_le (h : s.Kept last parts 1) : ∀ o ∈ s.opens, o.records.length ≤ s.splitLines := by
  intro o ho
  have hmod := Nat.mod_lt s.count s.split_pos
  cases hopens : s.opens with
  | nil => exact absurd hopens h.nonempty
  | cons first rest =>
    have hcurrent := h.current first (by rw [hopens]; rfl)
    have hfull := h.full
    rw [hopens] at ho hfull
    rcases List.mem_cons.mp ho with rfl | ho
    · omega
    · exact hfull o ho

/-- The record goes to the file that is open. -/
theorem Kept.fputs (h : s.Kept last parts 0) (record : α) :
    ∃ t, s.fputs record = some t ∧ t.Kept last parts 1 ∧ t.written = s.written ++ [record] ∧ t.count = s.count ∧
      t.splitLines = s.splitLines := by
  cases hopens : s.opens with
  | nil => exact absurd hopens h.nonempty
  | cons o opens =>
    refine ⟨{ s with opens := { o with records := o.records ++ [record] } :: opens }, ?_, ?_, ?_, rfl, rfl⟩
    · simp only [LogFiles.fputs, h.isOpen, hopens]
    · have hnames := h.names
      have hcurrent := h.current o (by rw [hopens]; rfl)
      have hfull := h.full
      rw [hopens] at hnames hfull
      refine ⟨hnames, h.nodup, h.past, h.numbers, h.today, h.isOpen, by simp, ?_, hfull, h.short⟩
      rintro _ ⟨⟩
      simpa using hcurrent
    · simp [written, hopens]

theorem openFile_of_fopen {fopen : List UInt8 → Bool} (hopen : ∀ name, fopen name = true) (name : List UInt8) :
    s.openFile fopen name = { s with opens := ⟨name, []⟩ :: s.opens, fpOpen := true } :=
  if_pos (hopen name)

/-- Numbers given out on the day of the call are those given out so far. -/
theorem Kept.numbers_at (h : s.Kept last parts more) (hle : last.key ≤ d.key) :
    ∀ part ∈ parts, part.1 = d → ∀ k ∈ part.2, k ≤ s.count / s.splitLines := by
  intro part hpart hd
  have hpast := h.past part hpart
  have hlast : d = last := Date.key_injective (by rw [hd] at hpast; omega)
  exact h.numbers part hpart (hd.trans hlast)

/-- Another day of the month, so another date: no part of it is open yet. -/
theorem Kept.newDay (h : s.Kept last parts 1) (hle : last.key ≤ d.key) (hday : s.today ≠ d.mday) :
    Kept { s with today := d.mday, count := 0, opens := ⟨s.newLog d [], []⟩ :: s.opens, fpOpen := true } d
      ((d, none) :: parts) 0 := by
  have hlt : last.key < d.key := by
    rcases Nat.lt_or_eq_of_le hle with hlt | heq
    · exact hlt
    · rw [h.today, Date.key_injective heq] at hday
      exact absurd rfl hday
  have hfresh : ∀ part ∈ parts, part.1 ≠ d := by
    intro part hpart hd
    have := h.past part hpart
    rw [hd] at this
    omega
  refine ⟨?_, ?_, ?_, ?_, rfl, rfl, by simp, ?_, h.records_le, h.short⟩
  · rw [List.map_cons, List.map_cons, h.names, newLog_eq h.short (by simp)]
    rfl
  · exact List.nodup_cons.mpr ⟨fun hmem => hfresh _ hmem rfl, h.nodup⟩
  · intro part hpart
    rcases List.mem_cons.mp hpart with rfl | hpart
    · exact Nat.le_refl _
    · have := h.past part hpart
      omega
  · intro part hpart hd k hk
    rcases List.mem_cons.mp hpart with rfl | hpart
    · cases hk
    · exact absurd hd (hfresh part hpart)
  · rintro _ ⟨⟩
    exact Nat.zero_le _

/-- The next number, which no part of the date has yet. -/
theorem Kept.newPart (h : s.Kept last parts 1) (hle : last.key ≤ d.key) (hday : s.today = d.mday)
    (hmod : (s.count + 1) % s.splitLines = 0) (hcount : s.count + 1 < 2 ^ 63) :
    Kept { s with
      count := s.count + 1
      opens := ⟨s.newLog d (bytes "." ++ decimal ((s.count + 1) / s.splitLines : Nat)), []⟩ :: s.opens
      fpOpen := true } d ((d, some ((s.count + 1) / s.splitLines)) :: parts) 0 := by
  have hnext : (s.count + 1) / s.splitLines = s.count / s.splitLines + 1 := by
    rw [Nat.succ_div, if_pos (Nat.dvd_of_mod_eq_zero hmod)]
  have hsuffix : (bytes "." ++ decimal ((s.count + 1) / s.splitLines : Nat)).length ≤ 100 := by
    have hk : (s.count + 1) / s.splitLines < 10 ^ 19 :=
      Nat.lt_of_le_of_lt (Nat.div_le_self _ _) (Nat.lt_trans hcount (by decide))
    have hdigits := digits_length_le (by decide) hk
    have hdot : (bytes ".").length = 1 := rfl
    rw [decimal_ofNat, List.length_append]
    omega
  refine ⟨?_, ?_, ?_, ?_, hday, rfl, by simp, ?_, h.records_le, h.short⟩
  · rw [List.map_cons, List.map_cons, h.names, newLog_eq h.short hsuffix]
    rfl
  · refine List.nodup_cons.mpr ⟨fun hmem => ?_, h.nodup⟩
    have := h.numbers_at hle _ hmem rfl _ rfl
    omega
  · intro part hpart
    rcases List.mem_cons.mp hpart with rfl | hpart
    · exact Nat.le_refl _
    · have := h.past part hpart
      omega
  · intro part hpart hd k hk
    rcases List.mem_cons.mp hpart with rfl | hpart
    · cases hk
      exact Nat.le_refl _
    · have := h.numbers_at hle part hpart hd k hk
      simp only
      omega
  · rintro _ ⟨⟩
    exact Nat.zero_le _

theorem Kept.samePart (h : s.Kept last parts 1) (hle : last.key ≤ d.key) (hday : s.today = d.mday)
    (hmod : (s.count + 1) % s.splitLines ≠ 0) : Kept { s with count := s.count + 1 } d parts 0 := by
  have hnext : (s.count + 1) % s.splitLines = s.count % s.splitLines + 1 := by
    have hdiv : (s.count + 1) / s.splitLines = s.count / s.splitLines := by
      rw [Nat.succ_div, if_neg fun hdvd => hmod (Nat.mod_eq_zero_of_dvd hdvd)]
      rfl
    have hnew := Nat.div_add_mod (s.count + 1) s.splitLines
    have hold := Nat.div_add_mod s.count s.splitLines
    rw [hdiv] at hnew
    omega
  refine ⟨h.names, h.nodup, ?_, ?_, hday, h.isOpen, h.nonempty, ?_, h.full, h.short⟩
  · intro part hpart
    have := h.past part hpart
    omega
  · intro part hpart hd k hk
    have := h.numbers_at hle part hpart hd k hk
    exact Nat.le_trans this (Nat.div_le_div_right (Nat.le_succ _))
  · intro o ho
    have := h.current o ho
    simp only
    omega

/-- One call of write_log. -/
theorem Kept.writeLog {fopen : List UInt8 → Bool} (hopen : ∀ name, fopen name = true) (h : s.Kept last parts 1)
    (call : Date × α) (hle : last.key ≤ call.1.key) (hcount : s.count + 1 < 2 ^ 63) :
    ∃ t parts', s.writeLog fopen call = some t ∧ t.Kept call.1 parts' 1 ∧ t.written = s.written ++ [call.2] ∧
      t.count ≤ s.count + 1 ∧ t.splitLines = s.splitLines := by
  have hput : ∀ (u : LogFiles α) (parts' : List (Date × Option Nat)), u.Kept call.1 parts' 0 → u.written = s.written →
      u.count ≤ s.count + 1 → u.splitLines = s.splitLines → s.writeLog fopen call = u.fputs call.2 →
      ∃ t parts', s.writeLog fopen call = some t ∧ t.Kept call.1 parts' 1 ∧ t.written = s.written ++ [call.2] ∧
        t.count ≤ s.count + 1 ∧ t.splitLines = s.splitLines := by
    intro u parts' hu hwritten hcount' hsplit hcall
    obtain ⟨t, hputs, ht, hnew, hcount, hsame⟩ := hu.fputs call.2
    exact ⟨t, parts', hcall.trans hputs, ht, by rw [hnew, hwritten], by omega, hsame.trans hsplit⟩
  unfold LogFiles.writeLog at hput ⊢
  simp only at hput ⊢
  by_cases hday : s.today = call.1.mday
  · by_cases hmod : (s.count + 1) % s.splitLines = 0
    · refine hput _ _ (h.newPart hle hday hmod hcount) ?_ (Nat.le_refl _) rfl ?_
      · simp [written]
      · rw [if_pos (Or.inr hmod), rotate, if_neg (by simp [h.isOpen]), if_neg (by simp [hday]), openFile_of_fopen hopen]
        rfl
    · refine hput _ _ (h.samePart hle hday hmod) rfl (Nat.le_refl _) rfl ?_
      rw [if_neg (by simp [hday, hmod])]
      rfl
  · refine hput _ _ (h.newDay hle hday) ?_ (Nat.zero_le _) rfl ?_
    · simp [written]
    · rw [if_pos (Or.inl hday), rotate, if_neg (by simp [h.isOpen]), if_pos hday, openFile_of_fopen hopen]
      rfl

theorem Kept.run {fopen : List UInt8 → Bool} (hopen : ∀ name, fopen name = true) {calls : List (Date × α)}
    (h : s.Kept last parts 1) (hdates : (last :: calls.map Prod.fst).Pairwise fun d d' => d.key ≤ d'.key)
    (hcount : s.count + calls.length < 2 ^ 63) :
    ∃ t last' parts', calls.foldlM (LogFiles.writeLog fopen) s = some t ∧ t.Kept last' parts' 1 ∧
      t.written = s.written ++ calls.map Prod.snd ∧ t.splitLines = s.splitLines := by
  induction calls generalizing s last parts with
  | nil => exact ⟨s, last, parts, rfl, h, by simp, rfl⟩
  | cons call calls ih =>
    rw [List.length_cons] at hcount
    rw [List.map_cons] at hdates
    obtain ⟨hlast, hrest⟩ := List.pairwise_cons.mp hdates
    obtain ⟨t, parts', hcall, ht, hwritten, hcount', hsplit⟩ :=
      h.writeLog hopen call (hlast call.1 List.mem_cons_self) (by omega)
    obtain ⟨u, last', parts'', hrun, hu, hwritten', hsplit'⟩ := ih ht hrest (by omega)
    refine ⟨u, last', parts'', ?_, hu, ?_, hsplit'.trans hsplit⟩
    · rw [List.foldlM_cons, hcall]
      exact hrun
    · rw [hwritten', hwritten, List.map_cons, List.append_assoc]
      rfl

theorem kept_init {fopen : List UInt8 → Bool} (hopen : ∀ name, fopen name = true) {path : List UInt8}
    (hlen : path.length ≤ 100) (hslash : 47 ∈ path) {splitLines : Nat} (hsplit : 0 < splitLines) (d : Date) :
    ∃ s : LogFiles α, init fopen path splitLines hsplit d = some s ∧ s.Kept d [(d, none)] 1 ∧ s.written = [] ∧
      s.count = 0 ∧ s.splitLines = splitLines := by
  obtain ⟨front, name, hpath, hname⟩ := exists_last hslash
  obtain ⟨p, hp, hle⟩ : ∃ p, strrchr path 47 = some p ∧ p + 1 ≤ path.length := by
    refine ⟨front.length, hpath ▸ strrchr_append hname, ?_⟩
    rw [hpath, List.length_append, List.length_cons]
    omega
  have hdrop : (path.drop (p + 1)).length < 128 := by
    rw [List.length_drop]
    omega
  have hdate := dateText_length d
  have hname : (path.take (p + 1) ++ dateText d ++ path.drop (p + 1)).length ≤ 254 := by
    simp only [List.length_append, List.length_take, List.length_drop]
    omega
  refine ⟨_, by rw [init, hp]; exact if_pos ⟨by omega, hdrop⟩, ?_⟩
  rw [openFile_of_fopen hopen, List.take_of_length_le hname]
  refine ⟨⟨by simp [partName], by simp, ?_, ?_, rfl, rfl, by simp, ?_, by simp, ?_⟩, rfl, rfl, rfl⟩
  · intro part hpart
    rw [List.mem_singleton.mp hpart]
  · intro part hpart _ k hk
    rw [List.mem_singleton.mp hpart] at hk
    cases hk
  · rintro _ ⟨⟩
    exact Nat.zero_le _
  · simp only [List.length_take, List.length_drop]
    omega

end LogFiles

/-- In every sequence of synchronous calls each open takes at most m_split_lines records, every
record goes to the file that is open, in order, and no name is opened twice. -/
theorem log_rotates {α : Type} (fopen : List UInt8 → Bool) (hopen : ∀ name, fopen name = true) (path : List UInt8)
    (hlen : path.length ≤ 100) (hslash : 47 ∈ path) (splitLines : Nat) (hsplit : 0 < splitLines) (first : Date)
    (calls : List (Date × α)) (hcalls : calls.length < 2 ^ 63)
    (hdates : (first :: calls.map Prod.fst).Pairwise fun d d' => d.key ≤ d'.key) :
    ∃ s : LogFiles α,
      (LogFiles.init fopen path splitLines hsplit first).bind (calls.foldlM (LogFiles.writeLog fopen)) = some s ∧
      (∀ o ∈ s.opens, o.records.length ≤ splitLines) ∧ s.written = calls.map Prod.snd ∧
      (s.opens.map Opened.name).Nodup := by
  obtain ⟨s, hinit, hs, hempty, hcount, hsame⟩ := LogFiles.kept_init hopen hlen hslash hsplit first
  obtain ⟨t, last, parts, hrun, ht, hwritten, hsplit'⟩ := hs.run hopen hdates (by omega)
  refine ⟨t, by rw [hinit]; exact hrun, ?_, ?_, ?_⟩
  · intro o ho
    have := ht.records_le o ho
    omega
  · rw [hwritten, hempty, List.nil_append]
  · rw [ht.names]
    exact List.Nodup.map (fun _ _ h => partName_injective h) ht.nodup

/-- Two parts on one day and the first of another. -/
theorem log_rotates_three : ∃ s : LogFiles Nat,
    (LogFiles.init (fun _ => true) (bytes "./ServerLog") 2 (by decide) sampleClock.toDate).bind
      ([(sampleClock.toDate, 1), (sampleClock.toDate, 2), (⟨2024, 5, 18, by decide, by decide, by decide⟩, 3)].foldlM
        (LogFiles.writeLog fun _ => true)) = some s ∧
    (∀ o ∈ s.opens, o.records.length ≤ 2) ∧ s.written = [1, 2, 3] ∧ (s.opens.map Opened.name).Nodup :=
  log_rotates (fun _ => true) (fun _ => rfl) (bytes "./ServerLog") (by decide) (by decide) 2 (by decide)
    sampleClock.toDate _ (by decide) (by decide)

end CppInAction
