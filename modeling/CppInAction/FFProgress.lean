import CppInAction.FFTask
import Mathlib.Data.List.Induction

namespace CppInAction

/-- A quotient of a positive divisor, rounded to zero, between 0 and n. -/
theorem tdiv_between {a d n : Int} (hd : 0 < d) (hn : 0 ≤ n) :
    0 ≤ a.tdiv d ∧ a.tdiv d ≤ n ↔ -d < a ∧ a < (n + 1) * d := by
  rcases Int.le_total 0 a with ha | ha
  · have hq := Int.ediv_nonneg ha (Int.le_of_lt hd)
    have hlt : a / d < n + 1 ↔ a < (n + 1) * d := Int.ediv_lt_iff_lt_mul hd
    rw [Int.tdiv_eq_ediv_of_nonneg ha, ← hlt]
    omega
  · have hq : a.tdiv d = -((-a) / d) := by
      rw [← Int.tdiv_eq_ediv_of_nonneg (by omega), Int.neg_tdiv, Int.neg_neg]
    have hq0 := Int.ediv_nonneg (show 0 ≤ -a by omega) (Int.le_of_lt hd)
    have hmul : 0 < (n + 1) * d := Int.mul_pos (by omega) hd
    have hlt : (-a) / d < 1 ↔ -a < 1 * d := Int.ediv_lt_iff_lt_mul hd
    rw [hq]
    omega

namespace Meter

/-- The readings of an object that has run no task. -/
def fresh : Meter := ⟨0, 0⟩

/-- What the lines of one task come to by themselves. -/
def ofLines (lines : List (List UInt8)) : Option Meter := lines.foldlM callback fresh

/-- The two make no difference to later lines: a total that is not positive counts for nothing. -/
def Alike (m m' : Meter) : Prop :=
  m.progress = m'.progress ∧ (m.totalSeconds = m'.totalSeconds ∨ m.totalSeconds ≤ 0 ∧ m'.totalSeconds ≤ 0)

variable {m m' m1 : Meter} {line : List UInt8}

theorem Alike.total (h : m.Alike m') : m.totalSeconds ≤ 0 ↔ m'.totalSeconds ≤ 0 := by
  obtain ⟨_, heq | ⟨hm, hm'⟩⟩ := h
  · rw [heq]
  · exact iff_of_true hm hm'

theorem stamp_cases (h : m.stamp line = some m1) :
    (stampOf line = some none ∧ m1 = m) ∨ ∃ seconds, stampOf line = some (some seconds) ∧
      m1 = if 0 < m.totalSeconds then { m with progress := (100 * seconds).tdiv m.totalSeconds } else m := by
  obtain ⟨stamp, hstamp, h⟩ := Option.bind_eq_some_iff.mp h
  cases stamp with
  | none => exact Or.inl ⟨hstamp, (Option.some.inj h).symm⟩
  | some seconds =>
    refine Or.inr ⟨seconds, hstamp, ?_⟩
    simp only at h
    split at h
    next hpos => rw [if_pos hpos]; exact (Option.some.inj h).symm
    next hpos => rw [if_neg hpos]; exact (Option.some.inj h).symm

theorem callback_stamp (h : m.totalSeconds ≤ 0 → durationOf line = some none) : m.callback line = m.stamp line := by
  unfold callback
  split
  next htotal => rw [h htotal]; rfl
  next => rfl

theorem callback_duration {total : Int} (htotal : m.totalSeconds ≤ 0) (h : durationOf line = some (some total)) :
    m.callback line = some { m with totalSeconds := total } := by
  unfold callback
  rw [if_pos htotal, h]
  rfl

theorem callback_cases (h : m.callback line = some m1) :
    (m.totalSeconds ≤ 0 ∧ ∃ total, durationOf line = some (some total) ∧ m1 = { m with totalSeconds := total }) ∨
    ((m.totalSeconds ≤ 0 → durationOf line = some none) ∧ m.stamp line = some m1) := by
  by_cases htotal : m.totalSeconds ≤ 0
  · have hcall := h
    unfold callback at h
    rw [if_pos htotal] at h
    obtain ⟨duration, hdur, h⟩ := Option.bind_eq_some_iff.mp h
    cases duration with
    | some total => exact Or.inl ⟨htotal, total, hdur, (Option.some.inj h).symm⟩
    | none => exact Or.inr ⟨fun _ => hdur, h⟩
  · refine Or.inr ⟨fun hle => absurd hle htotal, ?_⟩
    rwa [callback_stamp (fun hle => absurd hle htotal)] at h

theorem Alike.stamp (h : m.Alike m') (hcall : m.stamp line = some m1) : ∃ m1', m'.stamp line = some m1' ∧ m1.Alike m1' := by
  rcases stamp_cases hcall with ⟨hstamp, rfl⟩ | ⟨seconds, hstamp, rfl⟩
  · refine ⟨m', ?_, h⟩
    unfold Meter.stamp
    rw [hstamp]
    rfl
  · have hcall' : m'.stamp line =
        if 0 < m'.totalSeconds then some { m' with progress := (100 * seconds).tdiv m'.totalSeconds } else some m' := by
      unfold Meter.stamp
      rw [hstamp]
      rfl
    by_cases hpos : 0 < m.totalSeconds
    · have heq : m.totalSeconds = m'.totalSeconds := h.2.resolve_right (by omega)
      rw [if_pos (heq ▸ hpos)] at hcall'
      refine ⟨_, hcall', ?_⟩
      rw [if_pos hpos]
      exact ⟨by rw [heq], Or.inl heq⟩
    · have htotal := h.total
      rw [if_neg (by omega)] at hcall'
      refine ⟨_, hcall', ?_⟩
      rw [if_neg hpos]
      exact h

theorem Alike.callback (h : m.Alike m') (hcall : m.callback line = some m1) :
    ∃ m1', m'.callback line = some m1' ∧ m1.Alike m1' := by
  rcases callback_cases hcall with ⟨htotal, total, hdur, rfl⟩ | ⟨hdur, hstamp⟩
  · exact ⟨_, callback_duration (h.total.mp htotal) hdur, h.1, Or.inl rfl⟩
  · rw [callback_stamp fun htotal => hdur (h.total.mpr htotal)]
    exact h.stamp hstamp

theorem ofLines_append {lines : List (List UInt8)} :
    ofLines (lines ++ [line]) = (ofLines lines).bind fun m => m.callback line := by
  unfold ofLines
  rw [List.foldlM_append]
  cases lines.foldlM callback fresh with
  | none => rfl
  | some m => cases hm : m.callback line <;> simp [hm]

theorem ofLines_noStamp {lines : List (List UInt8)} (hno : ∀ line ∈ lines, findText (bytes "time=") line = none)
    (h : ofLines lines = some m) : m.progress = 0 := by
  induction lines using List.reverseRecOn generalizing m with
  | nil => cases Option.some.inj h; rfl
  | append_singleton lines line ih =>
    rw [ofLines_append] at h
    obtain ⟨m0, hm0, hcall⟩ := Option.bind_eq_some_iff.mp h
    have h0 := ih (fun l hl => hno l (List.mem_append_left _ hl)) hm0
    have hnone : stampOf line = some none := by
      unfold stampOf timeBehind
      rw [hno line (List.mem_append_right _ List.mem_cons_self)]
    rcases callback_cases hcall with ⟨_, total, _, rfl⟩ | ⟨_, hend⟩
    · exact h0
    · rcases stamp_cases hend with ⟨_, rfl⟩ | ⟨seconds, hstamp, _⟩
      · exact h0
      · cases hnone.symm.trans hstamp

theorem ofLines_total {lines : List (List UInt8)} (h : ofLines lines = some m) (hpos : 0 < m.totalSeconds) :
    ∃ line ∈ lines, durationOf line = some (some m.totalSeconds) := by
  induction lines using List.reverseRecOn generalizing m with
  | nil =>
    cases Option.some.inj h
    exact absurd hpos (by decide)
  | append_singleton lines line ih =>
    rw [ofLines_append] at h
    obtain ⟨m0, hm0, hcall⟩ := Option.bind_eq_some_iff.mp h
    rcases callback_cases hcall with ⟨_, total, hdur, rfl⟩ | ⟨_, hend⟩
    · exact ⟨line, List.mem_append_right _ List.mem_cons_self, hdur⟩
    · have htotal : m.totalSeconds = m0.totalSeconds := by
        rcases stamp_cases hend with ⟨_, rfl⟩ | ⟨seconds, _, rfl⟩
        · rfl
        · split <;> rfl
      rw [htotal] at hpos ⊢
      obtain ⟨l, hl, hdur⟩ := ih hm0 hpos
      exact ⟨l, List.mem_append_left _ hl, hdur⟩

/-- A time stamp that is divided lies within the duration, up to less than a hundredth part. -/
def Within (m : Meter) (line : List UInt8) : Prop :=
  0 < m.totalSeconds → ∀ seconds, stampOf line = some (some seconds) →
    -m.totalSeconds < 100 * seconds ∧ 100 * seconds < 101 * m.totalSeconds

/-- The progress stays between 0 and 100 if and only if the time stamp lies within the duration. -/
theorem callback_between (hm : 0 ≤ m.progress ∧ m.progress ≤ 100) (h : m.callback line = some m1) :
    0 ≤ m1.progress ∧ m1.progress ≤ 100 ↔ m.Within line := by
  rcases callback_cases h with ⟨htotal, total, _, rfl⟩ | ⟨_, hend⟩
  · exact iff_of_true hm fun hpos => absurd htotal (by omega)
  · rcases stamp_cases hend with ⟨hstamp, rfl⟩ | ⟨seconds, hstamp, rfl⟩
    · exact iff_of_true hm fun _ seconds hsome => by cases hstamp.symm.trans hsome
    · by_cases hpos : 0 < m.totalSeconds
      · rw [if_pos hpos]
        refine (tdiv_between hpos (by decide)).trans ⟨fun hin _ t ht => ?_, fun hin => hin hpos seconds hstamp⟩
        cases Option.some.inj (hstamp.symm.trans ht)
        exact hin
      · rw [if_neg hpos]
        exact iff_of_true hm fun hpos' => absurd hpos' hpos

end Meter

namespace FFTask

/-- Progress() is between 0 and 100, 0 before the first time stamp of the task, and what the
lines of this task alone come to; the total it is taken of is a duration of this task. -/
def Metered (s : FFTask) : Prop :=
  (0 ≤ s.meter.progress ∧ s.meter.progress ≤ 100) ∧
  ((∀ line ∈ s.lines, findText (bytes "time=") line = none) → s.meter.progress = 0) ∧
  (0 < s.meter.totalSeconds → ∃ line ∈ s.lines, durationOf line = some (some s.meter.totalSeconds)) ∧
  (Meter.ofLines s.lines).map Meter.progress = some s.meter.progress

instance (s : FFTask) : Decidable s.Metered := inferInstanceAs (Decidable (_ ∧ _ ∧ _ ∧ _))

/-- A task is started on an object whose last duration and progress are gone, and its time
stamps lie within its duration. -/
def Measures (s : FFTask) : TaskAct → Prop
  | .start _ => s.meter.totalSeconds ≤ 0 ∧ s.meter.progress = 0
  | .read c => ∀ line, s.handed c = some line → s.meter.Within line
  | _ => True

/-- The object is alike one that has run this task only. -/
structure Fair (s : FFTask) : Prop where
  between : 0 ≤ s.meter.progress ∧ s.meter.progress ≤ 100
  alike : ∃ m, Meter.ofLines s.lines = some m ∧ s.meter.Alike m

variable {s t : FFTask}

theorem Fair.metered (h : s.Fair) : s.Metered := by
  obtain ⟨m, hm, hprogress, htotal⟩ := h.alike
  refine ⟨h.between, fun hno => hprogress.trans (Meter.ofLines_noStamp hno hm), fun hpos => ?_, ?_⟩
  · have heq : s.meter.totalSeconds = m.totalSeconds := htotal.resolve_right (by omega)
    rw [heq] at hpos ⊢
    exact Meter.ofLines_total hm hpos
  · rw [hm, hprogress]
    rfl

/-- A turn of the reading loop hands at most one line to the callback. -/
theorem readChar_meter {result : List UInt8} {c : Option UInt8} (hw : s.worker = .reading result)
    (h : s.readChar result c = some t) :
    (s.handed c = none ∧ t.meter = s.meter ∧ t.lines = s.lines) ∨
      ∃ line, s.handed c = some line ∧ s.meter.callback line = some t.meter ∧ t.lines = s.lines ++ [line] := by
  obtain ⟨worker, _, ⟨hnone, rfl⟩ | ⟨line, hline, hhand⟩⟩ := readChar_cases hw h
  · exact Or.inl ⟨hnone, rfl, rfl⟩
  · obtain ⟨m, hm, rfl⟩ := handOver_eq hhand
    exact Or.inr ⟨line, hline, hm, rfl⟩

theorem Fair.of_same (h : s.Fair) (hm : t.meter = s.meter) (hl : t.lines = s.lines) : t.Fair := by
  obtain ⟨hbetween, halike⟩ := h
  rw [← hm] at hbetween halike
  rw [← hl] at halike
  exact ⟨hbetween, halike⟩

/-- A step keeps the readings fair if and only if it is no start with leftovers and no time
stamp outside the duration. -/
theorem Fair.step {a : TaskAct} (h : s.Fair) (hs : s.step a = some t) : (s.Measures a → t.Fair) ∧ (t.Metered → s.Measures a) := by
  cases a with
  | start play =>
    simp only [FFTask.step] at hs
    split at hs
    next =>
      cases Option.some.inj hs
      refine ⟨fun hmeas => ⟨h.between, Meter.fresh, rfl, hmeas.2, Or.inr ⟨hmeas.1, by decide⟩⟩, fun hmet => ?_⟩
      obtain ⟨_, hzero, htotal, _⟩ := hmet
      refine ⟨?_, hzero (by simp)⟩
      by_contra hpos
      obtain ⟨line, hline, _⟩ := htotal (show 0 < s.meter.totalSeconds by omega)
      cases hline
    next => cases hs
  | caller =>
    refine ⟨fun _ => ?_, fun _ => trivial⟩
    simp only [FFTask.step, callerStep] at hs
    split at hs
    next => cases Option.some.inj hs; exact h.of_same rfl rfl
    next => split at hs <;> cases Option.some.inj hs <;> exact h.of_same rfl rfl
    next => split at hs <;> cases Option.some.inj hs <;> exact h.of_same rfl rfl
    next =>
      split at hs
      next => cases Option.some.inj hs; exact h.of_same rfl rfl
      next => cases hs
    next => cases hs
  | worker =>
    refine ⟨fun _ => ?_, fun _ => trivial⟩
    simp only [FFTask.step, workerStep] at hs
    split at hs
    next => cases Option.some.inj hs; exact h.of_same rfl rfl
    next => cases Option.some.inj hs; exact h.of_same rfl rfl
    next => cases Option.some.inj hs; exact h.of_same rfl rfl
    next => cases hs
  | read c =>
    simp only [FFTask.step] at hs
    split at hs
    next result hw =>
      rcases readChar_meter hw hs with ⟨hnone, hm, hl⟩ | ⟨line, hline, hcall, hl⟩
      · exact ⟨fun _ => h.of_same hm hl, fun _ line hline => by cases hnone.symm.trans hline⟩
      · have hiff := Meter.callback_between h.between hcall
        refine ⟨fun hmeas => ?_, fun hmet line' hline' => ?_⟩
        · obtain ⟨m, hm, halike⟩ := h.alike
          obtain ⟨m', hm', halike'⟩ := halike.callback hcall
          refine ⟨hiff.mpr (hmeas line hline), m', ?_, halike'⟩
          rw [hl, Meter.ofLines_append, hm]
          exact hm'
        · cases Option.some.inj (hline.symm.trans hline')
          exact hiff.mp hmet.1
    next => cases hs

/-- Progress() is as documented exactly in the runs whose tasks start without leftovers and
whose time stamps lie within the duration. -/
theorem fftask_metered_iff_measures (as : List TaskAct) :
    Along FFTask.step Metered fresh as ↔ StepsMeet FFTask.step Measures fresh as := by
  refine along_iff_stepsMeet Fair (fun s a t h ha hs => (h.step hs).1 ha) (fun _ h => h.metered)
    (fun s a t h ha hs hmet => ha ((h.step hs).2 hmet)) as ⟨by decide, Meter.fresh, rfl, rfl, Or.inl rfl⟩

/-- The output of a command that reports a duration and a time stamp. -/
def outputActs (text : List UInt8) : List TaskAct := text.map fun c => .read (some c)

/-- A second file after one that has come to 100. -/
theorem fftask_not_always_metered : ¬ ∀ as, Along FFTask.step Metered fresh as := by
  intro h
  have hrun : runSteps FFTask.step fresh ([.start false, .caller, .worker, .caller] ++
      outputActs (bytes "Duration: 00:00:09\ntime=00:00:09\n") ++
      [.read none, .worker, .worker, .caller, .caller, .start false]) =
      some ⟨⟨9, 100⟩, false, .opening, .started false, []⟩ := by decide
  have hzero := (runSteps_along (h _) hrun).2.1 (by simp)
  cases hzero

end FFTask

end CppInAction
