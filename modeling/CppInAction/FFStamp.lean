import CppInAction.DecimalText
import CppInAction.FFProgress

namespace CppInAction

/-- The text begins with digits, and these have the value v. -/
def Digits (u : List UInt8) (v : Int) : Prop :=
  ∃ ds rest, u = ds ++ rest ∧ ds ≠ [] ∧ (∀ b ∈ ds, isDigit b = true) ∧ rest.takeWhile isDigit = [] ∧
    v = digitsValue ds

/-- The text begins with blanks, perhaps a sign, and digits, which together write an int. -/
def Writes (s : List UInt8) (n : Int) : Prop :=
  (∃ blanks u, (∀ b ∈ blanks, isSpace b = true) ∧
    (s = blanks ++ u ∧ Digits u n ∨ s = blanks ++ 43 :: u ∧ Digits u n ∨ s = blanks ++ 45 :: u ∧ Digits u (-n))) ∧
    -2 ^ 31 ≤ n ∧ n < 2 ^ 31

theorem digitsValue_append {ds rest : List UInt8} (hds : ∀ b ∈ ds, isDigit b = true)
    (hrest : rest.takeWhile isDigit = []) : digitsValue (ds ++ rest) = digitsValue ds := by
  have hself : ds.takeWhile isDigit = ds := List.takeWhile_eq_self_iff.mpr hds
  unfold digitsValue
  rw [List.takeWhile_append_of_pos hds, hrest, List.append_nil, hself]

theorem takeWhile_dropWhile (s : List UInt8) : (s.dropWhile isDigit).takeWhile isDigit = [] := by
  cases h : s.dropWhile isDigit with
  | nil => rfl
  | cons b rest =>
    apply List.takeWhile_cons_of_neg
    have hb := List.head_dropWhile_not isDigit (w := by rw [h]; exact List.cons_ne_nil b rest)
    simp only [h, List.head_cons] at hb
    simp [hb]

theorem digits_iff (u : List UInt8) (v : Int) : Digits u v ↔ u.takeWhile isDigit ≠ [] ∧ v = digitsValue u := by
  constructor
  · rintro ⟨ds, rest, rfl, hne, hds, hrest, rfl⟩
    rw [List.takeWhile_append_of_pos hds, hrest, List.append_nil, digitsValue_append hds hrest]
    exact ⟨hne, rfl⟩
  · rintro ⟨hne, rfl⟩
    refine ⟨u.takeWhile isDigit, u.dropWhile isDigit, List.takeWhile_append_dropWhile.symm, hne, ?_,
      takeWhile_dropWhile u, ?_⟩
    · intro b hb
      exact List.mem_takeWhile_imp hb
    · unfold digitsValue
      rw [List.takeWhile_idem]

theorem isSpace_digit {b : UInt8} (h : isDigit b = true) : isSpace b = false ∧ b ≠ 45 ∧ b ≠ 43 := by
  simp only [isDigit, Bool.and_eq_true, decide_eq_true_eq, UInt8.le_iff_toNat_le] at h
  have h48 : (48 : UInt8).toNat = 48 := rfl
  have h57 : (57 : UInt8).toNat = 57 := rfl
  refine ⟨?_, ?_, ?_⟩
  · simp only [isSpace, Bool.or_eq_false_iff, Bool.and_eq_false_iff, decide_eq_false_iff_not,
      UInt8.le_iff_toNat_le, ← UInt8.toNat_inj]
    have h32 : (32 : UInt8).toNat = 32 := rfl
    have h13 : (13 : UInt8).toNat = 13 := rfl
    omega
  · rintro rfl
    exact absurd h.1 (by decide)
  · rintro rfl
    exact absurd h.1 (by decide)

/-- The sign of a number and what stands behind it. -/
def signed (s : List UInt8) : Int × List UInt8 :=
  match s with
  | 45 :: rest => (-1, rest)
  | 43 :: rest => (1, rest)
  | _ => (1, s)

theorem signed_cases (s : List UInt8) :
    (∃ rest, s = 45 :: rest ∧ signed s = (-1, rest)) ∨ (∃ rest, s = 43 :: rest ∧ signed s = (1, rest)) ∨
      signed s = (1, s) := by
  unfold signed
  split
  next rest => exact Or.inl ⟨rest, rfl, rfl⟩
  next rest => exact Or.inr (Or.inl ⟨rest, rfl, rfl⟩)
  next => exact Or.inr (Or.inr rfl)

theorem signed_digit {b : UInt8} {s : List UInt8} (h : isDigit b = true) : signed (b :: s) = (1, b :: s) := by
  obtain ⟨_, h45, h43⟩ := isSpace_digit h
  rcases signed_cases (b :: s) with ⟨rest, heq, _⟩ | ⟨rest, heq, _⟩ | hs
  · cases heq
    exact absurd rfl h45
  · cases heq
    exact absurd rfl h43
  · exact hs

theorem stoi_eq_some (s : List UInt8) (n : Int) : stoi s = some n ↔
    (signed (s.dropWhile isSpace)).2.takeWhile isDigit ≠ [] ∧
      n = (signed (s.dropWhile isSpace)).1 * digitsValue (signed (s.dropWhile isSpace)).2 ∧
      -2 ^ 31 ≤ n ∧ n < 2 ^ 31 := by
  have heq : stoi s = if (signed (s.dropWhile isSpace)).2.takeWhile isDigit = [] then none
      else if -(2 ^ 31) ≤ (signed (s.dropWhile isSpace)).1 * digitsValue (signed (s.dropWhile isSpace)).2 ∧
        (signed (s.dropWhile isSpace)).1 * digitsValue (signed (s.dropWhile isSpace)).2 < 2 ^ 31 then
        some ((signed (s.dropWhile isSpace)).1 * digitsValue (signed (s.dropWhile isSpace)).2)
      else none := rfl
  rw [heq]
  split
  next hnil => simp [hnil]
  next hne =>
    split
    next hrange =>
      rw [Option.some.injEq]
      constructor
      · rintro rfl
        exact ⟨hne, rfl, hrange⟩
      · rintro ⟨_, rfl, _⟩
        rfl
    next hrange =>
      constructor
      · intro h
        cases h
      · rintro ⟨_, rfl, h⟩
        exact absurd h hrange

theorem dropWhile_isSpace_append {blanks u : List UInt8} {b : UInt8} (hb : ∀ c ∈ blanks, isSpace c = true)
    (hu : isSpace b = false) : (blanks ++ b :: u).dropWhile isSpace = b :: u := by
  rw [List.dropWhile_append_of_pos hb, List.dropWhile_cons_of_neg (by simp [hu])]

/-- stoi reads exactly the texts that begin with a number in the range of int. -/
theorem stoi_eq_some_iff (s : List UInt8) (n : Int) : stoi s = some n ↔ Writes s n := by
  rw [stoi_eq_some]
  constructor
  · rintro ⟨hne, hn, hrange⟩
    have hsplit : s = s.takeWhile isSpace ++ s.dropWhile isSpace := List.takeWhile_append_dropWhile.symm
    refine ⟨⟨s.takeWhile isSpace, (signed (s.dropWhile isSpace)).2, fun b hb => List.mem_takeWhile_imp hb, ?_⟩, hrange⟩
    rcases signed_cases (s.dropWhile isSpace) with ⟨rest, hs, hsigned⟩ | ⟨rest, hs, hsigned⟩ | hsigned
    · rw [hsigned] at hne hn ⊢
      refine Or.inr (Or.inr ⟨by rw [← hs]; exact hsplit, (digits_iff _ _).mpr ⟨hne, ?_⟩⟩)
      omega
    · rw [hsigned] at hne hn ⊢
      refine Or.inr (Or.inl ⟨by rw [← hs]; exact hsplit, (digits_iff _ _).mpr ⟨hne, ?_⟩⟩)
      omega
    · rw [hsigned] at hne hn ⊢
      refine Or.inl ⟨hsplit, (digits_iff _ _).mpr ⟨hne, ?_⟩⟩
      omega
  · rintro ⟨⟨blanks, u, hb, hs⟩, hrange⟩
    rcases hs with ⟨rfl, hu⟩ | ⟨rfl, hu⟩ | ⟨rfl, hu⟩
    · obtain ⟨hne, hv⟩ := (digits_iff _ _).mp hu
      cases u with
      | nil => exact absurd rfl hne
      | cons b rest =>
        have hdigit : isDigit b = true := by
          by_contra hb
          exact hne (List.takeWhile_cons_of_neg hb)
        rw [dropWhile_isSpace_append hb (isSpace_digit hdigit).1, signed_digit hdigit]
        exact ⟨hne, by change n = 1 * (digitsValue (b :: rest) : Int); omega, hrange⟩
    · obtain ⟨hne, hv⟩ := (digits_iff _ _).mp hu
      rw [dropWhile_isSpace_append hb rfl]
      exact ⟨hne, by change n = 1 * (digitsValue u : Int); omega, hrange⟩
    · obtain ⟨hne, hv⟩ := (digits_iff _ _).mp hu
      rw [dropWhile_isSpace_append hb rfl]
      exact ⟨hne, by change n = -1 * (digitsValue u : Int); omega, hrange⟩

/-- Three fields of at most two bytes, at 0, 3 and 6, write hours, minutes and seconds that
come to n seconds. -/
def WritesTime (text : List UInt8) (n : Int) : Prop :=
  ∃ hour minute second, Writes (text.take 2) hour ∧ Writes ((text.drop 3).take 2) minute ∧
    Writes ((text.drop 6).take 2) second ∧ n = hour * 3600 + minute * 60 + second

theorem not_writes_nil (n : Int) : ¬ Writes [] n := by
  rw [← stoi_eq_some_iff]
  intro h
  cases h

theorem bind_substr_stoi (s : List UInt8) (pos n : Nat) :
    (substr s pos n).bind stoi = stoi ((s.drop pos).take n) := by
  unfold substr
  split
  next => rfl
  next hlt =>
    rw [List.drop_eq_nil_of_le (by omega), List.take_nil]
    rfl

theorem timeToSeconds_eq_some_iff (text : List UInt8) (n : Int) : timeToSeconds text = some n ↔ WritesTime text n := by
  have heq : timeToSeconds text = ((substr text 0 2).bind stoi).bind fun hour =>
      ((substr text 3 2).bind stoi).bind fun minute =>
        ((substr text 6 2).bind stoi).bind fun seconds => some (hour * 3600 + minute * 60 + seconds) := by
    simp only [timeToSeconds, Option.bind_eq_bind, Option.bind_assoc]
  rw [heq]
  simp only [bind_substr_stoi, List.drop_zero, Option.bind_eq_some_iff, stoi_eq_some_iff, Option.some.injEq, WritesTime]
  constructor
  · rintro ⟨hour, hh, minute, hm, second, hs, rfl⟩
    exact ⟨hour, minute, second, hh, hm, hs, rfl⟩
  · rintro ⟨hour, minute, second, hh, hm, hs, rfl⟩
    exact ⟨hour, hh, minute, hm, second, hs, rfl⟩

theorem writes_digits {ds : List UInt8} (hne : ds ≠ []) (hds : ∀ b ∈ ds, isDigit b = true)
    (hlt : digitsNumber ds < 2 ^ 31) : Writes ds (digitsNumber ds) := by
  have hvalue : digitsValue ds = digitsNumber ds := by
    rw [digitsValue, List.takeWhile_eq_self_iff.mpr hds]
    rfl
  refine ⟨⟨[], ds, fun b hb => absurd hb List.not_mem_nil, Or.inl ⟨rfl, ds, [], ?_, hne, hds, rfl, ?_⟩⟩, ?_⟩
  · exact (List.append_nil ds).symm
  · rw [hvalue]
  · omega

/-- The stamp hh:mm:ss. -/
def clockText (hour minute second : Nat) : List UInt8 :=
  padded 2 hour ++ 58 :: (padded 2 minute ++ 58 :: padded 2 second)

theorem writes_padded {x : Nat} (h : x < 100) : Writes (padded 2 x) x := by
  have hlen := padded_length (by decide : 0 < 2) h
  have hne : padded 2 x ≠ [] := by
    intro hnil
    rw [hnil] at hlen
    cases hlen
  have hw := writes_digits hne (isDigit_padded 2 x) (by rw [digitsNumber_padded]; omega)
  rwa [digitsNumber_padded] at hw

theorem writesTime_clockText {hour minute second : Nat} (hh : hour < 100) (hm : minute < 100) (hs : second < 100) :
    WritesTime (clockText hour minute second) (hour * 3600 + minute * 60 + second) := by
  have hlen := padded_length (by decide : 0 < 2) hh
  have hlen' := padded_length (by decide : 0 < 2) hm
  have hlen'' := padded_length (by decide : 0 < 2) hs
  have htake : (clockText hour minute second).take 2 = padded 2 hour := by
    rw [clockText, List.take_append_of_le_length (by omega), List.take_of_length_le (by omega)]
  have hdrop : (clockText hour minute second).drop 3 = padded 2 minute ++ 58 :: padded 2 second := by
    rw [clockText, List.drop_append, hlen, List.drop_eq_nil_of_le (by omega), List.nil_append, List.drop_succ_cons,
      List.drop_zero]
  have hdrop' : (clockText hour minute second).drop 6 = padded 2 second := by
    rw [show 6 = 3 + 3 by rfl, ← List.drop_drop, hdrop, List.drop_append, hlen', List.drop_eq_nil_of_le (by omega),
      List.nil_append, List.drop_succ_cons, List.drop_zero]
  refine ⟨hour, minute, second, ?_, ?_, ?_, rfl⟩
  · rw [htake]
    exact writes_padded hh
  · rw [hdrop, List.take_append_of_le_length (by omega), List.take_of_length_le (by omega)]
    exact writes_padded hm
  · rw [hdrop', List.take_of_length_le (by omega)]
    exact writes_padded hs

namespace Meter

/-- The text that the callback takes for a time, and whether it is the duration. -/
def reads (m : Meter) (line : List UInt8) : Option (Bool × List UInt8) :=
  match if m.totalSeconds ≤ 0 then findText (bytes "Duration: ") line else none with
  | some pos => some (true, (line.drop (pos + 10)).take 8)
  | none => (findText (bytes "time=") line).map fun pos => (false, (line.drop (pos + 5)).take 8)

/-- The readings with a duration, or with a time stamp, of so many seconds. -/
def set (m : Meter) (duration : Bool) (seconds : Int) : Meter :=
  if duration then { m with totalSeconds := seconds }
  else if 0 < m.totalSeconds then { m with progress := (100 * seconds).tdiv m.totalSeconds }
  else m

/-- The callback returns, the total is not negative afterwards, and a well-formed stamp counts
with exactly its seconds. -/
def Meets (m : Meter) (line : List UInt8) : Prop :=
  ∃ m', m.callback line = some m' ∧ 0 ≤ m'.totalSeconds ∧
    ∀ duration hour minute second, hour < 100 → minute < 100 → second < 100 →
      m.reads line = some (duration, clockText hour minute second) →
      m' = m.set duration (hour * 3600 + minute * 60 + second)

/-- What the callback takes for a time is one, a duration is not negative, and without a
duration the total is not negative already. -/
structure Readable (m : Meter) (line : List UInt8) : Prop where
  duration : ∀ text, m.reads line = some (true, text) → ∃ n, WritesTime text n ∧ 0 ≤ n
  stamp : ∀ text, m.reads line = some (false, text) → ∃ n, WritesTime text n
  total : (∀ text, m.reads line ≠ some (true, text)) → 0 ≤ m.totalSeconds

variable {m : Meter} {line : List UInt8}

theorem timeBehind_some {pattern : List UInt8} {n pos : Nat} (h : findText pattern line = some pos) :
    timeBehind pattern n line = (timeToSeconds ((line.drop (pos + n)).take 8)).map some := by
  have hbind : (substr line (pos + n) 8).bind timeToSeconds = timeToSeconds ((line.drop (pos + n)).take 8) := by
    unfold substr
    split
    next => rfl
    next hlt =>
      rw [List.drop_eq_nil_of_le (by omega), List.take_nil]
      rfl
  rw [← hbind]
  simp only [timeBehind, h]
  cases substr line (pos + n) 8 with
  | none => rfl
  | some text => cases ht : timeToSeconds text <;> simp [ht]

theorem timeBehind_none {pattern : List UInt8} {n : Nat} (h : findText pattern line = none) :
    timeBehind pattern n line = some none := by
  simp only [timeBehind, h]

/-- Which text is read: behind Duration if that is looked for and found, else behind time. -/
theorem reads_cases (m : Meter) (line : List UInt8) :
    (m.totalSeconds ≤ 0 ∧ ∃ pos, findText (bytes "Duration: ") line = some pos ∧
      m.reads line = some (true, (line.drop (pos + 10)).take 8)) ∨
    ((m.totalSeconds ≤ 0 → findText (bytes "Duration: ") line = none) ∧
      m.reads line = (findText (bytes "time=") line).map fun pos => (false, (line.drop (pos + 5)).take 8)) := by
  unfold reads
  by_cases htotal : m.totalSeconds ≤ 0
  · rw [if_pos htotal]
    cases hpos : findText (bytes "Duration: ") line with
    | some pos => exact Or.inl ⟨htotal, pos, rfl, rfl⟩
    | none => exact Or.inr ⟨fun _ => rfl, rfl⟩
  · rw [if_neg htotal]
    exact Or.inr ⟨fun h => absurd h htotal, rfl⟩

theorem callback_noDuration (h : m.totalSeconds ≤ 0 → findText (bytes "Duration: ") line = none) :
    m.callback line = m.stamp line := by
  apply callback_stamp
  intro htotal
  exact timeBehind_none (h htotal)

theorem callback_some {duration : Bool} {text : List UInt8} (h : m.reads line = some (duration, text)) :
    m.callback line = (timeToSeconds text).map (m.set duration) := by
  rcases reads_cases m line with ⟨htotal, pos, hpos, hreads⟩ | ⟨hnone, hreads⟩
  · cases hreads.symm.trans h
    unfold callback
    rw [if_pos htotal, durationOf, timeBehind_some hpos]
    cases timeToSeconds ((line.drop (pos + 10)).take 8) <;> rfl
  · rw [callback_noDuration hnone]
    rw [h] at hreads
    obtain ⟨pos, hpos, heq⟩ := Option.map_eq_some_iff.mp hreads.symm
    cases heq
    unfold stamp
    rw [stampOf, timeBehind_some hpos]
    cases timeToSeconds ((line.drop (pos + 5)).take 8) with
    | none => rfl
    | some seconds =>
      by_cases hpos : 0 < m.totalSeconds
      · simp [set, hpos]
      · simp [set, hpos]

theorem callback_none (h : m.reads line = none) : m.callback line = some m := by
  rcases reads_cases m line with ⟨htotal, pos, hpos, hreads⟩ | ⟨hnone, hreads⟩
  · rw [h] at hreads
    cases hreads
  · rw [callback_noDuration hnone, stamp, stampOf]
    rw [h] at hreads
    rw [timeBehind_none (Option.map_eq_none_iff.mp hreads.symm)]
    rfl

theorem set_total (m : Meter) (seconds : Int) : (m.set false seconds).totalSeconds = m.totalSeconds := by
  simp only [set, Bool.false_eq_true, if_false]
  split <;> rfl

/-- A text that is read sets the meter to the time it writes. -/
theorem callback_reads_iff {m' : Meter} {duration : Bool} {text : List UInt8} (h : m.reads line = some (duration, text)) :
    m.callback line = some m' ↔ ∃ n, WritesTime text n ∧ m' = m.set duration n := by
  rw [callback_some h, Option.map_eq_some_iff]
  constructor
  · rintro ⟨n, hn, rfl⟩
    exact ⟨n, (timeToSeconds_eq_some_iff _ _).mp hn, rfl⟩
  · rintro ⟨n, hn, rfl⟩
    exact ⟨n, (timeToSeconds_eq_some_iff _ _).mpr hn, rfl⟩

/-- A well-formed stamp that is read counts with its seconds, whatever else happens. -/
theorem set_of_stamp {m' : Meter} {duration : Bool} {hour minute second : Nat} (h : m.callback line = some m')
    (hh : hour < 100) (hm : minute < 100) (hs : second < 100)
    (hreads : m.reads line = some (duration, clockText hour minute second)) :
    m' = m.set duration (hour * 3600 + minute * 60 + second) := by
  have hcall := (callback_reads_iff hreads).mpr ⟨_, writesTime_clockText hh hm hs, rfl⟩
  exact Option.some.inj (h.symm.trans hcall)

theorem Meets.readable (h : m.Meets line) : m.Readable line := by
  obtain ⟨m', hcall, htotal, _⟩ := h
  refine ⟨fun text hreads => ?_, fun text hreads => ?_, fun hno => ?_⟩
  · obtain ⟨n, hn, rfl⟩ := (callback_reads_iff hreads).mp hcall
    exact ⟨n, hn, htotal⟩
  · obtain ⟨n, hn, _⟩ := (callback_reads_iff hreads).mp hcall
    exact ⟨n, hn⟩
  · cases hreads : m.reads line with
    | none =>
      rw [callback_none hreads] at hcall
      cases hcall
      exact htotal
    | some x =>
      obtain ⟨duration, text⟩ := x
      cases duration with
      | true => exact absurd hreads (hno text)
      | false =>
        obtain ⟨n, _, rfl⟩ := (callback_reads_iff hreads).mp hcall
        rwa [set_total] at htotal

theorem Readable.meets (h : m.Readable line) : m.Meets line := by
  cases hreads : m.reads line with
  | none =>
    refine ⟨m, callback_none hreads, h.total fun text => ?_, fun _ _ _ _ _ _ _ hstamp => ?_⟩
    · simp [hreads]
    · rw [hreads] at hstamp
      cases hstamp
  | some x =>
    obtain ⟨duration, text⟩ := x
    obtain ⟨n, hn, htotal⟩ : ∃ n, WritesTime text n ∧ 0 ≤ (m.set duration n).totalSeconds := by
      cases duration with
      | true => exact h.duration text hreads
      | false =>
        obtain ⟨n, hn⟩ := h.stamp text hreads
        refine ⟨n, hn, ?_⟩
        rw [set_total]
        apply h.total
        intro text' hreads'
        rw [hreads] at hreads'
        cases hreads'
    have hcall := (callback_reads_iff hreads).mpr ⟨n, hn, rfl⟩
    exact ⟨_, hcall, htotal, fun _ _ _ _ hh hm hs => set_of_stamp hcall hh hm hs⟩

/-- The callback does what it is to do with a line exactly if the line can be read. -/
theorem callback_meets_iff (m : Meter) (line : List UInt8) : m.Meets line ↔ m.Readable line :=
  ⟨Meets.readable, Readable.meets⟩

/-- A duration that is not available ends the program. -/
theorem callback_not_always_meets : ¬ ∀ (m : Meter) (line : List UInt8), m.Meets line := by
  intro h
  obtain ⟨m', hcall, _⟩ := h ⟨0, 0⟩ (bytes "  Duration: N/A, bitrate: N/A")
  cases hcall

end Meter

end CppInAction
