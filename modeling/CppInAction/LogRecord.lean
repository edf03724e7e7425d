import CppInAction.DecimalText

namespace CppInAction

/-- A date of the system clock; the month is counted from 1, as it is printed. -/
structure Date where
  year : Nat
  mon : Nat
  mday : Nat
  year_lt : year < 10 ^ 8
  mon_range : 1 ≤ mon ∧ mon ≤ 12
  mday_range : 1 ≤ mday ∧ mday ≤ 31
deriving DecidableEq

/-- What gettimeofday and localtime give. -/
structure Clock extends Date where
  hour : Nat
  min : Nat
  sec : Nat
  usec : Nat
  hour_lt : hour < 24
  min_lt : min < 60
  sec_le : sec ≤ 60
  usec_lt : usec < 10 ^ 6

def levelText (level : Int) : List UInt8 :=
  if level = 0 then bytes "[debug]:"
  else if level = 1 then bytes "[info]:"
  else if level = 2 then bytes "[warn]:"
  else if level = 3 then bytes "[erro]:"
  else bytes "[info]:"

/-- The time and the level in front of a message. -/
def stampText (now : Clock) (level : Int) : List UInt8 :=
  decimal now.year ++ bytes "-" ++ padded 2 now.mon ++ bytes "-" ++ padded 2 now.mday ++ bytes " " ++
    padded 2 now.hour ++ bytes ":" ++ padded 2 now.min ++ bytes ":" ++ padded 2 now.sec ++ bytes "." ++
    padded 6 now.usec ++ bytes " " ++ levelText level ++ bytes " "

/-- What snprintf and vsnprintf store at an index when they are given this much room. -/
def Buffer.snprintf {n : Nat} (b : Buffer n) (i room : Nat) (text : List UInt8) : Option (Buffer n) :=
  if room = 0 then some b else b.blit i (text.take (room - 1) ++ [0])

/-- What they return: the length of the whole text, or -1 when no int can hold it. -/
def printed (text : List UInt8) : Int := if text.length < 2 ^ 31 then text.length else -1

/-- Store at an index that may be negative. -/
def Buffer.putInt {n : Nat} (b : Buffer n) (i : Int) (v : UInt8) : Option (Buffer n) :=
  if i < 0 then none else b.put i.toNat v

/-- The end of write_log up to the string that is queued or written. -/
def writeRecord {size : Nat} (buf : Buffer size) (stamp message : List UInt8) : Option (Buffer size × List UInt8) := do
  let buf ← buf.snprintf 0 48 stamp
  let n := printed stamp
  if n < 0 then none
  else do
    let buf ← buf.snprintf n.toNat (toSizeT (size - n - 1)) message
    let m := printed message
    let buf ← buf.putInt (n + m) 10
    let buf ← buf.putInt (n + m + 1) 0
    let record ← buf.cstr 0
    some (buf, record)

/-- write_log stays inside m_buf, and its record is the stamp, the message as far as there is
room for it, and a newline. -/
def RecordsMessage {size : Nat} (buf : Buffer size) (stamp message : List UInt8) : Prop :=
  ∃ buf', writeRecord buf stamp message = some (buf', stamp ++ message.take (size - stamp.length - 2) ++ [10])

theorem levelText_length (level : Int) : (levelText level).length ≤ 8 := by
  unfold levelText
  split_ifs <;> decide

theorem stampText_length (now : Clock) (level : Int) : (stampText now level).length ≤ 40 := by
  have hyear := digits_length_le (by decide) now.year_lt
  have hmon : (padded 2 now.mon).length = 2 := padded_length (by decide) (by have := now.mon_range; omega)
  have hmday : (padded 2 now.mday).length = 2 := padded_length (by decide) (by have := now.mday_range; omega)
  have hhour : (padded 2 now.hour).length = 2 := padded_length (by decide) (by have := now.hour_lt; omega)
  have hmin : (padded 2 now.min).length = 2 := padded_length (by decide) (by have := now.min_lt; omega)
  have hsec : (padded 2 now.sec).length = 2 := padded_length (by decide) (by have := now.sec_le; omega)
  have husec : (padded 6 now.usec).length = 6 := padded_length (by decide) now.usec_lt
  have hlevel := levelText_length level
  have hdash : (bytes "-").length = 1 := rfl
  have hblank : (bytes " ").length = 1 := rfl
  have hcolon : (bytes ":").length = 1 := rfl
  have hdot : (bytes ".").length = 1 := rfl
  rw [← decimal_ofNat] at hyear
  simp only [stampText, List.length_append, hmon, hmday, hhour, hmin, hsec, husec]
  omega

theorem ne_zero_of_isDigit {b : UInt8} (h : isDigit b = true) : b ≠ 0 := by
  rintro rfl
  cases h

theorem stampText_free (now : Clock) (level : Int) : 0 ∉ stampText now level := by
  have hyear : 0 ∉ decimal now.year := by
    rw [decimal_ofNat]
    exact fun h => ne_zero_of_isDigit (isDigit_digits _ _ h) rfl
  have hpadded : ∀ width x, 0 ∉ padded width x := fun width x h => ne_zero_of_isDigit (isDigit_padded width x _ h) rfl
  have hlevel : 0 ∉ levelText level := by
    unfold levelText
    split_ifs <;> decide
  simp only [stampText, List.mem_append, hyear, hpadded, hlevel, or_false, false_or, not_or]
  decide

section Record

variable {size : Nat} {buf b : Buffer size} {stamp message : List UInt8}

theorem Buffer.snprintf_whole {i room : Nat} {text : List UInt8} (hroom : text.length < room)
    (hfits : i + text.length + 1 ≤ size) :
    ∃ b', b.snprintf i room text = some b' ∧ b'.bytes.take (i + text.length) = b.bytes.take i ++ text := by
  have hcut : text.take (room - 1) = text := List.take_of_length_le (by omega)
  have hlen : i + (text ++ [0]).length ≤ size := by
    rw [List.length_append, List.length_singleton]
    omega
  obtain ⟨b', hblit, htake⟩ := Buffer.take_blit (b := b) hlen
  refine ⟨b', ?_, ?_⟩
  · rw [Buffer.snprintf, if_neg (by omega), hcut]
    exact hblit
  · have hshort := congrArg (List.take (i + text.length)) htake
    rw [List.take_take, Nat.min_eq_left (by simp), ← List.append_assoc] at hshort
    rw [hshort, List.take_left']
    rw [List.length_append, List.length_take, b.length_eq]
    omega

theorem Buffer.putInt_ofNat (i : Nat) (v : UInt8) : b.putInt i v = b.put i v := by
  rw [Buffer.putInt, if_neg (by omega), Int.toNat_natCast]

theorem Buffer.cstr_of_take {k : Nat} {s : List UInt8} (hfree : 0 ∉ s) (h : b.bytes.take k = s ++ [0]) :
    b.cstr 0 = some s := by
  refine Buffer.cstr_eq_some_iff.mpr ⟨b.bytes.drop k, ?_, hfree⟩
  calc b.bytes.drop 0 = b.bytes.take k ++ b.bytes.drop k := (List.take_append_drop k b.bytes).symm
    _ = s ++ [0] ++ b.bytes.drop k := by rw [h]
    _ = s ++ 0 :: b.bytes.drop k := List.append_cons .. |>.symm

theorem printed_of_lt {s : List UInt8} (h : s.length < 2 ^ 31) : printed s = s.length := if_pos h

theorem sizeLeft (hsize : 48 ≤ size ∧ size < 2 ^ 31) (hstamp : stamp.length < 48) :
    toSizeT (size - stamp.length - 1) = size - stamp.length - 1 := by
  rw [toSizeT_of_nonneg (by omega) (by omega)]
  omega

/-- A message that fits is written whole. -/
theorem writeRecord_fits (hstamp : stamp.length < 48) (hfree : 0 ∉ stamp) (hmessage : 0 ∉ message)
    (hsize : 48 ≤ size ∧ size < 2 ^ 31) (hfits : stamp.length + message.length + 2 ≤ size) :
    ∃ buf', writeRecord buf stamp message = some (buf', stamp ++ message ++ [10]) := by
  obtain ⟨b1, hprint1, htake1⟩ := Buffer.snprintf_whole (b := buf) (i := 0) hstamp (by omega)
  have hroom : message.length < size - stamp.length - 1 := by omega
  obtain ⟨b2, hprint2, htake2⟩ := Buffer.snprintf_whole (b := b1) (i := stamp.length) hroom (by omega)
  obtain ⟨b3, hput3, htake3⟩ := Buffer.take_put (b := b2) (i := stamp.length + message.length) (v := 10) (by omega)
  obtain ⟨b4, hput4, htake4⟩ := Buffer.take_put (b := b3) (i := stamp.length + message.length + 1) (v := 0) (by omega)
  rw [Nat.zero_add] at htake1
  rw [htake3, htake2, htake1, List.take_zero, List.nil_append] at htake4
  have hrecord : b4.cstr 0 = some (stamp ++ message ++ [10]) := Buffer.cstr_of_take (by simp [hfree, hmessage]) htake4
  refine ⟨b4, ?_⟩
  unfold writeRecord
  rw [hprint1, printed_of_lt (by omega), printed_of_lt (s := message) (by omega)]
  simp only [Option.bind_eq_bind, Option.bind_some, Int.toNat_natCast, sizeLeft hsize hstamp, hprint2]
  rw [if_neg (by omega), ← Int.natCast_add, Buffer.putInt_ofNat, hput3, Option.bind_some, ← Int.natCast_succ,
    Buffer.putInt_ofNat, hput4, Option.bind_some, hrecord]
  rfl

/-- A longer message is not recorded: the newline is stored behind the array, or into the stamp
when no int holds the length. -/
theorem not_recordsMessage (hstamp : stamp.length < 48)
    (hlong : size < stamp.length + message.length + 2) : ¬ RecordsMessage buf stamp message := by
  rintro ⟨buf', hrecord⟩
  unfold writeRecord at hrecord
  obtain ⟨b1, _, hrecord⟩ := Option.bind_eq_some_iff.mp hrecord
  rw [printed_of_lt (s := stamp) (by omega), if_neg (by omega)] at hrecord
  obtain ⟨b2, _, hrecord⟩ := Option.bind_eq_some_iff.mp hrecord
  obtain ⟨b3, _, hrecord⟩ := Option.bind_eq_some_iff.mp hrecord
  obtain ⟨b4, hput, hrecord⟩ := Option.bind_eq_some_iff.mp hrecord
  obtain ⟨record, hcstr, hrecord⟩ := Option.bind_eq_some_iff.mp hrecord
  obtain ⟨rfl, rfl⟩ := Prod.mk.inj (Option.some.inj hrecord)
  by_cases hint : message.length < 2 ^ 31
  · rw [printed_of_lt hint, ← Int.natCast_add, ← Int.natCast_succ, Buffer.putInt_ofNat] at hput
    obtain ⟨hlt, _⟩ := Buffer.put_eq_some hput
    omega
  · have hminus : printed message = -1 := if_neg hint
    have hidx : (stamp.length : Int) + -1 + 1 = stamp.length := by omega
    rw [hminus, hidx, Buffer.putInt_ofNat] at hput
    obtain ⟨hlt, hbytes⟩ := Buffer.put_eq_some hput
    have hzero : b4.bytes[stamp.length]? = some 0 := by
      rw [hbytes, List.getElem?_set_self (by rw [b3.length_eq]; exact hlt)]
    obtain ⟨s, hs, hshort⟩ := Buffer.exists_cstr hzero (Nat.zero_le _)
    obtain rfl := Option.some.inj (hs.symm.trans hcstr)
    simp only [List.length_append, List.length_singleton] at hshort
    omega

end Record

/-- write_log records a message inside m_buf if and only if stamp, message, newline and
terminator fit it. -/
theorem writeLog_records_iff (size : Nat) (hsize : 64 ≤ size ∧ size < 2 ^ 31) (buf : Buffer size) (now : Clock) (level : Int)
    (message : List UInt8) (hmessage : 0 ∉ message) :
    RecordsMessage buf (stampText now level) message ↔ (stampText now level).length + message.length + 2 ≤ size := by
  have hstamp : (stampText now level).length < 48 := Nat.lt_of_le_of_lt (stampText_length now level) (by decide)
  constructor
  · intro h
    by_contra hlong
    exact not_recordsMessage hstamp (by omega) h
  · intro hfits
    unfold RecordsMessage
    rw [List.take_of_length_le (by omega)]
    exact writeRecord_fits hstamp (stampText_free now level) hmessage ⟨by omega, hsize.2⟩ hfits

/-- A moment in the year 2024. -/
def sampleClock : Clock where
  year := 2024
  mon := 5
  mday := 17
  year_lt := by decide
  mon_range := by decide
  mday_range := by decide
  hour := 8
  min := 30
  sec := 0
  usec := 42
  hour_lt := by decide
  min_lt := by decide
  sec_le := by decide
  usec_lt := by decide

theorem writeLog_records_iff_hello : RecordsMessage (Buffer.zero 2000) (stampText sampleClock 1) (bytes "hello") :=
  (writeLog_records_iff 2000 (by decide) (Buffer.zero 2000) sampleClock 1 (bytes "hello") (by decide)).mpr (by decide)

/-- A request line of 2000 bytes in the buffer of 2000 bytes that log_write sets up. -/
theorem writeLog_not_always_records :
    ¬ ∀ (size : Nat), 64 ≤ size ∧ size < 2 ^ 31 → ∀ (buf : Buffer size) (now : Clock) (level : Int) (message : List UInt8),
      0 ∉ message → RecordsMessage buf (stampText now level) message := by
  intro h
  have hfree : (0 : UInt8) ∉ List.replicate 2000 65 := by
    intro hmem
    exact absurd (List.eq_of_mem_replicate hmem) (by decide)
  have hrecords := h 2000 (by decide) (Buffer.zero 2000) sampleClock 1 (List.replicate 2000 65) hfree
  have hstamp := stampText_length sampleClock 1
  refine not_recordsMessage (by omega) ?_ hrecords
  rw [List.length_replicate]
  omega

end CppInAction
