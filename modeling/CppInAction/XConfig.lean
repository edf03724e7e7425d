import CppInAction.Assoc
import CppInAction.CMemory
import Mathlib.Data.List.Induction

namespace CppInAction

/-- The text up to the next newline, and what is behind the newline while the stream stays good. -/
def getline : List UInt8 → List UInt8 × Option (List UInt8)
  | [] => ([], none)
  | c :: rest => if c = 10 then ([], some rest) else (c :: (getline rest).1, (getline rest).2)

theorem getline_length {text rest : List UInt8} (h : (getline text).2 = some rest) : rest.length < text.length := by
  induction text with
  | nil => cases h
  | cons c text ih =>
    unfold getline at h
    split at h
    next =>
      cases h
      simp
    next =>
      have hlen := ih h
      simp only [List.length_cons]
      omega

theorem splitOn_getline (text : List UInt8) :
    text.splitOn 10 = (getline text).1 :: ((getline text).2.map (·.splitOn 10)).getD [] := by
  induction text with
  | nil => rfl
  | cons c text ih =>
    rw [List.splitOn_cons_eq_if_modifyHead, getline]
    by_cases hc : c = 10
    · simp [hc]
    · rw [if_neg (by simpa using hc), if_neg hc, ih]
      rfl

/-- The map config_ with the latest assignment first. -/
structure XConfig where
  config : List (List UInt8 × List UInt8)
deriving DecidableEq, Repr

namespace XConfig

/-- The key that Get falls back on. -/
def null : List UInt8 := bytes "null"

def assign (x : XConfig) (key value : List UInt8) : XConfig :=
  { config := (key, value) :: x.config.filter (·.1 ≠ key) }

/-- The key and the value a line is cut into. -/
def entry (line : List UInt8) : Option (List UInt8 × List UInt8) :=
  if line = [] then none
  else match strchr line 61 with
    -- npos is greater than 0, substr(0, npos) is the whole line, and npos + 1 wraps around to 0
    | none => some (line, line)
    | some pos => if 0 < pos then some (line.take pos, line.drop (pos + 1)) else none

def readLine (x : XConfig) (line : List UInt8) : XConfig :=
  match entry line with
  | some (key, value) => x.assign key value
  | none => x

/-- The loop tests the stream behind the use of the line. -/
def readLoop (x : XConfig) (text : List UInt8) : XConfig :=
  match h : (getline text).2 with
  | none => x.readLine (getline text).1
  | some rest =>
    have := getline_length h
    (x.readLine (getline text).1).readLoop rest
termination_by text.length

/-- Read; none is a file that cannot be opened. -/
def read (x : XConfig) (file : Option (List UInt8)) : Bool × XConfig :=
  match file with
  | none => (false, x)
  | some text => (true, (x.readLoop text).assign null [])

/-- Get, with the map it leaves: operator[] makes the entry it does not find. -/
def get (x : XConfig) (key : List UInt8) : List UInt8 × XConfig :=
  match x.config.lookup key with
  | some value => (value, x)
  | none => match x.config.lookup null with
    | some value => (value, x)
    | none => ([], x.assign null [])

/-- The value a line gives to the key, when it is of the form key=value. -/
def valueIn (key line : List UInt8) : Option (List UInt8) :=
  if key ≠ [] ∧ 61 ∉ key ∧ (key ++ [61]) <+: line then some (line.drop (key.length + 1)) else none

/-- The value in the last line that gives one to the key. -/
def lastValue (key : List UInt8) (lines : List (List UInt8)) : List UInt8 :=
  (lines.reverse.findSome? (valueIn key)).getD []

/-- A line without an equals sign that is the key itself. -/
def Bare (key line : List UInt8) : Prop := line = key ∧ key ≠ [] ∧ 61 ∉ key

instance (key line : List UInt8) : Decidable (Bare key line) :=
  inferInstanceAs (Decidable (_ ∧ _ ∧ _))

variable {x : XConfig} {key other value line : List UInt8} {lines : List (List UInt8)}

theorem lookup_assign_self : (x.assign key value).config.lookup key = some value := List.lookup_cons_self

theorem lookup_assign_ne (h : key ≠ other) : (x.assign other value).config.lookup key = x.config.lookup key := by
  rw [assign, lookup_cons_ne h, lookup_filter_ne h]

theorem valueIn_eq_some (h : valueIn key line = some value) :
    key ≠ [] ∧ 61 ∉ key ∧ line = key ++ 61 :: value := by
  unfold valueIn at h
  split at h
  next hform =>
    obtain ⟨hne, hsign, rest, rfl⟩ := hform
    refine ⟨hne, hsign, ?_⟩
    cases h
    simp [List.drop_append]
  next => cases h

theorem valueIn_append (hne : key ≠ []) (hsign : 61 ∉ key) (value : List UInt8) :
    valueIn key (key ++ 61 :: value) = some value := by
  have hform : (key ++ [61]) <+: key ++ 61 :: value := ⟨value, by simp⟩
  rw [valueIn, if_pos ⟨hne, hsign, hform⟩]
  simp [List.drop_append]

theorem valueIn_bare (h : 61 ∉ line) : valueIn key line = none := by
  cases hv : valueIn key line with
  | none => rfl
  | some value =>
    obtain ⟨_, _, rfl⟩ := valueIn_eq_some hv
    simp at h

theorem entry_bare (h : Bare key line) : entry line = some (key, key) := by
  obtain ⟨rfl, hne, hsign⟩ := h
  have hnone : strchr line 61 = none := by
    rw [strchr, List.findIdx?_eq_none_iff]
    intro c hc
    simpa using fun heq : c = 61 => hsign (heq ▸ hc)
  rw [entry, if_neg hne, hnone]

theorem entry_eq_some (h : entry line = some (key, value)) :
    valueIn key line = some value ∨ Bare key line ∧ value = key := by
  unfold entry at h
  split at h
  next => cases h
  next hne =>
    split at h
    next hnone =>
      cases h
      rw [strchr, List.findIdx?_eq_none_iff] at hnone
      exact Or.inr ⟨⟨rfl, hne, fun hmem => by simpa using hnone 61 hmem⟩, rfl⟩
    next pos hpos =>
      split at h
      next hlt =>
        cases h
        obtain ⟨hbound, heq, hfree⟩ := List.findIdx?_eq_some_iff_getElem.mp hpos
        have hline : line = line.take pos ++ 61 :: line.drop (pos + 1) := by
          have hdrop := List.drop_eq_getElem_cons hbound
          rw [of_decide_eq_true heq] at hdrop
          rw [← hdrop, List.take_append_drop]
        have htake : line.take pos ≠ [] := by simpa using ⟨by omega, hne⟩
        have hsign : 61 ∉ line.take pos := by
          intro hmem
          obtain ⟨j, hj, hjeq⟩ := List.getElem_of_mem hmem
          rw [List.length_take] at hj
          have hno := hfree j (by omega)
          rw [List.getElem_take] at hjeq
          simp [hjeq] at hno
        left
        have hv := valueIn_append htake hsign (line.drop (pos + 1))
        rwa [← hline] at hv
      next => cases h

theorem readLoop_eq (x : XConfig) (text : List UInt8) : x.readLoop text = (text.splitOn 10).foldl readLine x := by
  induction x, text using readLoop.induct with
  | case1 x text hend =>
    rw [readLoop, splitOn_getline]
    split
    next => simp [hend]
    next rest hrest => simp [hend] at hrest
  | case2 x text rest hrest _ ih =>
    rw [readLoop, splitOn_getline]
    split
    next hend => simp [hend] at hrest
    next rest' hrest' =>
      obtain rfl : rest' = rest := by simpa [hrest'] using hrest
      simpa [hrest'] using ih

/-- It makes no difference whether the last line ends in a newline. -/
theorem readLoop_newline (x : XConfig) (text : List UInt8) : x.readLoop (text ++ [10]) = x.readLoop text := by
  rw [readLoop_eq, readLoop_eq, List.splitOn_append_cons_self, List.splitOn_nil, List.foldl_append]
  rfl

/-- A line changes the entry of a key only as a line key=value, or as the bare key. -/
theorem lookup_readLine (x : XConfig) (key line : List UInt8) :
    (x.readLine line).config.lookup key =
      match valueIn key line with
      | some value => some value
      | none => if Bare key line then some key else x.config.lookup key := by
  cases hv : valueIn key line with
  | some value =>
    have hentry : entry line = some (key, value) := by
      obtain ⟨hne, hsign, rfl⟩ := valueIn_eq_some hv
      have hfind : strchr (key ++ 61 :: value) 61 = some key.length := by
        rw [strchr, List.findIdx?_append, List.findIdx?_eq_none_iff.mpr fun c hc => ?_]
        · simp [List.findIdx?_cons]
        · simpa using fun heq : c = 61 => hsign (heq ▸ hc)
      have hpos : 0 < key.length := List.length_pos_iff.mpr hne
      rw [entry, if_neg (by simp), hfind]
      simp [hpos, List.drop_append]
    rw [readLine, hentry]
    exact lookup_assign_self
  | none =>
    by_cases hb : Bare key line
    · rw [readLine, entry_bare hb]
      simpa [hb] using lookup_assign_self
    · simp only [hb, if_false]
      unfold readLine
      split
      next other value hentry =>
        refine lookup_assign_ne ?_
        rintro rfl
        rcases entry_eq_some hentry with hsome | ⟨hbare, _⟩
        · rw [hv] at hsome
          cases hsome
        · exact hb hbare
      next => rfl

/-- What Get answers when the lines have been read. -/
def answer (key : List UInt8) (lines : List (List UInt8)) : List UInt8 :=
  ((lines.foldl readLine { config := [] }).config.lookup key).getD []

theorem get_read (h : key ≠ null) (text : List UInt8) :
    ((XConfig.read { config := [] } (some text)).2.get key).1 = answer key (text.splitOn 10) := by
  simp only [read, readLoop_eq, get, answer, lookup_assign_ne h, lookup_assign_self]
  cases ((text.splitOn 10).foldl readLine { config := [] }).config.lookup key <;> rfl

theorem answer_concat (key : List UInt8) (lines : List (List UInt8)) (line : List UInt8) :
    answer key (lines ++ [line]) =
      match valueIn key line with
      | some value => value
      | none => if Bare key line then key else answer key lines := by
  rw [answer, List.foldl_append, List.foldl_cons, List.foldl_nil, lookup_readLine]
  cases valueIn key line with
  | some value => rfl
  | none => by_cases hb : Bare key line <;> simp [hb, answer]

theorem lastValue_concat (key : List UInt8) (lines : List (List UInt8)) (line : List UInt8) :
    lastValue key (lines ++ [line]) = (valueIn key line).getD (lastValue key lines) := by
  rw [lastValue, List.reverse_append, List.reverse_singleton, List.singleton_append, List.findSome?_cons]
  cases valueIn key line <;> rfl

/-- The bare key does no harm where a line key=value comes later, and where it is the value anyway. -/
def Harmless (key : List UInt8) (lines : List (List UInt8)) : Prop :=
  ∀ before line after, lines = before ++ line :: after → Bare key line →
    lastValue key lines = key ∨ ∃ l ∈ after, valueIn key l ≠ none

theorem harmless_of_value (h : valueIn key line ≠ none) (lines : List (List UInt8)) :
    Harmless key (lines ++ [line]) := by
  intro before l after hsplit hb
  right
  rcases concat_eq_cut hsplit with ⟨rfl, _⟩ | ⟨after', rfl, _⟩
  · exact absurd (valueIn_bare (hb.1.symm ▸ hb.2.2)) h
  · exact ⟨line, by simp, h⟩

theorem harmless_concat (hv : valueIn key line = none) (hb : ¬Bare key line) :
    Harmless key (lines ++ [line]) ↔ Harmless key lines := by
  have hlast : lastValue key (lines ++ [line]) = lastValue key lines := by rw [lastValue_concat, hv, Option.getD_none]
  constructor
  · intro h before l after hsplit hbare
    have hor := h before l (after ++ [line]) (by simp [hsplit]) hbare
    rw [hlast] at hor
    refine hor.imp_right ?_
    rintro ⟨l', hl', hsome⟩
    rcases List.mem_append.mp hl' with hl' | hl'
    · exact ⟨l', hl', hsome⟩
    · rw [List.mem_singleton.mp hl'] at hsome
      exact absurd hv hsome
  · intro h before l after hsplit hbare
    rw [hlast]
    rcases concat_eq_cut hsplit with ⟨rfl, _⟩ | ⟨after', rfl, hlines⟩
    · exact absurd hbare hb
    · exact (h before l after' hlines hbare).imp_right fun ⟨l', hl', hsome⟩ => ⟨l', by simp [hl'], hsome⟩

theorem answer_eq_iff (key : List UInt8) (lines : List (List UInt8)) :
    answer key lines = lastValue key lines ↔ Harmless key lines := by
  induction lines using List.reverseRecOn with
  | nil =>
    refine iff_of_true rfl ?_
    intro before line after hsplit
    simp at hsplit
  | append_singleton lines line ih =>
    rw [answer_concat]
    cases hv : valueIn key line with
    | some value =>
      refine iff_of_true ?_ (harmless_of_value (by simp [hv]) lines)
      rw [lastValue_concat, hv, Option.getD_some]
    | none =>
      by_cases hb : Bare key line
      · simp only [hb, if_true]
        constructor
        · intro h before l after _ _
          exact Or.inl h.symm
        · intro h
          rcases h lines line [] rfl hb with hlast | ⟨l, hl, _⟩
          · exact hlast.symm
          · cases hl
      · rw [harmless_concat hv hb, ← ih, lastValue_concat, hv]
        simp [hb]

/-- Get gives the last value of every key exactly when each line without an equals sign is
followed by a line that gives it a value, or has itself as its last value. -/
theorem get_read_iff (text : List UInt8) :
    (∀ key, key ≠ null →
      ((XConfig.read { config := [] } (some text)).2.get key).1 = lastValue key (text.splitOn 10)) ↔
      ∀ before line after, text.splitOn 10 = before ++ line :: after →
        line ≠ [] → 61 ∉ line → line ≠ null →
        lastValue line (text.splitOn 10) = line ∨ ∃ l ∈ after, valueIn line l ≠ none := by
  have hkeys : (∀ key, key ≠ null →
      ((XConfig.read { config := [] } (some text)).2.get key).1 = lastValue key (text.splitOn 10)) ↔
      ∀ key, key ≠ null → Harmless key (text.splitOn 10) := by
    refine forall₂_congr fun key hkey => ?_
    rw [get_read hkey, answer_eq_iff]
  rw [hkeys]
  constructor
  · intro h before line after hsplit hne hsign hnull
    exact h line hnull before line after hsplit ⟨rfl, hne, hsign⟩
  · intro h key hnull before line after hsplit hb
    obtain ⟨rfl, hne, hsign⟩ := hb
    exact h before line after hsplit hne hsign hnull

/-- A line without an equals sign becomes an entry with itself as its value. -/
theorem get_bare_line :
    ¬∀ text key, key ≠ null →
      ((XConfig.read { config := [] } (some text)).2.get key).1 = lastValue key (text.splitOn 10) := by
  intro h
  have hkey : bytes "log_file" ≠ null := by decide
  have hget := h (bytes "log_file\n") (bytes "log_file") hkey
  rw [get_read hkey] at hget
  revert hget
  decide

end XConfig

end CppInAction
