import Mathlib.Data.List.Basic
import Mathlib.Tactic.Common

namespace CppInAction

namespace NewsSender

def bufSize : Nat := 100

/-- The characters that fgets reads, what is left of the file, and whether it has met the end. -/
def fgets : Nat → List UInt8 → List UInt8 × List UInt8 × Bool
  | 0, file => ([], file, false)
  | _ + 1, [] => ([], [], true)
  | n + 1, c :: file =>
    if c = 10 then ([c], file, false)
    else
      let (line, rest, eof) := fgets n file
      (c :: line, rest, eof)

/-- What strlen(buf) leaves of the buffer. -/
def text (buf : List UInt8) : List UInt8 := buf.takeWhile (· ≠ 0)

/-- A line at whose end fgets does not look for the end of the file. -/
def Stops (line : List UInt8) : Prop := line.length = bufSize - 1 ∨ line.getLast? = some 10

instance (line : List UInt8) : Decidable (Stops line) := inferInstanceAs (Decidable (_ ∨ _))

variable {n : Nat} {file line rest : List UInt8} {eof : Bool}

theorem fgets_append (h : fgets n file = (line, rest, eof)) : line ++ rest = file := by
  induction n generalizing file line with
  | zero =>
    cases h
    rfl
  | succ n ih =>
    cases file with
    | nil =>
      cases h
      rfl
    | cons c file =>
      rw [fgets] at h
      split at h
      next =>
        cases h
        rfl
      next =>
        cases h
        exact congrArg (c :: ·) (ih rfl)

theorem fgets_line (h : fgets n file = (line, rest, eof)) : line.length ≤ n ∧ ∀ c ∈ line.dropLast, c ≠ 10 := by
  induction n generalizing file line with
  | zero =>
    cases h
    exact ⟨Nat.le_refl _, by simp⟩
  | succ n ih =>
    cases file with
    | nil =>
      cases h
      exact ⟨Nat.zero_le _, by simp⟩
    | cons c file =>
      rw [fgets] at h
      split at h
      next =>
        cases h
        exact ⟨Nat.succ_le_succ (Nat.zero_le _), by simp⟩
      next hc =>
        cases h
        obtain ⟨hlen, hinner⟩ := ih rfl
        refine ⟨Nat.succ_le_succ hlen, fun d hd => ?_⟩
        by_cases hnil : (fgets n file).1 = []
        · rw [hnil] at hd
          cases hd
        · rw [List.dropLast_cons_of_ne_nil hnil] at hd
          rcases List.mem_cons.mp hd with rfl | hd
          · exact hc
          · exact hinner d hd

/-- fgets meets the end of the file when neither a newline nor the size of the buffer stops it. -/
theorem fgets_eof (h : fgets n file = (line, rest, eof)) :
    (eof = true → rest = [] ∧ line.length < n ∧ line.getLast? ≠ some 10) ∧
      (eof = false → line.length = n ∨ line.getLast? = some 10) := by
  induction n generalizing file line with
  | zero =>
    cases h
    exact ⟨nofun, fun _ => Or.inl rfl⟩
  | succ n ih =>
    cases file with
    | nil =>
      cases h
      exact ⟨fun _ => ⟨rfl, Nat.succ_pos n, nofun⟩, nofun⟩
    | cons c file =>
      rw [fgets] at h
      split at h
      next hc =>
        cases h
        exact ⟨nofun, fun _ => Or.inr (by simp [hc])⟩
      next hc =>
        cases h
        obtain ⟨hmet, hstopped⟩ := ih rfl
        have hlast : (c :: (fgets n file).1).getLast? = some 10 ↔ (fgets n file).1.getLast? = some 10 := by
          cases (fgets n file).1 with
          | nil => simpa using hc
          | cons d line => rw [List.getLast?_cons_cons]
        refine ⟨fun he => ?_, fun he => ?_⟩
        · obtain ⟨hrest, hlen, hne⟩ := hmet he
          exact ⟨hrest, Nat.succ_lt_succ hlen, mt hlast.mp hne⟩
        · exact (hstopped he).imp (congrArg Nat.succ) hlast.mpr

/-- The datagrams of the loop over feof; fgets leaves the buffer as it was when there is no
character left. -/
def news (buf file : List UInt8) : List (List UInt8) :=
  match _h : fgets (bufSize - 1) file with
  | (line, rest, eof) =>
    let buf := if line = [] then buf else line
    text buf :: if _he : eof = true then [] else news buf rest
termination_by file.length
decreasing_by
  have hstops := (fgets_eof _h).2 (Bool.eq_false_iff.mpr _he)
  have happend := congrArg List.length (fgets_append _h)
  have hpos : 0 < line.length := by
    rcases hstops with hlen | hlast
    · exact hlen ▸ (by decide : 0 < bufSize - 1)
    · exact List.length_pos_of_mem (List.mem_of_getLast? hlast)
  rw [List.length_append] at happend
  omega

theorem news_eq (buf : List UInt8) (h : fgets (bufSize - 1) file = (line, rest, eof)) :
    news buf file = text (if line = [] then buf else line) ::
      if eof = true then [] else news (if line = [] then buf else line) rest := by
  rw [news]
  simp [h]

/-- The file cut behind each newline, and where the buffer is full. -/
structure Cuts (file : List UInt8) (lines : List (List UInt8)) : Prop where
  whole : lines.flatten = file
  line : ∀ l ∈ lines, l ≠ [] ∧ l.length < bufSize ∧ ∀ c ∈ l.dropLast, c ≠ 10
  inner : ∀ l ∈ lines.dropLast, Stops l

theorem Cuts.cons {lines : List (List UInt8)} (h : Cuts rest lines) (hnil : line ≠ []) (hstops : Stops line)
    (hline : line.length ≤ bufSize - 1 ∧ ∀ c ∈ line.dropLast, c ≠ 10) : Cuts (line ++ rest) (line :: lines) where
  whole := by rw [List.flatten_cons, h.whole]
  line := List.forall_mem_cons.mpr ⟨⟨hnil, Nat.lt_of_le_of_lt hline.1 (by decide), hline.2⟩, h.line⟩
  inner := by
    by_cases hl : lines = []
    · subst hl
      simp
    · rw [List.dropLast_cons_of_ne_nil hl]
      exact List.forall_mem_cons.mpr ⟨hstops, h.inner⟩

/-- Each line of the file is sent, and the last one twice when it ends in a newline or fills
the buffer; of an empty file what was in the buffer before. -/
theorem news_repeats (buf file : List UInt8) :
    ∃ lines, Cuts file lines ∧ news buf file =
      lines.map text ++ if ∀ l ∈ lines.getLast?, Stops l then [text (lines.getLast?.getD buf)] else [] := by
  induction buf, file using news.induct with
  | case1 buf file line rest eof hf buf' ih =>
    rw [news_eq buf hf]
    have happend := fgets_append hf
    have hline := fgets_line hf
    obtain ⟨hmet, hstopped⟩ := fgets_eof hf
    by_cases he : eof = true
    · obtain ⟨rfl, hlen, hlast⟩ := hmet he
      rw [List.append_nil] at happend
      subst happend
      by_cases hnil : line = []
      · refine ⟨[], ⟨hnil.symm, by simp, by simp⟩, ?_⟩
        simp [he, hnil]
      · have hmore : ¬Stops line := not_or.mpr ⟨Nat.ne_of_lt hlen, hlast⟩
        refine ⟨[line], ⟨by simp, by simpa using ⟨hnil, Nat.lt_of_le_of_lt hline.1 (by decide), hline.2⟩, by simp⟩, ?_⟩
        simp [he, hnil, hmore]
    · have hstops : Stops line := hstopped (Bool.eq_false_iff.mpr he)
      have hnil : line ≠ [] := by
        rintro rfl
        rcases hstops with hlen | hlast
        · cases hlen
        · cases hlast
      obtain ⟨lines, hcuts, hsent⟩ := ih he
      refine ⟨line :: lines, happend ▸ hcuts.cons hnil hstops hline, ?_⟩
      have hbuf : buf' = line := if_neg hnil
      rw [hbuf] at hsent
      rw [if_neg hnil, if_neg he, hsent]
      cases lines with
      | nil => simp [hstops]
      | cons l lines => simp [List.getLast?_cons]

/-- A file with one line that ends in a newline. -/
example : news [] [72, 105, 10] = [[72, 105, 10], [72, 105, 10]] := by
  simp [news, fgets, text, bufSize]

end NewsSender

end CppInAction
