import CppInAction.CMemory
import Mathlib.Logic.Relation

namespace CppInAction

/-- What the loop of UserInput::Start and the registered functions work on: what is left of
standard input, whether a read of it has failed, is_stop_, and everything else. -/
structure Console (σ : Type) where
  input : List UInt8
  failed : Bool
  stopped : Bool
  state : σ
deriving DecidableEq, Repr

/-- A function given to UserInput: it may read standard input, but puts nothing into it; none
is an exception. -/
structure Callback (σ : Type) where
  run : Console σ → Option (Console σ)
  consumes : ∀ c d, run c = some d → d.input.length ≤ c.input.length

/-- The default init function. -/
def Callback.idle {σ : Type} : Callback σ where
  run := some
  consumes := by
    intro c d h
    cases Option.some.inj h
    exact Nat.le_refl _

/-- The init function of Start and the two tables of functions. -/
structure UserInput (σ : Type) where
  init : Callback σ
  keyFunctions : List UInt8 → Option (List UInt8 → Callback σ)
  taskFunctions : List UInt8 → Option (Callback σ)

/-- What one turn of the loop in Start does: it goes on, Start returns, an exception leaves
it, or it takes the first of no tokens. -/
inductive Turn (σ : Type)
  | next (c : Console σ)
  | returned (c : Console σ)
  | thrown
  | outOfBounds
deriving DecidableEq, Repr

/-- The operator >> for a string: blanks are skipped, and the token goes up to the next blank;
none when there is no token. -/
def extract (s : List UInt8) : Option (List UInt8 × List UInt8) :=
  if s.dropWhile isSpace = [] then none
  else some ((s.dropWhile isSpace).takeWhile (fun b => !isSpace b), (s.dropWhile isSpace).dropWhile (fun b => !isSpace b))

/-- The loop of SplitString; each turn takes a character at least. -/
def splitLoop : Nat → List UInt8 → List (List UInt8)
  | 0, _ => []
  | n + 1, s => match extract s with
    | none => []
    | some (token, rest) => token :: splitLoop n rest

def splitString (s : List UInt8) : List (List UInt8) := splitLoop s.length s

namespace Console

variable {σ : Type}

/-- std::getline on standard input; at its end the string stays empty. -/
def getline (c : Console σ) : Console σ × List UInt8 :=
  if c.failed ∨ c.input = [] then ({ c with failed := true }, [])
  else ({ c with input := (c.input.dropWhile (· ≠ 10)).drop 1 }, c.input.takeWhile (· ≠ 10))

end Console

namespace UserInput

variable {σ : Type}

/-- The loop over the tokens: a key takes the next token for its value, unless that is a key too. -/
def readKeys (f : UserInput σ) : List (List UInt8) → Console σ → Option (Console σ)
  | [], c => some c
  | [key], c => match f.keyFunctions key with
    | some func => (func []).run c
    | none => some c
  | key :: value :: rest, c => match f.keyFunctions key with
    | some func =>
      if (f.keyFunctions value).isNone then ((func value).run c).bind fun c => readKeys f rest c
      else ((func []).run c).bind fun c => readKeys f (value :: rest) c
    | none => readKeys f (value :: rest) c

/-- The end of a turn, for functions that return or throw. -/
def ofRun : Option (Console σ) → Turn σ
  | some c => .next c
  | none => .thrown

/-- The end of a turn: a task that is not in the table is only reported. -/
def runTask (f : UserInput σ) (taskType : List UInt8) (c : Console σ) : Option (Console σ) :=
  match f.taskFunctions taskType with
  | none => some c
  | some task => task.run c

/-- What follows init_function in a turn. -/
def command (f : UserInput σ) (line : List UInt8) (c : Console σ) : Turn σ :=
  match splitString line with
  | [] => .outOfBounds
  | taskType :: rest => ofRun ((f.readKeys (taskType :: rest) c).bind (f.runTask taskType))

def turn (f : UserInput σ) (c : Console σ) : Turn σ :=
  if c.stopped then .returned c
  else
    let (c, line) := c.getline
    if line = [] then .next c
    else if line = bytes "exit" then .returned { c with stopped := true }
    else match f.init.run c with
      | none => .thrown
      | some c => f.command line c

/-- Start, for at most so many turns of its loop; none when it is still running. -/
def start (f : UserInput σ) : Nat → Console σ → Option (Turn σ)
  | 0, _ => none
  | n + 1, c => match f.turn c with
    | .next d => start f n d
    | t => some t

/-- The rule for the loop over the tokens: when every key function returns and keeps a
property, so does the loop. -/
theorem readKeys_returns {f : UserInput σ} {P : Console σ → Prop}
    (hkeys : ∀ key func value c, f.keyFunctions key = some func → P c → ∃ d, (func value).run c = some d ∧ P d)
    (vec : List (List UInt8)) {c : Console σ} (hc : P c) : ∃ d, f.readKeys vec c = some d ∧ P d := by
  induction vec, c using readKeys.induct (f := f) with
  | case1 c => exact ⟨c, rfl, hc⟩
  | case2 key c func hkey =>
    rw [readKeys, hkey]
    exact hkeys key func [] c hkey hc
  | case3 key c hkey =>
    rw [readKeys, hkey]
    exact ⟨c, rfl, hc⟩
  | case4 key value rest c func hkey hvalue ih =>
    obtain ⟨d, hrun, hd⟩ := hkeys key func value c hkey hc
    simp only [readKeys, hkey, if_pos hvalue, hrun, Option.bind_some]
    exact ih d hd
  | case5 key value rest c func hkey hvalue ih =>
    obtain ⟨d, hrun, hd⟩ := hkeys key func [] c hkey hc
    simp only [readKeys, hkey, if_neg hvalue, hrun, Option.bind_some]
    exact ih d hd
  | case6 key value rest c hkey ih =>
    simp only [readKeys, hkey]
    exact ih hc

end UserInput

namespace Console

variable {σ : Type} {c : Console σ}

theorem getline_end (h : c.failed = true ∨ c.input = []) : c.getline = ({ c with failed := true }, []) := by
  rw [getline, if_pos h]

theorem getline_line (hf : c.failed = false) (hi : c.input ≠ []) :
    c.getline = ({ c with input := (c.input.dropWhile (· ≠ 10)).drop 1 }, c.input.takeWhile (· ≠ 10)) := by
  have hnot : ¬ (c.failed = true ∨ c.input = []) := by simp [hf, hi]
  rw [getline, if_neg hnot]

/-- A line takes a character at least, be it the newline. -/
theorem getline_shorter (hf : c.failed = false) (hi : c.input ≠ []) :
    c.getline.1.input.length < c.input.length := by
  rw [getline_line hf hi]
  have hle := (List.dropWhile_suffix (l := c.input) (· ≠ 10)).length_le
  have hpos := List.length_pos_iff.mpr hi
  change ((c.input.dropWhile (· ≠ 10)).drop 1).length < c.input.length
  rw [List.length_drop]
  omega

end Console

/-- The characters of a token. -/
def IsToken (t : List UInt8) : Prop := t ≠ [] ∧ ∀ b ∈ t, isSpace b = false

instance : DecidablePred IsToken := fun t =>
  decidable_of_iff (t ≠ [] ∧ t.all (fun b => !isSpace b) = true) (by simp [IsToken])

theorem extract_token {blanks t rest : List UInt8} (hb : ∀ b ∈ blanks, isSpace b = true) (ht : IsToken t)
    (hrest : ∀ b, rest.head? = some b → isSpace b = true) : extract (blanks ++ (t ++ rest)) = some (t, rest) := by
  obtain ⟨hne, htoken⟩ := ht
  have hdrop : (blanks ++ (t ++ rest)).dropWhile isSpace = t ++ rest := by
    rw [List.dropWhile_append_of_pos hb]
    cases t with
    | nil => exact absurd rfl hne
    | cons b t =>
      have hhead := htoken b List.mem_cons_self
      exact List.dropWhile_cons_of_neg (by simp [hhead])
  have hpos : ∀ b ∈ t, (!isSpace b) = true := by
    intro b hb
    simp [htoken b hb]
  have hstop : rest.takeWhile (fun b => !isSpace b) = [] ∧ rest.dropWhile (fun b => !isSpace b) = rest := by
    cases rest with
    | nil => exact ⟨rfl, rfl⟩
    | cons b rest =>
      have hhead := hrest b rfl
      exact ⟨List.takeWhile_cons_of_neg (by simp [hhead]), List.dropWhile_cons_of_neg (by simp [hhead])⟩
  have hne' : t ++ rest ≠ [] := by simp [hne]
  rw [extract, hdrop, if_neg hne', List.takeWhile_append_of_pos hpos, List.dropWhile_append_of_pos hpos, hstop.1,
    hstop.2, List.append_nil]

theorem extract_eq_none (s : List UInt8) : extract s = none ↔ ∀ b ∈ s, isSpace b = true := by
  unfold extract
  rw [← List.dropWhile_eq_nil_iff]
  split
  next h => exact iff_of_true rfl h
  next h => simp [h]

theorem splitString_eq_nil (s : List UInt8) : splitString s = [] ↔ ∀ b ∈ s, isSpace b = true := by
  rw [← extract_eq_none, splitString]
  cases s with
  | nil => exact iff_of_true rfl rfl
  | cons b s =>
    rw [List.length_cons, splitLoop]
    cases extract (b :: s) <;> simp

/-- Tokens in a row, each behind its blanks. -/
def spread (xs : List (List UInt8 × List UInt8)) : List UInt8 := xs.flatMap fun x => x.1 ++ x.2

/-- SplitString finds the tokens of a line, whatever blanks are between them. -/
theorem splitLoop_spread {xs : List (List UInt8 × List UInt8)} {n : Nat}
    (hblank : ∀ x ∈ xs, ∀ b ∈ x.1, isSpace b = true) (htoken : ∀ x ∈ xs, IsToken x.2)
    (hgap : ∀ x ∈ xs.tail, x.1 ≠ []) (hn : (spread xs).length ≤ n) : splitLoop n (spread xs) = xs.map Prod.snd := by
  induction xs generalizing n with
  | nil => cases n <;> rfl
  | cons x xs ih =>
    have hspread : spread (x :: xs) = x.1 ++ (x.2 ++ spread xs) := by
      rw [spread, List.flatMap_cons, List.append_assoc]
      rfl
    have hx := htoken x List.mem_cons_self
    have hpos := List.length_pos_iff.mpr hx.1
    have hhead : ∀ b, (spread xs).head? = some b → isSpace b = true := by
      intro b hb
      cases xs with
      | nil => cases hb
      | cons y ys =>
        have hy := hgap y List.mem_cons_self
        obtain ⟨b', bs, hy'⟩ := List.exists_cons_of_ne_nil hy
        rw [spread, List.flatMap_cons, hy'] at hb
        cases Option.some.inj hb
        apply hblank y (List.mem_cons_of_mem _ List.mem_cons_self)
        rw [hy']
        exact List.mem_cons_self
    rw [hspread] at hn ⊢
    rw [List.length_append, List.length_append] at hn
    obtain ⟨m, rfl⟩ : ∃ m, n = m + 1 := ⟨n - 1, by omega⟩
    rw [splitLoop, extract_token (hblank x List.mem_cons_self) hx hhead]
    simp only [List.map_cons]
    congr 1
    apply ih
    · exact fun y hy => hblank y (List.mem_cons_of_mem _ hy)
    · exact fun y hy => htoken y (List.mem_cons_of_mem _ hy)
    · exact fun y hy => hgap y (List.mem_of_mem_tail hy)
    · omega

end CppInAction
