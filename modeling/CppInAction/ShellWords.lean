import CppInAction.CMemory

namespace CppInAction

namespace Shell

/-- How a character of a word was quoted: not at all, between double quotes, or so that it
stands for itself. -/
inductive Mark
  | bare
  | double
  | literal
deriving DecidableEq, Repr

/-- A word of a line, without its quotes. -/
abbrev Word := List (UInt8 × Mark)

def text (w : Word) : List UInt8 := w.map Prod.fst

def bare (s : List UInt8) : Word := s.map fun b => (b, .bare)

/-- The characters of the control and redirection operators, the newline among them. -/
def isOperator (b : UInt8) : Bool := b ∈ [10, 38, 40, 41, 59, 60, 62, 124]

/-- Where the reader of a line is: between words, in a word, behind a backslash, in quotes, in
a comment, or in the rest of a redirection. -/
inductive Mode
  | blank
  | word (w : Word)
  | escape (started : Bool) (w : Word)
  | single (w : Word)
  | double (w : Word)
  | doubleEscape (w : Word)
  | comment
  | skip (n : Fin 3)
deriving DecidableEq, Repr

/-- Behind a 2 at the start of a word: the rest of 2>&1. -/
def redirects (rest : List UInt8) : Bool :=
  rest.take 3 = bytes ">&1" && (rest.drop 3).head?.all fun b => b = 0 || isBlank b

/-- The words at the end of the line; none in quotes or behind a backslash. -/
def finish : Mode → Option (List Word)
  | .blank => some []
  | .word w => some [w]
  | .comment => some []
  | .skip _ => some []
  | _ => none

/-- A character that begins or continues a word. -/
def inWord (started : Bool) (w : Word) (b : UInt8) : Option (Mode × List Word) :=
  if isOperator b then none
  else if b = 92 then some (.escape started w, [])
  else if b = 39 then some (.single w, [])
  else if b = 34 then some (.double w, [])
  else some (.word (w ++ [(b, .bare)]), [])

/-- One character of a simple command: the next mode, and the word that ends with it. none is
an operator, with which something else than one simple command is read. -/
def next (m : Mode) (b : UInt8) (rest : List UInt8) : Option (Mode × List Word) :=
  match m with
  | .blank =>
    if isBlank b then some (.blank, [])
    else if b = 35 then some (.comment, [])
    else if b = 50 ∧ redirects rest then some (.skip 2, [])
    else inWord false [] b
  | .word w => if isBlank b then some (.blank, [w]) else inWord true w b
  | .escape started w =>
    if b = 10 then some (if started then .word w else .blank, []) else some (.word (w ++ [(b, .literal)]), [])
  | .single w => some (if b = 39 then .word w else .single (w ++ [(b, .literal)]), [])
  | .double w =>
    some (if b = 34 then .word w else if b = 92 then .doubleEscape w else .double (w ++ [(b, .double)]), [])
  | .doubleEscape w =>
    if b = 10 then some (.double w, [])
    else if b ∈ [34, 36, 92, 96] then some (.double (w ++ [(b, .literal)]), [])
    else some (.double (w ++ [(92, .literal), (b, .double)]), [])
  | .comment => if b = 10 then none else some (.comment, [])
  | .skip n => some (if n = 0 then .blank else .skip (n - 1), [])

/-- The words of a simple command; its line ends at a NUL at the latest. -/
def lex : Mode → List UInt8 → Option (List Word)
  | m, [] => finish m
  | m, b :: rest =>
    if b = 0 then finish m
    else (next m b rest).bind fun x => (lex x.1 rest).map (x.2 ++ ·)

/-- A character behind a dollar sign with which an expansion begins. -/
def isParameter (b : UInt8) : Bool :=
  isDigit b || 65 ≤ b && b ≤ 90 || 97 ≤ b && b ≤ 122 || b ∈ [33, 35, 36, 40, 42, 45, 63, 64, 95, 123]

/-- Behind an opening bracket: one more character at least and a closing bracket, before any slash. -/
def closesBracket (s : List UInt8) : Bool :=
  ((((if s.head? = some 33 then s.drop 1 else s).takeWhile (· ≠ 47)).drop 1)).contains 93

/-- The word has no expansion and is no pattern, apart from its beginning. -/
def fixedFrom : Word → Bool
  | [] => true
  | (b, mark) :: rest =>
    (mark = .literal || b ≠ 96 && !(b = 36 && rest.head?.any fun x => x.2 = mark && isParameter x.1)) &&
      !(mark = .bare && (b = 42 || b = 63 || b = 91 && closesBracket (text (rest.takeWhile (·.2 = .bare))))) &&
      fixedFrom rest

/-- What the word stands for does not depend on variables, files, users or other commands. -/
def Fixed (w : Word) : Bool := w.head? ≠ some (126, .bare) && fixedFrom w

/-- Where the shell runs: what becomes of the words of a command. A word that does not depend
on it is one argument, its own text. -/
structure Environment where
  expand : Word → List (List UInt8)
  fixed : ∀ w, Fixed w = true → expand w = [text w]

/-- The arguments of the one simple command that a line is; none if it is something else. -/
def argv (env : Environment) (line : List UInt8) : Option (List (List UInt8)) :=
  (lex .blank line).map fun ws => ws.flatMap env.expand

example (env : Environment) : argv env (bytes "ls 'a b' c\\ d 2>&1 # e") = some [bytes "ls", bytes "a b", bytes "c d"] := by
  have hlex : lex .blank (bytes "ls 'a b' c\\ d 2>&1 # e") =
      some [bare (bytes "ls"), (bytes "a b").map fun b => (b, .literal), [(99, .bare), (32, .literal), (100, .bare)]] := by
    decide
  rw [argv, hlex]
  simp only [Option.map_some, List.flatMap_cons, List.flatMap_nil, env.fixed (bare (bytes "ls")) (by decide),
    env.fixed ((bytes "a b").map fun b => (b, .literal)) (by decide),
    env.fixed [(99, .bare), (32, .literal), (100, .bare)] (by decide)]
  rfl


/-- A character that is read as itself wherever it stands unquoted, but at the start of a word. -/
def Ordinary (b : UInt8) : Bool := b ≠ 0 && !isBlank b && !isOperator b && b ∉ [34, 39, 92]

/-- A text that is one word as it stands. -/
structure Unquoted (s : List UInt8) : Prop where
  nonempty : s ≠ []
  head : s.head? ≠ some 35
  ordinary : ∀ b ∈ s, Ordinary b = true

/-- A text that is one word as it stands, and the argument of that word in every environment. -/
structure Plain (s : List UInt8) : Prop extends Unquoted s where
  fixed : Fixed (bare s) = true

/-- A character that has no meaning of its own anywhere in a line. -/
def Harmless (b : UInt8) : Bool :=
  b ∉ [0, 9, 10, 32, 34, 35, 36, 38, 39, 40, 41, 42, 59, 60, 62, 63, 91, 92, 96, 124, 126]

/-- Each text behind a blank. -/
def spaced (texts : List (List UInt8)) : List UInt8 := texts.flatMap (32 :: ·)

/-- The redirection of the errors behind a line. -/
def stderrTail : List UInt8 := bytes " 2>&1"

@[simp] theorem text_bare (s : List UInt8) : text (bare s) = s := by
  simp [text, bare, Function.comp_def]

theorem bare_append (s t : List UInt8) : bare (s ++ t) = bare s ++ bare t := List.map_append

theorem spaced_cons (s : List UInt8) (texts : List (List UInt8)) :
    spaced (s :: texts) = 32 :: (s ++ spaced texts) := rfl

theorem spaced_append (texts texts' : List (List UInt8)) :
    spaced (texts ++ texts') = spaced texts ++ spaced texts' := List.flatMap_append

/-- The characters that words need: their own and one more for each word. -/
def cost (ws : List Word) : Nat := (ws.map fun w => w.length + 1).sum

/-- What a mode holds back of the word that is being read. -/
def held : Mode → Nat
  | .word w | .escape _ w | .single w | .double w => w.length
  | .doubleEscape w => w.length + 1
  | .blank | .comment | .skip _ => 0

@[simp] theorem cost_nil : cost [] = 0 := rfl

@[simp] theorem cost_singleton (w : Word) : cost [w] = w.length + 1 := by
  simp [cost]

theorem cost_append (ws ws' : List Word) : cost (ws ++ ws') = cost ws + cost ws' := by
  simp [cost]

theorem cost_eq_spaced (ws : List Word) : cost ws = (spaced (ws.map text)).length := by
  induction ws with
  | nil => rfl
  | cons w ws ih =>
    rw [List.map_cons, spaced_cons, List.length_cons, List.length_append, ← ih]
    simp only [cost, text, List.map_cons, List.sum_cons, List.length_map]
    omega

theorem cost_finish {m : Mode} {ws : List Word} (h : finish m = some ws) : cost ws ≤ held m + 1 := by
  cases m <;> cases h <;> simp [cost, held]

/-- A character begins an escape or a quotation, or stands for itself. -/
theorem inWord_cases {started : Bool} {w : Word} {b : UInt8} {x : Mode × List Word} (h : inWord started w b = some x) :
    x.2 = [] ∧ (held x.1 = w.length ∨
      x.1 = .word (w ++ [(b, .bare)]) ∧ isOperator b = false ∧ b ≠ 92 ∧ b ≠ 39 ∧ b ≠ 34) := by
  unfold inWord at h
  split_ifs at h with hop hescape hsingle hdouble
  · cases h
    exact ⟨rfl, Or.inl rfl⟩
  · cases h
    exact ⟨rfl, Or.inl rfl⟩
  · cases h
    exact ⟨rfl, Or.inl rfl⟩
  · cases h
    exact ⟨rfl, Or.inr ⟨rfl, eq_false_of_ne_true hop, hescape, hsingle, hdouble⟩⟩

theorem inWord_held {started : Bool} {w : Word} {b : UInt8} {x : Mode × List Word} (h : inWord started w b = some x) :
    cost x.2 + held x.1 ≤ w.length + 1 := by
  obtain ⟨hnone, hheld | ⟨hword, _⟩⟩ := inWord_cases h
  · rw [hnone, cost_nil]
    omega
  · rw [hnone, hword, cost_nil, held, List.length_append, List.length_singleton]
    omega

/-- A character read adds at most one to what is held. -/
theorem next_held {m : Mode} {b : UInt8} {rest : List UInt8} {x : Mode × List Word} (h : next m b rest = some x) :
    cost x.2 + held x.1 ≤ held m + 1 := by
  cases m with
  | blank =>
    simp only [next] at h
    split_ifs at h
    · cases h
      exact Nat.zero_le _
    · cases h
      exact Nat.zero_le _
    · cases h
      exact Nat.zero_le _
    · exact inWord_held h
  | word w =>
    simp only [next] at h
    split_ifs at h
    · cases h
      simp [held]
    · exact inWord_held h
  | escape started w =>
    simp only [next] at h
    split_ifs at h
    · cases h
      simp [held]
    · cases h
      simp [held]
    · cases h
      simp [held]
  | single w =>
    cases h
    dsimp only
    split_ifs <;> simp [held]
  | double w =>
    cases h
    dsimp only
    split_ifs <;> simp [held]
  | doubleEscape w =>
    simp only [next] at h
    split_ifs at h
    · cases h
      change 0 + w.length ≤ w.length + 1 + 1
      omega
    · cases h
      simp [held]
    · cases h
      change 0 + (w ++ [(92, Mark.literal), (b, Mark.double)]).length ≤ w.length + 1 + 1
      simp
  | comment =>
    simp only [next] at h
    split_ifs at h
    cases h
    exact Nat.zero_le _
  | skip n =>
    cases h
    dsimp only
    split_ifs <;> simp [held]

theorem lex_word_stderrTail (w : Word) : lex (.word w) stderrTail = some [w] := by
  rw [show stderrTail = 32 :: bytes "2>&1" by decide, lex, if_neg (by decide)]
  simp only [next, show isBlank 32 = true by decide, if_true, Option.bind_some,
    show lex .blank (bytes "2>&1") = some [] by decide, Option.map_some, List.append_nil]

theorem lex_stderrTail {m : Mode} {ws : List Word} (h : lex m stderrTail = some ws) : cost ws ≤ held m + 1 := by
  cases m with
  | blank =>
    rw [show lex .blank stderrTail = some [] by decide] at h
    cases h
    exact Nat.zero_le _
  | word w =>
    rw [lex_word_stderrTail] at h
    cases h
    simp [cost, held]
  | escape started w => cases h
  | single w => cases h
  | double w => cases h
  | doubleEscape w => cases h
  | comment =>
    rw [show lex .comment stderrTail = some [] by decide] at h
    cases h
    exact Nat.zero_le _
  | skip n =>
    have hlex : ∀ n : Fin 3, lex (.skip n) stderrTail = none ∨ lex (.skip n) stderrTail = some [] := by decide
    rcases hlex n with hnone | hsome
    · rw [hnone] at h
      cases h
    · rw [hsome] at h
      cases h
      exact Nat.zero_le _

/-- A character of a line: the end at a NUL, or a step and the rest. -/
theorem lex_cons {m : Mode} {b : UInt8} {rest : List UInt8} {ws : List Word} (h : lex m (b :: rest) = some ws) :
    finish m = some ws ∨
      b ≠ 0 ∧ ∃ x ws', next m b rest = some x ∧ lex x.1 rest = some ws' ∧ ws = x.2 ++ ws' := by
  rw [lex] at h
  split at h
  next => exact Or.inl h
  next hnul =>
    obtain ⟨x, hx, h⟩ := Option.bind_eq_some_iff.mp h
    obtain ⟨ws', hws', rfl⟩ := Option.map_eq_some_iff.mp h
    exact Or.inr ⟨hnul, x, ws', hx, hws', rfl⟩

/-- The words read from a line with the tail cost no more than the line. -/
theorem lex_cost {m : Mode} {u : List UInt8} {ws : List Word} (h : lex m (u ++ stderrTail) = some ws) :
    cost ws ≤ u.length + held m + 1 := by
  induction u generalizing m ws with
  | nil =>
    rw [List.length_nil, Nat.zero_add]
    exact lex_stderrTail h
  | cons b u ih =>
    rcases lex_cons h with hfinish | ⟨_, x, ws', hx, hws', rfl⟩
    · have hend := cost_finish hfinish
      omega
    · have hnext := next_held hx
      have hrest := ih hws'
      rw [cost_append, List.length_cons]
      omega

/-- In a line that costs all it can, each character adds one to what is held or read. -/
theorem lex_cons_exact {m : Mode} {b : UInt8} {u : List UInt8} {ws : List Word}
    (h : lex m (b :: (u ++ stderrTail)) = some ws) (hcost : cost ws = (b :: u).length + held m + 1) :
    b ≠ 0 ∧ ∃ x ws', next m b (u ++ stderrTail) = some x ∧ lex x.1 (u ++ stderrTail) = some ws' ∧ ws = x.2 ++ ws' ∧
      cost x.2 + held x.1 = held m + 1 ∧ cost ws' = u.length + held x.1 + 1 := by
  rw [List.length_cons] at hcost
  rcases lex_cons h with hfinish | ⟨hnul, x, ws', hx, hws', rfl⟩
  · have hend := cost_finish hfinish
    omega
  · have hnext := next_held hx
    have hrest := lex_cost hws'
    rw [cost_append] at hcost
    exact ⟨hnul, x, ws', hx, hws', rfl, by omega, by omega⟩

/-- A character that takes nothing away from a word stands for itself. -/
theorem inWord_exact {started : Bool} {w : Word} {b : UInt8} {x : Mode × List Word} (hnul : b ≠ 0)
    (hblank : ¬ isBlank b = true) (h : inWord started w b = some x) (hcost : cost x.2 + held x.1 = w.length + 1) :
    Ordinary b = true ∧ x = (.word (w ++ [(b, .bare)]), []) := by
  obtain ⟨hnone, hheld | ⟨hword, hop, hescape, hsingle, hdouble⟩⟩ := inWord_cases h
  · rw [hnone, cost_nil, hheld] at hcost
    omega
  · exact ⟨by simp [Ordinary, hnul, hblank, hop, hescape, hsingle, hdouble], Prod.ext hword hnone⟩

/-- In a line that costs all it can, a word is read up to the next blank as it stands. -/
theorem lex_word_exact {u : List UInt8} {w : Word} {ws : List Word} (h : lex (.word w) (u ++ stderrTail) = some ws)
    (hcost : cost ws = u.length + w.length + 1) :
    ((∀ b ∈ u, Ordinary b = true) ∧ ws = [w ++ bare u]) ∨
      ∃ v b u' ws', u = v ++ b :: u' ∧ (∀ b ∈ v, Ordinary b = true) ∧ isBlank b = true ∧
        lex .blank (u' ++ stderrTail) = some ws' ∧ ws = (w ++ bare v) :: ws' := by
  induction u generalizing w ws with
  | nil =>
    refine Or.inl ⟨List.forall_mem_nil _, ?_⟩
    rw [List.nil_append, lex_word_stderrTail] at h
    rw [← Option.some.inj h, bare, List.map_nil, List.append_nil]
  | cons b u ih =>
    obtain ⟨hnul, x, ws', hx, hws', rfl, hheld, hcost'⟩ := lex_cons_exact h hcost
    simp only [next] at hx
    split at hx
    next hblank =>
      cases hx
      refine Or.inr ⟨[], b, u, ws', rfl, List.forall_mem_nil _, hblank, hws', ?_⟩
      rw [bare, List.map_nil, List.append_nil]
      rfl
    next hblank =>
      obtain ⟨hord, rfl⟩ := inWord_exact hnul hblank hx hheld
      have hbare : ∀ v, w ++ [(b, Mark.bare)] ++ bare v = w ++ bare (b :: v) := fun v => (List.append_cons w _ _).symm
      rcases ih hws' hcost' with ⟨hall, rfl⟩ | ⟨v, c, u', ws'', rfl, hall, hc, hlex, rfl⟩
      · exact Or.inl ⟨List.forall_mem_cons.mpr ⟨hord, hall⟩, by rw [hbare, List.nil_append]⟩
      · refine Or.inr ⟨b :: v, c, u', ws'', rfl, List.forall_mem_cons.mpr ⟨hord, hall⟩, hc, hlex, ?_⟩
        rw [hbare, List.nil_append]

/-- In a line that costs all it can, a word begins at once. -/
theorem lex_blank_exact {u : List UInt8} {ws : List Word} (h : lex .blank (u ++ stderrTail) = some ws)
    (hcost : cost ws = u.length + 1) :
    ∃ b u', u = b :: u' ∧ b ≠ 35 ∧ Ordinary b = true ∧ lex (.word (bare [b])) (u' ++ stderrTail) = some ws := by
  cases u with
  | nil =>
    rw [List.nil_append, show lex .blank stderrTail = some [] by decide] at h
    cases h
    cases hcost
  | cons b u =>
    obtain ⟨hnul, x, ws', hx, hws', rfl, hheld, _⟩ := lex_cons_exact h hcost
    simp only [next] at hx
    split_ifs at hx with hblank hhash hredirects
    · cases hx
      cases hheld
    · cases hx
      cases hheld
    · cases hx
      cases hheld
    · obtain ⟨hord, rfl⟩ := inWord_exact hnul hblank hx hheld
      exact ⟨b, u, rfl, hhash, hord, hws'⟩

/-- What the first of some texts is if a line of them is read as these texts. -/
theorem lex_blank_first {s : List UInt8} {texts : List (List UInt8)} {ws : List Word}
    (h : lex .blank (s ++ spaced texts ++ stderrTail) = some ws) (htexts : ws.map text = s :: texts) :
    Unquoted s ∧
      ∃ ws', ws = bare s :: ws' ∧ ∀ s' texts', texts = s' :: texts' →
        lex .blank (s' ++ spaced texts' ++ stderrTail) = some ws' := by
  have hcost : cost ws = (s ++ spaced texts).length + 1 := by
    rw [cost_eq_spaced, htexts, spaced_cons, List.length_cons]
  obtain ⟨b, u, hu, hhash, hord, hlex⟩ := lex_blank_exact h hcost
  rw [hu, List.length_cons] at hcost
  rcases lex_word_exact hlex hcost with ⟨hall, rfl⟩ | ⟨v, c, u', ws', rfl, hall, hc, hlex', rfl⟩
  · rw [← bare_append, List.map_cons, text_bare] at htexts
    obtain ⟨rfl, rfl⟩ := List.cons.inj htexts
    exact ⟨⟨List.cons_ne_nil b u, fun hhead => hhash (Option.some.inj hhead), List.forall_mem_cons.mpr ⟨hord, hall⟩⟩,
      [], by rw [← bare_append], fun s' texts' htexts' => by cases htexts'⟩
  · rw [← bare_append, List.map_cons, text_bare] at htexts
    obtain ⟨rfl, rfl⟩ := List.cons.inj htexts
    refine ⟨⟨List.cons_ne_nil b v, fun hhead => hhash (Option.some.inj hhead), List.forall_mem_cons.mpr ⟨hord, hall⟩⟩,
      ws', by rw [← bare_append], fun s' texts' htexts' => ?_⟩
    rw [htexts', spaced_cons] at hu
    have hu' : [b] ++ v ++ 32 :: (s' ++ spaced texts') = [b] ++ v ++ c :: u' := hu
    rw [(List.cons.inj (List.append_cancel_left hu')).2]
    exact hlex'

/-- A line of texts is read as these texts only if they stand there unquoted. -/
theorem lex_blank_spaced {s : List UInt8} {texts : List (List UInt8)} {ws : List Word}
    (h : lex .blank (s ++ spaced texts ++ stderrTail) = some ws) (htexts : ws.map text = s :: texts) :
    ws = (s :: texts).map bare ∧
      ∀ t ∈ s :: texts, Unquoted t := by
  obtain ⟨hs, ws', rfl, hrest⟩ := lex_blank_first h htexts
  induction texts generalizing s ws' with
  | nil =>
    rw [List.map_cons] at htexts
    rw [List.map_eq_nil_iff.mp (List.cons.inj htexts).2]
    exact ⟨rfl, List.forall_mem_singleton.mpr hs⟩
  | cons s' texts ih =>
    rw [List.map_cons] at htexts
    have htexts' := (List.cons.inj htexts).2
    have hlex := hrest s' texts rfl
    obtain ⟨hs', ws'', rfl, hrest'⟩ := lex_blank_first hlex htexts'
    obtain ⟨hbare, hall⟩ := ih hs' ws'' hrest' hlex htexts'
    exact ⟨by rw [hbare]; rfl, List.forall_mem_cons.mpr ⟨hs, hall⟩⟩

theorem ordinary_cases {b : UInt8} (h : Ordinary b = true) :
    b ≠ 0 ∧ isBlank b = false ∧ isOperator b = false ∧ b ≠ 92 ∧ b ≠ 39 ∧ b ≠ 34 := by
  simp [Ordinary] at h
  exact ⟨h.1.1.1, h.1.1.2, h.1.2, h.2.2.2, h.2.2.1, h.2.1⟩

theorem inWord_ordinary {started : Bool} {w : Word} {b : UInt8} (h : Ordinary b = true) :
    inWord started w b = some (.word (w ++ [(b, .bare)]), []) := by
  obtain ⟨_, _, hop, hescape, hsingle, hdouble⟩ := ordinary_cases h
  rw [inWord, hop, if_neg Bool.false_ne_true, if_neg hescape, if_neg hsingle, if_neg hdouble]

theorem lex_word_ordinary {v : List UInt8} (hv : ∀ b ∈ v, Ordinary b = true) (w : Word) (rest : List UInt8) :
    lex (.word w) (v ++ rest) = lex (.word (w ++ bare v)) rest := by
  induction v generalizing w with
  | nil => rw [bare, List.map_nil, List.append_nil, List.nil_append]
  | cons b v ih =>
    obtain ⟨hb, hv⟩ := List.forall_mem_cons.mp hv
    obtain ⟨hnul, hblank, _⟩ := ordinary_cases hb
    rw [List.cons_append, lex, if_neg hnul, next, hblank, if_neg Bool.false_ne_true, inWord_ordinary hb]
    rw [Option.bind_some, ih hv, show bare (b :: v) = [(b, .bare)] ++ bare v from rfl, List.append_assoc]
    simp

theorem lex_word_blank (w : Word) (rest : List UInt8) :
    lex (.word w) (32 :: rest) = (lex .blank rest).map (w :: ·) := by
  rw [lex, if_neg (by decide), next, if_pos (by decide)]
  rfl

/-- A word that stands unquoted before a blank. -/
theorem lex_blank_unquoted {s : List UInt8} (h : Unquoted s) (rest : List UInt8) :
    lex .blank (s ++ 32 :: rest) = (lex .blank rest).map (bare s :: ·) := by
  obtain ⟨b, v, rfl⟩ := List.exists_cons_of_ne_nil h.nonempty
  obtain ⟨hb, hv⟩ := List.forall_mem_cons.mp h.ordinary
  obtain ⟨hnul, hblank, _⟩ := ordinary_cases hb
  have hhash : b ≠ 35 := fun hb => h.head (by rw [hb]; rfl)
  have hredirects : redirects (v ++ 32 :: rest) = false := by
    cases v with
    | nil => rfl
    | cons c v =>
      have hop := (ordinary_cases (hv c List.mem_cons_self)).2.2.1
      have hc : c ≠ 62 := by
        rintro rfl
        cases hop
      simp [redirects, bytes, hc]
  rw [List.cons_append, lex, if_neg hnul, next, hblank, if_neg Bool.false_ne_true, if_neg hhash, hredirects,
    if_neg (fun h => Bool.false_ne_true h.2), inWord_ordinary hb, Option.bind_some, lex_word_ordinary hv,
    lex_word_blank]
  simp [bare, Function.comp_def]

/-- The line of unquoted texts is read as these texts. -/
theorem lex_blank_bare {s : List UInt8} {texts : List (List UInt8)}
    (h : ∀ t ∈ s :: texts, Unquoted t) :
    lex .blank (s ++ spaced texts ++ stderrTail) = some ((s :: texts).map bare) := by
  induction texts generalizing s with
  | nil =>
    rw [show s ++ spaced [] ++ stderrTail = s ++ 32 :: bytes "2>&1" by rw [spaced, List.flatMap_nil, List.append_nil]; rfl,
      lex_blank_unquoted (h s List.mem_cons_self), show lex .blank (bytes "2>&1") = some [] by decide]
    rfl
  | cons s' texts ih =>
    obtain ⟨hs, htexts⟩ := List.forall_mem_cons.mp h
    rw [spaced_cons, List.append_assoc, List.cons_append, lex_blank_unquoted hs, ih htexts]
    rfl

theorem flatMap_expand (env : Environment) {texts : List (List UInt8)} (h : ∀ t ∈ texts, Fixed (bare t) = true) :
    (texts.map bare).flatMap env.expand = texts := by
  induction texts with
  | nil => rfl
  | cons t texts ih =>
    obtain ⟨ht, htexts⟩ := List.forall_mem_cons.mp h
    rw [List.map_cons, List.flatMap_cons, env.fixed _ ht, text_bare, ih htexts]
    rfl

/-- An environment in which a word that is not fixed becomes a given text. -/
def strange (s : List UInt8) : Environment where
  expand w := if Fixed w = true then [text w] else [s]
  fixed _ h := if_pos h

/-- Where a text that comes from words that are not fixed does not occur, all words are fixed. -/
theorem flatMap_strange {s : List UInt8} {ws : List Word} {texts : List (List UInt8)}
    (h : ws.flatMap (strange s).expand = texts) (hs : s ∉ texts) : ws.map text = texts ∧ ∀ w ∈ ws, Fixed w = true := by
  induction ws generalizing texts with
  | nil => exact ⟨h, List.forall_mem_nil _⟩
  | cons w ws ih =>
    rw [List.flatMap_cons] at h
    subst h
    by_cases hw : Fixed w = true
    · have hexpand : (strange s).expand w = [text w] := if_pos hw
      rw [hexpand] at hs ⊢
      obtain ⟨htexts, hfixed⟩ := ih rfl fun hmem => hs (List.mem_append_right _ hmem)
      exact ⟨by rw [List.map_cons, htexts]; rfl, List.forall_mem_cons.mpr ⟨hw, hfixed⟩⟩
    · have hexpand : (strange s).expand w = [s] := if_neg hw
      rw [hexpand] at hs
      exact absurd (List.mem_append_left _ List.mem_cons_self) hs

/-- A line of texts gives these texts as the arguments in every environment exactly if each is
plain. -/
theorem argv_spaced_iff (s : List UInt8) (texts : List (List UInt8)) :
    (∀ env, argv env (s ++ spaced texts ++ stderrTail) = some (s :: texts)) ↔ ∀ t ∈ s :: texts, Plain t := by
  constructor
  · intro h
    have hnew : 0 :: (s :: texts).flatten ∉ s :: texts := by
      intro hmem
      have hle := (List.sublist_flatten_of_mem hmem).length_le
      rw [List.length_cons] at hle
      omega
    obtain ⟨ws, hlex, hws⟩ := Option.map_eq_some_iff.mp (h (strange (0 :: (s :: texts).flatten)))
    obtain ⟨htexts, hfixed⟩ := flatMap_strange hws hnew
    obtain ⟨rfl, hall⟩ := lex_blank_spaced hlex htexts
    exact fun t ht => ⟨hall t ht, hfixed _ (List.mem_map_of_mem ht)⟩
  · intro h env
    rw [argv, lex_blank_bare fun t ht => (h t ht).toUnquoted, Option.map_some,
      flatMap_expand env fun t ht => (h t ht).fixed]

theorem harmless_cases {b : UInt8} (h : Harmless b = true) :
    Ordinary b = true ∧ b ≠ 35 ∧ b ≠ 36 ∧ b ≠ 42 ∧ b ≠ 63 ∧ b ≠ 91 ∧ b ≠ 96 ∧ b ≠ 126 := by
  simp [Harmless] at h
  simp [Ordinary, isBlank, isOperator, h]

theorem fixedFrom_harmless {s : List UInt8} (h : s.all Harmless = true) : fixedFrom (bare s) = true := by
  induction s with
  | nil => rfl
  | cons b s ih =>
    rw [List.all_cons, Bool.and_eq_true] at h
    obtain ⟨_, _, hdollar, hstar, hquestion, hbracket, hbackquote, _⟩ := harmless_cases h.1
    have hrest := ih h.2
    rw [bare] at hrest
    simp [bare, fixedFrom, hdollar, hstar, hquestion, hbracket, hbackquote, hrest]

theorem plain_of_harmless {s : List UInt8} (hne : s ≠ []) (h : s.all Harmless = true) : Plain s := by
  have hall : ∀ b ∈ s, Harmless b = true := List.all_eq_true.mp h
  obtain ⟨b, v, rfl⟩ := List.exists_cons_of_ne_nil hne
  obtain ⟨_, hhash, _, _, _, _, _, htilde⟩ := harmless_cases (hall b List.mem_cons_self)
  refine ⟨⟨hne, fun hhead => hhash (Option.some.inj hhead), fun c hc => (harmless_cases (hall c hc)).1⟩, ?_⟩
  rw [Fixed, fixedFrom_harmless h]
  simp [bare, htilde]

theorem harmless_digit {b : UInt8} (h : isDigit b = true) : Harmless b = true := by
  unfold Harmless
  refine decide_eq_true fun hmem => ?_
  have hnot := List.all_eq_true.mp (show List.all _ (fun c => !isDigit c) = true by decide) b hmem
  rw [h] at hnot
  cases hnot

end Shell

end CppInAction
