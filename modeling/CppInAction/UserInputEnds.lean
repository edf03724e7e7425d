import CppInAction.UserInput

namespace CppInAction

namespace UserInput

variable {σ : Type} {f : UserInput σ} {c d : Console σ}

/-- The states at the head of the loop, from a first one on. -/
def Reaches (f : UserInput σ) : Console σ → Console σ → Prop :=
  Relation.ReflTransGen fun c d => f.turn c = .next d

/-- Start returns, or an exception leaves it, and no empty token vector is indexed. -/
def Ends (f : UserInput σ) (c : Console σ) : Prop :=
  ∃ n t, f.start n c = some t ∧ t ≠ .outOfBounds

/-- Unless the loop is stopped, there is a line to read, and when it comes to SplitString it has
a token. -/
structure Ready (f : UserInput σ) (c : Console σ) : Prop where
  line : c.stopped = false → c.failed = false ∧ c.input ≠ []
  token : ∀ d, c.stopped = false → c.getline.2 ≠ [] → c.getline.2 ≠ bytes "exit" → f.init.run c.getline.1 = some d →
    ∃ b ∈ c.getline.2, isSpace b = false

/-- What a turn does. -/
theorem turn_cases (f : UserInput σ) (c : Console σ) :
    (c.stopped = true ∧ f.turn c = .returned c) ∨
    (c.stopped = false ∧ c.getline.2 = [] ∧ f.turn c = .next c.getline.1) ∨
    (c.stopped = false ∧ c.getline.2 = bytes "exit" ∧ f.turn c = .returned { c.getline.1 with stopped := true }) ∨
    (c.stopped = false ∧ c.getline.2 ≠ [] ∧ c.getline.2 ≠ bytes "exit" ∧
      (f.init.run c.getline.1 = none ∧ f.turn c = .thrown ∨
        ∃ d, f.init.run c.getline.1 = some d ∧ f.turn c = f.command c.getline.2 d)) := by
  unfold turn
  by_cases hs : c.stopped = true
  · exact Or.inl ⟨hs, if_pos hs⟩
  · have hs' : c.stopped = false := by simpa using hs
    rw [if_neg hs]
    dsimp only
    by_cases hnil : c.getline.2 = []
    · exact Or.inr (Or.inl ⟨hs', hnil, if_pos hnil⟩)
    · rw [if_neg hnil]
      by_cases hexit : c.getline.2 = bytes "exit"
      · exact Or.inr (Or.inr (Or.inl ⟨hs', hexit, if_pos hexit⟩))
      · rw [if_neg hexit]
        refine Or.inr (Or.inr (Or.inr ⟨hs', hnil, hexit, ?_⟩))
        cases hinit : f.init.run c.getline.1 with
        | none => exact Or.inl ⟨rfl, rfl⟩
        | some d => exact Or.inr ⟨d, rfl, rfl⟩

theorem bind_consumes {func : Callback σ} {g : Console σ → Option (Console σ)} (h : (func.run c).bind g = some d)
    (hg : ∀ e, g e = some d → d.input.length ≤ e.input.length) : d.input.length ≤ c.input.length := by
  obtain ⟨e, he, hd⟩ := Option.bind_eq_some_iff.mp h
  exact (hg e hd).trans (func.consumes c e he)

/-- The functions called for the keys leave no more input than they find. -/
theorem readKeys_consumes (vec : List (List UInt8)) (h : f.readKeys vec c = some d) :
    d.input.length ≤ c.input.length := by
  induction vec, c using readKeys.induct (f := f) with
  | case1 c =>
    cases Option.some.inj h
    exact Nat.le_refl _
  | case2 key c func hkey =>
    rw [readKeys, hkey] at h
    exact (func []).consumes c d h
  | case3 key c hkey =>
    rw [readKeys, hkey] at h
    cases Option.some.inj h
    exact Nat.le_refl _
  | case4 key value rest c func hkey hvalue ih =>
    simp only [readKeys, hkey, if_pos hvalue] at h
    exact bind_consumes h fun e he => ih e he
  | case5 key value rest c func hkey hvalue ih =>
    simp only [readKeys, hkey, if_neg hvalue] at h
    exact bind_consumes h fun e he => ih e he
  | case6 key value rest c hkey ih =>
    simp only [readKeys, hkey] at h
    exact ih h

theorem runTask_consumes {taskType : List UInt8} (h : f.runTask taskType c = some d) :
    d.input.length ≤ c.input.length := by
  unfold runTask at h
  split at h
  next =>
    cases Option.some.inj h
    exact Nat.le_refl _
  next task _ => exact task.consumes c d h

theorem ofRun_next {r : Option (Console σ)} (h : ofRun r = .next d) : r = some d := by
  cases r with
  | none => cases h
  | some e =>
    cases h
    rfl

theorem ofRun_inBounds (r : Option (Console σ)) : ofRun r ≠ .outOfBounds := by
  intro h
  cases r <;> cases h

theorem command_consumes {line : List UInt8} (h : f.command line c = .next d) : d.input.length ≤ c.input.length := by
  unfold command at h
  split at h
  next => cases h
  next taskType rest hvec =>
    obtain ⟨e, he, hd⟩ := Option.bind_eq_some_iff.mp (ofRun_next h)
    exact (runTask_consumes hd).trans (readKeys_consumes _ he)

/-- A turn that goes on has read a line, if there was one. -/
theorem turn_shorter (h : f.turn c = .next d) (hf : c.failed = false) (hi : c.input ≠ []) :
    d.input.length < c.input.length := by
  have hlt := Console.getline_shorter hf hi
  rcases turn_cases f c with ⟨_, ht⟩ | ⟨_, _, ht⟩ | ⟨_, _, ht⟩ | ⟨_, _, _, ⟨_, ht⟩ | ⟨e, he, ht⟩⟩
  · cases ht.symm.trans h
  · cases ht.symm.trans h
    exact hlt
  · cases ht.symm.trans h
  · cases ht.symm.trans h
  · have hle := command_consumes (ht.symm.trans h)
    have hle' := f.init.consumes _ _ he
    omega

/-- At the end of the input the loop goes round with nothing to read. -/
theorem turn_end (hs : c.stopped = false) (hend : c.failed = true ∨ c.input = []) :
    f.turn c = .next { c with failed := true } := by
  have hline := Console.getline_end hend
  rcases turn_cases f c with ⟨hs', _⟩ | ⟨_, _, ht⟩ | ⟨_, hexit, _⟩ | ⟨_, hne, _⟩
  · rw [hs] at hs'
    cases hs'
  · rwa [hline] at ht
  · rw [hline] at hexit
    cases hexit
  · rw [hline] at hne
    exact absurd rfl hne

theorem start_end (n : Nat) (hs : c.stopped = false) (hend : c.failed = true ∨ c.input = []) :
    f.start n c = none := by
  induction n generalizing c with
  | zero => rfl
  | succ n ih =>
    rw [start, turn_end hs hend]
    exact ih hs (Or.inl rfl)

/-- Only the first turn of no tokens goes wrong by itself. -/
theorem turn_outOfBounds (h : f.turn c = .outOfBounds) : ¬ f.Ready c := by
  intro hready
  rcases turn_cases f c with ⟨_, ht⟩ | ⟨_, _, ht⟩ | ⟨_, _, ht⟩ | ⟨hs, hne, hexit, ⟨_, ht⟩ | ⟨e, he, ht⟩⟩
  · cases ht.symm.trans h
  · cases ht.symm.trans h
  · cases ht.symm.trans h
  · cases ht.symm.trans h
  · obtain ⟨b, hb, hspace⟩ := hready.token e hs hne hexit he
    have hcommand := ht.symm.trans h
    unfold command at hcommand
    split at hcommand
    next hnil =>
      have hblank := (splitString_eq_nil _).mp hnil b hb
      rw [hspace] at hblank
      cases hblank
    next => exact ofRun_inBounds _ hcommand

/-- A turn that is not ready either finds the end of the input or has no token to take. -/
theorem not_ready (h : ¬ f.Ready c) :
    (c.stopped = false ∧ (c.failed = true ∨ c.input = [])) ∨ f.turn c = .outOfBounds := by
  by_cases hs : c.stopped = true
  · refine absurd ⟨fun hs' => ?_, fun d hs' => ?_⟩ h
    · rw [hs] at hs'
      cases hs'
    · rw [hs] at hs'
      cases hs'
  · have hs' : c.stopped = false := by simpa using hs
    by_cases hend : c.failed = true ∨ c.input = []
    · exact Or.inl ⟨hs', hend⟩
    · right
      by_contra hturn
      obtain ⟨hf, hi⟩ := not_or.mp hend
      refine h ⟨fun _ => ⟨by simpa using hf, hi⟩, fun d _ hne hexit hd => ?_⟩
      by_contra hblank
      rcases turn_cases f c with ⟨hstop, _⟩ | ⟨_, hnil, _⟩ | ⟨_, heq, _⟩ | ⟨_, _, _, ⟨hnone, _⟩ | ⟨e, he, ht⟩⟩
      · exact hs hstop
      · exact hne hnil
      · exact hexit heq
      · rw [hd] at hnone
        cases hnone
      · have hnil : splitString c.getline.2 = [] := by
          rw [splitString_eq_nil]
          intro b hb
          by_contra hspace
          exact hblank ⟨b, hb, by simpa using hspace⟩
        rw [command, hnil] at ht
        exact hturn ht

theorem ends_of_ready (h : ∀ d, f.Reaches c d → f.Ready d) : f.Ends c := by
  induction hlen : c.input.length using Nat.strong_induction_on generalizing c with
  | _ len ih =>
    have hready := h c .refl
    cases hturn : f.turn c with
    | returned d => exact ⟨1, .returned d, by rw [start, hturn], by simp⟩
    | thrown => exact ⟨1, .thrown, by rw [start, hturn], by simp⟩
    | outOfBounds => exact absurd hready (turn_outOfBounds hturn)
    | next d =>
      have hs : c.stopped = false := by
        by_contra hs
        rw [turn, if_pos (by simpa using hs)] at hturn
        cases hturn
      obtain ⟨hf, hi⟩ := hready.line hs
      have hlt := turn_shorter hturn hf hi
      obtain ⟨n, t, hn, ht⟩ := ih d.input.length (by omega) (fun e he => h e (.head hturn he)) rfl
      exact ⟨n + 1, t, by rw [start, hturn]; exact hn, ht⟩

theorem ready_of_ends (h : f.Ends c) (hd : f.Reaches c d) : f.Ready d := by
  by_contra hready
  obtain ⟨n, t, hn, ht⟩ := h
  induction hd using Relation.ReflTransGen.head_induction_on generalizing n with
  | refl =>
    rcases not_ready hready with ⟨hs, hend⟩ | hturn
    · rw [start_end n hs hend] at hn
      cases hn
    · cases n with
      | zero => cases hn
      | succ n =>
        rw [start, hturn] at hn
        exact ht (Option.some.inj hn).symm
  | head hturn _ ih =>
    cases n with
    | zero => cases hn
    | succ n =>
      rw [start, hturn] at hn
      exact ih n hn

/-- Start ends, and no empty token vector is indexed, exactly if no turn of its loop begins
at the end of the input and none comes to SplitString with a line of blanks only. -/
theorem userInput_ends_iff (f : UserInput σ) (c : Console σ) : f.Ends c ↔ ∀ d, f.Reaches c d → f.Ready d :=
  ⟨fun h _ => ready_of_ends h, ends_of_ready⟩

/-- The function returns and leaves standard input and is_stop_ as they are. -/
def Quiet (g : Callback σ) : Prop := ∀ c, ∃ state, g.run c = some { c with state := state }

/-- No function of the input touches standard input or is_stop_. -/
structure AllQuiet (f : UserInput σ) : Prop where
  init : Quiet f.init
  keys : ∀ key func value, f.keyFunctions key = some func → Quiet (func value)
  tasks : ∀ taskType task, f.taskFunctions taskType = some task → Quiet task

/-- There is a line exit, and every line before it is empty or has a token. -/
inductive Leaves : List UInt8 → Prop
  | exit {input : List UInt8} : input ≠ [] → input.takeWhile (· ≠ 10) = bytes "exit" → Leaves input
  | skip {input : List UInt8} : input ≠ [] →
      (input.takeWhile (· ≠ 10) = [] ∨ ∃ b ∈ input.takeWhile (· ≠ 10), isSpace b = false) →
      Leaves ((input.dropWhile (· ≠ 10)).drop 1) → Leaves input

theorem AllQuiet.readKeys (h : f.AllQuiet) (vec : List (List UInt8)) (c : Console σ) :
    ∃ state, f.readKeys vec c = some { c with state := state } := by
  have hkeys : ∀ key func value d, f.keyFunctions key = some func → (∃ state, d = { c with state := state }) →
      ∃ e, (func value).run d = some e ∧ ∃ state, e = { c with state := state } := by
    rintro key func value d hkey ⟨state, rfl⟩
    obtain ⟨state', hrun⟩ := h.keys key func value hkey { c with state := state }
    exact ⟨_, hrun, state', rfl⟩
  obtain ⟨d, hd, state, rfl⟩ := readKeys_returns hkeys vec (c := c) ⟨c.state, rfl⟩
  exact ⟨state, hd⟩

theorem AllQuiet.command (h : f.AllQuiet) {line : List UInt8} (hline : ∃ b ∈ line, isSpace b = false)
    (c : Console σ) : ∃ state, f.command line c = .next { c with state := state } := by
  unfold UserInput.command
  split
  next hnil =>
    obtain ⟨b, hb, hspace⟩ := hline
    have hblank := (splitString_eq_nil _).mp hnil b hb
    rw [hspace] at hblank
    cases hblank
  next taskType rest hvec =>
    obtain ⟨state, hkeys⟩ := h.readKeys (taskType :: rest) c
    rw [hkeys, Option.bind_some, runTask]
    cases htask : f.taskFunctions taskType with
    | none => exact ⟨state, rfl⟩
    | some task =>
      obtain ⟨state', hrun⟩ := h.tasks taskType task htask { c with state := state }
      refine ⟨state', ?_⟩
      dsimp only
      rw [hrun]
      rfl

/-- A line that is not exit only takes itself from the input. -/
theorem AllQuiet.turn (h : f.AllQuiet) (hs : c.stopped = false) (hf : c.failed = false) (hi : c.input ≠ [])
    (hexit : c.input.takeWhile (· ≠ 10) ≠ bytes "exit")
    (hline : c.input.takeWhile (· ≠ 10) = [] ∨ ∃ b ∈ c.input.takeWhile (· ≠ 10), isSpace b = false) :
    ∃ state, f.turn c = .next { c with input := (c.input.dropWhile (· ≠ 10)).drop 1, state := state } := by
  have hget := Console.getline_line hf hi
  rcases turn_cases f c with ⟨hs', _⟩ | ⟨_, _, ht⟩ | ⟨_, heq, _⟩ | ⟨_, hne, _, ⟨hnone, _⟩ | ⟨e, he, ht⟩⟩
  · rw [hs] at hs'
    cases hs'
  · rw [hget] at ht
    exact ⟨c.state, ht⟩
  · rw [hget] at heq
    exact absurd heq hexit
  · obtain ⟨state, hinit⟩ := h.init c.getline.1
    rw [hnone] at hinit
    cases hinit
  · obtain ⟨state, hinit⟩ := h.init c.getline.1
    rw [hinit] at he
    cases he
    rw [hget] at hne ht
    obtain ⟨state', hcommand⟩ := h.command (hline.resolve_left hne)
      { c with input := (c.input.dropWhile (· ≠ 10)).drop 1, state := state }
    exact ⟨state', ht.trans hcommand⟩

theorem ends_of_exit (hf : c.failed = false) (hi : c.input ≠ []) (hexit : c.input.takeWhile (· ≠ 10) = bytes "exit") :
    f.Ends c := by
  have hget := Console.getline_line hf hi
  have hreturned : ∃ d, f.turn c = .returned d := by
    rcases turn_cases f c with ⟨_, ht⟩ | ⟨_, hnil, _⟩ | ⟨_, _, ht⟩ | ⟨_, _, hne, _⟩
    · exact ⟨c, ht⟩
    · rw [hget] at hnil
      cases hexit.symm.trans hnil
    · exact ⟨_, ht⟩
    · rw [hget] at hne
      exact absurd hexit hne
  obtain ⟨d, hd⟩ := hreturned
  exact ⟨1, .returned d, by rw [start, hd], by simp⟩

/-- With functions that leave standard input alone, everything is decided by its lines. -/
theorem AllQuiet.ends_iff (h : f.AllQuiet) (hs : c.stopped = false) (hf : c.failed = false) :
    f.Ends c ↔ Leaves c.input := by
  constructor
  · rintro ⟨n, t, hn, ht⟩
    induction n generalizing c with
    | zero => cases hn
    | succ n ih =>
      by_cases hi : c.input = []
      · rw [start_end _ hs (Or.inr hi)] at hn
        cases hn
      · by_cases hexit : c.input.takeWhile (· ≠ 10) = bytes "exit"
        · exact .exit hi hexit
        · have hready : f.Ready c := ready_of_ends ⟨n + 1, t, hn, ht⟩ .refl
          have hline : c.input.takeWhile (· ≠ 10) = [] ∨ ∃ b ∈ c.input.takeWhile (· ≠ 10), isSpace b = false := by
            by_cases hnil : c.input.takeWhile (· ≠ 10) = []
            · exact Or.inl hnil
            · obtain ⟨state, hinit⟩ := h.init c.getline.1
              have hget := Console.getline_line hf hi
              have htoken := hready.token _ hs (by rwa [hget]) (by rwa [hget]) hinit
              rw [hget] at htoken
              exact Or.inr htoken
          obtain ⟨state, hturn⟩ := h.turn hs hf hi hexit hline
          rw [start, hturn] at hn
          exact .skip hi hline (ih (c := { c with input := _, state := state }) hs hf hn)
  · intro hleaves
    generalize hinput : c.input = input at hleaves
    induction hleaves generalizing c with
    | @exit input hi hexit =>
      subst hinput
      exact ends_of_exit hf hi hexit
    | @skip input hi hline _ ih =>
      subst hinput
      by_cases hexit : c.input.takeWhile (· ≠ 10) = bytes "exit"
      · exact ends_of_exit hf hi hexit
      · obtain ⟨state, hturn⟩ := h.turn hs hf hi hexit hline
        obtain ⟨n, t, hn, ht⟩ := ih (c := { c with input := _, state := state }) hs hf rfl
        exact ⟨n + 1, t, by rw [start, hturn]; exact hn, ht⟩

/-- At the end of the input the loop never ends. -/
theorem userInput_not_always_ends : ¬ ∀ (f : UserInput Unit) (c : Console Unit), f.Ends c := by
  intro h
  obtain ⟨n, t, hn, _⟩ := h ⟨.idle, fun _ => none, fun _ => none⟩ ⟨[], false, false, ()⟩
  rw [start_end n rfl (Or.inr rfl)] at hn
  cases hn

end UserInput

end CppInAction
