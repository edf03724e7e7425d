import CppInAction.UserInput

namespace CppInAction

/-- A key of a command line with the value behind it, if there is one. -/
structure KeyOption where
  key : List UInt8
  value : Option (List UInt8)
deriving DecidableEq, Repr

namespace KeyOption

variable {σ : Type}

def tokens (o : KeyOption) : List (List UInt8) := o.key :: o.value.toList

/-- The call of the key's function, with the empty string where the value is absent. -/
def apply (f : UserInput σ) (c : Console σ) (o : KeyOption) : Option (Console σ) :=
  match f.keyFunctions o.key with
  | some func => (func (o.value.getD [])).run c
  | none => some c

/-- The key is registered, and the value is a token that is not. -/
structure Valid (f : UserInput σ) (o : KeyOption) : Prop where
  token : IsToken o.key
  registered : (f.keyFunctions o.key).isSome
  value : ∀ v, o.value = some v → IsToken v ∧ f.keyFunctions v = none

end KeyOption

/-- A line with a registered task and options; spaced has the tokens behind the task, each
with the blanks and tabs in front of it. -/
structure CommandLine {σ : Type} (f : UserInput σ) where
  taskType : List UInt8
  task : Callback σ
  options : List KeyOption
  spaced : List (List UInt8 × List UInt8)
  isTask : f.taskFunctions taskType = some task
  taskToken : IsToken taskType
  notKey : f.keyFunctions taskType = none
  notExit : taskType ≠ bytes "exit"
  valid : ∀ o ∈ options, o.Valid f
  tokens : spaced.map Prod.snd = options.flatMap KeyOption.tokens
  gaps : ∀ x ∈ spaced, x.1 ≠ [] ∧ ∀ b ∈ x.1, b = 32 ∨ b = 9

namespace CommandLine

variable {σ : Type} {f : UserInput σ}

def line (l : CommandLine f) : List UInt8 := spread (([], l.taskType) :: l.spaced)

/-- The init function once, then the functions of the keys in their order. -/
def prepare (l : CommandLine f) (c : Console σ) : Option (Console σ) := do
  let c ← f.init.run c
  l.options.foldlM (KeyOption.apply f) c

/-- And then the task once. -/
def effect (l : CommandLine f) (c : Console σ) : Option (Console σ) := do
  let c ← l.prepare c
  l.task.run c

variable {options : List KeyOption} {c : Console σ}

theorem readKeys_options (h : ∀ o ∈ options, o.Valid f) (c : Console σ) :
    f.readKeys (options.flatMap KeyOption.tokens) c = options.foldlM (KeyOption.apply f) c := by
  induction options generalizing c with
  | nil => rfl
  | cons o os ih =>
    obtain ⟨func, hfunc⟩ := Option.isSome_iff_exists.mp (h o List.mem_cons_self).registered
    have hvalue := (h o List.mem_cons_self).value
    have hih : ∀ c, f.readKeys (os.flatMap KeyOption.tokens) c = os.foldlM (KeyOption.apply f) c :=
      fun c => ih (fun p hp => h p (List.mem_cons_of_mem _ hp)) c
    rw [List.flatMap_cons, KeyOption.tokens, List.foldlM_cons, KeyOption.apply, hfunc]
    cases hv : o.value with
    | some v =>
      have hnone : (f.keyFunctions v).isNone = true := by rw [(hvalue v hv).2]; rfl
      simp only [Option.toList_some, List.cons_append, List.nil_append, UserInput.readKeys, hfunc, if_pos hnone,
        Option.getD_some]
      exact congrArg _ (funext hih)
    | none =>
      simp only [Option.toList_none, List.cons_append, List.nil_append, Option.getD_none]
      cases os with
      | nil =>
        simp only [List.flatMap_nil, UserInput.readKeys, hfunc, List.foldlM_nil]
        exact (bind_pure _).symm
      | cons o' os =>
        have hnext := (h o' (by simp)).registered
        have hnone : ¬ (f.keyFunctions o'.key).isNone = true := by
          rw [Option.isNone_iff_eq_none]
          exact Option.isSome_iff_ne_none.mp hnext
        rw [List.flatMap_cons, KeyOption.tokens, List.cons_append] at hih ⊢
        simp only [UserInput.readKeys, hfunc, if_neg hnone]
        exact congrArg _ (funext hih)

/-- The task is passed over: it is not a key. -/
theorem readKeys_task {taskType : List UInt8} (h : f.keyFunctions taskType = none) (vec : List (List UInt8))
    (c : Console σ) : f.readKeys (taskType :: vec) c = f.readKeys vec c := by
  cases vec with
  | nil => simp only [UserInput.readKeys, h]
  | cons value rest => simp only [UserInput.readKeys, h]

theorem line_tokens (l : CommandLine f) : ∀ x ∈ ([], l.taskType) :: l.spaced, IsToken x.2 := by
  intro x hx
  rcases List.mem_cons.mp hx with rfl | hx
  · exact l.taskToken
  · have hm : x.2 ∈ l.options.flatMap KeyOption.tokens := by
      rw [← l.tokens]
      exact List.mem_map_of_mem hx
    obtain ⟨o, ho, hm⟩ := List.mem_flatMap.mp hm
    rcases List.mem_cons.mp hm with heq | hm
    · rw [heq]
      exact (l.valid o ho).token
    · exact ((l.valid o ho).value x.2 (Option.mem_toList.mp hm)).1

theorem line_gaps (l : CommandLine f) : ∀ x ∈ ([], l.taskType) :: l.spaced, ∀ b ∈ x.1, b = 32 ∨ b = 9 := by
  intro x hx b hb
  rcases List.mem_cons.mp hx with rfl | hx
  · cases hb
  · exact (l.gaps x hx).2 b hb

theorem splitString_line (l : CommandLine f) :
    splitString l.line = l.taskType :: l.options.flatMap KeyOption.tokens := by
  rw [splitString, line, splitLoop_spread, List.map_cons, l.tokens]
  · intro x hx b hb
    rcases l.line_gaps x hx b hb with rfl | rfl <;> rfl
  · exact l.line_tokens
  · exact fun x hx => (l.gaps x hx).1
  · exact Nat.le_refl _

/-- No newline is part of the line. -/
theorem line_noNewline (l : CommandLine f) : ∀ b ∈ l.line, b ≠ 10 := by
  rintro b hb rfl
  obtain ⟨x, hx, hb⟩ := List.mem_flatMap.mp hb
  rcases List.mem_append.mp hb with hb | hb
  · rcases l.line_gaps x hx 10 hb with h | h <;> cases h
  · cases (l.line_tokens x hx).2 10 hb

theorem line_ne_nil (l : CommandLine f) : l.line ≠ [] := by
  rw [line, spread, List.flatMap_cons]
  simp [l.taskToken.1]

theorem line_ne_exit (l : CommandLine f) : l.line ≠ bytes "exit" := by
  intro h
  have hsplit := l.splitString_line
  rw [h] at hsplit
  have hexit : splitString (bytes "exit") = [bytes "exit"] := by decide
  rw [hexit] at hsplit
  exact l.notExit (List.cons.inj hsplit).1.symm

/-- A turn of the loop on such a line calls exactly these functions. -/
theorem turn_line (l : CommandLine f) {rest tail : List UInt8} (hs : c.stopped = false) (hf : c.failed = false)
    (hinput : c.input = l.line ++ tail) (htail : tail = [] ∧ rest = [] ∨ tail = 10 :: rest) :
    f.turn c = UserInput.ofRun (l.effect { c with input := rest }) := by
  have hpos : ∀ b ∈ l.line, decide (b ≠ 10) = true := by
    intro b hb
    simpa using l.line_noNewline b hb
  have hstop : tail.takeWhile (· ≠ 10) = [] ∧ (tail.dropWhile (· ≠ 10)).drop 1 = rest := by
    rcases htail with ⟨rfl, rfl⟩ | rfl
    · exact ⟨rfl, rfl⟩
    · exact ⟨rfl, rfl⟩
  have hne : c.input ≠ [] := by
    rw [hinput]
    simp [l.line_ne_nil]
  have hline : c.input.takeWhile (· ≠ 10) = l.line := by
    rw [hinput, List.takeWhile_append_of_pos hpos, hstop.1, List.append_nil]
  have hrest : (c.input.dropWhile (· ≠ 10)).drop 1 = rest := by
    rw [hinput, List.dropWhile_append_of_pos hpos, hstop.2]
  have hturned : ¬ c.stopped = true := by simp [hs]
  rw [UserInput.turn, if_neg hturned, Console.getline_line hf hne, hline, hrest]
  dsimp only
  rw [if_neg l.line_ne_nil, if_neg l.line_ne_exit, effect, prepare]
  cases hinit : f.init.run { c with input := rest } with
  | none => rfl
  | some d =>
    simp only [UserInput.command, l.splitString_line, readKeys_task l.notKey, readKeys_options l.valid]
    have htask : f.runTask l.taskType = l.task.run := by
      funext e
      rw [UserInput.runTask, l.isTask]
    rw [htask]
    rfl

end CommandLine

end CppInAction
