import CppInAction.Assoc
import CppInAction.CommandLine
import Mathlib.Data.List.Pairwise

namespace CppInAction

/-- XTask::Data. -/
structure TaskData where
  taskType : List UInt8 := []
  src : List UInt8 := []
  des : List UInt8 := []
  beginSeconds : List UInt8 := []
  endSeconds : List UInt8 := []
  secretKey : List UInt8 := []
  isEncrypt : Bool := true
deriving DecidableEq, Repr

/-- What the functions of XVideoInput::Start share: the data of the command, and the rest of
the world. -/
structure VideoState (ω : Type) where
  data : TaskData
  world : ω

/-- The operator >> on standard input; at its end the string stays as it was. -/
def Console.readWord {σ : Type} (c : Console σ) : Console σ × Option (List UInt8) :=
  if c.failed then (c, none)
  else match extract c.input with
    | none => ({ c with input := [], failed := true }, none)
    | some (token, rest) => ({ c with input := rest }, some token)

theorem extract_shorter {s token rest : List UInt8} (h : extract s = some (token, rest)) : rest.length ≤ s.length := by
  unfold extract at h
  split at h
  next => cases h
  next =>
    cases h
    exact ((List.dropWhile_suffix _).trans (List.dropWhile_suffix _)).length_le

theorem readWord_shorter {σ : Type} (c : Console σ) : c.readWord.1.input.length ≤ c.input.length := by
  unfold Console.readWord
  split
  next => exact Nat.le_refl _
  next =>
    split
    next => exact Nat.zero_le _
    next token rest h => exact extract_shorter h

namespace XVideoInput

variable {ω : Type}

/-- A function that only changes the data. -/
def assign (g : TaskData → TaskData) : Callback (VideoState ω) where
  run := fun c => some { c with state := { c.state with data := g c.state.data } }
  consumes := by
    intro c d h
    cases Option.some.inj h
    exact Nat.le_refl _

/-- The functions of -p and -dp: an empty key is asked for. -/
def secret (isEncrypt : Bool) (s : List UInt8) : Callback (VideoState ω) where
  run := fun c =>
    if s = [] then
      let (c, word) := c.readWord
      some { c with state := { c.state with
        data := { c.state.data with secretKey := word.getD c.state.data.secretKey, isEncrypt := isEncrypt } } }
    else some { c with state := { c.state with data := { c.state.data with secretKey := s, isEncrypt := isEncrypt } } }
  consumes := by
    intro c d h
    split at h
    next =>
      cases Option.some.inj h
      exact readWord_shorter c
    next =>
      cases Option.some.inj h
      exact Nat.le_refl _

def onSrc (s : List UInt8) : Callback (VideoState ω) := assign fun data => { data with src := s }

def onDes (s : List UInt8) : Callback (VideoState ω) := assign fun data => { data with des := s }

def onEncrypt (s : List UInt8) : Callback (VideoState ω) := secret true s

def onDecrypt (s : List UInt8) : Callback (VideoState ω) := secret false s

def onBegin (s : List UInt8) : Callback (VideoState ω) := assign fun data => { data with beginSeconds := s }

def onEnd (s : List UInt8) : Callback (VideoState ω) := assign fun data => { data with endSeconds := s }

/-- The keys that Start registers. -/
def keyTable : List (List UInt8 × (List UInt8 → Callback (VideoState ω))) :=
  [(bytes "-s", onSrc), (bytes "-d", onDes), (bytes "-p", onEncrypt), (bytes "-dp", onDecrypt),
    (bytes "-b", onBegin), (bytes "-e", onEnd)]

/-- The init function of Start: the data of the last command is gone. -/
def clearData : Callback (VideoState ω) := assign fun _ => {}

/-- The console input of Start, for the two functions registered as tasks. -/
def console (cv play : Callback (VideoState ω)) : UserInput (VideoState ω) where
  init := clearData
  keyFunctions := fun key => keyTable.lookup key
  taskFunctions := fun taskType => [(bytes "cv", cv), (bytes "play", play)].lookup taskType

/-- The fields of the data that an option sets. -/
inductive Field
  | src
  | des
  | secret (isEncrypt : Bool)
  | begin
  | finish
deriving DecidableEq, Repr

/-- -p and -dp set the same fields. -/
def Field.slot : Field → Nat
  | .src => 0
  | .des => 1
  | .secret _ => 2
  | .begin => 3
  | .finish => 4

def fieldTable : List (List UInt8 × Field) :=
  [(bytes "-s", .src), (bytes "-d", .des), (bytes "-p", .secret true), (bytes "-dp", .secret false),
    (bytes "-b", .begin), (bytes "-e", .finish)]

def Field.set (data : TaskData) (s : List UInt8) : Field → TaskData
  | .src => { data with src := s }
  | .des => { data with des := s }
  | .secret isEncrypt => { data with secretKey := s, isEncrypt := isEncrypt }
  | .begin => { data with beginSeconds := s }
  | .finish => { data with endSeconds := s }

/-- The data after an option with a value. -/
def setOption (data : TaskData) (o : KeyOption) : TaskData :=
  match fieldTable.lookup o.key with
  | some field => field.set data (o.value.getD [])
  | none => data

theorem Field.set_comm {a b : Field} (h : a.slot ≠ b.slot) (data : TaskData) (s t : List UInt8) :
    b.set (a.set data s) t = a.set (b.set data t) s := by
  cases a <;> cases b <;> first | rfl | exact absurd rfl h

variable {cv play : Callback (VideoState ω)} {c : Console (VideoState ω)} {o : KeyOption}

/-- The keys that Start registers are those of the fields, and with a value that is not empty the function
of a key sets just its field. -/
theorem keyTable_sets (key : List UInt8) {v : List UInt8} (hne : v ≠ []) (c : Console (VideoState ω)) :
    (keyTable.lookup key).map (fun func => (func v).run c) =
      (fieldTable.lookup key).map fun field => some { c with state := { c.state with data := field.set c.state.data v } } := by
  cases hfunc : (@keyTable ω).lookup key with
  | none =>
    have hother := List.lookup_eq_none_iff.mp hfunc
    have hfield : fieldTable.lookup key = none := List.lookup_eq_none_iff.mpr (by simpa [fieldTable, keyTable] using hother)
    rw [hfield]
    rfl
  | some func =>
    have hmem := mem_of_lookup hfunc
    simp only [keyTable, List.mem_cons, List.not_mem_nil, or_false, Prod.mk.injEq] at hmem
    rcases hmem with ⟨rfl, rfl⟩ | ⟨rfl, rfl⟩ | ⟨rfl, rfl⟩ | ⟨rfl, rfl⟩ | ⟨rfl, rfl⟩ | ⟨rfl, rfl⟩
    · rfl
    · rfl
    · exact congrArg some (if_neg hne)
    · exact congrArg some (if_neg hne)
    · rfl
    · rfl

/-- What a registered key does with a value that is there. -/
theorem apply_option {v : List UInt8} (hreg : ((console cv play).keyFunctions o.key).isSome)
    (hv : o.value = some v) (hne : v ≠ []) (c : Console (VideoState ω)) :
    o.apply (console cv play) c = some { c with state := { c.state with data := setOption c.state.data o } } := by
  obtain ⟨func, hfunc⟩ := Option.isSome_iff_exists.mp hreg
  have hlookup : keyTable.lookup o.key = some func := hfunc
  have hsets := keyTable_sets o.key hne c
  rw [hlookup, Option.map_some] at hsets
  obtain ⟨field, hfield, hrun⟩ := Option.map_eq_some_iff.mp hsets.symm
  have hvalue : o.value.getD [] = v := by rw [hv]; rfl
  rw [KeyOption.apply, hfunc, setOption, hfield, hvalue]
  exact hrun.symm

/-- Two options set different fields. -/
def Apart (o o' : KeyOption) : Prop :=
  ∀ a b, fieldTable.lookup o.key = some a → fieldTable.lookup o'.key = some b → a.slot ≠ b.slot

theorem Apart.symm {o o' : KeyOption} (h : Apart o o') : Apart o' o := fun a b ha hb => (h b a hb ha).symm

/-- The options have values, and no two of them set the same field. -/
structure Separate (options : List KeyOption) : Prop where
  values : ∀ o ∈ options, o.value.isSome
  fields : options.Pairwise Apart

variable {options options' : List KeyOption}

/-- Options with values only set their fields, one after the other. -/
theorem foldlM_apply (hvalid : ∀ o ∈ options, o.Valid (console cv play)) (hvalues : ∀ o ∈ options, o.value.isSome)
    (c : Console (VideoState ω)) :
    options.foldlM (KeyOption.apply (console cv play)) c =
      some { c with state := { c.state with data := options.foldl setOption c.state.data } } := by
  induction options generalizing c with
  | nil => rfl
  | cons o os ih =>
    obtain ⟨v, hv⟩ := Option.isSome_iff_exists.mp (hvalues o List.mem_cons_self)
    have ho := hvalid o List.mem_cons_self
    rw [List.foldlM_cons, apply_option ho.registered hv (ho.value v hv).1.1, List.foldl_cons]
    exact ih (fun p hp => hvalid p (List.mem_cons_of_mem _ hp)) (fun p hp => hvalues p (List.mem_cons_of_mem _ hp)) _

theorem setOption_comm {o o' : KeyOption} (h : Apart o o') (data : TaskData) :
    setOption (setOption data o) o' = setOption (setOption data o') o := by
  unfold setOption
  cases ha : fieldTable.lookup o.key with
  | none => rfl
  | some a =>
    cases hb : fieldTable.lookup o'.key with
    | none => rfl
    | some b => exact Field.set_comm (h a b ha hb) data _ _

/-- The order of such options does not matter. -/
theorem foldl_setOption (h : Separate options) (hperm : options.Perm options') (data : TaskData) :
    options.foldl setOption data = options'.foldl setOption data := by
  apply hperm.foldl_eq'
  intro o ho o' ho' data
  by_cases heq : o = o'
  · rw [heq]
  · have : Std.Symm Apart := ⟨fun _ _ => Apart.symm⟩
    exact setOption_comm (h.fields.forall ho ho' heq) data

theorem prepare_eq (l : CommandLine (console cv play)) (h : Separate l.options) (c : Console (VideoState ω)) :
    l.prepare c = some { c with state := { c.state with data := l.options.foldl setOption {} } } := by
  have hinit : (console cv play).init.run c = some { c with state := { c.state with data := {} } } := rfl
  rw [CommandLine.prepare, hinit]
  exact foldlM_apply l.valid h.values _

end XVideoInput

/-- A command line calls the functions that it names, and the order of its options makes no
difference to the data of XVideoInput. -/
theorem commandLine_calls {ω : Type} (cv play : Callback (VideoState ω)) :
    (∀ {σ : Type} (f : UserInput σ) (l : CommandLine f) (c : Console σ) (rest tail : List UInt8),
      c.stopped = false → c.failed = false → c.input = l.line ++ tail →
      (tail = [] ∧ rest = [] ∨ tail = 10 :: rest) →
      f.turn c = UserInput.ofRun (l.effect { c with input := rest })) ∧
    ∀ l l' : CommandLine (XVideoInput.console cv play), l.taskType = l'.taskType → l.options.Perm l'.options →
      XVideoInput.Separate l.options → ∀ c, ∃ d, l.prepare c = some d ∧ l'.prepare c = some d ∧ l.effect c = l'.effect c := by
  refine ⟨fun f l c rest tail hs hf hinput htail => l.turn_line hs hf hinput htail, fun l l' htask hperm hsep c => ?_⟩
  have hsep' : XVideoInput.Separate l'.options := by
    refine ⟨fun o ho => hsep.values o (hperm.mem_iff.mpr ho), ?_⟩
    exact (hperm.pairwise_iff XVideoInput.Apart.symm).mp hsep.fields
  have hprepare := XVideoInput.prepare_eq l hsep c
  have hprepare' := XVideoInput.prepare_eq l' hsep' c
  rw [← XVideoInput.foldl_setOption hsep hperm] at hprepare'
  refine ⟨_, hprepare, hprepare', ?_⟩
  have heq : l.task = l'.task := by
    have h' := l'.isTask
    rw [← htask, l.isTask] at h'
    exact Option.some.inj h'
  rw [CommandLine.effect, CommandLine.effect, hprepare, hprepare', heq]

/-- The line cv, -s a, -d b, with a space and tabs. -/
def sourceFirst : CommandLine (XVideoInput.console (ω := Unit) .idle .idle) where
  taskType := bytes "cv"
  task := .idle
  options := [⟨bytes "-s", some (bytes "a")⟩, ⟨bytes "-d", some (bytes "b")⟩]
  spaced := [(bytes " ", bytes "-s"), ([9], bytes "a"), ([9, 32], bytes "-d"), (bytes " ", bytes "b")]
  isTask := rfl
  taskToken := by decide
  notKey := rfl
  notExit := by decide
  valid := by
    intro o ho
    simp only [List.mem_cons, List.not_mem_nil, or_false] at ho
    rcases ho with rfl | rfl
    · refine ⟨by decide, rfl, fun v hv => ?_⟩
      cases hv
      exact ⟨by decide, rfl⟩
    · refine ⟨by decide, rfl, fun v hv => ?_⟩
      cases hv
      exact ⟨by decide, rfl⟩
  tokens := rfl
  gaps := by
    intro x hx
    simp only [List.mem_cons, List.not_mem_nil, or_false] at hx
    rcases hx with rfl | rfl | rfl | rfl
    · exact ⟨by decide, fun b hb => Or.inl (List.mem_singleton.mp hb)⟩
    · exact ⟨by decide, fun b hb => Or.inr (List.mem_singleton.mp hb)⟩
    · refine ⟨by decide, fun b hb => ?_⟩
      rcases List.mem_cons.mp hb with rfl | hb
      · exact Or.inr rfl
      · exact Or.inl (List.mem_singleton.mp hb)
    · exact ⟨by decide, fun b hb => Or.inl (List.mem_singleton.mp hb)⟩

/-- The same options in the other order. -/
def sourceLast : CommandLine (XVideoInput.console (ω := Unit) .idle .idle) where
  taskType := bytes "cv"
  task := .idle
  options := [⟨bytes "-d", some (bytes "b")⟩, ⟨bytes "-s", some (bytes "a")⟩]
  spaced := [(bytes " ", bytes "-d"), (bytes " ", bytes "b"), (bytes " ", bytes "-s"), (bytes " ", bytes "a")]
  isTask := rfl
  taskToken := by decide
  notKey := rfl
  notExit := by decide
  valid := by
    intro o ho
    apply sourceFirst.valid o
    exact (List.Perm.swap _ _ _).mem_iff.mp ho
  tokens := rfl
  gaps := by
    intro x hx
    simp only [List.mem_cons, List.not_mem_nil, or_false] at hx
    rcases hx with rfl | rfl | rfl | rfl <;>
      exact ⟨by decide, fun b hb => Or.inl (List.mem_singleton.mp hb)⟩

theorem commandLine_calls_cv :
    (XVideoInput.console .idle .idle).turn ⟨sourceFirst.line ++ [10], false, false, ⟨{}, ()⟩⟩ =
        UserInput.ofRun (sourceFirst.effect ⟨[], false, false, ⟨{}, ()⟩⟩) ∧
      ∃ d, sourceFirst.prepare ⟨[], false, false, ⟨{}, ()⟩⟩ = some d ∧
        sourceLast.prepare ⟨[], false, false, ⟨{}, ()⟩⟩ = some d ∧
        sourceFirst.effect ⟨[], false, false, ⟨{}, ()⟩⟩ = sourceLast.effect ⟨[], false, false, ⟨{}, ()⟩⟩ := by
  have hcalls := commandLine_calls (ω := Unit) .idle .idle
  have hsep : XVideoInput.Separate sourceFirst.options := by
    refine ⟨by decide, ?_⟩
    refine List.pairwise_cons.mpr ⟨fun o ho a b ha hb => ?_, List.pairwise_singleton _ _⟩
    cases List.mem_singleton.mp ho
    cases Option.some.inj ha
    cases Option.some.inj hb
    decide
  exact ⟨hcalls.1 _ sourceFirst ⟨sourceFirst.line ++ [10], false, false, ⟨{}, ()⟩⟩ [] [10] rfl rfl rfl (Or.inr rfl),
    hcalls.2 sourceFirst sourceLast rfl (List.Perm.swap _ _ _) hsep _⟩

end CppInAction
