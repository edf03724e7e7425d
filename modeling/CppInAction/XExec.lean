import CppInAction.FFTask

namespace CppInAction

/-- An XExec with the state of the callback; outputs_ has the oldest string first. -/
structure XExec (σ : Type) where
  callback : σ
  outputs : List (List UInt8)
  running : Bool
deriving DecidableEq, Repr

namespace XExec

variable {σ : Type}

/-- A string goes to func, or to outputs_ when there is no func. -/
def deliver (func : Option (σ → List UInt8 → σ)) (x : XExec σ) (result : List UInt8) : XExec σ :=
  match func with
  | some f => { x with callback := f x.callback result }
  | none => { x with outputs := x.outputs ++ [result] }

/-- The loop over the characters of the stream. A char is signed here, so that the byte 255
is equal to EOF. -/
def readLoop (func : Option (σ → List UInt8 → σ)) : XExec σ → List UInt8 → List UInt8 → XExec σ × List UInt8
  | x, result, [] => (x, result)
  | x, result, c :: rest =>
    if c = 255 then (x, result)
    else if c = 10 ∨ c = 13 then
      if result ++ [c] ≠ [] then readLoop func (x.deliver func (result ++ [c])) [] rest
      else readLoop func x (result ++ [c]) rest
    else readLoop func x (result ++ [c]) rest

/-- RunCommand behind a popen that succeeds, for what the command writes. -/
def runCommand (func : Option (σ → List UInt8 → σ)) (x : XExec σ) (stream : List UInt8) : XExec σ :=
  let (x, result) := x.readLoop func [] stream
  let x := if result ≠ [] then x.deliver func result else x
  { x with running := false }

/-- The strings that are handed over when result has been read already. -/
def pieces (result : List UInt8) : List UInt8 → List (List UInt8)
  | [] => if result = [] then [] else [result]
  | c :: rest =>
    if c = 255 then if result = [] then [] else [result]
    else if c = 10 ∨ c = 13 then (result ++ [c]) :: pieces [] rest
    else pieces (result ++ [c]) rest

/-- The strings are the stream, cut behind each newline and carriage return. -/
structure HandsOver (stream : List UInt8) (handed : List (List UInt8)) : Prop where
  whole : handed.flatten = stream
  nonempty : ∀ p ∈ handed, p ≠ []
  inner : ∀ p ∈ handed, ∀ c ∈ p.dropLast, c ≠ 10 ∧ c ≠ 13
  ended : ∀ p ∈ handed.dropLast, p.getLast? = some 10 ∨ p.getLast? = some 13

variable {func : Option (σ → List UInt8 → σ)} {x : XExec σ} {result stream : List UInt8}

theorem deliver_all (func : Option (σ → List UInt8 → σ)) (x : XExec σ) (ps : List (List UInt8)) :
    ps.foldl (deliver func) x =
      match func with
      | some f => { x with callback := ps.foldl f x.callback }
      | none => { x with outputs := x.outputs ++ ps } := by
  induction ps generalizing x with
  | nil => cases func <;> simp
  | cons p ps ih =>
    rw [List.foldl_cons, ih]
    cases func <;> simp [deliver]

theorem readLoop_eq (x : XExec σ) (result stream : List UInt8) :
    (if (x.readLoop func result stream).2 ≠ [] then
        (x.readLoop func result stream).1.deliver func (x.readLoop func result stream).2
      else (x.readLoop func result stream).1) = (pieces result stream).foldl (deliver func) x := by
  induction stream generalizing x result with
  | nil =>
    by_cases hnil : result = []
    · simp [readLoop, pieces, hnil]
    · simp [readLoop, pieces, hnil]
  | cons c rest ih =>
    by_cases h255 : c = 255
    · by_cases hnil : result = [] <;> simp [readLoop, pieces, h255, hnil]
    · by_cases hnl : c = 10 ∨ c = 13
      · have hne : result ++ [c] ≠ [] := by simp
        simp only [readLoop, pieces, if_neg h255, if_pos hnl, if_pos hne, List.foldl_cons]
        exact ih _ _
      · simp only [readLoop, pieces, if_neg h255, if_neg hnl]
        exact ih _ _

theorem runCommand_eq (func : Option (σ → List UInt8 → σ)) (x : XExec σ) (stream : List UInt8) :
    x.runCommand func stream = { (pieces [] stream).foldl (deliver func) x with running := false } := by
  rw [← readLoop_eq]
  rfl

/-- Nothing is lost up to the first byte that is taken for the end. -/
theorem pieces_flatten (result stream : List UInt8) :
    (pieces result stream).flatten = result ++ stream.takeWhile (· ≠ 255) := by
  induction stream generalizing result with
  | nil =>
    unfold pieces
    split
    next hnil => simp [hnil]
    next => simp
  | cons c rest ih =>
    unfold pieces
    by_cases h255 : c = 255
    · by_cases hnil : result = [] <;> simp [h255, hnil]
    · rw [if_neg h255, List.takeWhile_cons_of_pos (by simpa using h255)]
      by_cases hnl : c = 10 ∨ c = 13
      · rw [if_pos hnl, List.flatten_cons, ih]
        simp
      · rw [if_neg hnl, ih]
        simp

theorem mem_pieces_nil {p : List UInt8} (h : p ∈ if result = [] then ([] : List (List UInt8)) else [result]) :
    p = result ∧ result ≠ [] := by
  split at h
  next => cases h
  next hne => exact ⟨List.mem_singleton.mp h, hne⟩

theorem pieces_nonempty (result stream : List UInt8) : ∀ p ∈ pieces result stream, p ≠ [] := by
  induction stream generalizing result with
  | nil =>
    intro p hp
    obtain ⟨rfl, hne⟩ := mem_pieces_nil hp
    exact hne
  | cons c rest ih =>
    intro p hp
    unfold pieces at hp
    split at hp
    next =>
      obtain ⟨rfl, hne⟩ := mem_pieces_nil hp
      exact hne
    next =>
      split at hp
      next =>
        rcases List.mem_cons.mp hp with rfl | hp
        · simp
        · exact ih _ p hp
      next => exact ih _ p hp

/-- No string goes on behind a newline. -/
theorem pieces_inner (stream : List UInt8) (h : ∀ c ∈ result, c ≠ 10 ∧ c ≠ 13) :
    ∀ p ∈ pieces result stream, ∀ c ∈ p.dropLast, c ≠ 10 ∧ c ≠ 13 := by
  induction stream generalizing result with
  | nil =>
    intro p hp c hc
    obtain ⟨rfl, _⟩ := mem_pieces_nil hp
    exact h c (List.dropLast_subset _ hc)
  | cons b rest ih =>
    intro p hp c hc
    unfold pieces at hp
    split at hp
    next =>
      obtain ⟨rfl, _⟩ := mem_pieces_nil hp
      exact h c (List.dropLast_subset _ hc)
    next =>
      split at hp
      next =>
        rcases List.mem_cons.mp hp with rfl | hp
        · rw [List.dropLast_concat] at hc
          exact h c hc
        · exact ih (by simp) p hp c hc
      next hnl =>
        apply ih ?_ p hp c hc
        intro d hd
        rcases List.mem_append.mp hd with hd | hd
        · exact h d hd
        · rw [List.mem_singleton.mp hd]
          exact not_or.mp hnl

theorem notMem_dropLast_nil {p : List UInt8} :
    p ∉ (if result = [] then ([] : List (List UInt8)) else [result]).dropLast := by
  split <;> exact List.not_mem_nil

/-- Every string but the last one ends in a newline or a carriage return. -/
theorem pieces_ended (result stream : List UInt8) :
    ∀ p ∈ (pieces result stream).dropLast, p.getLast? = some 10 ∨ p.getLast? = some 13 := by
  induction stream generalizing result with
  | nil => exact fun p hp => absurd hp notMem_dropLast_nil
  | cons c rest ih =>
    intro p hp
    unfold pieces at hp
    split at hp
    next => exact absurd hp notMem_dropLast_nil
    next =>
      split at hp
      next hnl =>
        cases hrest : pieces [] rest with
        | nil =>
          rw [hrest] at hp
          cases hp
        | cons q qs =>
          rw [hrest, List.dropLast_cons_cons] at hp
          rcases List.mem_cons.mp hp with rfl | hp
          · rw [List.getLast?_concat]
            rcases hnl with rfl | rfl
            · exact Or.inl rfl
            · exact Or.inr rfl
          · apply ih []
            rwa [hrest]
      next => exact ih _ p hp

theorem pieces_handsOver_iff (stream : List UInt8) : HandsOver stream (pieces [] stream) ↔ 255 ∉ stream := by
  constructor
  · intro h hmem
    have hwhole := h.whole
    rw [pieces_flatten, List.nil_append] at hwhole
    rw [← hwhole] at hmem
    have hne := List.mem_takeWhile_imp hmem
    simp at hne
  · intro h
    refine ⟨?_, pieces_nonempty _ _, pieces_inner _ (by simp), pieces_ended _ _⟩
    rw [pieces_flatten, List.nil_append, List.takeWhile_eq_self_iff]
    intro c hc
    have hne : c ≠ 255 := fun heq => h (heq ▸ hc)
    simpa using hne

/-- The turns of the worker of an FFTask, up to the end of the stream, hand over the same
strings. -/
theorem reads_pieces {s t : FFTask} (hw : s.worker = .reading result) (h255 : 255 ∉ stream)
    (h : runSteps FFTask.step s (stream.map (fun c => .read (some c)) ++ [.read none]) = some t) :
    t.lines = s.lines ++ pieces result stream := by
  induction stream generalizing s result with
  | nil =>
    rw [List.map_nil, List.nil_append, runSteps_cons] at h
    obtain ⟨u, hu, ht⟩ := Option.bind_eq_some_iff.mp h
    cases Option.some.inj ht
    simp only [FFTask.step, hw, FFTask.readChar, FFTask.endOfOutput] at hu
    unfold pieces
    split at hu
    next hnil =>
      cases Option.some.inj hu
      simp [hnil]
    next hne =>
      obtain ⟨m, _, rfl⟩ := FFTask.handOver_eq hu
      simp [hne]
  | cons c rest ih =>
    rw [List.map_cons, List.cons_append, runSteps_cons] at h
    obtain ⟨u, hu, ht⟩ := Option.bind_eq_some_iff.mp h
    have hc : c ≠ 255 := fun heq => h255 (heq ▸ List.mem_cons_self)
    have hrest : 255 ∉ rest := fun hm => h255 (List.mem_cons_of_mem _ hm)
    simp only [FFTask.step, hw, FFTask.readChar, if_neg hc] at hu
    simp only [pieces, if_neg hc]
    by_cases hnl : c = 10 ∨ c = 13
    · rw [if_pos hnl] at hu ⊢
      obtain ⟨m, _, rfl⟩ := FFTask.handOver_eq hu
      rw [ih rfl hrest ht]
      simp
    · rw [if_neg hnl] at hu ⊢
      cases Option.some.inj hu
      exact ih (s := { s with worker := .reading (result ++ [c]) }) rfl hrest ht

/-- What a command writes is handed over as a whole, with a callback and without one,
exactly if it has no byte 255. -/
theorem runCommand_handsOver_iff (f : σ → List UInt8 → σ) (x : XExec σ) (stream : List UInt8) :
    ∃ handed, x.runCommand (some f) stream = { x with callback := handed.foldl f x.callback, running := false } ∧
      x.runCommand none stream = { x with outputs := x.outputs ++ handed, running := false } ∧
      (HandsOver stream handed ↔ 255 ∉ stream) := by
  refine ⟨pieces [] stream, ?_, ?_, pieces_handsOver_iff stream⟩
  · rw [runCommand_eq, deliver_all]
  · rw [runCommand_eq, deliver_all]

/-- The byte 255 ends the reading although more follows. -/
theorem runCommand_not_always_handsOver :
    ¬ ∀ stream : List UInt8, HandsOver stream (runCommand (σ := Unit) none ⟨(), [], true⟩ stream).outputs := by
  intro h
  have hwhole := (h [97, 255, 98, 10]).whole
  cases hwhole

end XExec

end CppInAction
