import Mathlib.Data.List.Basic

namespace CppInAction

section Runs

variable {σ α : Type} (step : σ → α → Option σ)

/-- The property holds in every state of the run that takes the listed actions;
the run stops at the first action that is not enabled. -/
def Along (P : σ → Prop) : σ → List α → Prop
  | s, [] => P s
  | s, a :: as => P s ∧ match step s a with
    | none => True
    | some t => Along P t as

/-- Every step the run takes meets the condition in the state before it. -/
def StepsMeet (guard : σ → α → Prop) : σ → List α → Prop
  | _, [] => True
  | s, a :: as => match step s a with
    | none => True
    | some t => guard s a ∧ StepsMeet guard t as

/-- The state a run ends in, if all its actions are enabled. -/
def runSteps (s : σ) (as : List α) : Option σ := as.foldlM step s

variable {step}

theorem along_cons_some {P : σ → Prop} {s t : σ} {a : α} {as : List α} (h : step s a = some t) :
    Along step P s (a :: as) ↔ P s ∧ Along step P t as := by
  simp only [Along, h]

theorem along_cons_none {P : σ → Prop} {s : σ} {a : α} {as : List α} (h : step s a = none) :
    Along step P s (a :: as) ↔ P s := by
  simp only [Along, h, and_true]

theorem stepsMeet_cons_some {guard : σ → α → Prop} {s t : σ} {a : α} {as : List α}
    (h : step s a = some t) :
    StepsMeet step guard s (a :: as) ↔ guard s a ∧ StepsMeet step guard t as := by
  simp only [StepsMeet, h]

theorem stepsMeet_cons_none {guard : σ → α → Prop} {s : σ} {a : α} {as : List α}
    (h : step s a = none) : StepsMeet step guard s (a :: as) := by
  simp only [StepsMeet, h]

instance Along.decide {P : σ → Prop} [DecidablePred P] :
    (s : σ) → (as : List α) → Decidable (Along step P s as)
  | s, [] => inferInstanceAs (Decidable (P s))
  | s, a :: as => match h : step s a with
    | none => decidable_of_iff (P s) (along_cons_none h).symm
    | some t =>
      have := Along.decide (P := P) t as
      decidable_of_iff (P s ∧ Along step P t as) (along_cons_some h).symm

instance StepsMeet.decide {guard : σ → α → Prop} [∀ s a, Decidable (guard s a)] :
    (s : σ) → (as : List α) → Decidable (StepsMeet step guard s as)
  | _, [] => inferInstanceAs (Decidable True)
  | s, a :: as => match h : step s a with
    | none => isTrue (stepsMeet_cons_none h)
    | some t =>
      have : Decidable (StepsMeet step guard t as) := StepsMeet.decide t as
      decidable_of_iff (guard s a ∧ StepsMeet step guard t as) (stepsMeet_cons_some h).symm

theorem Along.head {P : σ → Prop} {s : σ} {as : List α} (h : Along step P s as) : P s := by
  cases as with
  | nil => exact h
  | cons a as => exact h.1

theorem Along.imp {P Q : σ → Prop} (himp : ∀ s, P s → Q s) {s : σ} {as : List α}
    (h : Along step P s as) : Along step Q s as := by
  induction as generalizing s with
  | nil => exact himp s h
  | cons a as ih =>
    cases ht : step s a with
    | none => exact (along_cons_none ht).mpr (himp s h.head)
    | some t =>
      have h := (along_cons_some ht).mp h
      exact (along_cons_some ht).mpr ⟨himp s h.1, ih h.2⟩

theorem Along.and {P Q : σ → Prop} {s : σ} {as : List α} (h : Along step P s as) (h' : Along step Q s as) :
    Along step (fun s => P s ∧ Q s) s as := by
  induction as generalizing s with
  | nil => exact ⟨h, h'⟩
  | cons a as ih =>
    cases ht : step s a with
    | none => exact (along_cons_none ht).mpr ⟨h.head, h'.head⟩
    | some t =>
      obtain ⟨hs, h⟩ := (along_cons_some ht).mp h
      obtain ⟨hs', h'⟩ := (along_cons_some ht).mp h'
      exact (along_cons_some ht).mpr ⟨⟨hs, hs'⟩, ih h h'⟩

/-- The rule for safety properties: an invariant that every guarded step keeps
holds along every run whose steps meet the guard. -/
theorem along_of_invariant (inv : σ → Prop) {P : σ → Prop} {guard : σ → α → Prop}
    (keeps : ∀ s a t, inv s → guard s a → step s a = some t → inv t)
    (gives : ∀ s, inv s → P s) {s : σ} {as : List α} (hs : inv s)
    (hg : StepsMeet step guard s as) : Along step P s as := by
  induction as generalizing s with
  | nil => exact gives s hs
  | cons a as ih =>
    cases ht : step s a with
    | none => exact (along_cons_none ht).mpr (gives s hs)
    | some t =>
      obtain ⟨ha, hrest⟩ := (stepsMeet_cons_some ht).mp hg
      exact (along_cons_some ht).mpr ⟨gives s hs, ih (keeps s a t hs ha ht) hrest⟩

/-- The same rule for an invariant that every step keeps. -/
theorem along_of_step (inv : σ → Prop) {P : σ → Prop}
    (keeps : ∀ s a t, inv s → step s a = some t → inv t) (gives : ∀ s, inv s → P s) {s : σ} (hs : inv s)
    (as : List α) : Along step P s as := by
  induction as generalizing s with
  | nil => exact gives s hs
  | cons a as ih =>
    cases ht : step s a with
    | none => exact (along_cons_none ht).mpr (gives s hs)
    | some t => exact (along_cons_some ht).mpr ⟨gives s hs, ih (keeps s a t hs ht)⟩

/-- When a step outside the guard always breaks the property, the guard is exact. -/
theorem along_iff_stepsMeet (inv : σ → Prop) {P : σ → Prop} {guard : σ → α → Prop}
    (keeps : ∀ s a t, inv s → guard s a → step s a = some t → inv t)
    (gives : ∀ s, inv s → P s)
    (breaks : ∀ s a t, inv s → ¬ guard s a → step s a = some t → ¬ P t)
    {s : σ} (as : List α) (hs : inv s) :
    Along step P s as ↔ StepsMeet step guard s as := by
  refine ⟨fun h => ?_, along_of_invariant inv keeps gives hs⟩
  induction as generalizing s with
  | nil => trivial
  | cons a as ih =>
    cases ht : step s a with
    | none => exact stepsMeet_cons_none ht
    | some t =>
      have hrest := ((along_cons_some ht).mp h).2
      have ha : guard s a := by
        by_contra hn
        exact breaks s a t hs hn ht hrest.head
      exact (stepsMeet_cons_some ht).mpr ⟨ha, ih (keeps s a t hs ha ht) hrest⟩

theorem runSteps_cons {s : σ} {a : α} {as : List α} :
    runSteps step s (a :: as) = (step s a).bind fun t => runSteps step t as := by
  simp only [runSteps, List.foldlM_cons]
  rfl

theorem runSteps_append {s : σ} {as bs : List α} :
    runSteps step s (as ++ bs) = (runSteps step s as).bind fun t => runSteps step t bs := by
  simp only [runSteps, List.foldlM_append]
  rfl

/-- The property holds in the state that a run ends in. -/
theorem runSteps_along {P : σ → Prop} {s t : σ} {as : List α} (h : Along step P s as)
    (ht : runSteps step s as = some t) : P t := by
  induction as generalizing s with
  | nil =>
    cases Option.some.inj ht
    exact h
  | cons a as ih =>
    rw [runSteps_cons] at ht
    obtain ⟨u, hu, ht⟩ := Option.bind_eq_some_iff.mp ht
    exact ih ((along_cons_some hu).mp h).2 ht

/-- A number that every step takes down bounds the length of a run. -/
theorem runSteps_length_le (inv : σ → Prop) (left : σ → Nat) (keeps : ∀ s a t, inv s → step s a = some t → inv t)
    (down : ∀ s a t, inv s → step s a = some t → left t < left s) {s t : σ} (hs : inv s) {as : List α}
    (h : runSteps step s as = some t) : inv t ∧ as.length + left t ≤ left s := by
  induction as generalizing s with
  | nil =>
    cases Option.some.inj h
    exact ⟨hs, by simp⟩
  | cons a as ih =>
    rw [runSteps_cons] at h
    obtain ⟨u, hu, h⟩ := Option.bind_eq_some_iff.mp h
    obtain ⟨ht, hlen⟩ := ih (keeps s a u hs hu) h
    have hdown := down s a u hs hu
    refine ⟨ht, ?_⟩
    rw [List.length_cons]
    omega

end Runs

end CppInAction
