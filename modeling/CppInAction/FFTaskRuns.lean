import CppInAction.FFTask

namespace CppInAction

namespace FFTask

/-- The worker thread has returned, and XExec::Start has returned too. -/
def Over (s : FFTask) : Prop :=
  (s.worker = .finished ∨ s.worker = .joined) ∧ s.caller ≠ .started false ∧ s.caller ≠ .started true

instance (s : FFTask) : Decidable s.Over := inferInstanceAs (Decidable (_ ∧ _ ∧ _))

/-- The worker thread has returned and RunTask stands in a loop that no run takes it out of. -/
def Hung (s : FFTask) : Prop :=
  s.worker = .finished ∧
    (s.caller = .waiting ∧ (∀ as t, runSteps step s as = some t → t.running = false) ∨
      s.caller = .polling ∧ ∀ as t, runSteps step s as = some t → t.running = true)

/-- Running() is false behind the worker thread, and RunTask does not hang. -/
def Stops (s : FFTask) : Prop := (s.Over → s.running = false) ∧ ¬ s.Hung

/-- The worker stores false to running_ only when RunTask has seen it true, or when a task that
plays has left XExec::Start. -/
def StoresLate (s : FFTask) : TaskAct → Prop
  | .worker => s.worker = .flushed → s.caller = .polling ∨ s.caller = .joining
  | _ => True

instance (s : FFTask) : (a : TaskAct) → Decidable (s.StoresLate a)
  | .worker => inferInstanceAs (Decidable (_ → _))
  | .start _ | .caller | .read _ => inferInstanceAs (Decidable True)

/-- The worker thread has not stored false to running_. -/
def Busy (s : FFTask) : Prop := s.worker = .opening ∨ (∃ result, s.worker = .reading result) ∨ s.worker = .flushed

/-- The states of such runs. -/
def Ordered (s : FFTask) : Prop :=
  match s.caller with
  | .outside => s.worker = .joined ∧ s.running = false
  | .started _ => s.Busy ∧ s.running = false
  | .waiting => s.Busy ∧ s.running = true
  | .polling | .joining => s.Busy ∧ s.running = true ∨ (s.worker = .stored ∨ s.worker = .finished) ∧ s.running = false

variable {s t : FFTask}

theorem Busy.not_over (h : s.Busy) : ¬ s.Over := by
  rintro ⟨hw, _⟩
  rcases h with h | ⟨result, h⟩ | h <;> rw [h] at hw <;> simp at hw

theorem Busy.not_finished (h : s.Busy) : s.worker ≠ .finished := by
  rcases h with h | ⟨result, h⟩ | h <;> rw [h] <;> simp

theorem Ordered.stops (h : s.Ordered) : s.Stops := by
  unfold Ordered at h
  cases hc : s.caller with
  | outside =>
    rw [hc] at h
    exact ⟨fun _ => h.2, fun hh => by simp [Hung, hc] at hh⟩
  | started play =>
    rw [hc] at h
    exact ⟨fun ho => absurd ho h.1.not_over, fun hh => by simp [Hung, hc] at hh⟩
  | waiting =>
    rw [hc] at h
    exact ⟨fun ho => absurd ho h.1.not_over, fun hh => h.1.not_finished hh.1⟩
  | polling =>
    rw [hc] at h
    rcases h with ⟨hbusy, _⟩ | ⟨_, hrun⟩
    · exact ⟨fun ho => absurd ho hbusy.not_over, fun hh => hbusy.not_finished hh.1⟩
    · refine ⟨fun _ => hrun, fun hh => ?_⟩
      rcases hh.2 with ⟨hw, _⟩ | ⟨_, hloop⟩
      · cases hc.symm.trans hw
      · exact absurd (hloop [] s rfl) (by simp [hrun])
  | joining =>
    rw [hc] at h
    rcases h with ⟨hbusy, _⟩ | ⟨_, hrun⟩
    · exact ⟨fun ho => absurd ho hbusy.not_over, fun hh => hbusy.not_finished hh.1⟩
    · exact ⟨fun _ => hrun, fun hh => by simp [Hung, hc] at hh⟩

theorem readChar_frame {result : List UInt8} {c : Option UInt8} (hw : s.worker = .reading result)
    (h : s.readChar result c = some t) : t.running = s.running ∧ t.caller = s.caller ∧ t.Busy := by
  obtain ⟨worker, hworker, hcases⟩ := readChar_cases hw h
  have hbusy : ∀ t : FFTask, t.worker = worker → t.Busy := fun t ht =>
    Or.inr (hworker.symm.imp (fun hrest => hrest.imp fun rest he => ht.trans he) fun he => ht.trans he)
  rcases hcases with ⟨_, rfl⟩ | ⟨line, _, hhand⟩
  · exact ⟨rfl, rfl, hbusy _ rfl⟩
  · obtain ⟨m, _, rfl⟩ := handOver_eq hhand
    exact ⟨rfl, rfl, hbusy _ rfl⟩

/-- Until the store, the calling thread does not notice what the worker does. -/
theorem Ordered.of_busy (h : s.Ordered) (hs : s.Busy) (ht : t.Busy) (hc : t.caller = s.caller)
    (hr : t.running = s.running) : t.Ordered := by
  unfold Ordered at h ⊢
  rw [hc, hr]
  have hdone : ¬ (s.worker = .stored ∨ s.worker = .finished) := by
    rintro (hw | hw)
    · rcases hs with hb | ⟨result, hb⟩ | hb <;> cases hw.symm.trans hb
    · exact hs.not_finished hw
  cases hcaller : s.caller with
  | outside =>
    rw [hcaller] at h
    rcases hs with hb | ⟨result, hb⟩ | hb <;> cases h.1.symm.trans hb
  | started play =>
    rw [hcaller] at h
    exact ⟨ht, h.2⟩
  | waiting =>
    rw [hcaller] at h
    exact ⟨ht, h.2⟩
  | polling =>
    rw [hcaller] at h
    exact h.imp (fun hb => ⟨ht, hb.2⟩) (fun hd => absurd hd.1 hdone)
  | joining =>
    rw [hcaller] at h
    exact h.imp (fun hb => ⟨ht, hb.2⟩) (fun hd => absurd hd.1 hdone)

theorem Ordered.start {play : Bool} (h : s.Ordered) (hs : s.step (.start play) = some t) : t.Ordered := by
  simp only [FFTask.step] at hs
  split at hs
  next hout =>
    unfold Ordered at h
    rw [hout.1] at h
    cases Option.some.inj hs
    exact ⟨Or.inl rfl, h.2⟩
  next => cases hs

theorem Ordered.caller (h : s.Ordered) (hs : s.callerStep = some t) : t.Ordered := by
  have hord := h
  unfold Ordered at h
  unfold callerStep at hs
  cases hc : s.caller with
  | outside => simp [hc] at hs
  | started play =>
    rw [hc] at h hs
    cases Option.some.inj hs
    cases play with
    | true => exact Or.inl ⟨h.1, rfl⟩
    | false => exact ⟨h.1, rfl⟩
  | waiting =>
    rw [hc] at h hs
    simp only [h.2, if_true] at hs
    cases Option.some.inj hs
    exact Or.inl ⟨h.1, rfl⟩
  | polling =>
    rw [hc] at h hs
    rcases h with ⟨hbusy, hrun⟩ | ⟨hw, hrun⟩
    · simp only [hrun, if_true] at hs
      cases Option.some.inj hs
      exact hord
    · simp only [hrun, Bool.false_eq_true, if_false] at hs
      cases Option.some.inj hs
      exact Or.inr ⟨hw, rfl⟩
  | joining =>
    rw [hc] at h hs
    simp only at hs
    split at hs
    next hw =>
      cases Option.some.inj hs
      rcases h with ⟨hbusy, _⟩ | ⟨_, hrun⟩
      · exact absurd hw hbusy.not_finished
      · exact ⟨rfl, hrun⟩
    next => cases hs

theorem Ordered.worker (h : s.Ordered) (hlate : s.worker = .flushed → s.caller = .polling ∨ s.caller = .joining)
    (hs : s.workerStep = some t) : t.Ordered := by
  unfold workerStep at hs
  split at hs
  next hw =>
    cases Option.some.inj hs
    exact h.of_busy (Or.inl hw) (Or.inr (Or.inl ⟨[], rfl⟩)) rfl rfl
  next hw =>
    cases Option.some.inj hs
    unfold Ordered
    rcases hlate hw with hc | hc <;> simp [hc]
  next hw =>
    cases Option.some.inj hs
    unfold Ordered at h ⊢
    have hbusy : ¬ s.Busy := by
      rintro (hb | ⟨result, hb⟩ | hb) <;> cases hw.symm.trans hb
    cases hc : s.caller with
    | outside =>
      rw [hc] at h
      cases hw.symm.trans h.1
    | started play =>
      rw [hc] at h
      exact absurd h.1 hbusy
    | waiting =>
      rw [hc] at h
      exact absurd h.1 hbusy
    | polling =>
      rw [hc] at h
      exact Or.inr ⟨Or.inr rfl, (h.resolve_left (fun hb => hbusy hb.1)).2⟩
    | joining =>
      rw [hc] at h
      exact Or.inr ⟨Or.inr rfl, (h.resolve_left (fun hb => hbusy hb.1)).2⟩
  next => cases hs

theorem Ordered.read {c : Option UInt8} (h : s.Ordered) (hs : s.step (.read c) = some t) : t.Ordered := by
  simp only [FFTask.step] at hs
  split at hs
  next result hw =>
    obtain ⟨hr, hc, hbusy⟩ := readChar_frame hw hs
    exact h.of_busy (Or.inr (Or.inl ⟨result, hw⟩)) hbusy hc hr
  next => cases hs

/-- In every run in which the worker stores late, Running() is false behind the worker thread
and RunTask never hangs. -/
theorem fftask_stops_of_storesLate (as : List TaskAct) (h : StepsMeet step StoresLate fresh as) :
    Along step Stops fresh as := by
  refine along_of_invariant Ordered (fun s a t hord ha hs => ?_) (fun _ hord => hord.stops) ⟨rfl, rfl⟩ h
  cases a with
  | start play => exact hord.start hs
  | caller => exact hord.caller hs
  | worker => exact hord.worker ha hs
  | read c => exact hord.read hs

/-- A command without output, whose worker ends while RunTask polls. -/
theorem fftask_stops_of_storesLate_silent :
    Along step Stops fresh [.start false, .caller, .worker, .caller, .read none, .worker, .worker, .caller, .caller] :=
  fftask_stops_of_storesLate _ (by decide)

/-- The worker ends before XExec::Start stores true to running_. -/
theorem fftask_not_always_stops : ¬ ∀ as, Along step Stops fresh as := by
  intro h
  have hrun : runSteps step fresh [.start false, .worker, .read none, .worker, .worker, .caller] =
      some ⟨⟨0, 0⟩, true, .finished, .waiting, []⟩ := by decide
  have hstops := (runSteps_along (h _) hrun).1 (by decide)
  cases hstops

end FFTask

end CppInAction
