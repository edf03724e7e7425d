import CppInAction.SignalLoop

namespace CppInAction

namespace SignalLoop

variable {s t : SignalLoop} {a : LoopAct} {as : List LoopAct}

/-- The loop of deal_with_signal over the bytes that it has read. -/
theorem foldl_note (sigs : List Sig) (s : SignalLoop) :
    sigs.foldl note s =
      { s with timeout := s.timeout || sigs.contains .alrm, stopServer := s.stopServer || sigs.contains .term } := by
  induction sigs generalizing s with
  | nil => simp
  | cons sig sigs ih =>
    rw [List.foldl_cons, ih]
    cases sig <;> simp [note]

/-- The steps of the loop. -/
inductive Moves (s : SignalLoop) : LoopAct → SignalLoop → Prop
  | clock : Moves s .clock { s with now := s.now + 1 }
  | expire {d : Int} (ha : s.armed = some d) (hd : d ≤ s.now) :
      Moves s .expire { s with armed := none, pending := Function.update s.pending .alrm true }
  | kill (sig : Sig) : Moves s (.kill sig) { s with pending := Function.update s.pending sig true }
  | deliver {sig : Sig} (hp : s.pending sig = true) :
      Moves s (.deliver sig) { s with pending := Function.update s.pending sig false, handling := sig :: s.handling }
  | sent {sig : Sig} (hs : sig ∈ s.handling) :
      Moves s (.send sig true) { s with handling := s.handling.erase sig, pipe := s.pipe ++ [sig] }
  | dropped {sig : Sig} (hs : sig ∈ s.handling) (hp : s.pipe ≠ []) :
      Moves s (.send sig false) { s with handling := s.handling.erase sig }
  | fail (hpc : s.pc = .waiting) : Moves s (.wake none) { s with pc := .left }
  | wake {events : List Ready} (hw : s.CanWake events) : Moves s (.wake (some events)) { s with pc := .events events }
  | leave {got : Option Nat} (hpc : s.pc = .test) (hs : s.stopServer = true) : Moves s (.main got) { s with pc := .left }
  | wait {got : Option Nat} (hpc : s.pc = .test) (hs : s.stopServer = false) : Moves s (.main got) { s with pc := .waiting }
  | skip {got : Option Nat} {e : Ready} {rest : List Ready} (hpc : s.pc = .events (e :: rest)) :
      Moves s (.main got) { s with pc := .events rest }
  | read {n : Nat} {rest : List Ready} (hpc : s.pc = .events (.pipe :: rest)) (hn : 0 < n) (hle : n ≤ s.pipe.length) :
      Moves s (.main (some n)) { s with
        pc := .events rest, pipe := s.pipe.drop n, reads := s.reads + 1,
        timeout := s.timeout || (s.pipe.take n).contains .alrm,
        stopServer := s.stopServer || (s.pipe.take n).contains .term }
  | again {got : Option Nat} (hpc : s.pc = .events []) (ht : s.timeout = false) : Moves s (.main got) { s with pc := .test }
  | handler {got : Option Nat} (hpc : s.pc = .events []) (ht : s.timeout = true) : Moves s (.main got) { s with pc := .tick }
  | tick {got : Option Nat} (hpc : s.pc = .tick) : Moves s (.main got) { s with pc := .alarm, ticks := s.now :: s.ticks }
  | alarm {got : Option Nat} (hpc : s.pc = .alarm) :
      Moves s (.main got) { s with pc := .reset, armed := some (s.now + timeslot), armedAt := s.now }
  | reset {got : Option Nat} (hpc : s.pc = .reset) : Moves s (.main got) { s with pc := .test, timeout := false }

theorem mainStep_moves {got : Option Nat} (h : s.mainStep got = some t) : s.Moves (.main got) t := by
  unfold mainStep at h
  split at h
  next hpc =>
    cases Option.some.inj h
    by_cases hs : s.stopServer = true
    · rw [if_pos hs]
      exact .leave hpc hs
    · rw [if_neg hs]
      exact .wait hpc (Bool.eq_false_of_not_eq_true hs)
  next => cases h
  next => cases h
  next hpc =>
    cases Option.some.inj h
    exact .skip hpc
  next hpc =>
    split at h
    next =>
      cases Option.some.inj h
      exact .skip hpc
    next n =>
      obtain ⟨⟨hn, hle, _⟩, ⟨⟩⟩ := Option.ite_none_right_eq_some.mp h
      rw [dealWithSignal, foldl_note]
      exact .read hpc hn hle
  next hpc =>
    cases Option.some.inj h
    by_cases ht : s.timeout = true
    · rw [if_pos ht]
      exact .handler hpc ht
    · rw [if_neg ht]
      exact .again hpc (Bool.eq_false_of_not_eq_true ht)
  next hpc =>
    cases Option.some.inj h
    exact .tick hpc
  next hpc =>
    cases Option.some.inj h
    exact .alarm hpc
  next hpc =>
    cases Option.some.inj h
    exact .reset hpc

theorem step_moves (h : s.step a = some t) : s.Moves a t := by
  cases a with
  | clock =>
    cases Option.some.inj h
    exact .clock
  | expire =>
    obtain ⟨ha, ⟨⟩⟩ := Option.ite_none_right_eq_some.mp h
    obtain ⟨d, hd, hle⟩ := (Option.any_eq_true _ _).mp ha
    exact .expire hd (of_decide_eq_true hle)
  | kill sig =>
    cases Option.some.inj h
    exact .kill sig
  | deliver sig =>
    obtain ⟨hp, ⟨⟩⟩ := Option.ite_none_right_eq_some.mp h
    exact .deliver hp
  | send sig room =>
    obtain ⟨⟨hs, hp⟩, ⟨⟩⟩ := Option.ite_none_right_eq_some.mp h
    cases room with
    | true => exact .sent hs
    | false => exact .dropped hs (hp rfl)
  | wake events =>
    cases events with
    | none =>
      obtain ⟨hpc, ⟨⟩⟩ := Option.ite_none_right_eq_some.mp h
      exact .fail hpc
    | some events =>
      obtain ⟨hw, ⟨⟩⟩ := Option.ite_none_right_eq_some.mp h
      exact .wake hw
  | main got => exact mainStep_moves h

theorem mem_recv {sig : Sig} (n : Nat) : sig ∈ s.pipe ↔ sig ∈ s.pipe.take n ∨ sig ∈ s.pipe.drop n := by
  rw [← List.mem_append, List.take_append_drop]

/-- A pipe that has no room for a signal is full of the two. -/
theorem mem_of_pipe (h : s.pipe ≠ []) : .alrm ∈ s.pipe ∨ .term ∈ s.pipe := by
  obtain ⟨sig, hsig⟩ := List.exists_mem_of_ne_nil _ h
  cases sig with
  | alrm => exact Or.inl hsig
  | term => exact Or.inr hsig

theorem ite_one_pos {p : Prop} [Decidable p] : 0 < (if p then 1 else 0) ↔ p := by
  split
  next h => simp [h]
  next h => simp [h]

theorem underway_pos : 0 < s.underway ↔
    s.pending .alrm = true ∨ .alrm ∈ s.handling ∨ .alrm ∈ s.pipe ∨ (s.timeout = true ∧ s.pc ≠ .reset) := by
  simp only [underway, Nat.add_pos_iff_pos_or_pos, ite_one_pos, List.count_pos_iff, or_assoc]

/-- An alarm is set or on its way to the tick, or the loop ends. -/
def Alive (s : SignalLoop) : Prop := s.armed.isSome ∨ 0 < s.underway ∨ s.Ending

theorem Alive.step (h : s.Alive) (hs : s.step a = some t) : t.Alive := by
  have hmoves := step_moves hs
  clear hs
  unfold Alive Ending at h ⊢
  rw [underway_pos] at h ⊢
  cases hmoves with
  | clock => exact h
  | expire => simp
  | kill sig => cases sig <;> simp_all
  | @deliver sig hp =>
    cases sig with
    | alrm => simp
    | term => simpa using h
  | @sent sig hs =>
    cases sig with
    | alrm => simp
    | term => simp
  | dropped hs hp => exact Or.inr ((mem_of_pipe hp).elim (fun h => Or.inl (by simp [h])) fun h => Or.inr (by simp [h]))
  | fail hpc => simp
  | wake hw => simpa [hw.1] using h
  | leave hpc hs => simp
  | wait hpc hs => simpa [hpc] using h
  | skip hpc => simpa [hpc] using h
  | @read n rest hpc hn hle =>
    rcases h with ha | (hp | hh | hpipe | ⟨ht, _⟩) | hleft | hstop | hterm
    · exact Or.inl ha
    · exact Or.inr (Or.inl (Or.inl hp))
    · exact Or.inr (Or.inl (Or.inr (Or.inl hh)))
    · rcases (mem_recv n).mp hpipe with htake | hdrop
      · exact Or.inr (Or.inl (Or.inr (Or.inr (Or.inr (by simp [htake])))))
      · exact Or.inr (Or.inl (Or.inr (Or.inr (Or.inl hdrop))))
    · exact Or.inr (Or.inl (Or.inr (Or.inr (Or.inr (by simp [ht])))))
    · cases hpc.symm.trans hleft
    · exact Or.inr (Or.inr (Or.inr (Or.inl (by simp [hstop]))))
    · rcases (mem_recv n).mp hterm with htake | hdrop
      · exact Or.inr (Or.inr (Or.inr (Or.inl (by simp [htake]))))
      · exact Or.inr (Or.inr (Or.inr (Or.inr hdrop)))
  | again hpc ht => simpa [hpc] using h
  | handler hpc ht => simp [ht]
  | tick hpc => simpa [hpc] using h
  | alarm hpc => simp
  | reset hpc => simpa [hpc] using h

theorem underway_recv (n : Nat) : (if s.timeout || (s.pipe.take n).contains .alrm then 1 else 0) + (s.pipe.drop n).count .alrm ≤
    s.pipe.count .alrm + if s.timeout then 1 else 0 := by
  have hcount : (s.pipe.take n).count .alrm + (s.pipe.drop n).count .alrm = s.pipe.count .alrm := by
    rw [← List.count_append, List.take_append_drop]
  by_cases ht : s.timeout = true
  · simp only [ht, Bool.true_or, if_true]
    omega
  · by_cases hmem : .alrm ∈ s.pipe.take n
    · have hpos := List.count_pos_iff.mpr hmem
      simp only [List.contains_iff_mem.mpr hmem, Bool.or_true, if_true]
      omega
    · simp [ht, hmem]
      omega

theorem underway_pc {pc : LoopPc} (hs : s.pc ≠ .reset) (ht : pc ≠ .reset) : underway { s with pc := pc } = s.underway := by
  simp [underway, hs, ht]

theorem underway_send {sig : Sig} (hs : sig ∈ s.handling) :
    (s.handling.erase sig).count .alrm + [sig].count .alrm = s.handling.count .alrm := by
  rw [← List.count_append, (List.perm_append_comm.trans (List.perm_cons_erase hs).symm).count_eq]

theorem Moves.underway_le (h : s.Moves a t) (hown : OwnAlarm s a) : t.underway ≤ s.underway + if a = .expire then 1 else 0 := by
  cases h with
  | clock => exact Nat.le_refl _
  | expire =>
    simp only [underway, Function.update_self, if_true]
    omega
  | kill sig =>
    cases hown
    simp [underway]
  | @deliver sig hp =>
    cases sig with
    | alrm =>
      simp only [underway, hp, Function.update_self, List.count_cons_self, reduceCtorEq, if_true, if_false]
      omega
    | term => simp [underway]
  | @sent sig hs =>
    have hsend := underway_send hs
    simp only [underway, List.count_append, reduceCtorEq, if_false]
    omega
  | @dropped sig hs hp =>
    have hsend := underway_send hs
    simp only [underway, reduceCtorEq, if_false]
    omega
  | @read n rest hpc hn hle =>
    have hrecv := underway_recv (s := s) n
    simp only [underway, hpc, ne_eq, reduceCtorEq, not_false_eq_true, and_true, if_false]
    omega
  | fail hpc | leave hpc _ | wait hpc _ | again hpc _ | handler hpc _ | skip hpc =>
    exact (underway_pc (by simp [hpc]) (by simp)).le.trans (Nat.le_add_right _ _)
  | wake hw => exact (underway_pc (by simp [hw.1]) (by simp)).le.trans (Nat.le_add_right _ _)
  | tick hpc => simp [underway, hpc]
  | alarm hpc =>
    simp [underway, hpc]
  | reset hpc => simp [underway, hpc]

/-- No alarm is on its way twice, and the ticks and alarms are timeslot apart. -/
structure Paced (s : SignalLoop) : Prop where
  one : (if s.armed.isSome then 1 else 0) + s.underway ≤ 1
  timeout : s.pc = .tick ∨ s.pc = .alarm ∨ s.pc = .reset → s.timeout = true
  armed : ∀ d ∈ s.armed, s.armedAt + timeslot ≤ d
  past : 0 < s.underway → s.armedAt + timeslot ≤ s.now
  apart : s.ticks.IsChain fun later earlier => earlier + timeslot ≤ later
  latest : ∀ d ∈ s.ticks.head?, d ≤ s.now ∧ (s.pc ≠ .alarm → d ≤ s.armedAt)

theorem Paced.aside (h : s.Paced) (hu : t.underway ≤ s.underway) (harmed : t.armed = s.armed)
    (hat : t.armedAt = s.armedAt) (hnow : t.now = s.now) (hticks : t.ticks = s.ticks)
    (htimeout : t.pc = .tick ∨ t.pc = .alarm ∨ t.pc = .reset → t.timeout = true)
    (hpc : t.pc ≠ .alarm → s.pc ≠ .alarm) : t.Paced where
  one := by
    rw [harmed]
    exact (Nat.add_le_add_left hu _).trans h.one
  timeout := htimeout
  armed := by
    rw [harmed, hat]
    exact h.armed
  past hpos := by
    rw [hat, hnow]
    exact h.past (hpos.trans_le hu)
  apart := hticks ▸ h.apart
  latest d hd := by
    rw [hticks] at hd
    rw [hnow, hat]
    exact ⟨(h.latest d hd).1, fun hne => (h.latest d hd).2 (hpc hne)⟩

theorem Paced.step (h : s.Paced) (hown : OwnAlarm s a) (hs : s.step a = some t) : t.Paced := by
  have hmoves := step_moves hs
  clear hs
  have hle := hmoves.underway_le hown
  cases hmoves with
  | clock =>
    refine ⟨h.one, h.timeout, h.armed, fun hu => ?_, h.apart, fun d hd => ⟨?_, (h.latest d hd).2⟩⟩
    · exact (h.past hu).trans (Int.le_add_one (Int.le_refl _))
    · exact Int.le_add_one (h.latest d hd).1
  | @expire d ha hd =>
    have hone := h.one
    simp only [ha, Option.isSome_some, if_true] at hone hle
    refine ⟨?_, h.timeout, nofun, fun _ => (h.armed d ha).trans hd, h.apart, h.latest⟩
    simp only [Option.isSome_none, Bool.false_eq_true, if_false]
    omega
  | kill | deliver | sent | dropped => exact h.aside hle rfl rfl rfl rfl h.timeout id
  | fail hpc | leave hpc _ | wait hpc _ | again hpc _ | skip hpc =>
    exact h.aside hle rfl rfl rfl rfl (by simp) (by simp [hpc])
  | wake hw => exact h.aside hle rfl rfl rfl rfl (by simp) (by simp [hw.1])
  | read hpc _ _ => exact h.aside hle rfl rfl rfl rfl (by simp) (by simp [hpc])
  | handler hpc ht => exact h.aside hle rfl rfl rfl rfl (fun _ => ht) (by simp [hpc])
  | reset hpc => exact h.aside hle rfl rfl rfl rfl (by simp) (by simp [hpc])
  | tick hpc =>
    have ht := h.timeout (Or.inl hpc)
    have hpast := h.past (underway_pos.mpr (by simp [ht, hpc]))
    refine ⟨(Nat.add_le_add_left hle _).trans h.one, fun _ => ht, h.armed, fun _ => hpast, ?_, ?_⟩
    · refine List.isChain_cons.mpr ⟨fun d hd => ?_, h.apart⟩
      have hd' := (h.latest d hd).2 (by simp [hpc])
      omega
    · rintro d hd
      simp_all
  | alarm hpc =>
    have ht := h.timeout (Or.inr (Or.inl hpc))
    have hone := h.one
    -- the SIGALRM that timeout stands for has arrived
    have hnone : underway { s with pc := .reset, armed := some (s.now + timeslot), armedAt := s.now } = 0 := by
      simp only [underway, hpc, ht, ne_eq, reduceCtorEq, not_false_eq_true, and_self, if_true, not_true, and_false,
        if_false] at hone ⊢
      omega
    refine ⟨by simp [hnone], fun _ => ht, ?_, fun hpos => absurd hnone hpos.ne', h.apart, ?_⟩
    · rintro d ⟨⟩
      exact Int.le_refl _
    · exact fun d hd => ⟨(h.latest d hd).1, fun _ => (h.latest d hd).1⟩

theorem start_alive (now : Int) : (start now).Alive := Or.inl rfl

theorem start_paced (now : Int) : (start now).Paced where
  one := by simp [start, underway]
  timeout := by simp [start]
  armed d hd := by
    cases hd
    exact Int.le_refl _
  past h := by simp [start, underway] at h
  apart := List.isChain_nil
  latest := nofun

/-- Whatever signals arrive and in whatever order the threads run, the alarm is never lost
while the loop goes on: it is set, or a SIGALRM is on its way to the next tick. -/
theorem alarm_never_lost (now : Int) (as : List LoopAct) : Along step Alive (start now) as :=
  along_of_step Alive (fun _ _ _ h hs => h.step hs) (fun _ h => h) (start_alive now) as

/-- Unless another process sends SIGALRM, at most one of them is on its way, and two calls of
tick are at least timeslot apart. -/
theorem ticks_apart (now : Int) (as : List LoopAct) (h : StepsMeet step OwnAlarm (start now) as) :
    Along step (fun s => (if s.armed.isSome then 1 else 0) + s.underway ≤ 1 ∧
      s.ticks.IsChain fun later earlier => earlier + timeslot ≤ later) (start now) as :=
  along_of_invariant Paced (fun _ _ _ hp hown hs => hp.step hown hs) (fun _ hp => ⟨hp.one, hp.apart⟩) (start_paced now) h

/-- A round from the alarm to the tick. -/
def round : List LoopAct :=
  List.replicate 5 .clock ++ [.expire, .deliver .alrm, .main none, .send .alrm true, .wake (some [.other, .pipe]), .main none,
    .main (some 1), .main none, .main none, .main none, .main none]

theorem ticks_apart_two : Along step (fun s => (if s.armed.isSome then 1 else 0) + s.underway ≤ 1 ∧
      s.ticks.IsChain fun later earlier => earlier + timeslot ≤ later) (start 0) (round ++ round) ∧
    (runSteps step (start 0) (round ++ round)).map ticks = some [10, 5] :=
  ⟨ticks_apart 0 (round ++ round) (by decide), rfl⟩

/-- The pipe is reported once in a round, and no round begins behind a SIGTERM that was read. -/
structure Orderly (s : SignalLoop) : Prop where
  waits : s.pc = .waiting → s.stopServer = false
  reads : ∀ rest, s.pc = .events rest → rest.count .pipe ≤ 1 ∧ (s.stopServer = true → .pipe ∉ rest)

theorem Orderly.step (h : s.Orderly) (hs : s.step a = some t) : t.Orderly := by
  have hmoves := step_moves hs
  clear hs
  cases hmoves with
  | clock | expire | kill | deliver | sent | dropped => exact ⟨h.waits, h.reads⟩
  | fail | leave | again | handler | tick | alarm | reset => exact ⟨nofun, nofun⟩
  | wait _ hs => exact ⟨fun _ => hs, nofun⟩
  | wake hw =>
    refine ⟨nofun, ?_⟩
    rintro _ ⟨⟩
    exact ⟨hw.2.1, fun hstop => absurd ((h.waits hw.1).symm.trans hstop) Bool.false_ne_true⟩
  | skip hpc =>
    obtain ⟨hcount, hstop⟩ := h.reads _ hpc
    refine ⟨nofun, ?_⟩
    rintro _ ⟨⟩
    exact ⟨(List.count_le_count_cons).trans hcount, fun hs hmem => hstop hs (List.mem_cons_of_mem _ hmem)⟩
  | read hpc hn hle =>
    obtain ⟨hcount, _⟩ := h.reads _ hpc
    rw [List.count_cons_self] at hcount
    refine ⟨nofun, ?_⟩
    rintro _ ⟨⟩
    exact ⟨by omega, fun _ hmem => absurd (List.count_pos_iff.mpr hmem) (by omega)⟩

/-- The reads of the pipe up to the one that finds the first SIGTERM. -/
def toStop (s : SignalLoop) : Nat := if s.stopServer then 0 else s.pipe.idxOf .term + 1

theorem Moves.toStop_le (h : s.Moves a t) (ho : s.Orderly) (hstop : s.stopServer = true ∨ .term ∈ s.pipe) :
    (t.stopServer = true ∨ .term ∈ t.pipe) ∧ t.reads + t.toStop ≤ s.reads + s.toStop := by
  cases h with
  | sent hs =>
    refine ⟨hstop.imp_right (List.mem_append_left _), ?_⟩
    by_cases hset : s.stopServer = true
    · simp [toStop, hset]
    · simp [toStop, hset, List.idxOf_append_of_mem (hstop.resolve_left hset)]
  | @read n rest hpc hn hle =>
    have hset : s.stopServer = false := by
      by_contra hset
      exact (ho.reads _ hpc).2 (Bool.eq_true_of_not_eq_false hset) List.mem_cons_self
    have hterm := hstop.resolve_left (by simp [hset])
    by_cases htake : .term ∈ s.pipe.take n
    · refine ⟨Or.inl (by simp [htake]), ?_⟩
      simp [toStop, hset, htake]
    · have hdrop := ((mem_recv n).mp hterm).resolve_left htake
      have hidx : s.pipe.idxOf .term = n + (s.pipe.drop n).idxOf .term := by
        conv_lhs => rw [← List.take_append_drop n s.pipe, List.idxOf_append_of_notMem htake, List.length_take_of_le hle]
      refine ⟨Or.inr hdrop, ?_⟩
      simp [toStop, hset, htake, hidx]
      omega
  | _ => exact ⟨hstop, Nat.le_refl _⟩

theorem toStop_run : ∀ {bs : List LoopAct} {s t : SignalLoop}, s.Orderly → (s.stopServer = true ∨ .term ∈ s.pipe) →
    runSteps step s bs = some t →
    t.Orderly ∧ (t.stopServer = true ∨ .term ∈ t.pipe) ∧ t.reads + t.toStop ≤ s.reads + s.toStop
  | [], s, t, ho, hstop, ht => by
    obtain rfl := Option.some.inj ht
    exact ⟨ho, hstop, Nat.le_refl _⟩
  | b :: bs, s, t, ho, hstop, ht => by
    rw [runSteps_cons] at ht
    obtain ⟨u, hu, ht⟩ := Option.bind_eq_some_iff.mp ht
    obtain ⟨hstop', hle⟩ := (step_moves hu).toStop_le ho hstop
    obtain ⟨hend, hstop'', hle'⟩ := toStop_run (ho.step hu) hstop' ht
    exact ⟨hend, hstop'', hle'.trans hle⟩

/-- From the moment a SIGTERM is in the pipe, deal_with_signal reads the pipe at most once for
each byte up to it, and once it has read the SIGTERM the loop does not go back to epoll_wait. -/
theorem sigterm_stops {now : Int} {bs : List LoopAct} (hs : runSteps step (start now) as = some s) (hterm : .term ∈ s.pipe)
    (ht : runSteps step s bs = some t) :
    (t.stopServer = true ∨ .term ∈ t.pipe) ∧ (t.stopServer = true → t.pc ≠ .waiting) ∧
      t.reads ≤ s.reads + (s.pipe.idxOf .term + 1) ∧
      (t.reads = s.reads + (s.pipe.idxOf .term + 1) → t.stopServer = true) := by
  have hstart : (start now).Orderly := ⟨nofun, nofun⟩
  have ho := runSteps_along (along_of_step Orderly (fun _ _ _ h hs => h.step hs) (fun _ h => h) hstart as) hs
  obtain ⟨hend, hstop, hle⟩ := toStop_run ho (Or.inr hterm) ht
  have hfirst : s.toStop ≤ s.pipe.idxOf .term + 1 := by
    unfold toStop
    split
    · exact Nat.zero_le _
    · exact Nat.le_refl _
  refine ⟨hstop, fun hset hpc => ?_, by omega, fun hall => ?_⟩
  · exact absurd ((hend.waits hpc).symm.trans hset) Bool.false_ne_true
  · have hzero : t.toStop = 0 := by omega
    by_contra hset
    simp [toStop, hset] at hzero

theorem sigterm_stops_killed : ∃ s t, runSteps step (start 0) [.main none, .kill .term, .deliver .term, .send .term true] = some s ∧
    runSteps step s [.wake (some [.pipe]), .main (some 1), .main none, .main none] = some t ∧
    t.reads ≤ s.reads + (s.pipe.idxOf .term + 1) := by
  refine ⟨_, _, rfl, rfl, ?_⟩
  exact (@sigterm_stops _ _ [.main none, .kill .term, .deliver .term, .send .term true] 0
    [.wake (some [.pipe]), .main (some 1), .main none, .main none] rfl (by decide) rfl).2.2.1

end SignalLoop

end CppInAction
