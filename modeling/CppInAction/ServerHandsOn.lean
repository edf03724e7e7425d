import CppInAction.ServerCover

namespace CppInAction

namespace Server

variable {s t : Server} {fd n : Nat} {ev : Ev} {pc : MainPc} {r : Choice}

/-- A step of the main thread that closes nothing. -/
theorem Covering.advance (h : s.Covering) (hshake : t.Shake) (hconns : t.conns = s.conns)
    (hreg : ∀ n, (s.epoll n).isSome → (t.epoll n).isSome)
    (hsock : ∀ n, (t.slots n).sockfd = (s.slots n).sockfd) (hdata : t.clientData = s.clientData)
    (hworkers : t.workers = s.workers)
    (hcover : ∀ n ∈ s.fds, s.Rest n ∨ s.MainKeeps n → t.Rest n ∨ t.MainKeeps n) : t.Covering := by
  have hfds : t.fds = s.fds := by rw [fds, hconns, fds]
  refine ⟨h.toSeated.same (fun n hn => hfds ▸ hn) hsock hdata, hshake, ?_, ?_, ?_⟩
  · rw [hfds]
    exact fun n hn => hreg n (h.reg n hn)
  · rw [hfds, hworkers]
    exact h.closing
  · rw [hfds]
    exact fun n hn => hcover n hn (h.cover n hn)

theorem Rest.mono (harmed : s.Armed n → t.Armed n) (hqueue : s.queue ⊆ t.queue) (hpending : t.pending = s.pending)
    (hworkers : t.workers = s.workers) (h : s.Rest n) : t.Rest n := by
  rcases h with h | h | h | h
  · exact Or.inl (harmed h)
  · exact Or.inr (Or.inl (List.map_subset _ hqueue h))
  · exact Or.inr (Or.inr (Or.inl (hpending ▸ h)))
  · exact Or.inr (Or.inr (Or.inr (hworkers ▸ h)))

/-- cb_func takes the connection out of what has to be kept. -/
theorem Covering.cbFunc {x : Nat} (h : s.Covering) (hshake : t.Shake)
    (hconns : t.conns = s.conns.filter fun c => c.1 ≠ x) (hepoll : t.epoll = Function.update s.epoll x none)
    (hslots : t.slots = s.slots) (hdata : t.clientData = s.clientData) (hworkers : t.workers = s.workers)
    (hqueue : t.queue = s.queue) (hpending : t.pending = s.pending)
    (hkeeps : ∀ n ∈ s.fds, s.MainKeeps n → n = x) : t.Covering := by
  have hfds : ∀ n, n ∈ t.fds → n ≠ x ∧ n ∈ s.fds := by
    intro n hn
    rw [fds, hconns] at hn
    exact (mem_closeFd_fds (s := s) none).mp hn
  refine ⟨h.toSeated.same (fun n hn => (hfds n hn).2) (fun _ => by rw [hslots]) hdata, hshake, fun n hn => ?_,
    fun j n conn hj hn => ?_, fun n hn => ?_⟩
  · rw [hepoll, Function.update_of_ne (hfds n hn).1]
    exact h.reg n (hfds n hn).2
  · rw [hworkers] at hj
    exact h.closing j n conn hj (hfds n hn).2
  · obtain ⟨hnx, hn⟩ := hfds n hn
    rcases h.cover n hn with hrest | hk
    · refine Or.inl (hrest.mono (fun ha => ?_) (hqueue ▸ List.Subset.refl _) hpending hworkers)
      rw [Armed, hepoll, Function.update_of_ne hnx]
      exact ha
    · exact absurd (hkeeps n hn hk) hnx

theorem not_mainKeeps (hm : ∀ fd pc, s.main ≠ .handling fd pc) : ¬ s.MainKeeps n := fun ⟨pc, h, _⟩ => hm n pc h

theorem Covering.accept (h : s.Covering) (hm : s.main = .idle) (hs : s.AcceptMoves fd t)
    (hclosing : ∀ i conn, s.workers i ≠ .closing fd conn) (hf : t.fault = none) : t.Covering := by
  have hshake := h.shake.accept hm hs hf
  have hidle : ∀ fd pc, s.main ≠ .handling fd pc := by simp [hm]
  cases hs with
  | fault hne _ => exact absurd hf hne
  | refuse => exact h.advance hshake rfl (fun _ hn => hn) (fun _ => rfl) rfl rfl fun _ _ hc => hc
  | opened =>
    rename_i a l
    refine ⟨h.toSeated.admitted a l, hshake, fun n hn => ?_, fun j n conn hj => ?_, fun n hn => ?_⟩ <;>
      by_cases hne : n = fd
    · subst hne
      simp [admitted]
    · simpa [admitted, Function.update_of_ne hne] using h.reg n (mem_admitted_fds hne hn)
    · subst hne
      exact absurd hj (hclosing j conn)
    · exact fun hn => h.closing j n conn hj (mem_admitted_fds hne hn)
    · subst hne
      exact Or.inl (Or.inl ⟨.epollin, by simp [admitted]⟩)
    · rcases h.cover n (mem_admitted_fds hne hn) with hrest | hk
      · refine Or.inl (Rest.mono (s := s) (fun ha => ?_) (fun _ hq => hq) rfl rfl hrest)
        simpa [Armed, admitted, Function.update_of_ne hne] using ha
      · exact absurd hk (not_mainKeeps hidle)

theorem Covering.fetch {events : List (Nat × Event)} (h : s.Covering) (hm : s.main = .idle)
    (hp : s.pending = []) : (s.fetch events).Covering := by
  refine h.advance (h.shake.fetch events) rfl (fun n hn => ?_) (fun _ => rfl) rfl rfl fun n _ hc => ?_
  · simp only [Server.fetch]
    split
    next => rfl
    next => exact hn
  · rcases hc with (ha | hq | hin | hw) | hk
    · by_cases hin : n ∈ events.map Prod.fst
      · exact Or.inl (Or.inr (Or.inr (Or.inl hin)))
      · refine Or.inl (Or.inl ?_)
        simpa [Armed, Server.fetch, hin] using ha
    · exact Or.inl (Or.inr (Or.inl hq))
    · rw [hp] at hin
      cases hin
    · exact Or.inl (Or.inr (Or.inr (Or.inr hw)))
    · exact absurd hk (not_mainKeeps (by simp [hm]))

theorem dispatch_keeps (s : Server) (e : Event) : (s.dispatch e).keeps = true := by
  cases e <;> cases hr : s.reactor <;> simp [dispatch, MainPc.enter, MainPc.keeps, hr]

theorem Covering.take {e : Event} {rest : List (Nat × Event)} (h : s.Covering) (hm : s.main = .idle)
    (hp : s.pending = (fd, e) :: rest) :
    Covering { s with pending := rest, main := .handling fd (s.dispatch e) } := by
  refine h.advance (h.shake.take hm e rest) rfl (fun _ hn => hn) (fun _ => rfl) rfl rfl fun n _ hc => ?_
  rcases hc with (ha | hq | hin | hw) | hk
  · exact Or.inl (Or.inl ha)
  · exact Or.inl (Or.inr (Or.inl hq))
  · rw [hp, List.map_cons, List.mem_cons] at hin
    rcases hin with rfl | hin
    · exact Or.inr ⟨_, rfl, Or.inl (s.dispatch_keeps e)⟩
    · exact Or.inl (Or.inr (Or.inr (Or.inl hin)))
  · exact Or.inl (Or.inr (Or.inr (Or.inr hw)))
  · exact absurd hk (not_mainKeeps (by simp [hm]))

theorem Covering.tick (h : s.Covering) (hm : s.main = .idle) (cur : Int) :
    Covering { s with main := .ticking cur } := by
  refine h.advance (h.shake.tick hm cur) rfl (fun _ hn => hn) (fun _ => rfl) rfl rfl fun n _ hc => ?_
  exact hc.imp_right fun hk => absurd hk (not_mainKeeps (by simp [hm]))

theorem Covering.tickStep {cur : Int} (h : s.Covering) (hm : s.main = .ticking cur) (hs : s.TickMoves cur t)
    (hf : t.fault = none) : t.Covering := by
  have hshake := h.shake.tickStep hm hs hf
  have hnone : ∀ n, ¬ s.MainKeeps n := fun n => not_mainKeeps (by simp [hm])
  cases hs with
  | fault hne _ => exact absurd hf hne
  | done =>
    refine h.advance hshake rfl (fun _ hn => hn) (fun _ => rfl) rfl rfl fun n _ hc => ?_
    exact hc.imp_right fun hk => absurd hk (hnone n)
  | expire l he => exact h.cbFunc hshake rfl rfl rfl rfl rfl rfl rfl fun n _ hk => absurd hk (hnone n)

/-- Only the connection at hand is kept by the handler. -/
theorem MainKeeps.at (h : s.MainKeeps n) (hm : s.main = .handling fd pc) :
    n = fd ∧ (pc.keeps = true ∨ (pc = .poll .epollin ∨ pc = .sawImprov .epollin) ∧
      (s.flags fd ≠ ⟨true, false⟩ ∨ ∃ i conn, s.workers i = .running fd conn .flagFail)) := by
  obtain ⟨pc', hm', hpc⟩ := h
  cases hm.symm.trans hm'
  exact ⟨rfl, hpc⟩

/-- An answered read is no longer kept by the main thread. -/
theorem MainKeeps.unanswered (h : s.MainKeeps fd) (hm : s.main = .handling fd pc) (hstill : s.StillBut none)
    (hf : s.flags fd = ⟨true, false⟩) : pc.keeps = true := by
  obtain ⟨-, hpc | ⟨-, hne | ⟨i, conn, hw⟩⟩⟩ := h.at hm
  · exact hpc
  · exact absurd hf hne
  · have hi := hstill i nofun
    rw [hw] at hi
    cases hi

/-- A wait loop keeps the connection as long as the flags do not say that all went well. -/
theorem mainKeeps_wait {f : Flags} (hpc : pc = .poll ev ∨ pc = .sawImprov ev) (hf : f ≠ ⟨true, false⟩) :
    MainKeeps { s.setFlags fd f with main := .handling fd pc } fd := by
  have hflags : flags { s.setFlags fd f with main := .handling fd pc } fd = f := setFlags_self s fd f
  refine ⟨pc, rfl, ?_⟩
  cases ev with
  | epollin => exact Or.inr ⟨hpc, Or.inl (by rwa [hflags])⟩
  | epollout => rcases hpc with rfl | rfl <;> exact Or.inl rfl

/-- What a look at the flags in a wait loop does to the connection at hand. -/
theorem Stage.flagsCover {next : Option MainPc} {f : Flags} (h : s.Stage fd ev pc)
    (hm : s.main = .handling fd pc)
    (hflag : pc = .sawImprov ev → ∀ i conn, s.workers i ≠ .running fd conn .flagFail)
    (hf : pc.onFlags (s.slots fd).flags = some (next, f)) (hk : s.MainKeeps fd) :
    MainKeeps { s.setFlags fd f with main := (next.map (.handling fd)).getD .idle } fd := by
  change pc.onFlags (s.flags fd) = _ at hf
  cases h with
  | queued hq hstate hff hstill =>
    rw [hff] at hf
    cases hf
    exact mainKeeps_wait (Or.inl rfl) (by decide)
  | taken hw hserves hq hff hstill =>
    rw [hff] at hf
    cases hf
    exact mainKeeps_wait (Or.inl rfl) (by decide)
  | failing hpc hw hq hff hstill =>
    rw [hff] at hf
    rcases hpc with rfl | rfl
    · cases hf
      refine ⟨_, rfl, ?_⟩
      cases ev with
      | epollin => exact Or.inr ⟨Or.inr rfl, Or.inr ⟨_, _, hw⟩⟩
      | epollout => exact Or.inl rfl
    · exact absurd hw (hflag rfl _ _)
  | answered hpc hq hff hstill =>
    have hkeeps := hk.unanswered hm hstill hff
    rw [hff] at hf
    cases ev with
    | epollin => rcases hpc with rfl | rfl | rfl <;> cases hkeeps
    | epollout => rcases hpc with rfl | rfl | rfl <;> cases hf <;> exact ⟨_, rfl, Or.inl rfl⟩
  | failed hpc hq hff hstill =>
    rw [hff] at hf
    rcases hpc with rfl | rfl | rfl
    · cases hf
      exact mainKeeps_wait (Or.inr rfl) (by decide)
    · cases hf
      exact ⟨_, rfl, Or.inl rfl⟩
    · cases hf

/-- Where the handler goes on with the connection at hand, or has left it to others. -/
theorem Covering.forward (h : s.Covering) (hm : s.main = .handling fd pc) (hshake : t.Shake)
    (hconns : t.conns = s.conns) (hreg : ∀ n, (s.epoll n).isSome → (t.epoll n).isSome)
    (harmed : ∀ n, s.Armed n → t.Armed n)
    (hsock : ∀ n, (t.slots n).sockfd = (s.slots n).sockfd) (hdata : t.clientData = s.clientData)
    (hworkers : t.workers = s.workers) (hqueue : s.queue ⊆ t.queue) (hpending : t.pending = s.pending)
    (hkeeps : fd ∈ s.fds → s.MainKeeps fd → t.Rest fd ∨ t.MainKeeps fd) : t.Covering := by
  refine h.advance hshake hconns hreg hsock hdata hworkers fun n hn hc => ?_
  rcases hc with hrest | hk
  · exact Or.inl (hrest.mono (harmed n) hqueue hpending hworkers)
  · obtain ⟨rfl, -⟩ := hk.at hm
    exact hkeeps hn hk

theorem Covering.handle (h : s.Covering) (hm : s.main = .handling fd pc)
    (hflag : ∀ ev, pc = .sawImprov ev → ∀ i conn, s.workers i ≠ .running fd conn .flagFail)
    (hroom : pc.appends = true → s.queue.length < maxRequests)
    (hs : s.HandlerMoves fd r pc t) (hf : t.fault = none) : t.Covering := by
  have hshake := h.shake.handle hm hflag hs hf
  have hclose : fd ∈ s.fds → (s.clientData fd).sockfd = fd := h.data fd
  cases hs with
  | fault hne _ => exact absurd hf hne
  | renewFirst l =>
    exact h.forward hm hshake rfl (fun _ hn => hn) (fun _ ha => ha) (fun _ => rfl) rfl rfl (fun _ hq => hq) rfl
      fun _ _ => Or.inr ⟨_, rfl, Or.inl rfl⟩
  | renewLast l =>
    refine h.forward hm hshake rfl (fun _ hn => hn) (fun _ ha => ha) (fun _ => rfl) rfl rfl (fun _ hq => hq) rfl
      fun _ hk => ?_
    obtain ⟨-, hkeeps | ⟨hpc | hpc, -⟩⟩ := hk.at hm
    · cases hkeeps
    · cases hpc
    · cases hpc
  | append hq =>
    exact h.forward hm hshake rfl (fun _ hn => hn) (fun _ ha => ha) (setSlot_sockfd rfl) rfl rfl
      (List.subset_append_left _ _) rfl fun _ _ => Or.inl (Or.inr (Or.inl (by simp)))
  | appendP hq =>
    exact h.forward hm hshake rfl (fun _ hn => hn) (fun _ ha => ha) (fun _ => rfl) rfl rfl
      (List.subset_append_left _ _) rfl fun _ _ => Or.inl (Or.inr (Or.inl (by simp)))
  | refuse hq => exact absurd (hroom rfl) (Nat.not_lt.mpr hq)
  | refuseP hq => exact absurd (hroom rfl) (Nat.not_lt.mpr hq)
  | remove a next =>
    exact h.cbFunc hshake rfl rfl rfl rfl rfl rfl rfl fun n hn hk => by
      obtain ⟨rfl, -⟩ := hk.at hm
      exact (hclose hn).symm
  | removeLast a next =>
    exact h.cbFunc hshake rfl rfl rfl rfl rfl rfl rfl fun n hn hk => by
      obtain ⟨rfl, -⟩ := hk.at hm
      exact (hclose hn).symm
  | read =>
    refine h.forward hm hshake rfl (fun _ hn => hn) (fun _ ha => ha) (fun _ => rfl) rfl rfl (fun _ hq => hq) rfl
      fun _ _ => Or.inr ⟨_, rfl, Or.inl ?_⟩
    cases r.ok <;> rfl
  | write =>
    obtain ⟨-, -, -, hqueue, hworkers⟩ := s.write_other fd r.write
    obtain ⟨hconns, hdata, hpending⟩ := s.write_tables fd r.write
    refine h.forward hm hshake hconns (fun n hn => (s.write_isSome fd r.write n).symm ▸ hn)
      (fun _ => write_armed r.write) (write_sockfd r.write) hdata hworkers (fun _ hq => hqueue.symm ▸ hq)
      hpending fun hn _ => ?_
    by_cases hok : r.write.ok = true
    · exact Or.inl (Or.inl (write_arms hok (h.reg fd hn) (h.own fd hn)))
    · refine Or.inr ⟨_, rfl, Or.inl ?_⟩
      rw [if_neg hok]
      rfl
  | flags hfl =>
    refine h.forward hm hshake rfl (fun _ hn => hn) (fun _ ha => ha) (setSlot_sockfd rfl) rfl rfl
      (fun _ hq => hq) rfl fun _ hk => Or.inr ?_
    obtain ⟨ev, hstage⟩ := h.shake.stage hm hfl
    exact hstage.flagsCover hm (hflag ev) hfl hk

/-- The step is outside the defects: no request is refused by a full queue, the flags are
not read between two stores of a worker, and no client gets a descriptor whose slot a
worker is about to write off in close_conn. -/
def HandsOn (s : Server) : Act → Prop
  | .accept others _ => ∀ i conn, s.workers i ≠ .closing (lowestFree (others ++ s.fds)) conn
  | .main _ => s.FlagsWhole s.main ∧ (s.main.appends = true → s.queue.length < maxRequests)
  | _ => True

theorem Covering.step {a : Act} (h : s.Covering) (hsafe : s.HandsOn a) (hs : s.Moves a t)
    (hf : t.fault = none) : t.Covering := by
  cases hs with
  | accept hm => exact h.accept hm (s.accept_moves _ _) hsafe hf
  | fetch hm hp hc => exact h.fetch hm hp
  | tick hm hp => exact h.tick hm _
  | take hm hp => exact h.take hm hp
  | handle hm =>
    rw [HandsOn, hm] at hsafe
    exact h.handle hm hsafe.1.flagFail hsafe.2 (s.handler_moves _ _ _) hf
  | unlink hm f => cases hf
  | ticking hm => exact h.tickStep hm (s.tickStep_moves _) hf
  | worker hw => exact h.worker (workerStep_moves hw)

/-- In either mode, a run that stays outside the defects never loses a connection. -/
theorem handedOn_of_handsOn (reactor : Bool) (as : List Act)
    (h : StepsMeet step HandsOn (start reactor) as) : Along step HandedOn (start reactor) as := by
  refine along_of_invariant (fun s => s.fault = none → s.Covering) ?_ ?_ (fun _ => start_covering reactor) h
  · intro s a t hinv hsafe hs hf
    obtain ⟨hfault, hs⟩ := step_moves hs
    exact (hinv hfault).step hsafe hs hf
  · exact fun s hinv hf => (hinv hf).handedOn hf

/-- A request is read, queued, answered and sent. -/
def oneRequest : List Act :=
  let r : Choice := ⟨1, true, .finished, .responded⟩
  [.accept [0, 1, 2] 0, .fetch [(3, .readable)], .main r, .main r, .main r, .main r,
    .worker 0 r, .worker 0 r, .worker 0 r, .fetch [(3, .writable)], .main r, .main r, .main r]

theorem handedOn_of_handsOn_oneRequest :
    StepsMeet step HandsOn (start false) oneRequest ∧ Along step HandedOn (start false) oneRequest := by
  have hsafe : StepsMeet step HandsOn (start false) oneRequest :=
    ⟨nofun, trivial, ⟨trivial, nofun⟩, ⟨trivial, nofun⟩, ⟨trivial, fun _ => by decide⟩, ⟨trivial, nofun⟩,
      trivial, trivial, trivial, trivial, ⟨trivial, nofun⟩, ⟨trivial, nofun⟩, ⟨trivial, nofun⟩, trivial⟩
  exact ⟨hsafe, handedOn_of_handsOn false oneRequest hsafe⟩

/-- Eleven clients send a request while the workers are busy elsewhere. -/
def elevenRequests : List Act :=
  let r : Choice := ⟨0, true, .finished, .responded⟩
  List.replicate 11 (.accept [0, 1, 2] 0) ++
    .fetch ((List.range 11).map fun k => (k + 3, .readable)) :: List.replicate 44 (.main r)

theorem workers_idle (reactor : Bool) (as : List Act)
    (h : StepsMeet step (fun _ a => a.byWorker = false) (start reactor) as) :
    Along step (fun s => ∀ i, s.workers i = .idle) (start reactor) as := by
  refine along_of_invariant (fun s => ∀ i, s.workers i = .idle) (fun s a t hs ha hstep => ?_) (fun _ h => h)
    (fun _ => rfl) h
  rw [moves_workers (step_moves hstep).2 ha]
  exact hs

/-- The eleventh request is refused, and its connection is left to nobody. -/
theorem handedOn_not_always :
    ¬ ∀ (reactor : Bool) (as : List Act), Along step HandedOn (start reactor) as := by
  intro h
  have hidle := workers_idle false elevenRequests (by decide +kernel)
  have hrun := ((h false elevenRequests).and hidle).imp
    (Q := fun s => s.fault = none → ∀ fd ∈ s.fds, s.Armed fd ∨ fd ∈ s.queue.map Prod.fst ∨
      fd ∈ s.pending.map Prod.fst ∨ s.main.slot = some fd) fun s ⟨hs, hi⟩ hf fd hfd => by
    rcases (hs hf).1 fd hfd with hc | hc | hc | hc | ⟨i, hc⟩
    · exact Or.inl hc
    · exact Or.inr (Or.inl hc)
    · exact Or.inr (Or.inr (Or.inl hc))
    · exact Or.inr (Or.inr (Or.inr hc))
    · rw [hi i] at hc
      cases hc
  exact absurd hrun (by decide +kernel)

end Server

end CppInAction
