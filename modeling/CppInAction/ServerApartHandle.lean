import CppInAction.ServerApartWork

namespace CppInAction

namespace Server

variable {s t : Server} {fd n : Nat} {ev : Ev} {pc : MainPc} {r : Choice}

theorem not_writes (hm : ∀ fd pc, s.main ≠ .handling fd pc) : ¬ s.Writes n := fun ⟨pc, h, _⟩ => hm n pc h

/-- Outside the handlers an armed connection is nowhere else. -/
theorem Apart.armedFree (h : s.Apart) (hm : ∀ fd pc, s.main ≠ .handling fd pc) (ha : s.Armed n) :
    n ∉ s.lane ∧ s.Free n := (h.armed n ha).resolve_right (not_writes hm)

theorem Apart.accept (h : s.Apart) (hm : s.main = .idle) (hs : s.AcceptMoves fd t) (hnew : fd ∉ s.fds)
    (hfree : s.Free fd) (hf : t.fault = none) : t.Apart := by
  have hshake := h.shake.accept hm hs hf
  have hidle : ∀ fd pc, s.main ≠ .handling fd pc := by simp [hm]
  cases hs with
  | fault hne _ => exact absurd hf hne
  | refuse =>
    exact ⟨⟨h.own, h.sock, h.data⟩, hshake, h.reg, h.one, h.job, h.lane, h.laneOpen, h.laneFree, h.queued,
      h.armed, h.wait, h.tick⟩
  | opened =>
    rename_i a l
    have hlane : ∀ n ∈ s.lane, n ≠ fd := fun n hn heq => hnew (heq ▸ h.laneOpen n hn)
    refine ⟨h.toSeated.admitted a l, hshake, fun n hn => ?_, h.one, fun j n conn closed hj => ?_, h.lane,
      fun n hn => List.mem_cons_of_mem _ (h.laneOpen n hn), h.laneFree, fun c hc => ?_, fun n hn => Or.inl ?_,
      fun n ev hw => ?_, ?_⟩
    · by_cases hne : n = fd
      · rw [hne]
        exact List.mem_cons_self
      · simp only [admitted, Function.update_of_ne hne] at hn
        exact List.mem_cons_of_mem _ (h.reg n hn)
    · have hne : n ≠ fd := by
        rintro rfl
        exact hfree j (by rw [slot_eq_job]; exact hj ▸ rfl)
      have howner : (s.admitted fd a l).owner n = s.owner n := (admitted_owner a l).trans (if_neg hne)
      have hb := h.job j n conn closed hj
      cases closed <;> simpa only [Belongs, howner] using hb
    · have hin : c.1 ∈ s.lane := List.mem_append_right _ (List.mem_map_of_mem hc)
      exact (h.queued c hc).trans ((admitted_owner a l).trans (if_neg (hlane _ hin))).symm
    · by_cases hne : n = fd
      · rw [hne]
        exact ⟨fun hin => hlane fd hin rfl, hfree⟩
      · refine h.armedFree hidle ?_
        simpa [Armed, admitted, Function.update_of_ne hne] using hn
    · obtain ⟨pc, hw, -⟩ := hw
      exact absurd hw (hidle n pc)
    · simp [admitted, hm]

theorem canFetch_armed {events : List (Nat × Event)} (hc : s.canFetch events = true)
    (hn : n ∈ events.map Prod.fst) : s.Armed n := by
  obtain ⟨e, he, rfl⟩ := List.mem_map.mp hn
  have ha := List.all_eq_true.mp (Bool.and_eq_true_iff.mp hc).2 e he
  cases hreg : s.epoll e.1 with
  | none => simp [hreg] at ha
  | some o => cases o with
    | none => simp [hreg] at ha
    | some ev => exact ⟨ev, hreg⟩

/-- The fetched connections go from epoll to the main thread. -/
theorem Apart.fetch {events : List (Nat × Event)} (h : s.Apart) (hm : s.main = .idle) (hp : s.pending = [])
    (hc : s.canFetch events = true) : (s.fetch events).Apart := by
  have hidle : ∀ fd pc, s.main ≠ .handling fd pc := by simp [hm]
  have hs : s.lane = s.queue.map Prod.fst := by rw [Server.lane, hm, hp]; rfl
  have ht : (s.fetch events).lane = events.map Prod.fst ++ s.queue.map Prod.fst := by
    simp [Server.lane, Server.fetch, hm, MainAt.front]
  have hnodup : (events.map Prod.fst).Nodup := of_decide_eq_true (Bool.and_eq_true_iff.mp hc).1
  refine h.advance (h.shake.fetch events) rfl rfl (fun _ => rfl) rfl (fun n hn => ?_) ?_ (fun n hn => ?_)
    (fun _ hq => Or.inl hq) (fun n hn => Or.inl ?_) (fun n ev hw => ?_) (fun cur ht => ?_)
  · simp only [Server.fetch] at hn
    split at hn
    next hin =>
      obtain ⟨ev, ha⟩ := canFetch_armed hc hin
      rw [ha]
      rfl
    next => exact hn
  · rw [ht]
    refine hnodup.append (hs ▸ h.lane) fun n hn hq => ?_
    exact (h.armedFree hidle (canFetch_armed hc hn)).1 (hs ▸ hq)
  · rw [ht] at hn
    rcases List.mem_append.mp hn with hin | hq
    · obtain ⟨ev, ha⟩ := canFetch_armed hc hin
      exact Or.inr ⟨h.reg n (by rw [ha]; rfl), (h.armedFree hidle ⟨ev, ha⟩).2⟩
    · exact Or.inl (hs ▸ hq)
  · obtain ⟨ev, hn⟩ := hn
    simp only [Server.fetch] at hn
    split at hn
    next => cases hn
    next hin =>
      obtain ⟨hl, hf⟩ := h.armedFree hidle ⟨ev, hn⟩
      refine ⟨fun hl' => ?_, hf⟩
      rw [ht] at hl'
      exact (List.mem_append.mp hl').elim hin (hs ▸ hl)
  · obtain ⟨pc, hw, -⟩ := hw
    exact absurd hw (hidle n pc)
  · cases hm.symm.trans ht

theorem dispatch_front (s : Server) (e : Event) : (s.dispatch e).front = true ∧ (s.dispatch e).waits = none := by
  cases e <;> cases hr : s.reactor <;> simp [dispatch, MainPc.enter, MainPc.front, MainPc.waits, hr]

theorem Apart.take {e : Event} {rest : List (Nat × Event)} (h : s.Apart) (hm : s.main = .idle)
    (hp : s.pending = (fd, e) :: rest) :
    Apart { s with pending := rest, main := .handling fd (s.dispatch e) } := by
  obtain ⟨hfront, hwaits⟩ := s.dispatch_front e
  have hperm : s.lane.Perm (Server.lane { s with pending := rest, main := .handling fd (s.dispatch e) }) := by
    simp only [Server.lane, hm, hp, MainAt.front, hfront, if_true, List.map_cons, List.append_nil]
    exact (List.perm_append_singleton fd _).symm.append_right _
  refine h.advance (h.shake.take hm e rest) rfl rfl (fun _ => rfl) rfl (fun _ hn => hn)
    (hperm.nodup_iff.mp h.lane) (fun n hn => Or.inl (hperm.mem_iff.mpr hn)) (fun _ hq => Or.inl hq)
    (fun n hn => Or.inl ?_) (fun n ev hw => ?_) (fun cur ht => ?_)
  · obtain ⟨hl, hf⟩ := h.armedFree (by simp [hm]) hn
    exact ⟨fun hin => hl (hperm.mem_iff.mpr hin), hf⟩
  · obtain ⟨pc, hw, hev⟩ := hw
    cases hw
    cases hwaits.symm.trans hev
  · cases ht

/-- The main thread goes on without a handler; the connections stay where they are. -/
theorem Apart.leave (h : s.Apart) (hshake : t.Shake) (hworkers : t.workers = s.workers)
    (hconns : t.conns = s.conns) (hslots : ∀ n, (t.slots n).sockfd = (s.slots n).sockfd)
    (hdata : t.clientData = s.clientData) (hepoll : t.epoll = s.epoll) (hpending : t.pending = s.pending)
    (hqueue : t.queue = s.queue) (hfront : t.main.front = s.main.front) (hwrites : ∀ n, ¬ s.Writes n)
    (hmain : ∀ fd pc, t.main ≠ .handling fd pc) (htick : ∀ cur, t.main = .ticking cur → t.pending = []) :
    t.Apart := by
  have hlane : t.lane = s.lane := by rw [Server.lane, hpending, hfront, hqueue, Server.lane]
  refine h.advance hshake hworkers hconns hslots hdata (fun n hn => hepoll ▸ hn) (hlane ▸ h.lane)
    (fun n hn => Or.inl (hlane ▸ hn)) (fun _ hq => Or.inl (hqueue ▸ hq)) (fun n hn => Or.inl ?_)
    (fun n ev hw => ?_) htick
  · rw [hlane]
    rw [Armed, hepoll] at hn
    exact (h.armed n hn).resolve_right (hwrites n)
  · obtain ⟨pc, hw, -⟩ := hw
    exact absurd hw (hmain n pc)

theorem Apart.startTick (h : s.Apart) (hm : s.main = .idle) (hp : s.pending = []) (cur : Int) :
    Apart { s with main := .ticking cur } :=
  h.leave (h.shake.tick hm cur) rfl rfl (fun _ => rfl) rfl rfl rfl rfl (by rw [hm]; rfl)
    (fun _ => not_writes (by simp [hm])) nofun fun _ _ => hp

theorem Apart.tickStep {cur : Int} (h : s.Apart) (hm : s.main = .ticking cur)
    (hsafe : ∀ a c, s.timers.expired cur = .ok (some (a, c)) →
      (s.clientData c.userData).sockfd ∉ s.queue.map Prod.fst ∧ s.Free (s.clientData c.userData).sockfd)
    (hs : s.TickMoves cur t) (hf : t.fault = none) : t.Apart := by
  have hshake := h.shake.tickStep hm hs hf
  have hnone : ∀ n, ¬ s.Writes n := fun _ => not_writes (by simp [hm])
  cases hs with
  | fault hne _ => exact absurd hf hne
  | done => exact h.leave hshake rfl rfl (fun _ => rfl) rfl rfl rfl rfl (by rw [hm]; rfl) hnone nofun nofun
  | expire l he =>
    obtain ⟨hq, hfree⟩ := hsafe _ _ he
    refine h.cbFunc hshake rfl rfl rfl rfl rfl rfl (List.Sublist.refl _) ?_ ?_ hfree
      (fun n hw => absurd hw (hnone n)) h.tick
    · simp [Server.cbFunc, closeFd, hm]
    · change _ ∉ s.lane
      rw [Server.lane, h.tick cur hm, hm]
      exact hq

theorem lane_handling (hm : s.main = .handling fd pc) (hpc : pc.front = true) :
    s.lane = s.pending.map Prod.fst ++ [fd] ++ s.queue.map Prod.fst := by
  rw [Server.lane, hm, MainAt.front, if_pos hpc]

theorem lane_away (hm : s.main.front = []) : s.lane = s.pending.map Prod.fst ++ s.queue.map Prod.fst := by
  rw [Server.lane, hm, List.append_nil]

/-- The connection that only the main thread has. -/
theorem Apart.held (h : s.Apart) (hm : s.main = .handling fd pc) (hpc : pc.front = true) :
    fd ∈ s.fds ∧ s.Free fd ∧ fd ∉ s.pending.map Prod.fst ++ s.queue.map Prod.fst := by
  have hin : fd ∈ s.lane := by simp [lane_handling hm hpc]
  have hnodup := h.lane
  rw [lane_handling hm hpc, List.append_assoc, List.singleton_append, List.nodup_middle] at hnodup
  exact ⟨h.laneOpen fd hin, h.laneFree fd hin, (List.nodup_cons.mp hnodup).1⟩

theorem writes_handling (hm : s.main = .handling fd pc) (hw : s.Writes n) : n = fd ∧ pc.writes = true := by
  obtain ⟨pc', hm', hw⟩ := hw
  cases hm.symm.trans hm'
  exact ⟨rfl, hw⟩

/-- A statement that passes on the connection at hand, or loses it, and leaves epoll alone. -/
theorem Apart.forward {pc' : MainPc} (h : s.Apart) (hm : s.main = .handling fd pc) (hpc : pc.front = true)
    (hwrites : pc.writes = false) (hshake : t.Shake) (hworkers : t.workers = s.workers)
    (hconns : t.conns = s.conns) (hsock : ∀ n, (t.slots n).sockfd = (s.slots n).sockfd)
    (hdata : t.clientData = s.clientData) (hepoll : t.epoll = s.epoll) (hpending : t.pending = s.pending)
    (hmain : t.main = .handling fd pc') (hlane : t.lane.Subperm s.lane)
    (hqueue : ∀ c ∈ t.queue, c ∈ s.queue ∨ c.2 = s.owner c.1) : t.Apart := by
  obtain ⟨hopen, hfree, hout⟩ := h.held hm hpc
  obtain ⟨l, hperm, hsub⟩ := hlane
  have hlane : ∀ n ∈ t.lane, n ∈ s.lane := fun n hn => hsub.subset (hperm.mem_iff.mpr hn)
  refine h.advance hshake hworkers hconns hsock hdata (fun n hn => hepoll ▸ hn)
    (hperm.nodup_iff.mp (h.lane.sublist hsub))
    (fun n hn => Or.inl (hlane n hn)) hqueue (fun n hn => Or.inl ?_) (fun n ev hw => ?_) (fun cur ht => ?_)
  · rw [Armed, hepoll] at hn
    rcases h.armed n hn with ⟨hl, hf⟩ | hw
    · exact ⟨fun hin => hl (hlane n hin), hf⟩
    · rw [(writes_handling hm hw).2] at hwrites
      cases hwrites
  · obtain ⟨pc'', hm', hev⟩ := hw
    cases hmain.symm.trans hm'
    rw [hpending]
    exact ⟨⟨fun hin => hout (List.mem_append_left _ hin), h.data fd hopen⟩, fun _ => hopen,
      fun i hi => absurd (inside_slot hi) (hfree i)⟩
  · cases hmain.symm.trans ht

/-- The connection at hand goes to the end of the queue. -/
theorem lane_append {c : Option Nat} (hm : s.main = .handling fd pc) (hpc : pc.front = true)
    (hpending : t.pending = s.pending) (hqueue : t.queue = s.queue ++ [(fd, c)]) (hmain : t.main.front = []) :
    t.lane.Perm s.lane := by
  rw [lane_handling hm hpc, lane_away hmain, hpending, hqueue, List.map_append, List.append_assoc]
  exact (List.perm_append_singleton fd _).append_left _

/-- The main thread has left the connection at hand. -/
theorem lane_drop (hpending : t.pending = s.pending) (hqueue : t.queue = s.queue) (hmain : t.main.front = []) :
    t.lane.Sublist s.lane := by
  rw [lane_away hmain, hpending, hqueue, Server.lane, List.append_assoc]
  exact (List.sublist_append_right _ _).append_left _

/-- write() by the main thread may arm the connection, which it then leaves or closes. -/
theorem Apart.write (h : s.Apart) (hm : s.main = .handling fd .write) (hshake : t.Shake)
    (ht : t = { s.write fd r.write with
      main := .handling fd (if r.write.ok then .renewLast else .removeLast) }) : t.Apart := by
  obtain ⟨-, -, -, hqueue, hworkers⟩ := s.write_other fd r.write
  obtain ⟨hconns, hdata, hpending⟩ := s.write_tables fd r.write
  obtain ⟨-, hfree, hout⟩ := h.held hm rfl
  have hmain : t.main = .handling fd (if r.write.ok then .renewLast else .removeLast) := by rw [ht]
  have hpending : t.pending = s.pending := by rw [ht]; exact hpending
  have hqueue : t.queue = s.queue := by rw [ht]; exact hqueue
  have hwaits : ∀ n ev, ¬ t.Waits n ev := by
    rintro n ev ⟨pc, hm', hev⟩
    cases hmain.symm.trans hm'
    cases hok : r.write.ok <;> simp [hok, MainPc.waits] at hev
  have harmed : ∀ n, t.Armed n → n = fd ∨ n ∉ s.lane ∧ s.Free n := by
    intro n hn
    rw [ht] at hn
    rcases h.writeArmed hn with ha | heq
    · rcases h.armed n ha with hl | hw
      · exact Or.inr hl
      · exact Or.inl (writes_handling hm hw).1
    · exact Or.inl heq
  have hlane : t.lane.Sublist s.lane ∧ (fd ∉ t.lane ∨ t.Writes fd) := by
    cases hok : r.write.ok with
    | true =>
      rw [hok, if_pos rfl] at hmain
      have hfront : t.main.front = [] := by rw [hmain]; rfl
      refine ⟨lane_drop hpending hqueue hfront, Or.inl ?_⟩
      rw [lane_away hfront, hpending, hqueue]
      exact hout
    | false =>
      rw [hok, if_neg (by decide)] at hmain
      refine ⟨?_, Or.inr ⟨_, hmain, rfl⟩⟩
      rw [lane_handling hm rfl, lane_handling hmain rfl, hpending, hqueue]
  refine h.advance hshake (by rw [ht]; exact hworkers) (by rw [ht]; exact hconns)
    (by rw [ht]; exact write_sockfd r.write) (by rw [ht]; exact hdata) (fun n hn => ?_)
    (h.lane.sublist hlane.1) (fun n hn => Or.inl (hlane.1.subset hn)) (fun c hc => Or.inl (hqueue ▸ hc))
    (fun n hn => ?_) (fun n ev hw => absurd hw (hwaits n ev)) (fun cur hm' => by cases hmain.symm.trans hm')
  · rw [ht] at hn
    exact s.write_isSome fd r.write n ▸ hn
  · rcases harmed n hn with rfl | ⟨hl, hf⟩
    · exact hlane.2.imp_left fun hl => ⟨hl, hfree⟩
    · exact Or.inl ⟨fun hin => hl (hlane.1.subset hin), hf⟩

/-- del_timer closes the connection at hand. -/
theorem Apart.delTimer {a : Nat} {next : MainAt} (h : s.Apart) (hm : s.main = .handling fd pc)
    (hdata : (s.clientData fd).sockfd = fd) (hfree : s.Free fd)
    (hout : fd ∉ s.pending.map Prod.fst ++ s.queue.map Prod.fst)
    (hshake : Shake { s.cbFunc (s.clientData fd) a with main := .unlink a next }) :
    Apart { s.cbFunc (s.clientData fd) a with main := .unlink a next } := by
  refine h.cbFunc hshake rfl rfl rfl rfl rfl rfl (lane_drop rfl rfl rfl) nofun ?_ (hdata.symm ▸ hfree)
    (fun n hw => (writes_handling hm hw).1.trans hdata.symm) nofun
  rw [lane_away rfl, hdata]
  exact hout

theorem waits_front (h : pc.waits = some ev) : pc.front = false ∧ pc.writes = decide (ev = .epollout) := by
  cases pc with
  | poll ev' => cases h; exact ⟨rfl, by simp [MainPc.writes, MainPc.waits]⟩
  | sawImprov ev' => cases h; exact ⟨rfl, by simp [MainPc.writes, MainPc.waits]⟩
  | clearImprov ev' => cases h; exact ⟨rfl, by simp [MainPc.writes, MainPc.waits]⟩
  | remove ev' => cases h; exact ⟨rfl, by simp [MainPc.writes, MainPc.waits]⟩
  | _ => cases h

/-- The wait loop goes on with the flags as they are. -/
theorem Apart.waitOn {pc' : MainPc} (h : s.Apart) (hm : s.main = .handling fd pc) (hpc : pc.waits = some ev)
    (hpc' : pc'.waits = some ev)
    (hshake : Shake { s.setFlags fd (s.slots fd).flags with main := .handling fd pc' }) :
    Apart { s.setFlags fd (s.slots fd).flags with main := .handling fd pc' } := by
  have hflags : ∀ n, (s.setFlags fd (s.slots fd).flags).flags n = s.flags n := by
    intro n
    by_cases hn : n = fd
    · rw [hn, setFlags_self]
      rfl
    · exact setFlags_ne hn _
  have hlane : Server.lane { s.setFlags fd (s.slots fd).flags with main := .handling fd pc' } = s.lane := by
    rw [lane_away (by simp [MainAt.front, (waits_front hpc').1]),
      lane_away (by simp [hm, MainAt.front, (waits_front hpc).1])]
    rfl
  refine h.advance hshake rfl rfl (setSlot_sockfd rfl) rfl (fun _ hn => hn) (hlane ▸ h.lane)
    (fun n hn => Or.inl (hlane ▸ hn)) (fun _ hq => Or.inl hq) (fun n hn => ?_) (fun n ev' hw => ?_)
    (fun _ ht => by cases ht)
  · rw [hlane]
    refine (h.armed n hn).imp_right fun hw => ?_
    obtain ⟨rfl, hw⟩ := writes_handling hm hw
    exact ⟨pc', rfl, by rw [(waits_front hpc').2, ← (waits_front hpc).2, hw]⟩
  · obtain ⟨pc'', hm', hev⟩ := hw
    cases hm'
    cases hpc'.symm.trans hev
    obtain ⟨hp, hopen, hin⟩ := h.wait fd ev ⟨pc, hm, hpc⟩
    exact ⟨hp, hopen, fun i hi => ⟨(hin i hi).1, (hflags fd).trans (hin i hi).2⟩⟩

/-- After the answer to a write event the main thread takes the connection back. -/
theorem Apart.takeBack {f : Flags} (h : s.Apart) (hm : s.main = .handling fd (.clearImprov .epollout))
    (hq : s.queue = []) (hstill : s.StillBut none)
    (hshake : Shake { s.setFlags fd f with main := .handling fd .write }) :
    Apart { s.setFlags fd f with main := .handling fd .write } := by
  obtain ⟨⟨hp, -⟩, hopen, hin⟩ := h.wait fd .epollout ⟨_, hm, rfl⟩
  have hfree : s.Free fd := by
    intro i hi
    cases (hin i (hstill.inside hi)).1
  have hs : s.lane = s.pending.map Prod.fst := by
    rw [lane_away (by rw [hm]; rfl), hq, List.map_nil, List.append_nil]
  have ht : Server.lane { s.setFlags fd f with main := .handling fd .write } = s.pending.map Prod.fst ++ [fd] := by
    rw [lane_handling rfl rfl]
    simp [setFlags, setSlot, hq]
  refine h.advance hshake rfl rfl (setSlot_sockfd rfl) rfl (fun _ hn => hn) ?_ (fun n hn => ?_)
    (fun _ hq => Or.inl hq) (fun n hn => ?_) (fun n ev' hw => ?_) (fun cur ht => ?_)
  · rw [ht]
    exact (hs ▸ h.lane).append (List.nodup_singleton fd) (List.disjoint_singleton.mpr hp)
  · rw [ht] at hn
    rcases List.mem_append.mp hn with hn | hn
    · exact Or.inl (hs ▸ hn)
    · rw [List.mem_singleton.mp hn]
      exact Or.inr ⟨hopen rfl, hfree⟩
  · by_cases hne : n = fd
    · exact Or.inr ⟨_, by rw [hne], rfl⟩
    · rcases h.armed n hn with ⟨hl, hf⟩ | hw
      · refine Or.inl ⟨fun hin => ?_, hf⟩
        rw [ht] at hin
        exact (List.mem_append.mp hin).elim (hs ▸ hl) fun heq => hne (List.mem_singleton.mp heq)
      · exact absurd (writes_handling hm hw).1 hne
  · obtain ⟨pc', hm', hev⟩ := hw
    cases hm'
    cases hev
  · cases ht

/-- A wait loop goes on, or ends with the connection left to the worker or taken back. -/
theorem Apart.flags {next : Option MainPc} {f : Flags} (h : s.Apart) (hm : s.main = .handling fd pc)
    (hf : pc.onFlags (s.slots fd).flags = some (next, f))
    (hshake : Shake { s.setFlags fd f with main := (next.map (.handling fd)).getD .idle }) :
    Apart { s.setFlags fd f with main := (next.map (.handling fd)).getD .idle } := by
  obtain ⟨ev, hstage⟩ := h.shake.stage hm hf
  rcases hstage.pc_cases with rfl | rfl | rfl | rfl
  · cases hf
    cases himp : (s.slots fd).flags.improv <;> rw [himp] at hshake <;> exact h.waitOn hm rfl rfl hshake
  · cases hf
    cases htf : (s.slots fd).flags.timerFlag <;> rw [htf] at hshake <;> exact h.waitOn hm rfl rfl hshake
  · cases ev with
    | epollin =>
      cases hf
      refine h.leave hshake rfl rfl (setSlot_sockfd rfl) rfl rfl rfl rfl (by rw [hm]; rfl) (fun n hw => ?_)
        nofun nofun
      cases (writes_handling hm hw).2
    | epollout =>
      cases hf
      obtain ⟨hq, hstill⟩ := hstage.clearImprov
      exact h.takeBack hm hq hstill hshake
  · cases hf

theorem Apart.handle (h : s.Apart) (hm : s.main = .handling fd pc)
    (hflag : ∀ ev, pc = .sawImprov ev → ∀ i conn, s.workers i ≠ .running fd conn .flagFail)
    (hs : s.HandlerMoves fd r pc t) (hf : t.fault = none) : t.Apart := by
  have hshake := h.shake.handle hm hflag hs hf
  cases hs with
  | fault hne _ => exact absurd hf hne
  | renewFirst l =>
    refine h.forward hm rfl rfl hshake rfl rfl (fun _ => rfl) rfl rfl rfl rfl ?_ fun _ hq => Or.inl hq
    rw [lane_handling hm rfl]
    exact List.Subperm.refl _
  | renewLast l =>
    refine h.leave hshake rfl rfl (fun _ => rfl) rfl rfl rfl rfl (by rw [hm]; rfl) (fun n hw => ?_) nofun nofun
    cases (writes_handling hm hw).2
  | append hq =>
    refine h.forward hm rfl rfl hshake rfl rfl (setSlot_sockfd rfl) rfl rfl rfl rfl ?_
      fun c hc => ?_
    · exact List.Perm.subperm (lane_append hm rfl rfl rfl rfl)
    · exact (List.mem_append.mp hc).imp_right fun hc => by rw [List.mem_singleton.mp hc]
  | appendP hq =>
    refine h.forward hm rfl rfl hshake rfl rfl (fun _ => rfl) rfl rfl rfl rfl ?_
      fun c hc => ?_
    · exact List.Perm.subperm (lane_append hm rfl rfl rfl rfl)
    · exact (List.mem_append.mp hc).imp_right fun hc => by rw [List.mem_singleton.mp hc]
  | refuse hq =>
    refine h.forward hm rfl rfl hshake rfl rfl (fun _ => rfl) rfl rfl rfl rfl ?_ fun _ hq => Or.inl hq
    exact List.Sublist.subperm (lane_drop rfl rfl rfl)
  | refuseP hq =>
    refine h.forward hm rfl rfl hshake rfl rfl (fun _ => rfl) rfl rfl rfl rfl ?_ fun _ hq => Or.inl hq
    exact List.Sublist.subperm (lane_drop rfl rfl rfl)
  | remove a next =>
    obtain ⟨⟨hp, hdata⟩, -⟩ := h.wait fd _ ⟨_, hm, rfl⟩
    refine h.delTimer hm hdata (h.removeFree hm) ?_ hshake
    rw [(h.shake.removing hm).1, List.map_nil, List.append_nil]
    exact hp
  | removeLast a next =>
    obtain ⟨hopen, hfree, hout⟩ := h.held hm rfl
    exact h.delTimer hm (h.data fd hopen) hfree hout hshake
  | read =>
    refine h.forward hm rfl rfl hshake rfl rfl (fun _ => rfl) rfl rfl rfl rfl ?_ fun _ hq => Or.inl hq
    rw [lane_handling hm rfl, lane_handling rfl (by cases r.ok <;> rfl)]
  | write => exact h.write hm hshake rfl
  | flags hfl => exact h.flags hm hfl hshake

end Server

end CppInAction
