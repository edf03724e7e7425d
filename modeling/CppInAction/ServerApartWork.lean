import CppInAction.ServerApart

namespace CppInAction

namespace Server

variable {s t : Server} {fd i n : Nat} {ev : Ev} {r : Choice}

/-- Who is inside process() with the slot a wait loop is for. -/
theorem Apart.waitInside (h : s.Apart) (hk : s.Worked t i) (hflags : ∀ n, t.flags n = s.flags n)
    (hinside : ∀ n, (t.workers i).inside = some n → (s.workers i).inside = some n) (n : Nat) (ev : Ev) (j : Nat)
    (hw : s.Waits n ev) (hj : (t.workers j).inside = some n) : ev = .epollin ∧ t.flags n = ⟨true, false⟩ := by
  rw [hflags]
  refine (h.wait n ev hw).2.2 j ?_
  by_cases hji : j = i
  · subst hji
    exact hinside n hj
  · rwa [hk.others j hji] at hj

theorem Apart.read {conn : Option Nat} (h : s.Apart) (hw : s.workers i = .running fd conn .reading)
    (hs : s.WorkerMoves i r t)
    (ht : t = s.setWorker i (.running fd conn (if r.ok then .improvRead else .improvFail))) : t.Apart := by
  have hk := workerMoves_worked hs
  have hshake := h.shake.worker hs
  subst ht
  refine h.stay hk hshake rfl rfl (job_setWorker rfl fun x hx => ?_) (fun n ha => Or.inl ha)
    (h.waitInside hk (fun _ => rfl) fun n hin => ?_)
  · rw [hw]
    exact hx
  · rw [setWorker_self] at hin
    cases hok : r.ok <;> simp [hok, WorkerAt.inside, WorkerAt.shaking] at hin

theorem Apart.workerWrite {conn : Option Nat} (h : s.Apart) (hw : s.workers i = .running fd conn .writing)
    (hs : s.WorkerMoves i r t)
    (ht : t = (s.write fd r.write).setWorker i
      (.running fd conn (if r.write.ok then .improvWrite else .improvFail))) : t.Apart := by
  have hk := workerMoves_worked hs
  have hshake := h.shake.worker hs
  obtain ⟨-, -, -, hqueue, hworkers⟩ := s.write_other fd r.write
  obtain ⟨m, ev, pc, -, hm, -, -, hstage⟩ := h.shake.shaking (i := i) (by rw [hw]; rfl)
  obtain ⟨rfl, -, -, ⟨rfl, hserves, hf⟩ | ⟨-, hpc, -⟩⟩ := hstage.shaking hw (by decide)
  · subst ht
    refine h.stay hk hshake (s.write_tables fd r.write).1 hqueue (job_setWorker hworkers fun x hx => ?_)
      (fun n ha => ?_) (h.waitInside hk (write_flags hf r.write) fun n hin => ?_)
    · rw [hw]
      exact hx
    · refine (h.writeArmed ha).imp_right fun hn => Or.inr ⟨_, hn ▸ hm, ?_⟩
      cases ev with
      | epollin => cases hserves
      | epollout => rfl
    · rw [setWorker_self] at hin
      cases hok : r.write.ok <;> simp [hok, WorkerAt.inside, WorkerAt.shaking] at hin
  · cases hpc

/-- The stores to the flags; only a read that went well keeps the worker at the slot. -/
theorem Apart.flagStore {conn : Option Nat} {wpc : WorkerPc} {next : Option WorkerPc} {f : Flags} (h : s.Apart)
    (hw : s.workers i = .running fd conn wpc) (hf : wpc.onFlags (s.slots fd).flags = some (next, f))
    (hs : s.WorkerMoves i r t)
    (ht : t = (s.setFlags fd f).setWorker i ((next.map (.running fd conn)).getD .idle)) : t.Apart := by
  have hk := workerMoves_worked hs
  have hshake := h.shake.worker hs
  have hpc : wpc ≠ .processing := by
    rintro rfl
    cases hf
  have hshaking : (s.workers i).shaking = true := by
    rw [hw]
    exact decide_eq_true hpc
  obtain ⟨m, ev, pc, -, hm, -, -, hstage⟩ := h.shake.shaking hshaking
  obtain ⟨rfl, -, -, hstage⟩ := hstage.shaking hw hpc
  have hslot : (s.workers i).slot = some fd := by
    rw [hw]
    rfl
  subst ht
  refine h.stay hk hshake rfl rfl (job_setWorker rfl fun x hx => ?_) (fun n ha => Or.inl ha) fun n ev' j hwt hj => ?_
  · rw [hw]
    cases next with
    | none => cases hx
    | some next => exact hx
  · have hfd : n = fd ∧ ev' = ev := by
      obtain ⟨pc', hm', hev⟩ := hwt
      cases hm.symm.trans hm'
      refine ⟨rfl, ?_⟩
      rcases hstage with ⟨rfl, -⟩ | ⟨rfl | rfl, -⟩ <;> exact (Option.some.inj hev).symm
    obtain ⟨rfl, rfl⟩ := hfd
    have hji : j = i := by
      by_contra hji
      rw [setWorker_ne hji] at hj
      exact hji (h.one j i n (inside_slot hj) hslot)
    subst hji
    rw [setWorker_self] at hj
    change wpc.onFlags (s.flags n) = _ at hf
    rcases hstage with ⟨-, hserves, hff⟩ | ⟨-, rfl, hff⟩
    · rw [hff] at hf
      cases wpc with
      | improvRead =>
        cases hf
        refine ⟨?_, setFlags_self _ _ _⟩
        cases ev' with
        | epollin => rfl
        | epollout => cases hserves
      | improvWrite => cases hf; cases hj
      | improvFail => cases hf; cases hj
      | flagFail => cases ev' <;> cases hserves
      | _ => cases hf
    · cases hf
      cases hj

/-- A step inside process() before its last modfd. -/
theorem Apart.within {u : Server} {w : WorkerAt} (h : s.Apart) (hs : s.WorkerMoves i r (u.setWorker i w))
    (hi : (s.workers i).shaking = false) (hbusy : s.workers i ≠ .idle) (hw : w.shaking = false)
    (hconns : u.conns = s.conns) (hepoll : u.epoll = s.epoll) (hworkers : u.workers = s.workers)
    (hjob : w.job = (s.workers i).job) : (u.setWorker i w).Apart := by
  have hk := workerMoves_worked hs
  have hu := workerMoves_unnoticed hs hi hbusy
  refine h.stay hk (h.shake.worker hs) hconns hu.queue (job_setWorker hworkers fun x hx => hjob ▸ hx)
    (fun n ha => Or.inl ?_) (h.waitInside hk hu.flags fun n hin => ?_)
  · change ∃ ev, u.epoll n = _ at ha
    rw [hepoll] at ha
    exact ha
  · rw [setWorker_self, WorkerAt.inside, hw, slot_eq_job, hjob, ← slot_eq_job] at hin
    rw [WorkerAt.inside, hi]
    exact hin

/-- The last modfd arms a slot that the worker leaves. -/
theorem Apart.rearm {conn : Option Nat} {ev : Ev} {closed : Bool} (h : s.Apart)
    (hw : s.workers i = .rearm fd conn ev closed)
    (hs : s.WorkerMoves i r ((s.modfd (s.slots fd).sockfd ev).setWorker i .idle)) :
    ((s.modfd (s.slots fd).sockfd ev).setWorker i .idle).Apart := by
  have hk := workerMoves_worked hs
  have hu := workerMoves_unnoticed hs (by rw [hw]; rfl) (by rw [hw]; nofun)
  have hslot : (s.workers i).slot = some fd := by
    rw [hw]
    rfl
  refine h.stay hk (h.shake.worker hs) rfl rfl (job_setWorker rfl nofun) (fun n ha => ?_)
    (h.waitInside hk hu.flags fun n hin => ?_)
  · rcases h.modfd ha with ha | rfl
    · exact Or.inl ha
    · refine Or.inr (Or.inl ⟨fun hin => h.laneFree n hin i hslot, fun j hj => ?_⟩)
      by_cases hji : j = i
      · rw [hji, setWorker_self] at hj
        cases hj
      · rw [setWorker_ne hji] at hj
        exact hji (h.one j i n hj hslot)
  · rw [setWorker_self] at hin
    cases hin

/-- close_conn on the connection of the worker's own request. -/
theorem Apart.close {conn : Option Nat} (h : s.Apart) (hw : s.workers i = .running fd conn .processing)
    (hne : (s.slots fd).sockfd ≠ -1)
    (hs : s.WorkerMoves i r ((s.closeFd (s.slots fd).sockfd.toNat conn).setWorker i (.closing fd conn))) :
    ((s.closeFd (s.slots fd).sockfd.toNat conn).setWorker i (.closing fd conn)).Apart := by
  have hk := workerMoves_worked hs
  have hu := workerMoves_unnoticed hs (by rw [hw]; rfl) (by rw [hw]; nofun)
  have hshake := h.shake.worker hs
  have hx : (s.slots fd).sockfd.toNat = fd := by
    rcases h.sock fd with heq | heq
    · rw [heq]
      rfl
    · exact absurd heq hne
  have hslot : (s.workers i).slot = some fd := by
    rw [hw]
    rfl
  rw [hx] at hk hu hshake ⊢
  have hothers : ∀ j n, j ≠ i → (s.workers j).slot = some n → n ≠ fd := by
    rintro j n hji hj rfl
    exact hji (h.one j i n hj hslot)
  have hstay : ∀ {j n}, (((s.closeFd fd conn).setWorker i (.closing fd conn)).workers j).slot = some n →
      (s.workers j).slot = some n := by
    intro j n hj
    by_cases hji : j = i
    · rw [hji, setWorker_self] at hj
      rw [hji, hslot]
      exact hj
    · rwa [setWorker_ne hji] at hj
  have hfree : ∀ n, s.Free n → ((s.closeFd fd conn).setWorker i (.closing fd conn)).Free n :=
    fun n hn j hj => hn j (hstay hj)
  have hlane : ∀ n ∈ s.lane, n ≠ fd := by
    rintro n hn rfl
    exact h.laneFree n hn i hslot
  refine ⟨h.toSeated.same hk.fds (fun _ => rfl) rfl, hshake, fun n hn => ?_,
    fun j k n hj hk => h.one j k n (hstay hj) (hstay hk), fun j n c closed hj => ?_, h.lane, fun n hn => ?_,
    fun n hn => hfree n (h.laneFree n hn), fun c hc => ?_, fun n hn => ?_, fun n ev hwt => ?_, h.tick⟩
  · obtain ⟨hnf, hreg⟩ := closeFd_isSome conn hn
    exact (mem_closeFd_fds conn).mpr ⟨hnf, h.reg n hreg⟩
  · by_cases hji : j = i
    · subst hji
      rw [setWorker_self] at hj
      cases hj
      exact (closeFd_owner conn).trans (if_pos rfl)
    · rw [setWorker_ne hji] at hj
      exact (h.job j n c closed hj).close (hothers j n hji (by rw [slot_eq_job]; exact hj ▸ rfl)) (closeFd_owner conn)
  · exact (mem_closeFd_fds conn).mpr ⟨hlane n hn, h.laneOpen n hn⟩
  · have hin : c.1 ∈ s.lane := List.mem_append_right _ (List.mem_map_of_mem hc)
    exact (h.queued c hc).trans ((closeFd_owner conn).trans (if_neg (hlane _ hin))).symm
  · exact (h.armed n (closeFd_armed_of conn hn)).imp_left (And.imp_right (hfree n))
  · obtain ⟨hp, hout, hin⟩ := h.wait n ev hwt
    have hinside : ∀ j, (((s.closeFd fd conn).setWorker i (.closing fd conn)).workers j).inside = some n →
        (s.workers j).inside = some n := by
      intro j hj
      by_cases hji : j = i
      · subst hji
        rw [setWorker_self] at hj
        rw [hw]
        exact hj
      · rwa [setWorker_ne hji] at hj
    refine ⟨hp, fun hev => (mem_closeFd_fds conn).mpr ⟨?_, hout hev⟩, fun j hj => hin j (hinside j hj)⟩
    rintro rfl
    have hepollin := (hin i (by rw [hw]; rfl)).1
    cases hev.symm.trans hepollin

/-- The main thread waits in reactor mode only. -/
theorem Shake.reactor (h : s.Shake) (hw : s.Waits n ev) : s.reactor = true := by
  obtain ⟨pc, hm, hpc⟩ := hw
  cases h with
  | doomed hu _ _ => cases hm.symm.trans hu
  | calm hsteady _ _ =>
    rw [hm] at hsteady
    cases pc with
    | poll ev => cases hsteady
    | sawImprov ev => cases hsteady
    | clearImprov ev => cases hsteady
    | remove ev => cases hsteady
    | _ => cases hpc
  | wait hr _ _ _ _ => exact hr

/-- A request goes from the queue to a worker. -/
theorem Apart.dequeue {conn : Option Nat} {rest : List (Nat × Option Nat)} {wpc : WorkerPc} (h : s.Apart)
    (hidle : s.workers i = .idle) (hq : s.queue = (fd, conn) :: rest)
    (hwpc : wpc = .start s.reactor (s.slots fd).state)
    (hs : s.WorkerMoves i r ({ s with queue := rest }.setWorker i (.running fd conn wpc))) :
    ({ s with queue := rest }.setWorker i (.running fd conn wpc)).Apart := by
  have hshake := h.shake.worker hs
  have hin : fd ∈ s.lane := by simp [Server.lane, hq]
  have hperm : s.lane.Perm (fd :: (s.pending.map Prod.fst ++ s.main.front ++ rest.map Prod.fst)) := by
    rw [Server.lane, hq, List.map_cons]
    exact List.perm_middle
  have hnodup := List.nodup_cons.mp (hperm.nodup_iff.mp h.lane)
  have hsub : ∀ n ∈ s.pending.map Prod.fst ++ s.main.front ++ rest.map Prod.fst, n ∈ s.lane := fun n hn =>
    hperm.mem_iff.mpr (List.mem_cons_of_mem _ hn)
  have hslot : ∀ {j n}, (({ s with queue := rest }.setWorker i (.running fd conn wpc)).workers j).slot = some n →
      j = i ∧ n = fd ∨ j ≠ i ∧ (s.workers j).slot = some n := by
    intro j n hj
    by_cases hji : j = i
    · subst hji
      rw [setWorker_self] at hj
      exact Or.inl ⟨rfl, (Option.some.inj hj).symm⟩
    · rw [setWorker_ne hji] at hj
      exact Or.inr ⟨hji, hj⟩
  have hfree : ∀ n, n ≠ fd → s.Free n → ({ s with queue := rest }.setWorker i (.running fd conn wpc)).Free n := by
    intro n hne hf j hj
    rcases hslot hj with ⟨-, rfl⟩ | ⟨-, hj⟩
    · exact hne rfl
    · exact hf j hj
  refine ⟨⟨h.own, h.sock, h.data⟩, hshake, h.reg, fun j k n hj hk => ?_, fun j n c closed hj => ?_, hnodup.2,
    fun n hn => h.laneOpen n (hsub n hn), fun n hn => ?_, fun c hc => ?_, fun n hn => ?_, fun n ev hwt => ?_, h.tick⟩
  · rcases hslot hj with ⟨rfl, rfl⟩ | ⟨-, hj'⟩ <;> rcases hslot hk with ⟨rfl, hnf⟩ | ⟨-, hk'⟩
    · rfl
    · exact absurd hk' (h.laneFree n hin k)
    · exact absurd hj' (h.laneFree n (hnf ▸ hin) j)
    · exact h.one j k n hj' hk'
  · by_cases hji : j = i
    · subst hji
      rw [setWorker_self] at hj
      cases hj
      have howner : conn = s.owner fd := h.queued (fd, conn) (by rw [hq]; exact List.mem_cons_self)
      exact ⟨howner ▸ mem_fds.mp (h.laneOpen fd hin), howner.symm⟩
    · rw [setWorker_ne hji] at hj
      exact h.job j n c closed hj
  · have hne : n ≠ fd := fun heq => hnodup.1 (heq ▸ hn)
    exact hfree n hne (h.laneFree n (hsub n hn))
  · exact h.queued c (by rw [hq]; exact List.mem_cons_of_mem _ hc)
  · rcases h.armed n hn with ⟨hl, hf⟩ | hw
    · exact Or.inl ⟨fun hm => hl (hsub n hm), hfree n (fun heq => hl (heq ▸ hin)) hf⟩
    · exact Or.inr hw
  · obtain ⟨hp, hout, hinside⟩ := h.wait n ev hwt
    refine ⟨hp, hout, fun j hj => ?_⟩
    by_cases hji : j = i
    · rw [hji, setWorker_self, hwpc, h.shake.reactor hwt] at hj
      cases hst : (s.slots fd).state <;> rw [hst] at hj <;> cases hj
    · rw [setWorker_ne hji] at hj
      exact hinside j hj

theorem Apart.worker (h : s.Apart) (hs : s.WorkerMoves i r t) : t.Apart := by
  have hs' := hs
  cases hs with
  | dequeue hw hq => exact h.dequeue hw hq rfl hs'
  | read hw => exact h.read hw hs' rfl
  | write hw => exact h.workerWrite hw hs' rfl
  | flags hw hf => exact h.flagStore hw hf hs' rfl
  | answer hw hr => exact h.within hs' (by rw [hw]; rfl) (by rw [hw]; nofun) rfl rfl rfl rfl (by rw [hw]; rfl)
  | close hw hr hfd => exact h.close hw hfd hs'
  | skip hw hr hfd =>
    rename_i fd conn
    obtain ⟨hc, howner⟩ := h.job i fd conn false (by rw [hw]; rfl)
    have hown := h.own fd (mem_fds.mpr (howner ▸ hc))
    rw [hfd] at hown
    omega
  | forget hw => exact h.within hs' (by rw [hw]; rfl) (by rw [hw]; nofun) rfl rfl rfl rfl (by rw [hw]; rfl)
  | count hw => exact h.within hs' (by rw [hw]; rfl) (by rw [hw]; nofun) rfl rfl rfl rfl (by rw [hw]; rfl)
  | rearm hw => exact h.rearm hw hs'

end Server

end CppInAction
