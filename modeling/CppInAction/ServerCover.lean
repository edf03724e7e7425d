import CppInAction.ServerWork

namespace CppInAction

/-- The statements after which the main thread still does something for the connection. -/
def MainPc.keeps : MainPc → Bool
  | .poll .epollin => false
  | .sawImprov .epollin => false
  | .clearImprov .epollin => false
  | .renewLast => false
  | _ => true

def MainAt.slot : MainAt → Option Nat
  | .handling fd _ => some fd
  | _ => none

def MainAt.appends : MainAt → Bool
  | .handling _ pc => pc.appends
  | _ => false

namespace Server

variable {s t : Server} {fd i n : Nat} {ev : Ev} {pc : MainPc} {r : Choice}

/-- An open connection is armed, queued, fetched or in the hands of a thread. -/
def Covered (s : Server) (fd : Nat) : Prop :=
  s.Armed fd ∨ fd ∈ s.queue.map Prod.fst ∨ fd ∈ s.pending.map Prod.fst ∨
    s.main.slot = some fd ∨ ∃ i, (s.workers i).slot = some fd

/-- No open connection is lost, and the main thread only waits for requests that
were queued. -/
def HandedOn (s : Server) : Prop :=
  s.fault = none → (∀ fd ∈ s.fds, s.Covered fd) ∧
    ∀ fd ev, s.main = .handling fd (.poll ev) → s.handed = true

/-- The connection is kept without the main thread's present handler. -/
def Rest (s : Server) (fd : Nat) : Prop :=
  s.Armed fd ∨ fd ∈ s.queue.map Prod.fst ∨ fd ∈ s.pending.map Prod.fst ∨ ∃ i, (s.workers i).inside = some fd

/-- The present handler of the main thread keeps the connection: it has more to do for it
than to renew the timer, or it waits for an answer that is not yet a success. -/
def MainKeeps (s : Server) (fd : Nat) : Prop :=
  ∃ pc, s.main = .handling fd pc ∧ (pc.keeps = true ∨
    (pc = .poll .epollin ∨ pc = .sawImprov .epollin) ∧
      (s.flags fd ≠ ⟨true, false⟩ ∨ ∃ i conn, s.workers i = .running fd conn .flagFail))

theorem Rest.covered (h : s.Rest fd) : s.Covered fd := by
  rcases h with h | h | h | ⟨i, h⟩
  · exact Or.inl h
  · exact Or.inr (Or.inl h)
  · exact Or.inr (Or.inr (Or.inl h))
  · exact Or.inr (Or.inr (Or.inr (Or.inr ⟨i, inside_slot h⟩)))

theorem MainKeeps.covered (h : s.MainKeeps fd) : s.Covered fd := by
  obtain ⟨pc, hm, -⟩ := h
  exact Or.inr (Or.inr (Or.inr (Or.inl (by rw [hm]; rfl))))

/-- Every open connection has its slot, its registration and its entry in client_data,
and somebody who keeps it. -/
structure Covering (s : Server) : Prop extends s.Seated where
  shake : s.Shake
  reg : ∀ n ∈ s.fds, (s.epoll n).isSome
  closing : ∀ i n conn, s.workers i = .closing n conn → n ∉ s.fds
  cover : ∀ n ∈ s.fds, s.Rest n ∨ s.MainKeeps n

theorem start_covering (reactor : Bool) : (start reactor).Covering where
  toSeated := start_seated reactor
  shake := start_shake reactor
  reg := nofun
  closing := nofun
  cover := nofun

/-- The main thread polls only for requests that it has handed on. -/
theorem Shake.handed (h : s.Shake) (hm : s.main = .handling fd (.poll ev)) : s.handed = true := by
  cases h with
  | doomed hu _ _ => cases hm.symm.trans hu
  | calm hsteady _ _ =>
    rw [hm] at hsteady
    cases hsteady
  | wait _ _ hhanded _ _ => exact hhanded

theorem Covering.handedOn (h : s.Covering) : s.HandedOn := fun _ =>
  ⟨fun fd hfd => (h.cover fd hfd).elim Rest.covered MainKeeps.covered, fun _ _ hm => h.shake.handed hm⟩

/-- Whoever kept a connection still does, if the worker leaves it to somebody. -/
theorem Worked.rest (h : s.Worked t i) (hn : n ∈ t.fds)
    (hqueue : n ∈ s.queue.map Prod.fst → t.Rest n ∨ t.MainKeeps n)
    (hinside : (s.workers i).inside = some n → t.Rest n) (hrest : s.Rest n) : t.Rest n ∨ t.MainKeeps n := by
  rcases hrest with ha | hq | hp | ⟨j, hj⟩
  · exact Or.inl (Or.inl (h.armed hn ha))
  · exact hqueue hq
  · exact Or.inl (Or.inr (Or.inr (Or.inl (h.pending ▸ hp))))
  · by_cases hji : j = i
    · subst hji
      exact Or.inl (hinside hj)
    · exact Or.inl (Or.inr (Or.inr (Or.inr ⟨j, by rw [h.others j hji]; exact hj⟩)))

theorem Unnoticed.mainKeeps (hu : s.Unnoticed t) (h : s.MainKeeps n) : t.MainKeeps n := by
  obtain ⟨pc, hm, hpc⟩ := h
  refine ⟨pc, hu.main.trans hm, hpc.imp_right fun ⟨hpoll, hflag⟩ => ⟨hpoll, ?_⟩⟩
  rw [hu.flags n]
  refine hflag.imp_right fun ⟨j, conn, hj⟩ => ⟨j, conn, ?_⟩
  rw [hu.shaking j (by rw [hj]; rfl), hj]

theorem Covering.inside (h : s.Covering) (hw : s.WorkerMoves i r t) (hn : n ∈ t.fds)
    (hin : (s.workers i).inside = some n) : t.Rest n := by
  have hs := (workerMoves_worked hw).fds n hn
  rcases workerMoves_inside hw hin (h.reg n hs) (h.own n hs) with ha | hi
  · exact Or.inl ha
  · exact Or.inr (Or.inr (Or.inr ⟨i, hi⟩))

/-- A request at hand is kept by the main thread, unless it is a read that was answered. -/
theorem Stage.mainKeeps (h : s.Stage fd ev pc) (hm : s.main = .handling fd pc) :
    s.MainKeeps fd ∨ ev = .epollin ∧ s.flags fd = ⟨true, false⟩ ∧ s.StillBut none := by
  cases ev with
  | epollout =>
    refine Or.inl ⟨pc, hm, Or.inl ?_⟩
    rcases h.pc_cases with rfl | rfl | rfl | rfl <;> rfl
  | epollin =>
    cases h with
    | queued hq hstate hf hstill => exact Or.inl ⟨_, hm, Or.inr ⟨Or.inl rfl, Or.inl (by simp [hf])⟩⟩
    | taken hw hserves hq hf hstill => exact Or.inl ⟨_, hm, Or.inr ⟨Or.inl rfl, Or.inl (by simp [hf])⟩⟩
    | failing hpc hw hq hf hstill => exact Or.inl ⟨_, hm, Or.inr ⟨hpc, Or.inr ⟨_, _, hw⟩⟩⟩
    | answered hpc hq hf hstill => exact Or.inr ⟨rfl, hf, hstill⟩
    | failed hpc hq hf hstill =>
      rcases hpc with rfl | rfl | rfl
      · exact Or.inl ⟨_, hm, Or.inr ⟨Or.inl rfl, Or.inl (by simp [hf])⟩⟩
      · exact Or.inl ⟨_, hm, Or.inr ⟨Or.inr rfl, Or.inl (by simp [hf])⟩⟩
      · exact Or.inl ⟨_, hm, Or.inl rfl⟩

/-- As long as a worker owes the answer, the main thread waits for it. -/
theorem Shake.mainKeeps {conn : Option Nat} {wpc : WorkerPc} (h : s.Shake)
    (hw : s.workers i = .running n conn wpc) (hs : wpc ≠ .processing) : s.MainKeeps n := by
  have hshaking : (s.workers i).shaking = true := by
    rw [hw]
    exact decide_eq_true hs
  obtain ⟨fd, ev, pc, -, hm, -, -, hstage⟩ := h.shaking hshaking
  obtain ⟨rfl, -⟩ := hstage.shaking hw hs
  rcases hstage.mainKeeps hm with hk | ⟨-, -, hstill⟩
  · exact hk
  · rw [hstill i nofun] at hshaking
    cases hshaking

/-- The stores to the flags leave the connection to the worker or to the main thread. -/
theorem Covering.flagStore {conn : Option Nat} {wpc : WorkerPc} {next : Option WorkerPc} {f : Flags}
    (h : s.Covering) (hw : s.workers i = .running n conn wpc)
    (hf : wpc.onFlags (s.slots n).flags = some (next, f))
    (ht : t = (s.setFlags n f).setWorker i ((next.map (.running n conn)).getD .idle)) :
    t.Rest n ∨ t.MainKeeps n := by
  have hs : wpc ≠ .processing := by
    rintro rfl
    cases hf
  have hshaking : (s.workers i).shaking = true := by
    rw [hw]
    exact decide_eq_true hs
  obtain ⟨fd, ev, pc, -, hm, -, -, hstage⟩ := h.shake.shaking hshaking
  obtain ⟨rfl, hstage'⟩ := hstage.flagStore hw hf
  rw [← ht] at hstage'
  have hmain : t.main = .handling n pc := by
    rw [ht]
    exact hm
  have hflags : t.flags n = f := by
    rw [ht]
    exact setFlags_self _ _ _
  have hti : t.workers i = (next.map (.running n conn)).getD .idle := by
    rw [ht, setWorker_self]
  rcases hstage'.mainKeeps hmain with hk | ⟨rfl, hanswer, hstill⟩
  · exact Or.inr hk
  · obtain ⟨-, -, -, ⟨-, hserves, -⟩ | ⟨-, rfl, hold⟩⟩ := hstage.shaking hw hs
    · cases wpc with
      | improvRead => cases hf; exact Or.inl (Or.inr (Or.inr (Or.inr ⟨i, by rw [hti]; rfl⟩)))
      | improvFail =>
        cases hf
        have hti := hstill i nofun
        rw [ht, setWorker_self] at hti
        cases hti
      | reading => cases hf
      | _ => cases hserves
    · change WorkerPc.flagFail.onFlags (s.flags n) = _ at hf
      rw [hold] at hf
      cases hf
      rw [hflags] at hanswer
      cases hanswer

theorem Covering.shakingCover (h : s.Covering) (hw : s.WorkerMoves i r t) (hs : (s.workers i).shaking = true)
    (hn : n ∈ t.fds) : t.Rest n ∨ t.MainKeeps n := by
  have hk := workerMoves_worked hw
  have ht := h.shake.worker hw
  obtain ⟨fd, ev, pc, -, hm, -, -, hstage⟩ := h.shake.shaking hs
  have hother : n ≠ fd → t.queue = s.queue → t.Rest n ∨ t.MainKeeps n := by
    intro hne hqueue
    rcases h.cover n (hk.fds n hn) with hrest | ⟨pc', hm', -⟩
    · refine hk.rest hn (fun hq => Or.inl (Or.inr (Or.inl (hqueue ▸ hq)))) (fun hin => ?_) hrest
      simp [WorkerAt.inside, hs] at hin
    · cases hm.symm.trans hm'
      exact absurd rfl hne
  cases hw with
  | read hw =>
    rename_i m conn
    have hm := (hstage.shaking hw (by decide)).1
    have hpc : (if r.ok then WorkerPc.improvRead else .improvFail) ≠ .processing := by cases r.ok <;> decide
    by_cases hne : n = fd
    · rw [hne, ← hm]
      exact Or.inr (ht.mainKeeps (setWorker_self _ _ _) hpc)
    · exact hother hne rfl
  | write hw =>
    rename_i m conn
    have hm := (hstage.shaking hw (by decide)).1
    have hpc : (if r.write.ok then WorkerPc.improvWrite else .improvFail) ≠ .processing := by
      cases r.write <;> decide
    by_cases hne : n = fd
    · rw [hne, ← hm]
      exact Or.inr (ht.mainKeeps (setWorker_self _ _ _) hpc)
    · exact hother hne (s.write_other _ _).2.2.2.1
  | flags hw hf =>
    rename_i m conn _ _ _
    have hm := (hstage.flagStore hw hf).1
    by_cases hne : n = fd
    · rw [hne, ← hm]
      exact h.flagStore hw hf rfl
    · exact hother hne rfl
  | _ => simp_all [WorkerAt.shaking]

/-- A request that leaves the queue is with the worker that takes it. -/
theorem Covering.dequeueCover {m : Nat} {conn : Option Nat} {rest : List (Nat × Option Nat)} (h : s.Covering)
    (hidle : s.workers i = .idle) (hq : s.queue = (m, conn) :: rest)
    (ht : t = { s with queue := rest }.setWorker i (.running m conn (.start s.reactor (s.slots m).state)))
    (hw : s.WorkerMoves i r t) (hn : n ∈ t.fds) : t.Rest n ∨ t.MainKeeps n := by
  have hk := workerMoves_worked hw
  have hti : t.workers i = .running m conn (.start s.reactor (s.slots m).state) := by
    rw [ht, setWorker_self]
  have hshake := h.shake.worker hw
  rcases h.cover n (hk.fds n hn) with hrest | ⟨pc, hm, hpc⟩
  · refine hk.rest hn (fun hin => ?_) (fun hin => by rw [hidle] at hin; cases hin) hrest
    rw [hq, List.map_cons, List.mem_cons] at hin
    rcases hin with rfl | hin
    · by_cases hpc : WorkerPc.start s.reactor (s.slots n).state = .processing
      · rw [hpc] at hti
        exact Or.inl (Or.inr (Or.inr (Or.inr ⟨i, by rw [hti]; rfl⟩)))
      · exact Or.inr (hshake.mainKeeps hti hpc)
    · refine Or.inl (Or.inr (Or.inl ?_))
      rw [ht]
      exact hin
  · refine Or.inr ⟨pc, hk.main.trans hm, hpc.imp_right fun ⟨hpoll, hflag⟩ => ⟨hpoll, ?_⟩⟩
    refine hflag.imp (fun hf => by rw [ht]; exact hf) fun ⟨j, conn, hj⟩ => ⟨j, conn, ?_⟩
    have hji : j ≠ i := by
      rintro rfl
      cases hidle.symm.trans hj
    exact (hk.others j hji).trans hj

theorem Covering.workerCover (h : s.Covering) (hw : s.WorkerMoves i r t) (hn : n ∈ t.fds) :
    t.Rest n ∨ t.MainKeeps n := by
  by_cases hs : (s.workers i).shaking = true
  · exact h.shakingCover hw hs hn
  rw [Bool.not_eq_true] at hs
  by_cases hidle : s.workers i = .idle
  · cases hw with
    | dequeue hwi hq => exact h.dequeueCover hwi hq rfl (.dequeue (r := r) hwi hq) hn
    | _ => simp_all
  · have hu := workerMoves_unnoticed hw hs hidle
    have hk := workerMoves_worked hw
    rcases h.cover n (hk.fds n hn) with hrest | hkeeps
    · exact hk.rest hn (fun hq => Or.inl (Or.inr (Or.inl (hu.queue ▸ hq)))) (h.inside hw hn) hrest
    · exact Or.inr (hu.mainKeeps hkeeps)

theorem Covering.worker (h : s.Covering) (hw : s.WorkerMoves i r t) : t.Covering := by
  have hk := workerMoves_worked hw
  refine ⟨h.toSeated.worked hk (h.closing i), h.shake.worker hw,
    fun n hn => hk.isSome hn (h.reg n (hk.fds n hn)), fun j n conn hj => ?_, fun n hn => h.workerCover hw hn⟩
  by_cases hji : j = i
  · subst hji
    cases hw with
    | close hw hr hfd =>
      rename_i m c
      rw [setWorker_self] at hj
      cases hj
      intro hn
      have hm := ((mem_closeFd_fds conn).mp hn).1
      rcases h.sock n with heq | heq
      · rw [heq] at hm
        exact hm rfl
      · exact hfd heq
    | flags hw hf =>
      rename_i next _
      rw [setWorker_self] at hj
      cases next <;> cases hj
    | _ =>
      rw [setWorker_self] at hj
      cases hj
  · exact fun hn => h.closing j n conn ((hk.others j hji).symm.trans hj) (hk.fds n hn)

end Server

end CppInAction
