import CppInAction.ServerShake
import CppInAction.ServerTimers

namespace CppInAction

/-- The slot a worker has a request for. -/
def WorkerAt.slot : WorkerAt → Option Nat
  | .idle => none
  | .running fd _ _ => some fd
  | .closing fd _ => some fd
  | .counting fd _ => some fd
  | .rearm fd _ _ _ => some fd

/-- The slot a worker is inside process() with. -/
def WorkerAt.inside (w : WorkerAt) : Option Nat := if w.shaking then none else w.slot

namespace Server

variable {s t : Server} {fd i n : Nat} {pc : MainPc} {r : Choice}

def Armed (s : Server) (fd : Nat) : Prop := ∃ ev, s.epoll fd = some (some ev)

instance (s : Server) (fd : Nat) : Decidable (s.Armed fd) :=
  match h : s.epoll fd with
  | some (some ev) => .isTrue ⟨ev, h⟩
  | some none => .isFalse fun ⟨_, he⟩ => by cases h.symm.trans he
  | none => .isFalse fun ⟨_, he⟩ => by cases h.symm.trans he

theorem inside_slot {w : WorkerAt} (h : w.inside = some fd) : w.slot = some fd := by
  unfold WorkerAt.inside at h
  split at h
  next => cases h
  next => exact h

theorem StillBut.inside (h : s.StillBut none) (hi : (s.workers i).slot = some n) :
    (s.workers i).inside = some n := by
  rw [WorkerAt.inside, h i (by simp)]
  exact hi

theorem modfd_armed (x : Int) (ev : Ev) (h : s.Armed n) : (s.modfd x ev).Armed n := by
  obtain ⟨ev', h⟩ := h
  simp only [Armed, modfd]
  split
  next => exact ⟨ev, rfl⟩
  next => exact ⟨ev', h⟩

theorem modfd_arms (ev : Ev) (h : (s.epoll n).isSome) : (s.modfd n ev).Armed n :=
  ⟨ev, by simp [modfd, h]⟩

theorem write_armed (w : WriteResult) (h : s.Armed n) : (s.write fd w).Armed n := by
  cases w with
  | failed => exact h
  | _ => exact modfd_armed _ _ h

/-- After a write that went well the connection is armed. -/
theorem write_arms {w : WriteResult} (hw : w.ok = true) (hreg : (s.epoll fd).isSome)
    (hown : (s.slots fd).sockfd = fd) : (s.write fd w).Armed fd := by
  cases w with
  | again =>
    have h := modfd_arms .epollout hreg
    rw [← hown] at h
    exact h
  | finished =>
    have h := modfd_arms .epollin hreg
    rw [← hown] at h
    exact h
  | _ => cases hw

theorem mem_closeFd_fds (meant : Option Nat) : n ∈ (s.closeFd fd meant).fds ↔ n ≠ fd ∧ n ∈ s.fds := by
  simp only [mem_fds, closeFd_owner]
  split <;> simp_all

/-- What a step of worker i leaves to the others. -/
structure Worked (s t : Server) (i : Nat) : Prop where
  main : t.main = s.main
  pending : t.pending = s.pending
  clientData : t.clientData = s.clientData
  others : ∀ j, j ≠ i → t.workers j = s.workers j
  fds : ∀ n ∈ t.fds, n ∈ s.fds
  epoll : ∀ n, t.epoll n = s.epoll n ∨ t.Armed n ∧ (s.epoll n).isSome ∨ t.epoll n = none ∧ n ∉ t.fds
  sockfd : ∀ n, (t.slots n).sockfd = (s.slots n).sockfd ∨
    (∃ conn, s.workers i = .closing n conn) ∧ (t.slots n).sockfd = -1

theorem Worked.setWorker {u : Server} (h : s.Worked u i) (w : WorkerAt) : s.Worked (u.setWorker i w) i where
  main := h.main
  pending := h.pending
  clientData := h.clientData
  others := fun j hj => (setWorker_ne hj w).trans (h.others j hj)
  fds := h.fds
  epoll := h.epoll
  sockfd := h.sockfd

theorem Worked.refl : s.Worked s i where
  main := rfl
  pending := rfl
  clientData := rfl
  others := fun _ _ => rfl
  fds := fun _ hn => hn
  epoll := fun _ => Or.inl rfl
  sockfd := fun _ => Or.inl rfl

theorem Worked.modfd (x : Int) (ev : Ev) : s.Worked (s.modfd x ev) i where
  main := rfl
  pending := rfl
  clientData := rfl
  others := fun _ _ => rfl
  fds := fun _ hn => hn
  epoll := fun n => by
    by_cases h : (n : Int) = x ∧ (s.epoll n).isSome
    · exact Or.inr (Or.inl ⟨⟨ev, if_pos h⟩, h.2⟩)
    · exact Or.inl (if_neg h)
  sockfd := fun _ => Or.inl rfl

/-- A change of a slot that keeps its descriptor. -/
theorem Worked.setSlot {u : Server} (h : s.Worked u i) {x : Slot} (hx : x.sockfd = (u.slots fd).sockfd) :
    s.Worked (u.setSlot fd x) i where
  main := h.main
  pending := h.pending
  clientData := h.clientData
  others := h.others
  fds := h.fds
  epoll := h.epoll
  sockfd := fun n => by
    by_cases hn : n = fd
    · subst hn
      simpa [Server.setSlot, hx] using h.sockfd n
    · simpa [Server.setSlot, Function.update_of_ne hn] using h.sockfd n

theorem Worked.write (fd : Nat) (w : WriteResult) : s.Worked (s.write fd w) i := by
  cases w with
  | again => exact .modfd _ _
  | finished => exact (Worked.modfd _ _).setSlot rfl
  | lastSent => exact .modfd _ _
  | failed => exact .refl

theorem Worked.closeFd (fd : Nat) (meant : Option Nat) : s.Worked (s.closeFd fd meant) i where
  main := rfl
  pending := rfl
  clientData := rfl
  others := fun _ _ => rfl
  fds := fun _ hn => ((mem_closeFd_fds meant).mp hn).2
  epoll := fun n => by
    by_cases hn : n = fd
    · subst hn
      exact Or.inr (Or.inr ⟨Function.update_self _ _ _, fun hin => ((mem_closeFd_fds meant).mp hin).1 rfl⟩)
    · exact Or.inl (Function.update_of_ne hn _ _)
  sockfd := fun _ => Or.inl rfl

theorem Worked.forget {conn : Option Nat} (hw : s.workers i = .closing fd conn) :
    s.Worked (s.setSlot fd { s.slots fd with sockfd := -1 }) i where
  main := rfl
  pending := rfl
  clientData := rfl
  others := fun _ _ => rfl
  fds := fun _ hn => hn
  epoll := fun _ => Or.inl rfl
  sockfd := fun n => by
    by_cases hn : n = fd
    · subst hn
      exact Or.inr ⟨⟨conn, hw⟩, by simp [Server.setSlot]⟩
    · exact Or.inl (by simp [Server.setSlot, Function.update_of_ne hn])

theorem workerMoves_worked (h : s.WorkerMoves i r t) : s.Worked t i := by
  have hqueue : ∀ rest, s.Worked { s with queue := rest } i := fun _ => { Worked.refl with }
  have hcount : s.Worked { s with userCount := s.userCount - 1 } i := { Worked.refl with }
  have hflags : ∀ fd f, s.Worked (s.setFlags fd f) i := fun _ _ => Worked.refl.setSlot rfl
  cases h with
  | dequeue hw hq => exact (hqueue _).setWorker _
  | read hw => exact Worked.refl.setWorker _
  | write hw => exact (Worked.write _ _).setWorker _
  | flags hw hf => exact (hflags _ _).setWorker _
  | answer hw hr => exact Worked.refl.setWorker _
  | close hw hr hfd => exact (Worked.closeFd _ _).setWorker _
  | skip hw hr hfd => exact Worked.refl.setWorker _
  | forget hw => exact (Worked.forget hw).setWorker _
  | count hw => exact hcount.setWorker _
  | rearm hw => exact (Worked.modfd _ _).setWorker _

theorem Worked.armed (h : s.Worked t i) (hn : n ∈ t.fds) (ha : s.Armed n) : t.Armed n := by
  rcases h.epoll n with heq | ⟨ht, -⟩ | ⟨-, hout⟩
  · rw [Armed, heq]
    exact ha
  · exact ht
  · exact absurd hn hout

theorem Worked.isSome (h : s.Worked t i) (hn : n ∈ t.fds) (hs : (s.epoll n).isSome) : (t.epoll n).isSome := by
  rcases h.epoll n with heq | ⟨⟨ev, ht⟩, -⟩ | ⟨-, hout⟩
  · rw [heq]
    exact hs
  · rw [ht]
    rfl
  · exact absurd hn hout

/-- Every open connection has its number in users[] and in client_data, and no slot has
the number of another one. -/
structure Seated (s : Server) : Prop where
  own : ∀ n ∈ s.fds, (s.slots n).sockfd = n
  sock : ∀ n, (s.slots n).sockfd = n ∨ (s.slots n).sockfd = -1
  data : ∀ n ∈ s.fds, (s.clientData n).sockfd = n

theorem start_seated (reactor : Bool) : (start reactor).Seated where
  own := nofun
  sock := fun _ => Or.inr rfl
  data := nofun

/-- A step that opens nothing and leaves the numbers alone. -/
theorem Seated.same (h : s.Seated) (hfds : ∀ n ∈ t.fds, n ∈ s.fds)
    (hsock : ∀ n, (t.slots n).sockfd = (s.slots n).sockfd) (hdata : t.clientData = s.clientData) : t.Seated where
  own := fun n hn => (hsock n).trans (h.own n (hfds n hn))
  sock := fun n => by
    rw [hsock]
    exact h.sock n
  data := fun n hn => by
    rw [hdata]
    exact h.data n (hfds n hn)

/-- close_conn forgets the number of a connection that it has closed. -/
theorem Seated.worked (h : s.Seated) (hk : s.Worked t i)
    (hclosing : ∀ n conn, s.workers i = .closing n conn → n ∉ s.fds) : t.Seated where
  own := fun n hn => by
    rcases hk.sockfd n with heq | ⟨⟨conn, hc⟩, -⟩
    · exact heq.trans (h.own n (hk.fds n hn))
    · exact absurd (hk.fds n hn) (hclosing n conn hc)
  sock := fun n => by
    rcases hk.sockfd n with heq | ⟨-, hneg⟩
    · rw [heq]
      exact h.sock n
    · exact Or.inr hneg
  data := fun n hn => by
    rw [hk.clientData]
    exact h.data n (hk.fds n hn)

theorem mem_admitted_fds {a : Nat} {l : TimerList} (hne : n ≠ fd) (hn : n ∈ (s.admitted fd a l).fds) : n ∈ s.fds :=
  (List.mem_cons.mp hn).resolve_left hne

theorem Seated.admitted (h : s.Seated) (a : Nat) (l : TimerList) : (s.admitted fd a l).Seated where
  own := fun n hn => by
    by_cases hne : n = fd
    · subst hne
      simp [Server.admitted]
    · simpa [Server.admitted, Function.update_of_ne hne] using h.own n (mem_admitted_fds hne hn)
  sock := fun n => by
    by_cases hne : n = fd
    · subst hne
      simp [Server.admitted]
    · simpa [Server.admitted, Function.update_of_ne hne] using h.sock n
  data := fun n hn => by
    by_cases hne : n = fd
    · subst hne
      simp [Server.admitted]
    · simpa [Server.admitted, Function.update_of_ne hne] using h.data n (mem_admitted_fds hne hn)

/-- A worker inside process() stays with its slot until its last modfd has armed it. -/
theorem workerMoves_inside (h : s.WorkerMoves i r t) (hin : (s.workers i).inside = some n)
    (hreg : (s.epoll n).isSome) (hown : (s.slots n).sockfd = n) :
    t.Armed n ∨ (t.workers i).inside = some n := by
  cases h with
  | dequeue hw hq => rw [hw] at hin; cases hin
  | read hw => rw [hw] at hin; cases hin
  | write hw => rw [hw] at hin; cases hin
  | flags hw hf =>
    rename_i wpc _ _
    rw [hw] at hin
    cases wpc with
    | processing => cases hf
    | _ => cases hin
  | rearm hw =>
    rw [hw] at hin
    cases hin
    left
    rw [hown]
    exact modfd_arms _ hreg
  | _ hw =>
    rw [hw] at hin
    right
    rw [setWorker_self]
    exact hin

theorem setSlot_sockfd {x : Slot} (hx : x.sockfd = (s.slots fd).sockfd) (n : Nat) :
    ((s.setSlot fd x).slots n).sockfd = (s.slots n).sockfd := by
  by_cases hn : n = fd
  · subst hn
    simpa [setSlot] using hx
  · simp [setSlot, Function.update_of_ne hn]

theorem write_sockfd (w : WriteResult) (n : Nat) : ((s.write fd w).slots n).sockfd = (s.slots n).sockfd := by
  cases w with
  | finished =>
    by_cases hn : n = fd
    · subst hn
      simp [write, setSlot]
    · simp [write, setSlot, modfd, Function.update_of_ne hn]
  | _ => rfl

theorem write_tables (s : Server) (fd : Nat) (w : WriteResult) : (s.write fd w).conns = s.conns ∧
    (s.write fd w).clientData = s.clientData ∧ (s.write fd w).pending = s.pending := by
  cases w <;> exact ⟨rfl, rfl, rfl⟩

/-- In a wait loop the main thread has a request at hand. -/
theorem Shake.stage {f : Flags} {x : Option MainPc × Flags} (h : s.Shake) (hm : s.main = .handling fd pc)
    (hf : pc.onFlags f = some x) : ∃ ev, s.Stage fd ev pc := by
  cases h with
  | doomed hu _ _ => cases hm.symm.trans hu
  | calm hsteady _ _ =>
    rw [hm, MainAt.steady, MainPc.onFlags_steady hf] at hsteady
    cases hsteady
  | wait _ hw _ _ hstage =>
    cases hm.symm.trans hw
    exact ⟨_, hstage⟩

end Server

end CppInAction
