import CppInAction.ServerWork

namespace CppInAction

/-- The slot a worker has, the connection it took the request for, and whether it has
closed that connection itself. -/
def WorkerAt.job : WorkerAt → Option (Nat × Option Nat × Bool)
  | .idle => none
  | .running fd conn _ => some (fd, conn, false)
  | .closing fd conn => some (fd, conn, true)
  | .counting fd conn => some (fd, conn, true)
  | .rearm fd conn _ closed => some (fd, conn, closed)

/-- The statements that read into, write from or close a slot. -/
def MainPc.touches : MainPc → Bool
  | .read => true
  | .write => true
  | .remove _ => true
  | .removeLast => true
  | _ => false

/-- The statements at which the main thread alone has the connection. -/
def MainPc.front : MainPc → Bool
  | .renewFirst _ => true
  | .append _ => true
  | .read => true
  | .appendP => true
  | .write => true
  | .removeLast => true
  | _ => false

def MainAt.front : MainAt → List Nat
  | .handling fd pc => if pc.front then [fd] else []
  | _ => []

/-- The event a wait loop is for. -/
def MainPc.waits : MainPc → Option Ev
  | .poll ev => some ev
  | .sawImprov ev => some ev
  | .clearImprov ev => some ev
  | .remove ev => some ev
  | _ => none

/-- The statements at which the connection may be armed again before they are done with it. -/
def MainPc.writes : MainPc → Bool
  | .write => true
  | .removeLast => true
  | pc => pc.waits = some .epollout

namespace Server

variable {s t : Server} {fd i n : Nat} {ev : Ev} {r : Choice}

/-- The slot is with the connection of the request, or the worker itself has closed it. -/
def Belongs (s : Server) (fd : Nat) (conn : Option Nat) : Bool → Prop
  | true => s.owner fd = none
  | false => conn.isSome ∧ s.owner fd = conn

/-- At most one thread is at a slot, and a worker has the descriptor of the connection
whose request it took. -/
def Exclusive (s : Server) : Prop :=
  s.fault = none →
    (∀ i j fd, (s.workers i).slot = some fd → (s.workers j).slot = some fd → i = j) ∧
    (∀ fd pc, s.main = .handling fd pc → pc.touches = true → ∀ i, (s.workers i).slot ≠ some fd) ∧
    ∀ i fd conn closed, (s.workers i).job = some (fd, conn, closed) → s.Belongs fd conn closed

/-- The connections that are with the main thread or in the queue. -/
def lane (s : Server) : List Nat := s.pending.map Prod.fst ++ s.main.front ++ s.queue.map Prod.fst

def Waits (s : Server) (fd : Nat) (ev : Ev) : Prop := ∃ pc, s.main = .handling fd pc ∧ pc.waits = some ev

def Writes (s : Server) (fd : Nat) : Prop := ∃ pc, s.main = .handling fd pc ∧ pc.writes = true

def Free (s : Server) (fd : Nat) : Prop := ∀ i, (s.workers i).slot ≠ some fd

/-- Every connection is in one place only: armed, with the main thread or in the queue,
or with one worker. -/
structure Apart (s : Server) : Prop extends s.Seated where
  shake : s.Shake
  reg : ∀ n, (s.epoll n).isSome → n ∈ s.fds
  one : ∀ i j n, (s.workers i).slot = some n → (s.workers j).slot = some n → i = j
  job : ∀ i n conn closed, (s.workers i).job = some (n, conn, closed) → s.Belongs n conn closed
  lane : s.lane.Nodup
  laneOpen : ∀ n ∈ s.lane, n ∈ s.fds
  laneFree : ∀ n ∈ s.lane, s.Free n
  queued : ∀ c ∈ s.queue, c.2 = s.owner c.1
  armed : ∀ n, s.Armed n → n ∉ s.lane ∧ s.Free n ∨ s.Writes n
  wait : ∀ n ev, s.Waits n ev → (n ∉ s.pending.map Prod.fst ∧ (s.clientData n).sockfd = n) ∧
    (ev = .epollout → n ∈ s.fds) ∧
    ∀ i, (s.workers i).inside = some n → ev = .epollin ∧ s.flags n = ⟨true, false⟩
  tick : ∀ cur, s.main = .ticking cur → s.pending = []

theorem start_apart (reactor : Bool) : (start reactor).Apart where
  toSeated := start_seated reactor
  shake := start_shake reactor
  reg := nofun
  one := nofun
  job := nofun
  lane := List.nodup_nil
  laneOpen := nofun
  laneFree := nofun
  queued := nofun
  armed := nofun
  wait := nofun
  tick := fun _ _ => rfl

theorem slot_eq_job (w : WorkerAt) : w.slot = w.job.map Prod.fst := by cases w <;> rfl

theorem slot_of_job {w w' : WorkerAt} (h : ∀ x, w'.job = some x → w.job = some x)
    (hs : w'.slot = some n) : w.slot = some n := by
  rw [slot_eq_job] at hs ⊢
  obtain ⟨x, hx, rfl⟩ := Option.map_eq_some_iff.mp hs
  rw [h x hx]
  rfl

theorem Shake.removing (h : s.Shake) (hm : s.main = .handling fd (.remove ev)) :
    s.queue = [] ∧ s.StillBut none ∧ s.flags fd = ⟨true, true⟩ := by
  cases h with
  | doomed hu _ _ => cases hm.symm.trans hu
  | calm hsteady _ _ =>
    rw [hm] at hsteady
    cases hsteady
  | wait hr hw hhanded hother hstage =>
    cases hm.symm.trans hw
    exact hstage.remove

/-- In del_timer after a failed read or write the worker has left. -/
theorem Apart.removeFree (h : s.Apart) (hm : s.main = .handling fd (.remove ev)) : s.Free fd := by
  intro i hi
  obtain ⟨-, hstill, hf⟩ := h.shake.removing hm
  have hflags := ((h.wait fd ev ⟨_, hm, rfl⟩).2.2 i (hstill.inside hi)).2
  cases hflags.symm.trans hf

theorem Apart.exclusive (h : s.Apart) : s.Exclusive := by
  refine fun _ => ⟨h.one, fun fd pc hm hpc => ?_, h.job⟩
  have hfront : pc.front = true → s.Free fd := fun hf => h.laneFree fd (by simp [Server.lane, hm, MainAt.front, hf])
  cases pc with
  | read => exact hfront rfl
  | write => exact hfront rfl
  | removeLast => exact hfront rfl
  | remove ev => exact h.removeFree hm
  | _ => cases hpc

theorem Apart.closing {conn : Option Nat} (h : s.Apart) (hw : s.workers i = .closing n conn) : n ∉ s.fds := by
  have hb : s.owner n = none := h.job i n conn true (by rw [hw]; rfl)
  simp [mem_fds, hb]

/-- A step of a worker that closes nothing and takes no request. -/
theorem Apart.stay (h : s.Apart) (hk : s.Worked t i) (hshake : t.Shake) (hconns : t.conns = s.conns)
    (hqueue : t.queue = s.queue) (hjob : ∀ j x, (t.workers j).job = some x → (s.workers j).job = some x)
    (harmed : ∀ n, t.Armed n → s.Armed n ∨ n ∉ s.lane ∧ t.Free n ∨ s.Writes n)
    (hwait : ∀ n ev j, s.Waits n ev → (t.workers j).inside = some n →
      ev = .epollin ∧ t.flags n = ⟨true, false⟩) : t.Apart := by
  have hfds : t.fds = s.fds := by rw [fds, hconns, fds]
  have howner : t.owner = s.owner := by
    funext n
    rw [owner, hconns, owner]
  have hlane : t.lane = s.lane := by rw [Server.lane, hk.main, hk.pending, hqueue, Server.lane]
  have hfree : ∀ n, s.Free n → t.Free n := fun n hn j hj => hn j (slot_of_job (hjob j) hj)
  refine ⟨h.toSeated.worked hk fun n conn => h.closing, hshake, ?_, ?_, ?_, ?_, ?_, ?_, ?_, ?_, ?_, ?_⟩
  · intro n hn
    rw [hfds]
    rcases hk.epoll n with heq | ⟨-, hs⟩ | ⟨hnone, -⟩
    · exact h.reg n (heq ▸ hn)
    · exact h.reg n hs
    · rw [hnone] at hn
      cases hn
  · exact fun j k n hj hk => h.one j k n (slot_of_job (hjob j) hj) (slot_of_job (hjob k) hk)
  · intro j n conn closed hj
    have hb := h.job j n conn closed (hjob j _ hj)
    cases closed <;> simpa only [Belongs, howner] using hb
  · rw [hlane]
    exact h.lane
  · rw [hlane, hfds]
    exact h.laneOpen
  · rw [hlane]
    exact fun n hn => hfree n (h.laneFree n hn)
  · rw [hqueue, howner]
    exact h.queued
  · intro n hn
    rw [hlane, Writes, hk.main]
    rcases harmed n hn with ha | hout | hw
    · exact (h.armed n ha).imp_left (And.imp_right (hfree n))
    · exact Or.inl hout
    · exact Or.inr hw
  · intro n ev hw
    rw [Waits, hk.main] at hw
    obtain ⟨hp, hout, -⟩ := h.wait n ev hw
    rw [hk.pending, hk.clientData, hfds]
    exact ⟨hp, hout, fun j hj => hwait n ev j hw hj⟩
  · rw [hk.main, hk.pending]
    exact h.tick

/-- A step of the main thread that closes nothing and opens nothing. -/
theorem Apart.advance (h : s.Apart) (hshake : t.Shake) (hworkers : t.workers = s.workers)
    (hconns : t.conns = s.conns) (hsock : ∀ n, (t.slots n).sockfd = (s.slots n).sockfd)
    (hdata : t.clientData = s.clientData) (hreg : ∀ n, (t.epoll n).isSome → (s.epoll n).isSome)
    (hnodup : t.lane.Nodup) (hlane : ∀ n ∈ t.lane, n ∈ s.lane ∨ n ∈ s.fds ∧ s.Free n)
    (hqueue : ∀ c ∈ t.queue, c ∈ s.queue ∨ c.2 = s.owner c.1)
    (harmed : ∀ n, t.Armed n → n ∉ t.lane ∧ s.Free n ∨ t.Writes n)
    (hwait : ∀ n ev, t.Waits n ev → (n ∉ t.pending.map Prod.fst ∧ (s.clientData n).sockfd = n) ∧
      (ev = .epollout → n ∈ s.fds) ∧
      ∀ i, (s.workers i).inside = some n → ev = .epollin ∧ t.flags n = ⟨true, false⟩)
    (htick : ∀ cur, t.main = .ticking cur → t.pending = []) : t.Apart := by
  have hfds : t.fds = s.fds := by rw [fds, hconns, fds]
  have howner : t.owner = s.owner := by
    funext n
    rw [owner, hconns, owner]
  refine ⟨h.toSeated.same (fun n hn => hfds ▸ hn) hsock hdata, hshake, ?_, ?_, ?_, hnodup, ?_, ?_, ?_, ?_, ?_, htick⟩
  · rw [hfds]
    exact fun n hn => h.reg n (hreg n hn)
  · rw [hworkers]
    exact h.one
  · intro j n conn closed hj
    rw [hworkers] at hj
    have hb := h.job j n conn closed hj
    cases closed <;> simpa only [Belongs, howner] using hb
  · rw [hfds]
    exact fun n hn => (hlane n hn).elim (h.laneOpen n) And.left
  · rw [show t.Free = s.Free by unfold Free; rw [hworkers]]
    exact fun n hn => (hlane n hn).elim (h.laneFree n) And.right
  · rw [howner]
    exact fun c hc => (hqueue c hc).elim (h.queued c) id
  · rw [show t.Free = s.Free by unfold Free; rw [hworkers]]
    exact harmed
  · rw [hworkers, hdata, hfds]
    exact hwait

theorem Belongs.close {x : Nat} {conn : Option Nat} {closed : Bool} (h : s.Belongs n conn closed) (hn : n ≠ x)
    (howner : t.owner n = if n = x then none else s.owner n) : t.Belongs n conn closed := by
  rw [if_neg hn] at howner
  cases closed <;> simpa only [Belongs, howner] using h

theorem closeFd_armed_of (meant : Option Nat) (h : (s.closeFd fd meant).Armed n) : s.Armed n := by
  obtain ⟨ev, h⟩ := h
  by_cases hn : n = fd
  · simp [closeFd, hn] at h
  · exact ⟨ev, by simpa [closeFd, Function.update_of_ne hn] using h⟩

/-- cb_func on a descriptor that nobody else has. -/
theorem Apart.cbFunc {x : Nat} (h : s.Apart) (hshake : t.Shake)
    (hconns : t.conns = s.conns.filter fun c => c.1 ≠ x) (hepoll : t.epoll = Function.update s.epoll x none)
    (hslots : t.slots = s.slots) (hdata : t.clientData = s.clientData) (hworkers : t.workers = s.workers)
    (hqueue : t.queue = s.queue) (hlane : t.lane.Sublist s.lane) (hmain : ∀ fd pc, t.main ≠ .handling fd pc)
    (hout : x ∉ t.lane) (hfree : s.Free x) (hwrites : ∀ n, s.Writes n → n = x)
    (htick : ∀ cur, t.main = .ticking cur → t.pending = []) : t.Apart := by
  have howner : ∀ n, t.owner n = if n = x then none else s.owner n := by
    intro n
    rw [← closeFd_owner none, owner, hconns]
    rfl
  have hfds : ∀ n, n ∈ t.fds ↔ n ≠ x ∧ n ∈ s.fds := by
    intro n
    rw [fds, hconns]
    exact mem_closeFd_fds (s := s) none
  have hfree' : t.Free = s.Free := by
    unfold Free
    rw [hworkers]
  refine ⟨h.toSeated.same (fun n hn => ((hfds n).mp hn).2) (fun _ => by rw [hslots]) hdata, hshake, fun n hn => ?_,
    ?_, fun j n conn closed hj => ?_, h.lane.sublist hlane, fun n hn => ?_, fun n hn => ?_, fun c hc => ?_,
    fun n hn => ?_, fun n ev hw => ?_, htick⟩
  · have hne : n ≠ x := by
      rintro rfl
      simp [hepoll] at hn
    rw [hepoll, Function.update_of_ne hne] at hn
    exact (hfds n).mpr ⟨hne, h.reg n hn⟩
  · rw [hworkers]
    exact h.one
  · rw [hworkers] at hj
    have hne : n ≠ x := by
      rintro rfl
      exact hfree j (by rw [slot_eq_job, hj]; rfl)
    exact (h.job j n conn closed hj).close hne (howner n)
  · exact (hfds n).mpr ⟨fun hne => hout (hne ▸ hn), h.laneOpen n (hlane.subset hn)⟩
  · rw [hfree']
    exact h.laneFree n (hlane.subset hn)
  · have hin : c.1 ∈ t.lane := List.mem_append_right _ (List.mem_map_of_mem hc)
    have hne : c.1 ≠ x := fun heq => hout (heq ▸ hin)
    rw [howner, if_neg hne]
    exact h.queued c (hqueue ▸ hc)
  · obtain ⟨ev, hn⟩ := hn
    have hne : n ≠ x := by
      rintro rfl
      simp [hepoll] at hn
    rw [hepoll, Function.update_of_ne hne] at hn
    rcases h.armed n ⟨ev, hn⟩ with ⟨hl, hf⟩ | hw
    · exact Or.inl ⟨fun hin => hl (hlane.subset hin), hfree' ▸ hf⟩
    · exact absurd (hwrites n hw) hne
  · obtain ⟨pc, hm, -⟩ := hw
    exact absurd hm (hmain n pc)

theorem job_setWorker {u : Server} {w : WorkerAt} (hu : u.workers = s.workers)
    (hw : ∀ x, w.job = some x → (s.workers i).job = some x) (j : Nat) (x : Nat × Option Nat × Bool)
    (hj : ((u.setWorker i w).workers j).job = some x) : (s.workers j).job = some x := by
  by_cases hji : j = i
  · subst hji
    rw [setWorker_self] at hj
    exact hw x hj
  · rwa [setWorker_ne hji, hu] at hj

theorem modfd_armed_of {x : Int} {ev : Ev} (h : (s.modfd x ev).Armed n) : s.Armed n ∨ (n : Int) = x := by
  obtain ⟨ev', h⟩ := h
  simp only [modfd] at h
  split at h
  next hx => exact Or.inr hx.1
  next => exact Or.inl ⟨ev', h⟩

theorem Apart.modfd {ev : Ev} (h : s.Apart) (ha : (s.modfd (s.slots fd).sockfd ev).Armed n) :
    s.Armed n ∨ n = fd := by
  refine (modfd_armed_of ha).imp_right fun hx => ?_
  rcases h.sock fd with heq | heq <;> rw [heq] at hx <;> omega

theorem Apart.writeArmed {w : WriteResult} (h : s.Apart) (ha : (s.write fd w).Armed n) : s.Armed n ∨ n = fd := by
  cases w with
  | again => exact h.modfd ha
  | finished =>
    change (s.modfd (s.slots fd).sockfd .epollin).Armed n at ha
    exact h.modfd ha
  | lastSent => exact h.modfd ha
  | failed => exact Or.inl ha

end Server

end CppInAction
