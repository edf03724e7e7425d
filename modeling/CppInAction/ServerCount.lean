import CppInAction.ServerStep

namespace CppInAction

namespace Server

/-- The counter is the number of open connections, and the tables were only used
below their size. -/
def CountsUsers (s : Server) : Prop := s.userCount = s.conns.length ∧ ∀ fd ∈ s.indexed, fd < maxFd

/-- No client has come yet. -/
structure Untouched (s : Server) : Prop where
  conns : s.conns = []
  userCount : s.userCount = 0
  indexed : s.indexed = []
  epoll : ∀ fd, s.epoll fd = none
  timers : s.timers.head = none
  queue : s.queue = []
  workers : ∀ i, s.workers i = .idle
  pending : s.pending = []
  main : s.main = .idle ∨ ∃ cur, s.main = .ticking cur

theorem start_untouched (reactor : Bool) : (start reactor).Untouched where
  conns := rfl
  userCount := rfl
  indexed := rfl
  epoll := fun _ => rfl
  timers := rfl
  queue := rfl
  workers := fun _ => rfl
  pending := rfl
  main := Or.inl rfl

theorem Untouched.countsUsers {s : Server} (h : s.Untouched) : s.CountsUsers := by
  refine ⟨?_, ?_⟩
  · rw [h.userCount, h.conns]
    rfl
  · rw [h.indexed]
    exact fun _ hfd => absurd hfd List.not_mem_nil

theorem Untouched.fetch {s : Server} {events : List (Nat × Event)} (h : s.Untouched)
    (hc : s.canFetch events = true) : (s.fetch events).Untouched := by
  have hnil : events = [] := by
    cases events with
    | nil => rfl
    | cons e rest => simp [canFetch, h.epoll] at hc
  subst hnil
  exact { h with pending := rfl, epoll := by simp [Server.fetch, h.epoll] }

theorem Untouched.workerStep {s : Server} {i : Nat} {r : Choice} (h : s.Untouched) :
    s.workerStep i r = none := by
  simp only [Server.workerStep, h.workers, h.queue]

/-- Until a client comes, nothing changes. -/
theorem Untouched.step {s t : Server} {a : Act} (h : s.Untouched)
    (ha : ∀ others now, a ≠ .accept others now) (hs : s.step a = some t) : t.Untouched := by
  have hmain : ∀ fd pc, s.main ≠ .handling fd pc ∧ ∀ a next, s.main ≠ .unlink a next := by
    intro fd pc
    rcases h.main with hm | ⟨cur, hm⟩ <;> simp [hm]
  obtain ⟨-, hs⟩ := step_moves hs
  cases hs with
  | accept hm => exact absurd rfl (ha _ _)
  | fetch hm hp hc => exact h.fetch hc
  | tick hm hp => exact { h with main := Or.inr ⟨_, rfl⟩ }
  | take hm hp => rw [h.pending] at hp; cases hp
  | handle hm => exact absurd hm (hmain _ _).1
  | unlink hm f => exact absurd hm ((hmain 0 .read).2 _ _)
  | ticking hm =>
    simp only [tickStep, TimerList.expired, h.timers]
    exact { h with main := Or.inl rfl }
  | worker hw => rw [h.workerStep] at hw; cases hw

theorem timer_conns (s : Server) (fd : Nat) (now : Int) :
    (s.timer fd now).conns = (fd, s.nextConn) :: s.conns ∧ (s.timer fd now).userCount = s.userCount := by
  unfold timer
  split
  next => exact ⟨rfl, rfl⟩
  next =>
    dsimp only
    split
    next => exact ⟨rfl, rfl⟩
    next => exact ⟨rfl, rfl⟩

/-- init() does not count the connection it sets up. -/
theorem Untouched.accept {s t : Server} {others : List Nat} {now : Int} (h : s.Untouched)
    (hs : s.step (.accept others now) = some t) : ¬ t.CountsUsers := by
  obtain ⟨-, hs⟩ := step_moves hs
  cases hs with
  | accept hm =>
    have hroom : ¬ (maxFd : Int) ≤ s.userCount := by
      rw [h.userCount]
      decide
    rintro ⟨hcount, -⟩
    rw [Server.accept, if_neg hroom, (timer_conns ..).1, (timer_conns ..).2, h.userCount, h.conns] at hcount
    cases hcount

/-- An action other than a successful accept. -/
def Act.quiet : Act → Bool
  | .accept _ _ => false
  | _ => true

/-- The counter is right exactly as long as no client connects. -/
theorem countsUsers_iff_quiet (reactor : Bool) (as : List Act) :
    Along step CountsUsers (start reactor) as ↔
      StepsMeet step (fun _ a => a.quiet = true) (start reactor) as := by
  refine along_iff_stepsMeet Untouched ?_ (fun _ => Untouched.countsUsers) ?_ as
    (start_untouched reactor)
  · intro s a t h ha hs
    exact h.step (by rintro others now rfl; cases ha) hs
  · intro s a t h ha hs
    cases a with
    | accept others now => exact h.accept hs
    | _ => exact absurd rfl ha

/-- One client is enough. -/
theorem countsUsers_not_always :
    ¬ ∀ (reactor : Bool) (as : List Act), Along step CountsUsers (start reactor) as := by
  intro h
  have hrun := (along_cons_some rfl).mp (h false [.accept [0, 1, 2] 0])
  exact (start_untouched false).accept rfl hrun.2

end Server

end CppInAction
