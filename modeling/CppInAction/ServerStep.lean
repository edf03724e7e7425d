import CppInAction.Server

namespace CppInAction

namespace Server

/-- The steps of the server. -/
inductive Moves (s : Server) : Act → Server → Prop
  | accept {others : List Nat} {now : Int} (hm : s.main = .idle) :
      Moves s (.accept others now) (s.accept others now)
  | fetch {events : List (Nat × Event)} (hm : s.main = .idle) (hp : s.pending = [])
      (hc : s.canFetch events = true) : Moves s (.fetch events) (s.fetch events)
  | tick {cur : Int} (hm : s.main = .idle) (hp : s.pending = []) :
      Moves s (.tick cur) { s with main := .ticking cur }
  | take {r : Choice} {fd : Nat} {e : Event} {rest : List (Nat × Event)} (hm : s.main = .idle)
      (hp : s.pending = (fd, e) :: rest) :
      Moves s (.main r) { s with pending := rest, main := .handling fd (s.dispatch e) }
  | handle {r : Choice} {fd : Nat} {pc : MainPc} (hm : s.main = .handling fd pc) :
      Moves s (.main r) (s.handler fd r pc)
  | unlink {r : Choice} {a : Nat} {next : MainAt} (hm : s.main = .unlink a next) (f : TimerFault) :
      Moves s (.main r) (s.crash f)
  | ticking {r : Choice} {cur : Int} (hm : s.main = .ticking cur) : Moves s (.main r) (s.tickStep cur)
  | worker {i : Nat} {r : Choice} {t : Server} (h : s.workerStep i r = some t) : Moves s (.worker i r) t

theorem mainStep_moves {s t : Server} {r : Choice} (h : s.mainStep r = some t) : s.Moves (.main r) t := by
  unfold mainStep at h
  split at h
  next hm =>
    split at h
    next => cases h
    next hp => cases Option.some.inj h; exact .take hm hp
  next hm => cases Option.some.inj h; exact .handle hm
  next a next hm =>
    obtain ⟨f, hf⟩ := TimerList.dropTimer_faults s.timers a
    rw [hf] at h
    cases Option.some.inj h
    exact .unlink hm f
  next hm => cases Option.some.inj h; exact .ticking hm

theorem step_moves {s t : Server} {a : Act} (h : s.step a = some t) : s.fault = none ∧ s.Moves a t := by
  unfold step at h
  split at h
  next => cases h
  next hf =>
    refine ⟨not_not.mp hf, ?_⟩
    cases a with
    | accept others now =>
      dsimp only at h
      split at h
      next hm => cases Option.some.inj h; exact .accept hm
      next => cases h
    | fetch events =>
      dsimp only at h
      split at h
      next hm => cases Option.some.inj h; exact .fetch hm.1 hm.2.1 hm.2.2
      next => cases h
    | tick cur =>
      dsimp only at h
      split at h
      next hm => cases Option.some.inj h; exact .tick hm.1 hm.2
      next => cases h
    | main r => exact mainStep_moves h
    | worker i r => exact .worker h

/-- The steps of a worker. -/
inductive WorkerMoves (s : Server) (i : Nat) (r : Choice) : Server → Prop
  | dequeue {fd : Nat} {conn : Option Nat} {rest : List (Nat × Option Nat)} (hw : s.workers i = .idle)
      (hq : s.queue = (fd, conn) :: rest) :
      WorkerMoves s i r
        ({ s with queue := rest }.setWorker i (.running fd conn (.start s.reactor (s.slots fd).state)))
  | read {fd : Nat} {conn : Option Nat} (hw : s.workers i = .running fd conn .reading) :
      WorkerMoves s i r (s.setWorker i (.running fd conn (if r.ok then .improvRead else .improvFail)))
  | write {fd : Nat} {conn : Option Nat} (hw : s.workers i = .running fd conn .writing) :
      WorkerMoves s i r ((s.write fd r.write).setWorker i
        (.running fd conn (if r.write.ok then .improvWrite else .improvFail)))
  | flags {fd : Nat} {conn : Option Nat} {pc : WorkerPc} {next : Option WorkerPc} {f : Flags}
      (hw : s.workers i = .running fd conn pc) (hf : pc.onFlags (s.slots fd).flags = some (next, f)) :
      WorkerMoves s i r ((s.setFlags fd f).setWorker i ((next.map (.running fd conn)).getD .idle))
  | answer {fd : Nat} {conn : Option Nat} {ev : Ev} (hw : s.workers i = .running fd conn .processing)
      (hr : r.process ≠ .failed) : WorkerMoves s i r (s.setWorker i (.rearm fd conn ev false))
  | close {fd : Nat} {conn : Option Nat} (hw : s.workers i = .running fd conn .processing)
      (hr : r.process = .failed) (hfd : (s.slots fd).sockfd ≠ -1) :
      WorkerMoves s i r ((s.closeFd (s.slots fd).sockfd.toNat conn).setWorker i (.closing fd conn))
  | skip {fd : Nat} {conn : Option Nat} (hw : s.workers i = .running fd conn .processing)
      (hr : r.process = .failed) (hfd : (s.slots fd).sockfd = -1) :
      WorkerMoves s i r (s.setWorker i (.rearm fd conn .epollout true))
  | forget {fd : Nat} {conn : Option Nat} (hw : s.workers i = .closing fd conn) :
      WorkerMoves s i r ((s.setSlot fd { s.slots fd with sockfd := -1 }).setWorker i (.counting fd conn))
  | count {fd : Nat} {conn : Option Nat} (hw : s.workers i = .counting fd conn) :
      WorkerMoves s i r ({ s with userCount := s.userCount - 1 }.setWorker i (.rearm fd conn .epollout true))
  | rearm {fd : Nat} {conn : Option Nat} {ev : Ev} {closed : Bool} (hw : s.workers i = .rearm fd conn ev closed) :
      WorkerMoves s i r ((s.modfd (s.slots fd).sockfd ev).setWorker i .idle)

theorem processStep_moves {s : Server} {i fd : Nat} {conn : Option Nat} {r : Choice}
    (hw : s.workers i = .running fd conn .processing) :
    s.WorkerMoves i r (s.processStep i fd conn r.process) := by
  unfold processStep
  split
  next hr => exact .answer hw (by rw [hr]; decide)
  next hr => exact .answer hw (by rw [hr]; decide)
  next hr =>
    split
    next hfd => exact .close hw hr hfd
    next hfd => exact .skip hw hr (not_not.mp hfd)

theorem workerStep_moves {s t : Server} {i : Nat} {r : Choice} (h : s.workerStep i r = some t) :
    s.WorkerMoves i r t := by
  unfold workerStep at h
  split at h
  next hw =>
    split at h
    next => cases h
    next hq => cases Option.some.inj h; exact .dequeue hw hq
  next hw => cases Option.some.inj h; exact .read hw
  next hw => cases Option.some.inj h; exact .write hw
  next hw => cases Option.some.inj h; exact processStep_moves hw
  next hw =>
    split at h
    next => cases h
    next hf => cases Option.some.inj h; exact .flags hw hf
  next hw => cases Option.some.inj h; exact .forget hw
  next hw => cases Option.some.inj h; exact .count hw
  next hw => cases Option.some.inj h; exact .rearm hw

theorem workerMoves_main {s t : Server} {i : Nat} {r : Choice} (h : s.WorkerMoves i r t) :
    t.main = s.main := by
  cases h with
  | write hw => cases r.write <;> rfl
  | _ => rfl

/-- The connection has its slot, its registration and its timer. -/
def admitted (s : Server) (fd a : Nat) (l : TimerList) : Server :=
  { s with
    conns := (fd, s.nextConn) :: s.conns
    nextConn := s.nextConn + 1
    indexed := fd :: s.indexed
    slots := Function.update s.slots fd ⟨fd, ⟨false, false⟩, .epollin⟩
    epoll := Function.update s.epoll fd (some (some .epollin))
    clientData := Function.update s.clientData fd ⟨fd, some a⟩
    madeFor := Function.update s.madeFor a s.nextConn
    timers := l }

/-- What an accept does, with the list of timers left open. -/
inductive AcceptMoves (s : Server) (fd : Nat) : Server → Prop
  | fault {t : Server} (h : t.fault ≠ none) (hw : t.workers = s.workers) : AcceptMoves s fd t
  | refuse : AcceptMoves s fd
      { s with nextConn := s.nextConn + 1, closes := s.closes ++ [⟨some s.nextConn, some s.nextConn⟩] }
  | opened {a : Nat} {l : TimerList} : AcceptMoves s fd (s.admitted fd a l)

theorem accept_moves (s : Server) (others : List Nat) (now : Int) :
    s.AcceptMoves (lowestFree (others ++ s.fds)) (s.accept others now) := by
  unfold accept
  split
  next => exact .refuse
  next =>
    unfold Server.timer
    split
    next => exact .fault (by simp) rfl
    next =>
      dsimp only
      split
      next => exact .fault (by simp [crash]) rfl
      next => exact .opened

/-- What a statement of a handler does, with the list of timers left open. -/
inductive HandlerMoves (s : Server) (fd : Nat) (r : Choice) : MainPc → Server → Prop
  | fault {pc : MainPc} {t : Server} (h : t.fault ≠ none) (hw : t.workers = s.workers) :
      HandlerMoves s fd r pc t
  | renewFirst {ev : Ev} (l : TimerList) :
      HandlerMoves s fd r (.renewFirst ev) { s with timers := l, main := .handling fd (.append ev) }
  | renewLast (l : TimerList) : HandlerMoves s fd r .renewLast { s with timers := l, main := .idle }
  | append {ev : Ev} (hq : s.queue.length < maxRequests) :
      HandlerMoves s fd r (.append ev) { s.setSlot fd { s.slots fd with state := ev } with
        queue := s.queue ++ [(fd, s.owner fd)], main := .handling fd (.poll ev), handed := true }
  | appendP (hq : s.queue.length < maxRequests) :
      HandlerMoves s fd r .appendP
        { s with queue := s.queue ++ [(fd, s.owner fd)], main := .handling fd .renewLast, handed := true }
  | refuse {ev : Ev} (hq : maxRequests ≤ s.queue.length) :
      HandlerMoves s fd r (.append ev) { s with main := .handling fd (.poll ev), handed := false }
  | refuseP (hq : maxRequests ≤ s.queue.length) :
      HandlerMoves s fd r .appendP { s with main := .handling fd .renewLast, handed := false }
  | remove {ev : Ev} (a : Nat) (next : MainAt) :
      HandlerMoves s fd r (.remove ev) { s.cbFunc (s.clientData fd) a with main := .unlink a next }
  | removeLast (a : Nat) (next : MainAt) :
      HandlerMoves s fd r .removeLast { s.cbFunc (s.clientData fd) a with main := .unlink a next }
  | read : HandlerMoves s fd r .read
      { s with main := .handling fd (if r.ok then .appendP else .removeLast) }
  | write : HandlerMoves s fd r .write { s.write fd r.write with
      main := .handling fd (if r.write.ok then .renewLast else .removeLast) }
  | flags {pc : MainPc} {next : Option MainPc} {f : Flags}
      (hf : pc.onFlags (s.slots fd).flags = some (next, f)) :
      HandlerMoves s fd r pc { s.setFlags fd f with main := (next.map (.handling fd)).getD .idle }

theorem renew_eq (s : Server) (fd : Nat) (now : Int) (next : MainAt) :
    ((s.renew fd now next).fault ≠ none ∧ (s.renew fd now next).workers = s.workers) ∨
      ∃ l, s.renew fd now next = { s with timers := l, main := next } := by
  unfold renew
  split
  next => exact Or.inr ⟨s.timers, rfl⟩
  next =>
    split
    next => exact Or.inl ⟨by simp [crash], rfl⟩
    next l _ => exact Or.inr ⟨l, rfl⟩

theorem delTimer_eq (s : Server) (fd : Nat) (next : MainAt) :
    ((s.delTimer fd next).fault ≠ none ∧ (s.delTimer fd next).workers = s.workers) ∨
      ∃ a, s.delTimer fd next = { s.cbFunc (s.clientData fd) a with main := .unlink a next } := by
  unfold delTimer
  split
  next => exact Or.inl ⟨by simp [crash], rfl⟩
  next a _ _ => exact Or.inr ⟨a, rfl⟩

theorem handler_moves (s : Server) (fd : Nat) (r : Choice) (pc : MainPc) :
    s.HandlerMoves fd r pc (s.handler fd r pc) := by
  cases pc with
  | renewFirst ev =>
    rcases s.renew_eq fd r.now (.handling fd (.append ev)) with h | ⟨l, h⟩
    · exact .fault h.1 h.2
    · rw [handler, h]
      exact .renewFirst l
  | renewLast =>
    rcases s.renew_eq fd r.now .idle with h | ⟨l, h⟩
    · exact .fault h.1 h.2
    · rw [handler, h]
      exact .renewLast l
  | append ev =>
    simp only [handler, Server.append]
    split
    next hq => exact .refuse hq
    next hq => exact .append (Nat.lt_of_not_le hq)
  | appendP =>
    simp only [handler, Server.append]
    split
    next hq => exact .refuseP hq
    next hq => exact .appendP (Nat.lt_of_not_le hq)
  | remove ev =>
    rcases s.delTimer_eq fd (.handling fd (.clearFlag ev)) with h | ⟨a, h⟩
    · exact .fault h.1 h.2
    · rw [handler, h]
      exact .remove a _
  | removeLast =>
    rcases s.delTimer_eq fd .idle with h | ⟨a, h⟩
    · exact .fault h.1 h.2
    · rw [handler, h]
      exact .removeLast a _
  | read => exact .read
  | write => exact .write
  | poll ev => exact .flags rfl
  | sawImprov ev => exact .flags rfl
  | clearFlag ev => cases ev <;> exact .flags rfl
  | clearImprov ev => cases ev <;> exact .flags rfl

/-- What a round of tick does, with the list of timers left open. -/
inductive TickMoves (s : Server) (cur : Int) : Server → Prop
  | fault {t : Server} (h : t.fault ≠ none) (hw : t.workers = s.workers) : TickMoves s cur t
  | done : TickMoves s cur { s with main := .idle }
  | expire {a : Nat} {c : UtilTimer} (l : TimerList) (he : s.timers.expired cur = .ok (some (a, c))) :
      TickMoves s cur { s.cbFunc (s.clientData c.userData) a with timers := l }

theorem tickStep_moves (s : Server) (cur : Int) : s.TickMoves cur (s.tickStep cur) := by
  unfold tickStep
  split
  next => exact .fault (by simp [crash]) rfl
  next => exact .done
  next he =>
    dsimp only
    split
    next => exact .fault (by simp [crash]) rfl
    next l _ => exact .expire l he

theorem AcceptMoves.workers {s t : Server} {fd : Nat} (h : s.AcceptMoves fd t) : t.workers = s.workers := by
  cases h with
  | fault _ hw => exact hw
  | _ => rfl

theorem HandlerMoves.workers {s t : Server} {fd : Nat} {r : Choice} {pc : MainPc}
    (h : s.HandlerMoves fd r pc t) : t.workers = s.workers := by
  cases h with
  | fault _ hw => exact hw
  | write => cases r.write <;> rfl
  | _ => rfl

theorem TickMoves.workers {s t : Server} {cur : Int} (h : s.TickMoves cur t) : t.workers = s.workers := by
  cases h with
  | fault _ hw => exact hw
  | _ => rfl

def Act.byWorker : Act → Bool
  | .worker _ _ => true
  | _ => false

/-- The workers move by their own steps only. -/
theorem moves_workers {s t : Server} {a : Act} (h : s.Moves a t) (ha : a.byWorker = false) :
    t.workers = s.workers := by
  cases h with
  | accept hm => exact (s.accept_moves _ _).workers
  | handle hm => exact (s.handler_moves _ _ _).workers
  | ticking hm => exact (s.tickStep_moves _).workers
  | worker hw => cases ha
  | _ => rfl

/-- The kernel never gives out a descriptor that is in use. -/
theorem lowestFree_not_mem (used : List Nat) : lowestFree used ∉ used := by
  cases hf : (List.range (used.length + 1)).find? (· ∉ used) with
  | some n =>
    rw [lowestFree, hf]
    simpa using List.find?_some hf
  | none =>
    have hsub : List.range (used.length + 1) ⊆ used := fun n hn => by
      simpa using List.find?_eq_none.mp hf n hn
    have hlen := (List.nodup_range.subperm hsub).length_le
    rw [List.length_range] at hlen
    omega

variable {s : Server} {fd n : Nat}

theorem mem_fds : n ∈ s.fds ↔ (s.owner n).isSome := by
  simp [fds, owner]

theorem owner_of_mem {k : Nat} (hnd : s.fds.Nodup) (h : (fd, k) ∈ s.conns) : s.owner fd = some k := by
  obtain ⟨front, back, heq⟩ := List.append_of_mem h
  rw [fds, heq, List.map_append, List.map_cons, List.nodup_append] at hnd
  rw [owner, heq, List.lookup_eq_some_iff]
  refine ⟨front, back, rfl, fun c hc => ?_⟩
  simpa using Ne.symm (hnd.2.2 c.1 (List.mem_map_of_mem hc) fd (by simp))

theorem closeFd_owner (meant : Option Nat) :
    (s.closeFd fd meant).owner n = if n = fd then none else s.owner n := by
  simp only [owner, closeFd]
  split
  next h =>
    subst h
    refine List.lookup_eq_none_iff.mpr fun c hc => ?_
    have hne : c.1 ≠ n := by simpa using (List.mem_filter.mp hc).2
    simpa using Ne.symm hne
  next h =>
    induction s.conns with
    | nil => rfl
    | cons c conns ih =>
      obtain ⟨m, k⟩ := c
      by_cases hm : m = fd
      · rw [List.filter_cons_of_neg (by simp [hm]), ih, List.lookup_cons, beq_false_of_ne (hm ▸ h)]
      · rw [List.filter_cons_of_pos (by simp [hm]), List.lookup_cons, List.lookup_cons, ih]

theorem admitted_owner (a : Nat) (l : TimerList) :
    (s.admitted fd a l).owner n = if n = fd then some s.nextConn else s.owner n := by
  simp only [owner, admitted, List.lookup_cons]
  split
  next h => rw [if_pos (beq_iff_eq.mp h)]
  next h => rw [if_neg (by simpa using h)]

end Server

end CppInAction
