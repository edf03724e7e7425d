import CppInAction.ServerStep

namespace CppInAction

/-- The worker has taken a request in reactor mode and not yet answered the main thread. -/
def WorkerAt.shaking : WorkerAt → Bool
  | .running _ _ pc => pc ≠ .processing
  | _ => false

/-- The statements of a worker between taking a request for an event and its first store. -/
def WorkerPc.serves : Ev → WorkerPc → Bool
  | .epollin, .reading => true
  | .epollin, .improvRead => true
  | .epollout, .writing => true
  | .epollout, .improvWrite => true
  | _, .improvFail => true
  | _, _ => false

/-- The statements of the handlers outside the wait loops, in the mode they occur in. -/
def MainPc.steady (reactor : Bool) : MainPc → Bool
  | .renewFirst _ => reactor
  | .append _ => reactor
  | .read => !reactor
  | .appendP => !reactor
  | .write => true
  | .renewLast => true
  | .removeLast => true
  | _ => false

def MainAt.steady (reactor : Bool) : MainAt → Bool
  | .handling _ pc => pc.steady reactor
  | .unlink _ _ => false
  | _ => true

theorem MainPc.onFlags_steady {f : Flags} {reactor : Bool} {pc : MainPc} {x : Option MainPc × Flags}
    (h : pc.onFlags f = some x) : pc.steady reactor = false := by
  cases pc with
  | poll ev => rfl
  | sawImprov ev => rfl
  | clearFlag ev => rfl
  | clearImprov ev => rfl
  | _ => cases h

namespace Server

variable {s t : Server} {fd i : Nat} {ev : Ev} {pc : MainPc} {r : Choice}

def flags (s : Server) (fd : Nat) : Flags := (s.slots fd).flags

/-- No worker but the given one owes the main thread an answer. -/
def StillBut (s : Server) (i : Option Nat) : Prop := ∀ j, i ≠ some j → (s.workers j).shaking = false

/-- The stages of the request that the main thread waits for in reactor mode. -/
inductive Stage (s : Server) (fd : Nat) (ev : Ev) : MainPc → Prop
  | queued {conn : Option Nat} (hq : s.queue = [(fd, conn)]) (hstate : (s.slots fd).state = ev)
      (hf : s.flags fd = ⟨false, false⟩) (hstill : s.StillBut none) : Stage s fd ev (.poll ev)
  | taken {i : Nat} {conn : Option Nat} {wpc : WorkerPc} (hw : s.workers i = .running fd conn wpc)
      (hserves : wpc.serves ev = true) (hq : s.queue = []) (hf : s.flags fd = ⟨false, false⟩)
      (hstill : s.StillBut (some i)) : Stage s fd ev (.poll ev)
  | failing {i : Nat} {conn : Option Nat} {pc : MainPc} (hpc : pc = .poll ev ∨ pc = .sawImprov ev)
      (hw : s.workers i = .running fd conn .flagFail) (hq : s.queue = [])
      (hf : s.flags fd = ⟨true, false⟩) (hstill : s.StillBut (some i)) : Stage s fd ev pc
  | answered {pc : MainPc} (hpc : pc = .poll ev ∨ pc = .sawImprov ev ∨ pc = .clearImprov ev)
      (hq : s.queue = []) (hf : s.flags fd = ⟨true, false⟩) (hstill : s.StillBut none) : Stage s fd ev pc
  | failed {pc : MainPc} (hpc : pc = .poll ev ∨ pc = .sawImprov ev ∨ pc = .remove ev)
      (hq : s.queue = []) (hf : s.flags fd = ⟨true, true⟩) (hstill : s.StillBut none) : Stage s fd ev pc

/-- How the main thread and the workers stand to each other: the main thread is about
to fault in del_timer, or no answer is owed, or one is owed for the request at hand. -/
inductive Shake (s : Server) : Prop
  | doomed {a : Nat} {next : MainAt} (hm : s.main = .unlink a next) (hstill : s.StillBut none)
      (hq : s.reactor = true → s.queue = []) : Shake s
  | calm (hm : s.main.steady s.reactor = true) (hstill : s.StillBut none)
      (hr : s.reactor = true → s.queue = [] ∧ ∀ n, s.flags n = ⟨false, false⟩) : Shake s
  | wait {fd : Nat} {ev : Ev} {pc : MainPc} (hr : s.reactor = true) (hm : s.main = .handling fd pc)
      (hhanded : s.handed = true) (hother : ∀ n, n ≠ fd → s.flags n = ⟨false, false⟩)
      (hstage : s.Stage fd ev pc) : Shake s

theorem start_shake (reactor : Bool) : (start reactor).Shake :=
  .calm rfl (fun _ _ => rfl) (fun _ => ⟨rfl, fun _ => rfl⟩)

/-- A step that neither the wait loop nor the answer notices. -/
structure Unnoticed (s t : Server) : Prop where
  main : t.main = s.main
  reactor : t.reactor = s.reactor
  handed : t.handed = s.handed
  queue : t.queue = s.queue
  flags : ∀ n, t.flags n = s.flags n
  state : ∀ n, (t.slots n).state = (s.slots n).state
  still : ∀ j, (s.workers j).shaking = false → (t.workers j).shaking = false
  shaking : ∀ j, (s.workers j).shaking = true → t.workers j = s.workers j

theorem StillBut.unnoticed {o : Option Nat} (h : s.StillBut o) (hu : s.Unnoticed t) : t.StillBut o :=
  fun j hj => hu.still j (h j hj)

theorem Stage.unnoticed (h : s.Stage fd ev pc) (hu : s.Unnoticed t) : t.Stage fd ev pc := by
  have hshaking : ∀ {w : WorkerAt} {j}, s.workers j = w → w.shaking = true → t.workers j = w := by
    rintro w j rfl hw
    exact hu.shaking j hw
  cases h with
  | queued hq hstate hf hstill =>
    exact .queued (hu.queue.trans hq) ((hu.state fd).trans hstate) ((hu.flags fd).trans hf)
      (hstill.unnoticed hu)
  | taken hw hserves hq hf hstill =>
    refine .taken (hshaking hw ?_) hserves (hu.queue.trans hq) ((hu.flags fd).trans hf) (hstill.unnoticed hu)
    rename_i wpc
    cases wpc <;> cases ev <;> first | rfl | cases hserves
  | failing hpc hw hq hf hstill =>
    exact .failing hpc (hshaking hw rfl) (hu.queue.trans hq) ((hu.flags fd).trans hf) (hstill.unnoticed hu)
  | answered hpc hq hf hstill =>
    exact .answered hpc (hu.queue.trans hq) ((hu.flags fd).trans hf) (hstill.unnoticed hu)
  | failed hpc hq hf hstill =>
    exact .failed hpc (hu.queue.trans hq) ((hu.flags fd).trans hf) (hstill.unnoticed hu)

theorem Shake.unnoticed (h : s.Shake) (hu : s.Unnoticed t) : t.Shake := by
  cases h with
  | doomed hm hstill hq =>
    refine .doomed (hu.main.trans hm) (hstill.unnoticed hu) ?_
    rw [hu.reactor, hu.queue]
    exact hq
  | calm hm hstill hr =>
    refine .calm (by rw [hu.main, hu.reactor]; exact hm) (hstill.unnoticed hu) ?_
    rw [hu.reactor, hu.queue]
    exact fun ht => ⟨(hr ht).1, fun n => (hu.flags n).trans ((hr ht).2 n)⟩
  | wait hr hm hhanded hother hstage =>
    exact .wait (hu.reactor.trans hr) (hu.main.trans hm) (hu.handed.trans hhanded)
      (fun n hn => (hu.flags n).trans (hother n hn)) (hstage.unnoticed hu)

theorem setWorker_self (s : Server) (i : Nat) (w : WorkerAt) : (s.setWorker i w).workers i = w :=
  Function.update_self _ _ _

theorem setWorker_ne {j : Nat} (hj : j ≠ i) (w : WorkerAt) : (s.setWorker i w).workers j = s.workers j :=
  Function.update_of_ne hj _ _

theorem setFlags_self (s : Server) (fd : Nat) (f : Flags) : (s.setFlags fd f).flags fd = f := by
  simp [setFlags, setSlot, flags]

theorem setFlags_ne {n : Nat} (hn : n ≠ fd) (f : Flags) : (s.setFlags fd f).flags n = s.flags n := by
  simp [setFlags, setSlot, flags, Function.update_of_ne hn]

theorem setFlags_state (fd : Nat) (f : Flags) (n : Nat) :
    ((s.setFlags fd f).slots n).state = (s.slots n).state := by
  by_cases hn : n = fd
  · subst hn
    simp [setFlags, setSlot]
  · simp [setFlags, setSlot, Function.update_of_ne hn]

/-- write() does not touch clear flags. -/
theorem write_flags (hf : s.flags fd = ⟨false, false⟩) (w : WriteResult) (n : Nat) :
    (s.write fd w).flags n = s.flags n := by
  cases w with
  | finished =>
    by_cases hn : n = fd
    · subst hn
      simpa [write, setSlot, flags] using hf.symm
    · simp [write, setSlot, flags, modfd, Function.update_of_ne hn]
  | _ => rfl

/-- What the steps of a worker inside process() have in common. -/
theorem unnoticed_setWorker {u : Server} {w : WorkerAt} (hmain : u.main = s.main)
    (hreactor : u.reactor = s.reactor) (hhanded : u.handed = s.handed) (hqueue : u.queue = s.queue)
    (hflags : ∀ n, u.flags n = s.flags n) (hstate : ∀ n, (u.slots n).state = (s.slots n).state)
    (hworkers : u.workers = s.workers) (hi : (s.workers i).shaking = false) (hw : w.shaking = false) :
    s.Unnoticed (u.setWorker i w) where
  main := hmain
  reactor := hreactor
  handed := hhanded
  queue := hqueue
  flags := hflags
  state := hstate
  still := fun j hj => by
    by_cases hji : j = i
    · rw [hji, setWorker_self]
      exact hw
    · rw [setWorker_ne hji, hworkers]
      exact hj
  shaking := fun j hj => by
    have hji : j ≠ i := by
      rintro rfl
      rw [hi] at hj
      cases hj
    rw [setWorker_ne hji, hworkers]

theorem setSlot_sockfd_flags (fd : Nat) (x : Int) (n : Nat) :
    (s.setSlot fd { s.slots fd with sockfd := x }).flags n = s.flags n ∧
      ((s.setSlot fd { s.slots fd with sockfd := x }).slots n).state = (s.slots n).state := by
  by_cases hn : n = fd
  · subst hn
    simp [setSlot, flags]
  · simp [setSlot, flags, Function.update_of_ne hn]

theorem setSlot_state_flags (fd : Nat) (ev : Ev) (n : Nat) :
    (s.setSlot fd { s.slots fd with state := ev }).flags n = s.flags n := by
  by_cases hn : n = fd
  · subst hn
    simp [setSlot, flags]
  · simp [setSlot, flags, Function.update_of_ne hn]

/-- Inside process() a worker is not noticed. -/
theorem workerMoves_unnoticed (h : s.WorkerMoves i r t) (hi : (s.workers i).shaking = false)
    (hbusy : s.workers i ≠ .idle) : s.Unnoticed t := by
  cases h with
  | dequeue hw hq => exact absurd hw hbusy
  | read hw => rw [hw] at hi; cases hi
  | write hw => rw [hw] at hi; cases hi
  | flags hw hf =>
    rename_i wpc _ _
    rw [hw] at hi
    cases wpc with
    | processing => cases hf
    | _ => cases hi
  | answer hw hr =>
    exact unnoticed_setWorker rfl rfl rfl rfl (fun _ => rfl) (fun _ => rfl) rfl hi rfl
  | close hw hr hfd =>
    exact unnoticed_setWorker rfl rfl rfl rfl (fun _ => rfl) (fun _ => rfl) rfl hi rfl
  | skip hw hr hfd =>
    exact unnoticed_setWorker rfl rfl rfl rfl (fun _ => rfl) (fun _ => rfl) rfl hi rfl
  | forget hw =>
    exact unnoticed_setWorker rfl rfl rfl rfl (fun n => (setSlot_sockfd_flags _ _ n).1)
      (fun n => (setSlot_sockfd_flags _ _ n).2) rfl hi rfl
  | count hw =>
    exact unnoticed_setWorker rfl rfl rfl rfl (fun _ => rfl) (fun _ => rfl) rfl hi rfl
  | rearm hw =>
    exact unnoticed_setWorker rfl rfl rfl rfl (fun _ => rfl) (fun _ => rfl) rfl hi rfl

theorem StillBut.setWorker {o : Option Nat} {u : Server} {w : WorkerAt} (h : s.StillBut (some i))
    (hworkers : u.workers = s.workers) (hw : o = some i ∨ w.shaking = false) :
    (u.setWorker i w).StillBut o := by
  intro j hj
  by_cases hji : j = i
  · subst hji
    rw [setWorker_self]
    exact hw.resolve_left hj
  · rw [setWorker_ne hji, hworkers]
    exact h j fun heq => hji (Option.some.inj heq).symm

theorem StillBut.weaken (h : s.StillBut none) : s.StillBut (some i) := fun j _ => h j nofun

/-- The shaking worker of a stage is the one that moves, and its slot the one at hand. -/
theorem Stage.shaking {n : Nat} {conn : Option Nat} {wpc : WorkerPc} (h : s.Stage fd ev pc)
    (hw : s.workers i = .running n conn wpc) (hs : wpc ≠ .processing) :
    n = fd ∧ s.queue = [] ∧ s.StillBut (some i) ∧
      (pc = .poll ev ∧ wpc.serves ev = true ∧ s.flags fd = ⟨false, false⟩ ∨
        (pc = .poll ev ∨ pc = .sawImprov ev) ∧ wpc = .flagFail ∧ s.flags fd = ⟨true, false⟩) := by
  have hshaking : (s.workers i).shaking = true := by
    rw [hw]
    exact decide_eq_true hs
  have hnone : ¬ s.StillBut none := fun hstill => by
    rw [hstill i nofun] at hshaking
    cases hshaking
  have hsame : ∀ {j}, s.StillBut (some j) → j = i := by
    intro j hstill
    by_contra hji
    rw [hstill i fun heq => hji (Option.some.inj heq)] at hshaking
    cases hshaking
  cases h with
  | queued hq hstate hf hstill => exact absurd hstill hnone
  | taken hw' hserves hq hf hstill =>
    obtain rfl := hsame hstill
    cases hw.symm.trans hw'
    exact ⟨rfl, hq, hstill, Or.inl ⟨rfl, hserves, hf⟩⟩
  | failing hpc hw' hq hf hstill =>
    obtain rfl := hsame hstill
    cases hw.symm.trans hw'
    exact ⟨rfl, hq, hstill, Or.inr ⟨hpc, rfl, hf⟩⟩
  | answered hpc hq hf hstill => exact absurd hstill hnone
  | failed hpc hq hf hstill => exact absurd hstill hnone

theorem Stage.dequeue {n : Nat} {conn : Option Nat} {rest : List (Nat × Option Nat)} (h : s.Stage fd ev pc)
    (hr : s.reactor = true) (hq : s.queue = (n, conn) :: rest) :
    ({ s with queue := rest }.setWorker i (.running n conn (.start s.reactor (s.slots n).state))).Stage
      fd ev pc := by
  cases h with
  | queued hq' hstate hf hstill =>
    cases hq.symm.trans hq'
    refine .taken (setWorker_self _ _ _) ?_ rfl hf ((StillBut.weaken hstill).setWorker rfl (Or.inl rfl))
    rw [hr, hstate]
    cases ev <;> rfl
  | taken hw hserves hq' hf hstill => cases hq.symm.trans hq'
  | failing hpc hw hq' hf hstill => cases hq.symm.trans hq'
  | answered hpc hq' hf hstill => cases hq.symm.trans hq'
  | failed hpc hq' hf hstill => cases hq.symm.trans hq'

theorem Stage.read {n : Nat} {conn : Option Nat} (h : s.Stage fd ev pc)
    (hw : s.workers i = .running n conn .reading) (ok : Bool) :
    (s.setWorker i (.running n conn (if ok then .improvRead else .improvFail))).Stage fd ev pc := by
  obtain ⟨rfl, hq, hstill, ⟨rfl, hserves, hf⟩ | ⟨-, hpc, -⟩⟩ := h.shaking hw (by decide)
  · refine .taken (setWorker_self _ _ _) ?_ hq hf (hstill.setWorker rfl (Or.inl rfl))
    cases ev with
    | epollin => cases ok <;> rfl
    | epollout => cases hserves
  · cases hpc

theorem Stage.write {n : Nat} {conn : Option Nat} (h : s.Stage fd ev pc)
    (hw : s.workers i = .running n conn .writing) (w : WriteResult) :
    ((s.write n w).setWorker i (.running n conn (if w.ok then .improvWrite else .improvFail))).Stage
      fd ev pc := by
  obtain ⟨rfl, hq, hstill, ⟨rfl, hserves, hf⟩ | ⟨-, hpc, -⟩⟩ := h.shaking hw (by decide)
  · have hworkers : (s.write n w).workers = s.workers := by cases w <;> rfl
    have hqueue : (s.write n w).queue = s.queue := by cases w <;> rfl
    refine .taken (setWorker_self _ _ _) ?_ (hqueue.trans hq) ((write_flags hf w n).trans hf)
      (hstill.setWorker hworkers (Or.inl rfl))
    cases ev with
    | epollin => cases hserves
    | epollout => cases w <;> rfl
  · cases hpc

/-- The stores of a worker to the flags move the request to its next stage. -/
theorem Stage.flagStore {n : Nat} {conn : Option Nat} {wpc : WorkerPc} {next : Option WorkerPc} {f : Flags}
    (h : s.Stage fd ev pc) (hw : s.workers i = .running n conn wpc)
    (hf : wpc.onFlags (s.slots n).flags = some (next, f)) :
    n = fd ∧ ((s.setFlags n f).setWorker i ((next.map (.running n conn)).getD .idle)).Stage fd ev pc := by
  have hs : wpc ≠ .processing := by
    rintro rfl
    cases hf
  obtain ⟨rfl, hq, hstill, ⟨rfl, hserves, hflags⟩ | ⟨hpc, rfl, hflags⟩⟩ := h.shaking hw hs
  · refine ⟨rfl, ?_⟩
    change wpc.onFlags (s.flags n) = _ at hf
    rw [hflags] at hf
    cases wpc with
    | improvRead =>
      cases hf
      exact .answered (Or.inl rfl) hq (setFlags_self _ _ _) (hstill.setWorker rfl (Or.inr rfl))
    | improvWrite =>
      cases hf
      exact .answered (Or.inl rfl) hq (setFlags_self _ _ _) (hstill.setWorker rfl (Or.inr rfl))
    | improvFail =>
      cases hf
      exact .failing (Or.inl rfl) (setWorker_self _ _ _) hq (setFlags_self _ _ _)
        (hstill.setWorker rfl (Or.inl rfl))
    | flagFail => cases ev <;> cases hserves
    | _ => cases hf
  · refine ⟨rfl, ?_⟩
    change WorkerPc.flagFail.onFlags (s.flags n) = _ at hf
    rw [hflags] at hf
    cases hf
    exact .failed (hpc.imp_right Or.inl) hq (setFlags_self _ _ _) (hstill.setWorker rfl (Or.inr rfl))

theorem write_other (s : Server) (fd : Nat) (w : WriteResult) :
    (s.write fd w).main = s.main ∧ (s.write fd w).reactor = s.reactor ∧ (s.write fd w).handed = s.handed ∧
      (s.write fd w).queue = s.queue ∧ (s.write fd w).workers = s.workers := by
  cases w <;> exact ⟨rfl, rfl, rfl, rfl, rfl⟩

/-- A worker that owes an answer is the one the main thread waits for. -/
theorem Shake.shaking (h : s.Shake) (hw : (s.workers i).shaking = true) :
    ∃ fd ev pc, s.reactor = true ∧ s.main = .handling fd pc ∧ s.handed = true ∧
      (∀ n, n ≠ fd → s.flags n = ⟨false, false⟩) ∧ s.Stage fd ev pc := by
  have hnone : ¬ s.StillBut none := fun hstill => by
    rw [hstill i nofun] at hw
    cases hw
  cases h with
  | doomed hu hstill hq => exact absurd hstill hnone
  | calm hmain hstill hr => exact absurd hstill hnone
  | wait hr hmain hhanded hother hstage => exact ⟨_, _, _, hr, hmain, hhanded, hother, hstage⟩

theorem Shake.dequeue {n : Nat} {conn : Option Nat} {rest : List (Nat × Option Nat)} (h : s.Shake)
    (hq : s.queue = (n, conn) :: rest) :
    ({ s with queue := rest }.setWorker i (.running n conn (.start s.reactor (s.slots n).state))).Shake := by
  have hproactor : (s.reactor = true → s.queue = []) → s.reactor = false := fun hnil =>
    Bool.eq_false_iff.mpr fun ht => by cases hq.symm.trans (hnil ht)
  have hstill' : s.StillBut none → s.reactor = false → ({ s with queue := rest }.setWorker i
      (.running n conn (.start s.reactor (s.slots n).state))).StillBut none := fun hstill hr => by
    refine (StillBut.weaken hstill).setWorker rfl (Or.inr ?_)
    rw [hr]
    cases (s.slots n).state <;> rfl
  cases h with
  | doomed hm hstill hnil =>
    have hr := hproactor hnil
    exact .doomed hm (hstill' hstill hr) fun ht => by cases hr.symm.trans ht
  | calm hm hstill hcalm =>
    have hr := hproactor fun ht => (hcalm ht).1
    exact .calm hm (hstill' hstill hr) fun ht => by cases hr.symm.trans ht
  | wait hr hm hhanded hother hstage => exact .wait hr hm hhanded hother (hstage.dequeue hr hq)

theorem Shake.worker (h : s.Shake) (hw : s.WorkerMoves i r t) : t.Shake := by
  by_cases hs : (s.workers i).shaking = true
  · obtain ⟨fd, ev, pc, hr, hm, hhanded, hother, hstage⟩ := h.shaking hs
    cases hw with
    | read hw => exact .wait hr hm hhanded hother (hstage.read hw r.ok)
    | write hw =>
      rename_i n conn
      obtain ⟨hmain, hreactor, hh, -, -⟩ := s.write_other n r.write
      obtain ⟨rfl, -, -, ⟨-, -, hf⟩ | ⟨-, hpc, -⟩⟩ := hstage.shaking hw (by decide)
      · exact .wait (hreactor.trans hr) (hmain.trans hm) (hh.trans hhanded)
          (fun j hj => (write_flags hf r.write j).trans (hother j hj)) (hstage.write hw r.write)
      · cases hpc
    | flags hw hf =>
      obtain ⟨rfl, hstage'⟩ := hstage.flagStore hw hf
      exact .wait hr hm hhanded (fun j hj => (setFlags_ne hj _).trans (hother j hj)) hstage'
    | _ => simp_all [WorkerAt.shaking]
  · rw [Bool.not_eq_true] at hs
    by_cases hidle : s.workers i = .idle
    · cases hw with
      | dequeue hw hq => exact h.dequeue hq
      | _ => simp_all
    · exact h.unnoticed (workerMoves_unnoticed hw hs hidle)

/-- Outside the wait loops nothing is owed. -/
theorem Shake.steady (h : s.Shake) (hm : s.main.steady s.reactor = true) :
    s.StillBut none ∧ (s.reactor = true → s.queue = [] ∧ ∀ n, s.flags n = ⟨false, false⟩) := by
  cases h with
  | doomed hu _ _ =>
    rw [hu] at hm
    cases hm
  | calm _ hstill hr => exact ⟨hstill, hr⟩
  | wait hr hw hhanded hother hstage =>
    rw [hw, hr] at hm
    cases hstage with
    | queued => cases hm
    | taken => cases hm
    | failing hpc => rcases hpc with rfl | rfl <;> cases hm
    | answered hpc => rcases hpc with rfl | rfl | rfl <;> cases hm
    | failed hpc => rcases hpc with rfl | rfl | rfl <;> cases hm

theorem Shake.accept (h : s.Shake) (hm : s.main = .idle) (hs : s.AcceptMoves fd t) (hf : t.fault = none) :
    t.Shake := by
  obtain ⟨hstill, hr⟩ := h.steady (by rw [hm]; rfl)
  cases hs with
  | fault hne _ => exact absurd hf hne
  | refuse => exact .calm (by rw [hm]; rfl) hstill hr
  | opened =>
    refine .calm (by simp only [admitted, hm]; rfl) hstill fun ht => ⟨(hr ht).1, fun n => ?_⟩
    by_cases hn : n = fd
    · subst hn
      simp [admitted, flags]
    · simpa [admitted, flags, Function.update_of_ne hn] using (hr ht).2 n

theorem Shake.fetch (h : s.Shake) (events : List (Nat × Event)) : (s.fetch events).Shake :=
  h.unnoticed ⟨rfl, rfl, rfl, rfl, fun _ => rfl, fun _ => rfl, fun _ hj => hj, fun _ _ => rfl⟩

/-- The main thread goes from one place outside the wait loops to another. -/
theorem Shake.move {main : MainAt} (h : s.Shake) (hm : s.main.steady s.reactor = true) (hmain : t.main = main)
    (hsteady : main.steady s.reactor = true) (hreactor : t.reactor = s.reactor)
    (hqueue : s.reactor = true → t.queue = s.queue) (hflags : s.reactor = true → ∀ n, t.flags n = s.flags n)
    (hworkers : t.workers = s.workers) : t.Shake := by
  obtain ⟨hstill, hr⟩ := h.steady hm
  refine .calm (by rw [hmain, hreactor]; exact hsteady) (by rw [StillBut, hworkers]; exact hstill) ?_
  rw [hreactor]
  exact fun ht => ⟨(hqueue ht).trans (hr ht).1, fun n => (hflags ht n).trans ((hr ht).2 n)⟩

theorem Shake.take (h : s.Shake) (hm : s.main = .idle) (e : Event) (rest : List (Nat × Event)) :
    Shake { s with pending := rest, main := .handling fd (s.dispatch e) } := by
  refine h.move (by rw [hm]; rfl) rfl ?_ rfl (fun _ => rfl) (fun _ _ => rfl) rfl
  cases hr : s.reactor <;> cases e <;> simp [dispatch, MainPc.enter, MainAt.steady, MainPc.steady, hr]

theorem Shake.tick (h : s.Shake) (hm : s.main = .idle) (cur : Int) : Shake { s with main := .ticking cur } :=
  h.move (by rw [hm]; rfl) rfl rfl rfl (fun _ => rfl) (fun _ _ => rfl) rfl

theorem Shake.tickStep {cur : Int} (h : s.Shake) (hm : s.main = .ticking cur) (hs : s.TickMoves cur t)
    (hf : t.fault = none) : t.Shake := by
  cases hs with
  | fault hne _ => exact absurd hf hne
  | done => exact h.move (by rw [hm]; rfl) rfl rfl rfl (fun _ => rfl) (fun _ _ => rfl) rfl
  | expire l he => exact h.move (by rw [hm]; rfl) hm rfl rfl (fun _ => rfl) (fun _ _ => rfl) rfl

theorem Shake.handleSteady (h : s.Shake) (hm : s.main = .handling fd pc) (hpc : pc.steady s.reactor = true)
    (hs : s.HandlerMoves fd r pc t) (hf : t.fault = none) : t.Shake := by
  have hsteady : s.main.steady s.reactor = true := by rw [hm]; exact hpc
  obtain ⟨hstill, hr⟩ := h.steady hsteady
  cases hs with
  | fault hne _ => exact absurd hf hne
  | renewFirst l => exact h.move hsteady rfl hpc rfl (fun _ => rfl) (fun _ _ => rfl) rfl
  | renewLast l => exact h.move hsteady rfl rfl rfl (fun _ => rfl) (fun _ _ => rfl) rfl
  | append hq =>
    obtain ⟨hnil, hflags⟩ := hr hpc
    have hqueue : s.queue ++ [(fd, s.owner fd)] = [(fd, s.owner fd)] := by rw [hnil, List.nil_append]
    refine .wait hpc rfl rfl (fun n _ => (setSlot_state_flags fd _ n).trans (hflags n))
      (.queued hqueue ?_ ((setSlot_state_flags fd _ fd).trans (hflags fd)) hstill)
    simp [setSlot]
  | appendP hq =>
    refine h.move hsteady rfl rfl rfl (fun ht => ?_) (fun _ _ => rfl) rfl
    rw [ht] at hpc
    cases hpc
  | refuse hq =>
    rw [(hr hpc).1] at hq
    cases hq
  | refuseP hq => exact h.move hsteady rfl rfl rfl (fun _ => rfl) (fun _ _ => rfl) rfl
  | remove a next => cases hpc
  | removeLast a next => exact .doomed rfl hstill fun ht => (hr ht).1
  | read =>
    refine h.move hsteady rfl ?_ rfl (fun _ => rfl) (fun _ _ => rfl) rfl
    cases r.ok with
    | true => exact hpc
    | false => rfl
  | write =>
    obtain ⟨-, hreactor, -, hqueue, hworkers⟩ := s.write_other fd r.write
    refine h.move hsteady rfl ?_ hreactor (fun _ => hqueue) (fun ht => write_flags ((hr ht).2 fd) r.write)
      hworkers
    cases r.write.ok <;> rfl
  | flags hfl => rw [MainPc.onFlags_steady hfl] at hpc; cases hpc

/-- A wait loop moves on with the flags it finds. -/
theorem Stage.handle {next : Option MainPc} {f : Flags} (h : s.Stage fd ev pc) (hr : s.reactor = true)
    (hhanded : s.handed = true) (hother : ∀ n, n ≠ fd → s.flags n = ⟨false, false⟩)
    (hflag : pc = .sawImprov ev → ∀ i conn, s.workers i ≠ .running fd conn .flagFail)
    (hf : pc.onFlags (s.slots fd).flags = some (next, f)) :
    Shake { s.setFlags fd f with main := (next.map (.handling fd)).getD .idle } := by
  have hothers : ∀ f n, n ≠ fd → (s.setFlags fd f).flags n = ⟨false, false⟩ := fun f n hn =>
    (setFlags_ne hn f).trans (hother n hn)
  change pc.onFlags (s.flags fd) = _ at hf
  cases h with
  | queued hq hstate hff hstill =>
    rw [hff] at hf
    cases hf
    exact .wait hr rfl hhanded (hothers _)
      (.queued hq ((setFlags_state fd _ fd).trans hstate) (setFlags_self _ _ _) hstill)
  | taken hw hserves hq hff hstill =>
    rw [hff] at hf
    cases hf
    exact .wait hr rfl hhanded (hothers _) (.taken hw hserves hq (setFlags_self _ _ _) hstill)
  | failing hpc hw hq hff hstill =>
    rw [hff] at hf
    rcases hpc with rfl | rfl
    · cases hf
      exact .wait hr rfl hhanded (hothers _) (.failing (Or.inr rfl) hw hq (setFlags_self _ _ _) hstill)
    · exact absurd hw (hflag rfl _ _)
  | answered hpc hq hff hstill =>
    rw [hff] at hf
    have hcleared : ∀ n, (s.setFlags fd ⟨false, false⟩).flags n = ⟨false, false⟩ := by
      intro n
      by_cases hn : n = fd
      · rw [hn, setFlags_self]
      · exact hothers _ n hn
    rcases hpc with rfl | rfl | rfl
    · cases hf
      exact .wait hr rfl hhanded (hothers _)
        (.answered (Or.inr (Or.inl rfl)) hq (setFlags_self _ _ _) hstill)
    · cases hf
      exact .wait hr rfl hhanded (hothers _)
        (.answered (Or.inr (Or.inr rfl)) hq (setFlags_self _ _ _) hstill)
    · cases ev with
      | epollin => cases hf; exact .calm rfl hstill fun _ => ⟨hq, hcleared⟩
      | epollout => cases hf; exact .calm rfl hstill fun _ => ⟨hq, hcleared⟩
  | failed hpc hq hff hstill =>
    rw [hff] at hf
    rcases hpc with rfl | rfl | rfl
    · cases hf
      exact .wait hr rfl hhanded (hothers _)
        (.failed (Or.inr (Or.inl rfl)) hq (setFlags_self _ _ _) hstill)
    · cases hf
      exact .wait hr rfl hhanded (hothers _)
        (.failed (Or.inr (Or.inr rfl)) hq (setFlags_self _ _ _) hstill)
    · cases hf

theorem Stage.pc_cases (h : s.Stage fd ev pc) :
    pc = .poll ev ∨ pc = .sawImprov ev ∨ pc = .clearImprov ev ∨ pc = .remove ev := by
  cases h with
  | queued => exact Or.inl rfl
  | taken => exact Or.inl rfl
  | failing hpc => exact hpc.imp_right Or.inl
  | answered hpc => exact hpc.imp_right (Or.imp_right Or.inl)
  | failed hpc => exact hpc.imp_right (Or.imp_right Or.inr)

theorem Stage.remove {ev' : Ev} (h : s.Stage fd ev (.remove ev')) :
    s.queue = [] ∧ s.StillBut none ∧ s.flags fd = ⟨true, true⟩ := by
  cases h with
  | failing hpc => rcases hpc with hpc | hpc <;> cases hpc
  | answered hpc => rcases hpc with hpc | hpc | hpc <;> cases hpc
  | failed hpc hq hf hstill => exact ⟨hq, hstill, hf⟩

theorem Stage.clearImprov {ev' : Ev} (h : s.Stage fd ev (.clearImprov ev')) : s.queue = [] ∧ s.StillBut none := by
  cases h with
  | failing hpc => rcases hpc with hpc | hpc <;> cases hpc
  | answered hpc hq hf hstill => exact ⟨hq, hstill⟩
  | failed hpc => rcases hpc with hpc | hpc | hpc <;> cases hpc

theorem Shake.handle (h : s.Shake) (hm : s.main = .handling fd pc)
    (hflag : ∀ ev, pc = .sawImprov ev → ∀ i conn, s.workers i ≠ .running fd conn .flagFail)
    (hs : s.HandlerMoves fd r pc t) (hf : t.fault = none) : t.Shake := by
  cases h with
  | doomed hu _ _ => cases hm.symm.trans hu
  | calm hsteady hstill hr =>
    have hpc : pc.steady s.reactor = true := by
      rw [hm] at hsteady
      exact hsteady
    exact (Shake.calm hsteady hstill hr).handleSteady hm hpc hs hf
  | wait hr hw hhanded hother hstage =>
    cases hm.symm.trans hw
    cases hs with
    | fault hne _ => exact absurd hf hne
    | flags hfl => exact hstage.handle hr hhanded hother (hflag _) hfl
    | remove a next =>
      obtain ⟨hq, hstill, -⟩ := hstage.remove
      exact .doomed rfl hstill fun _ => hq
    | _ => rcases hstage.pc_cases with hpc | hpc | hpc | hpc <;> cases hpc

/-- The main thread does not read m_timer_flag between the two stores of a worker whose
read or write has failed. -/
def FlagsWhole (s : Server) : MainAt → Prop
  | .handling fd (.sawImprov _) => ∀ i conn, s.workers i ≠ .running fd conn .flagFail
  | _ => True

theorem FlagsWhole.flagFail (h : s.FlagsWhole (.handling fd pc)) (ev : Ev) (hpc : pc = .sawImprov ev) :
    ∀ i conn, s.workers i ≠ .running fd conn .flagFail := by
  subst hpc
  exact h

end Server

end CppInAction
