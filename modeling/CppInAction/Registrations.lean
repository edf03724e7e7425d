import CppInAction.Accounts
import CppInAction.Threads

namespace CppInAction

/-- Where a worker is in the registration branch: in front of users.find, of lock(), of
mysql_query, of users.insert, of unlock(), or done with the page it goes to. -/
inductive RegisterPc
  | finding
  | locking
  | querying
  | inserting
  | unlocking
  | answered (page : List UInt8)
deriving DecidableEq, Repr

/-- The worker has missed the name in the map and not yet put it there. -/
def RegisterPc.between : RegisterPc → Bool
  | .locking | .querying | .inserting => true
  | _ => false

/-- The worker has run its insert. -/
def RegisterPc.ran : RegisterPc → Bool
  | .inserting | .unlocking => true
  | .answered page => page = bytes "/log.html"
  | _ => false

def RegisterPc.done : RegisterPc → Bool
  | .answered _ => true
  | _ => false

theorem RegisterPc.done_of_between {pc : RegisterPc} (h : pc.between = true) : pc.done = false := by
  cases pc with
  | answered page => exact Bool.noConfusion h
  | _ => rfl

/-- A worker with the password of its request. -/
structure Registrant where
  password : List UInt8
  pc : RegisterPc
deriving DecidableEq

/-- Requests to register one name, and what their workers share. -/
structure Registrations where
  name : List UInt8
  users : List (List UInt8 × List UInt8)
  table : List (List UInt8 × List UInt8)
  locked : Bool
  workers : List Registrant

inductive RegisterAct
  | find (worker : Nat)
  | lock (worker : Nat)
  | query (worker : Nat)
  | insert (worker : Nat)
  | unlock (worker : Nat)
deriving DecidableEq, Repr

namespace Registrations

def init (rows : List (List UInt8 × List UInt8)) (name : List UInt8) (passwords : List (List UInt8)) :
    Registrations :=
  ⟨name, initMysqlResult rows, rows, false, passwords.map fun password => ⟨password, .finding⟩⟩

def setWorker (s : Registrations) (i : Nat) (password : List UInt8) (pc : RegisterPc) : Registrations :=
  { s with workers := s.workers.set i ⟨password, pc⟩ }

/-- map::insert, which leaves a name that is there alone. -/
def insertUser (s : Registrations) (password : List UInt8) : List (List UInt8 × List UInt8) :=
  if s.users.lookup s.name = none then s.users ++ [(s.name, password)] else s.users

def step (s : Registrations) : RegisterAct → Option Registrations
  | .find i => match s.workers[i]? with
    | some ⟨password, .finding⟩ => some (s.setWorker i password
        (if s.users.lookup s.name = none then .locking else .answered (bytes "/registerError.html")))
    | _ => none
  | .lock i => match s.workers[i]? with
    | some ⟨password, .locking⟩ => if s.locked then none else some { s.setWorker i password .querying with locked := true }
    | _ => none
  | .query i => match s.workers[i]? with
    | some ⟨password, .querying⟩ =>
      some { s.setWorker i password .inserting with table := s.table ++ [(s.name, password)] }
    | _ => none
  | .insert i => match s.workers[i]? with
    | some ⟨password, .inserting⟩ => some { s.setWorker i password .unlocking with users := s.insertUser password }
    | _ => none
  | .unlock i => match s.workers[i]? with
    | some ⟨password, .unlocking⟩ =>
      some { s.setWorker i password (.answered (bytes "/log.html")) with locked := false }
    | _ => none

/-- The rows of the name in the table. -/
def rows (s : Registrations) : List (List UInt8 × List UInt8) := s.table.filter (·.1 = s.name)

/-- At most one worker has run the insert, and when all are answered the map and the table
have one password for the name, the same one. -/
structure Single (s : Registrations) : Prop where
  one : ∀ (i j : Nat) (r q : Registrant), s.workers[i]? = some r → s.workers[j]? = some q →
    r.pc.ran → q.pc.ran → i = j
  same : s.workers ≠ [] → (∀ r ∈ s.workers, r.pc.done) →
    ∃ password, s.users.lookup s.name = some password ∧ s.rows = [(s.name, password)]

/-- No worker looks the name up while another one has missed it and not yet put it in the map. -/
def LooksAlone (s : Registrations) : RegisterAct → Prop
  | .find _ => ∀ r ∈ s.workers, r.pc.between = false
  | _ => True

instance (s : Registrations) : (a : RegisterAct) → Decidable (s.LooksAlone a)
  | .find _ => inferInstanceAs (Decidable (∀ r ∈ s.workers, r.pc.between = false))
  | .lock _ | .query _ | .insert _ | .unlock _ => inferInstanceAs (Decidable True)

variable {s t : Registrations} {i : Nat} {r : Registrant}

/-- How far the workers have come: nobody has missed the name yet, one has and the others
still have to look, or the name is in the map. -/
inductive Stage (s : Registrations) : Prop
  | unclaimed (absent : s.users.lookup s.name = none) (norows : s.rows = [])
      (waiting : ∀ r ∈ s.workers, r.pc = .finding)
  | claimed (i : Nat) (r : Registrant) (absent : s.users.lookup s.name = none) (here : s.workers[i]? = some r)
      (mine : r.pc.between = true) (row : s.rows = if r.pc = .inserting then [(s.name, r.password)] else [])
      (others : ∀ j q, j ≠ i → s.workers[j]? = some q → q.pc = .finding)
  | present (password : List UInt8) (found : s.users.lookup s.name = some password)
      (row : s.rows = [(s.name, password)]) (settled : ∀ r ∈ s.workers, r.pc.between = false)
      (owner : Nat) (one : ∀ (j : Nat) (q : Registrant), s.workers[j]? = some q → q.pc.ran → j = owner)

theorem Stage.single (h : s.Stage) : s.Single := by
  cases h with
  | unclaimed absent norows waiting =>
    refine ⟨fun i j r q hr _ hran _ => ?_, fun hne hall => ?_⟩
    · rw [waiting r (List.mem_of_getElem? hr)] at hran
      exact absurd hran (by decide)
    · obtain ⟨r, hr⟩ := List.exists_mem_of_ne_nil _ hne
      have hdone := hall r hr
      rw [waiting r hr] at hdone
      exact absurd hdone (by decide)
  | claimed k p absent here mine row others =>
    have hmine : ∀ (j : Nat) (q : Registrant), s.workers[j]? = some q → q.pc.ran → j = k := by
      intro j q hq hran
      by_contra hne
      rw [others j q hne hq] at hran
      exact absurd hran (by decide)
    refine ⟨fun i j r q hr hq hran hran' => (hmine i r hr hran).trans (hmine j q hq hran').symm,
      fun _ hall => ?_⟩
    have hdone := hall p (List.mem_of_getElem? here)
    rw [RegisterPc.done_of_between mine] at hdone
    exact absurd hdone (by decide)
  | present password found row settled owner one =>
    exact ⟨fun i j r q hr hq hran hran' => (one i r hr hran).trans (one j q hq hran').symm,
      fun _ _ => ⟨password, found, row⟩⟩

/-- What the workers are after one has moved: the one at its new place, the others as before. -/
theorem setWorker_at {pc : RegisterPc} {j : Nat} {q : Registrant} (h : (s.setWorker i r.password pc).workers[j]? = some q) :
    j = i ∧ q = ⟨r.password, pc⟩ ∨ j ≠ i ∧ s.workers[j]? = some q := set_at h

theorem setWorker_here {pc : RegisterPc} {a : Registrant} (h : s.workers[i]? = some a) :
    (s.setWorker i r.password pc).workers[i]? = some ⟨r.password, pc⟩ := by
  have hi := (List.getElem?_eq_some_iff.mp h).1
  exact List.getElem?_set_self hi

/-- The name is in the map: a worker may move on as long as it neither claims the name nor
runs an insert it has not run before. -/
theorem Stage.settle (locked : Bool) {pc : RegisterPc} {password : List UInt8} {owner : Nat}
    (found : s.users.lookup s.name = some password) (row : s.rows = [(s.name, password)])
    (settled : ∀ r ∈ s.workers, r.pc.between = false)
    (one : ∀ (j : Nat) (q : Registrant), s.workers[j]? = some q → q.pc.ran → j = owner) (hi : s.workers[i]? = some r)
    (hpc : pc.between = false) (hran : pc.ran → r.pc.ran) :
    Stage { s.setWorker i r.password pc with locked } := by
  refine .present password found row (fun q hq => ?_) owner (fun j q hq hq' => ?_)
  · obtain ⟨j, hj⟩ := List.mem_iff_getElem?.mp hq
    rcases setWorker_at hj with ⟨_, rfl⟩ | ⟨_, hj⟩
    · exact hpc
    · exact settled q (List.mem_of_getElem? hj)
  · rcases setWorker_at hq with ⟨rfl, rfl⟩ | ⟨_, hj⟩
    · exact one j r hi (hran hq')
    · exact one j q hj hq'

theorem Stage.find (h : s.Stage) (halone : ∀ q ∈ s.workers, q.pc.between = false)
    (hi : s.workers[i]? = some r) :
    (s.setWorker i r.password
      (if s.users.lookup s.name = none then .locking else .answered (bytes "/registerError.html"))).Stage := by
  cases h with
  | unclaimed absent norows waiting =>
    rw [if_pos absent]
    refine .claimed i ⟨r.password, .locking⟩ absent (setWorker_here hi) rfl norows (fun j q hj hq => ?_)
    rcases setWorker_at hq with ⟨heq, _⟩ | ⟨_, hq⟩
    · exact absurd heq hj
    · exact waiting q (List.mem_of_getElem? hq)
  | claimed k p absent here mine row others =>
    rw [halone p (List.mem_of_getElem? here)] at mine
    exact absurd mine (by decide)
  | present password found row settled owner one =>
    rw [if_neg (by rw [found]; exact Option.some_ne_none password)]
    exact Stage.settle s.locked found row settled one hi rfl (fun hran => absurd hran (by decide))

/-- The worker that has missed the name is the only one that can take a step between. -/
theorem Stage.claimed_at (h : s.Stage) (hi : s.workers[i]? = some r) (hr : r.pc.between = true) :
    s.users.lookup s.name = none ∧ s.rows = (if r.pc = .inserting then [(s.name, r.password)] else []) ∧
      ∀ j q, j ≠ i → s.workers[j]? = some q → q.pc = .finding := by
  cases h with
  | unclaimed absent norows waiting =>
    rw [waiting r (List.mem_of_getElem? hi)] at hr
    exact absurd hr (by decide)
  | claimed k p absent here mine row others =>
    have hik : i = k := by
      by_contra hne
      rw [others i r hne hi] at hr
      exact absurd hr (by decide)
    subst hik
    rw [hi] at here
    cases Option.some.inj here
    exact ⟨absent, row, others⟩
  | present password found row settled owner one =>
    rw [settled r (List.mem_of_getElem? hi)] at hr
    exact absurd hr (by decide)

theorem others_move {pc : RegisterPc} (h : ∀ j q, j ≠ i → s.workers[j]? = some q → q.pc = .finding) :
    ∀ j q, j ≠ i → (s.setWorker i r.password pc).workers[j]? = some q → q.pc = .finding := by
  intro j q hj hq
  rcases setWorker_at hq with ⟨heq, _⟩ | ⟨_, hq⟩
  · exact absurd heq hj
  · exact h j q hj hq

theorem Stage.lock (h : s.Stage) (hi : s.workers[i]? = some r) (hr : r.pc = .locking) :
    Stage { s.setWorker i r.password .querying with locked := true } := by
  obtain ⟨absent, row, others⟩ := h.claimed_at hi (by rw [hr]; rfl)
  rw [hr, if_neg (by decide)] at row
  exact .claimed i ⟨r.password, .querying⟩ absent (setWorker_here hi) rfl row (others_move others)

theorem Stage.query (h : s.Stage) (hi : s.workers[i]? = some r) (hr : r.pc = .querying) :
    Stage { s.setWorker i r.password .inserting with table := s.table ++ [(s.name, r.password)] } := by
  obtain ⟨absent, row, others⟩ := h.claimed_at hi (by rw [hr]; rfl)
  rw [hr, if_neg (by decide)] at row
  refine .claimed i ⟨r.password, .inserting⟩ absent (setWorker_here hi) rfl ?_ (others_move others)
  have hrows : (s.table ++ [(s.name, r.password)]).filter (·.1 = s.name) = s.rows ++ [(s.name, r.password)] := by
    rw [List.filter_append, List.filter_cons_of_pos (by simp), List.filter_nil]
    rfl
  rw [row] at hrows
  exact hrows

theorem Stage.insert (h : s.Stage) (hi : s.workers[i]? = some r) (hr : r.pc = .inserting) :
    Stage { s.setWorker i r.password .unlocking with users := s.insertUser r.password } := by
  obtain ⟨absent, row, others⟩ := h.claimed_at hi (by rw [hr]; rfl)
  rw [if_pos hr] at row
  have husers : s.insertUser r.password = s.users ++ [(s.name, r.password)] := if_pos absent
  refine .present r.password ?_ row (fun q hq => ?_) i (fun j q hq hran => ?_)
  · change (s.insertUser r.password).lookup s.name = some r.password
    rw [husers, List.lookup_append, absent]
    simp
  · obtain ⟨j, hj⟩ := List.mem_iff_getElem?.mp hq
    rcases setWorker_at hj with ⟨_, rfl⟩ | ⟨hne, hj⟩
    · rfl
    · rw [others j q hne hj]
      rfl
  · by_contra hne
    rw [others_move others j q hne hq] at hran
    exact absurd hran (by decide)

theorem Stage.unlock (h : s.Stage) (hi : s.workers[i]? = some r) (hr : r.pc = .unlocking) :
    Stage { s.setWorker i r.password (.answered (bytes "/log.html")) with locked := false } := by
  cases h with
  | unclaimed absent norows waiting =>
    rw [waiting r (List.mem_of_getElem? hi)] at hr
    cases hr
  | claimed k p absent here mine row others =>
    by_cases hik : i = k
    · subst hik
      rw [hi] at here
      cases Option.some.inj here
      rw [hr] at mine
      exact absurd mine (by decide)
    · rw [others i r hik hi] at hr
      cases hr
  | present password found row settled owner one =>
    exact Stage.settle false found row settled one hi rfl (fun _ => by rw [hr]; rfl)

theorem Stage.step {a : RegisterAct} (h : s.Stage) (halone : s.LooksAlone a) (hs : s.step a = some t) :
    t.Stage := by
  cases a with
  | find i =>
    simp only [Registrations.step] at hs
    split at hs
    next hi => cases Option.some.inj hs; exact h.find halone hi
    next => cases hs
  | lock i =>
    simp only [Registrations.step] at hs
    split at hs
    next hi =>
      split at hs
      next => cases hs
      next => cases Option.some.inj hs; exact h.lock hi rfl
    next => cases hs
  | query i =>
    simp only [Registrations.step] at hs
    split at hs
    next hi => cases Option.some.inj hs; exact h.query hi rfl
    next => cases hs
  | insert i =>
    simp only [Registrations.step] at hs
    split at hs
    next hi => cases Option.some.inj hs; exact h.insert hi rfl
    next => cases hs
  | unlock i =>
    simp only [Registrations.step] at hs
    split at hs
    next hi => cases Option.some.inj hs; exact h.unlock hi rfl
    next => cases hs

theorem init_stage {table : List (List UInt8 × List UInt8)} {name : List UInt8}
    (h : (table.filter (·.1 = name)).length ≤ 1) (passwords : List (List UInt8)) :
    (init table name passwords).Stage := by
  have hwaiting : ∀ r ∈ (init table name passwords).workers, r.pc = .finding := by
    intro r hr
    obtain ⟨password, _, rfl⟩ := List.mem_map.mp hr
    rfl
  obtain ⟨hsome, hnone⟩ := lookup_initMysqlResult table name
  cases hl : (initMysqlResult table).lookup name with
  | none =>
    refine .unclaimed hl ?_ hwaiting
    refine List.filter_eq_nil_iff.mpr fun row hrow hname => hnone hl row.2 ?_
    have hname : row.1 = name := of_decide_eq_true hname
    rwa [← hname]
  | some password =>
    have hm : (name, password) ∈ table.filter (·.1 = name) :=
      List.mem_filter.mpr ⟨hsome password hl, decide_eq_true rfl⟩
    have hrow : table.filter (·.1 = name) = [(name, password)] := by
      obtain ⟨row, hrow⟩ := List.length_eq_one_iff.mp (Nat.le_antisymm h (List.length_pos_of_mem hm))
      rw [hrow] at hm ⊢
      rw [List.mem_singleton.mp hm]
    refine .present password hl hrow (fun r hr => ?_) 0 (fun j q hq hran => ?_)
    · rw [hwaiting r hr]
      rfl
    · rw [hwaiting q (List.mem_of_getElem? hq)] at hran
      exact absurd hran (by decide)

/-- One worker at a time between its lookup and its insert: the name is registered once. -/
theorem registrations_single_of_looksAlone {table : List (List UInt8 × List UInt8)} {name : List UInt8}
    (h : (table.filter (·.1 = name)).length ≤ 1) (passwords : List (List UInt8)) (as : List RegisterAct)
    (halone : StepsMeet step LooksAlone (init table name passwords) as) :
    Along step Single (init table name passwords) as :=
  along_of_invariant Stage (fun _ _ _ hs ha ht => hs.step ha ht) (fun _ hs => hs.single)
    (init_stage h passwords) halone

theorem registrations_single_of_looksAlone_inTurn :
    Along step Single (init [] [97] [[49], [50]])
      [.find 0, .lock 0, .query 0, .insert 0, .find 1, .unlock 0] :=
  registrations_single_of_looksAlone (by decide) [[49], [50]] _ (by decide)

/-- Two workers miss the name, and both insert it. -/
theorem registrations_not_always_single :
    ¬ ∀ (table : List (List UInt8 × List UInt8)) (name : List UInt8) (passwords : List (List UInt8))
      (as : List RegisterAct), (table.filter (·.1 = name)).length ≤ 1 →
        Along step Single (init table name passwords) as := by
  intro h
  have hrun := h [] [97] [[49], [50]] [.find 0, .find 1, .lock 0, .query 0, .insert 0, .unlock 0, .lock 1, .query 1]
    (by decide)
  have hlast := runSteps_along hrun rfl
  exact absurd (hlast.one 0 1 _ _ rfl rfl rfl rfl) (by decide)

/-- A worker whose steps are not interrupted does what World.register says of a database
that takes every row. -/
theorem register_uninterrupted {w : World} (hi : s.workers[i]? = some r) (hr : r.pc = .finding)
    (hfree : s.locked = false) (hw : w.users = s.users) (hquery : ∀ text, w.mysqlQuery text = true)
    (hlen : (sqlInsert ⟨s.name, r.password⟩).length < 200) :
    ∃ as t page, runSteps step s as = some t ∧ t.workers[i]? = some ⟨r.password, .answered page⟩ ∧
      w.register ⟨s.name, r.password⟩ = some ({ w with users := t.users }, page) := by
  obtain ⟨password, pc⟩ := r
  cases hr
  have hlt := (List.getElem?_eq_some_iff.mp hi).1
  have hlen := Nat.not_le.mpr hlen
  by_cases hname : s.users.lookup s.name = none
  · refine ⟨[.find i, .lock i, .query i, .insert i, .unlock i],
      { s with
        users := s.users ++ [(s.name, password)]
        table := s.table ++ [(s.name, password)]
        workers := s.workers.set i ⟨password, .answered (bytes "/log.html")⟩ },
      bytes "/log.html", ?_, ?_, ?_⟩
    · simp [runSteps, step, setWorker, insertUser, hi, hname, hfree, List.getElem?_set_self hlt]
    · exact List.getElem?_set_self hlt
    · simp [World.register, hw, hname, hquery, if_neg hlen]
  · refine ⟨[.find i], s.setWorker i password (.answered (bytes "/registerError.html")),
      bytes "/registerError.html", ?_, ?_, ?_⟩
    · simp [runSteps, step, hi, hname]
    · exact List.getElem?_set_self hlt
    · rw [World.register, if_neg hlen, hw, if_neg hname]
      change some (w, _) = some (World.mk s.users w.mysqlQuery w.files, _)
      rw [← hw]

end Registrations

end CppInAction
