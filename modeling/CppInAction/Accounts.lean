import CppInAction.HttpRequest
import CppInAction.Assoc
import CppInAction.Run

namespace CppInAction

/-- The map after users[name] = passwd. -/
def assignUser (users : List (List UInt8 × List UInt8)) (row : List UInt8 × List UInt8) :
    List (List UInt8 × List UInt8) := row :: users.filter (·.1 ≠ row.1)

/-- The map that init_mysql_result fills from the rows of the user table. -/
def initMysqlResult (rows : List (List UInt8 × List UInt8)) : List (List UInt8 × List UInt8) :=
  rows.foldl assignUser []

/-- A map and a table that hold the same pairs. -/
def Mirrors (users table : List (List UInt8 × List UInt8)) : Prop :=
  ∀ name password, users.lookup name = some password ↔ (name, password) ∈ table

theorem lookup_assignUser (users : List (List UInt8 × List UInt8)) (row : List UInt8 × List UInt8)
    (name : List UInt8) :
    (assignUser users row).lookup name = if name = row.1 then some row.2 else users.lookup name := by
  unfold assignUser
  split
  next h =>
    rw [h]
    exact List.lookup_cons_self
  next h => exact (lookup_cons_ne h).trans (lookup_filter_ne h)

/-- What is found in the loaded map was a row, and every row's name is found. -/
theorem lookup_initMysqlResult (rows : List (List UInt8 × List UInt8)) (name : List UInt8) :
    (∀ password, (initMysqlResult rows).lookup name = some password → (name, password) ∈ rows) ∧
      ((initMysqlResult rows).lookup name = none → ∀ password, (name, password) ∉ rows) := by
  induction rows using List.reverseRecOn with
  | nil =>
    refine ⟨fun password h => ?_, fun _ password h => ?_⟩
    · cases h
    · cases h
  | append_singleton rows row ih =>
    have hload : initMysqlResult (rows ++ [row]) = assignUser (initMysqlResult rows) row := by
      unfold initMysqlResult
      rw [List.foldl_append, List.foldl_cons, List.foldl_nil]
    rw [hload, lookup_assignUser]
    split
    next hname =>
      refine ⟨fun password h => ?_, fun h => by cases h⟩
      cases Option.some.inj h
      exact List.mem_append_right rows (List.mem_singleton.mpr (by rw [hname]))
    next hname =>
      refine ⟨fun password h => List.mem_append_left _ (ih.1 password h), fun h password hm => ?_⟩
      rcases List.mem_append.mp hm with hm | hm
      · exact ih.2 h password hm
      · exact hname (congrArg Prod.fst (List.mem_singleton.mp hm))

/-- The map can mirror the table it was loaded from when no name has two passwords. -/
theorem initMysqlResult_mirrors_iff (rows : List (List UInt8 × List UInt8)) :
    Mirrors (initMysqlResult rows) rows ↔
      ∀ name password other, (name, password) ∈ rows → (name, other) ∈ rows → password = other := by
  constructor
  · intro h name password other hp ho
    have hp := (h name password).mpr hp
    rw [(h name other).mpr ho] at hp
    exact (Option.some.inj hp).symm
  · intro h name password
    obtain ⟨hsome, hnone⟩ := lookup_initMysqlResult rows name
    refine ⟨hsome password, fun hm => ?_⟩
    cases hl : (initMysqlResult rows).lookup name with
    | none => exact absurd hm (hnone hl password)
    | some other => rw [h name password other hm (hsome other hl)]

/-- The map and the table both get the pair. -/
theorem Mirrors.append {users table : List (List UInt8 × List UInt8)} {name password : List UInt8}
    (h : Mirrors users table) (hname : users.lookup name = none) :
    Mirrors (users ++ [(name, password)]) (table ++ [(name, password)]) := by
  intro n p
  rw [List.lookup_append, List.mem_append, ← h]
  by_cases hn : n = name
  · subst hn
    simp [hname, eq_comm]
  · have hne : (n == name) = false := by simpa using hn
    simp [hne, hn]

/-- The two extraction loops over the text that m_string points to. -/
def formOf (text : List UInt8) : Option Form := do
  let (name, rest) ← scanUntil 38 (text.drop 5)
  let (password, _) ← scanUntil 0 (rest.drop 10)
  if name.length < 100 ∧ password.length < 100 then some ⟨name.takeWhile (· ≠ 0), password⟩ else none

theorem readForm_into (buf : Buffer readBufferSize) (off : Nat) :
    readForm buf (.into off) = formOf (buf.bytes.drop off) := by
  unfold readForm formOf
  rw [List.drop_drop]

/-- The CGI branch of do_request answers the form that formOf reads. -/
theorem HttpConn.doForm_answers {c c' : HttpConn} {w w' : World} {off k : Nat} {digit : UInt8} {form : Form}
    (h : c.doForm w off digit = some (c', w', form)) (hk : c.string = .into k) :
    formOf (c.readBuf.bytes.drop k) = some form ∧ ∃ page, w.answer digit form = some (w', page) := by
  obtain ⟨_, page, _, _, _, _, hread, hanswer, _, _⟩ := HttpConn.doForm_split h
  rw [hk, readForm_into] at hread
  exact ⟨hread, page, hanswer⟩

/-- A registration or login: what m_string points to, and whether the database takes the
row if it is asked to. -/
structure AccountRequest where
  registers : Bool
  text : List UInt8
  inserts : Bool
deriving DecidableEq

/-- A request that was answered, with the user table on both sides of it. -/
structure Served where
  registers : Bool
  form : Form
  page : List UInt8
  before : List (List UInt8 × List UInt8)
  after : List (List UInt8 × List UInt8)
deriving DecidableEq

/-- A registration names the login page if and only if its row was added; a login is
welcomed if and only if its pair is a row. -/
def Served.Right (x : Served) : Prop :=
  if x.registers then x.page = bytes "/log.html" ↔ x.after = x.before ++ [(x.form.name, x.form.password)]
  else x.page = bytes "/welcome.html" ↔ (x.form.name, x.form.password) ∈ x.before

/-- The users map, the user table behind it, and what was answered so far; overrun says
that a request has left the buffer, its arrays or the allocation of its statement. -/
structure Accounts where
  users : List (List UInt8 × List UInt8)
  table : List (List UInt8 × List UInt8)
  served : List Served
  overrun : Bool

namespace Accounts

def init (rows : List (List UInt8 × List UInt8)) : Accounts := ⟨initMysqlResult rows, rows, [], false⟩

/-- What do_request sees of the process when it handles a request. -/
def world (s : Accounts) (r : AccountRequest) : World := ⟨s.users, fun _ => r.inserts, fun _ => none⟩

/-- The table after the request: the insert is asked for when the name is not in the map. -/
def tableAfter (s : Accounts) (r : AccountRequest) (form : Form) : List (List UInt8 × List UInt8) :=
  if r.registers ∧ s.users.lookup form.name = none ∧ r.inserts then s.table ++ [(form.name, form.password)]
  else s.table

def answerForm (s : Accounts) (r : AccountRequest) (form : Form) : Accounts :=
  match (s.world r).answer (if r.registers then 51 else 50) form with
  | none => { s with overrun := true }
  | some (w, page) =>
    { s with
      users := w.users
      table := s.tableAfter r form
      served := s.served ++ [⟨r.registers, form, page, s.table, s.tableAfter r form⟩] }

def handle (s : Accounts) (r : AccountRequest) : Accounts :=
  match formOf r.text with
  | none => { s with overrun := true }
  | some form => s.answerForm r form

def step (s : Accounts) (r : AccountRequest) : Option Accounts := if s.overrun then none else some (s.handle r)

structure Synced (s : Accounts) : Prop where
  inside : s.overrun = false
  mirrors : Mirrors s.users s.table
  right : ∀ x ∈ s.served, x.Right

/-- The form can be read, the statement of a registration fits its allocation, and the
database takes the row of a name that is not in the map. -/
def Lands (s : Accounts) (r : AccountRequest) : Prop :=
  ∃ form, formOf r.text = some form ∧
    (r.registers = true →
      (sqlInsert form).length < 200 ∧ (s.users.lookup form.name = none → r.inserts = true))

variable {s t : Accounts} {r : AccountRequest} {form : Form}

theorem answerForm_login (s : Accounts) (hr : r.registers = false) :
    s.answerForm r form =
      { s with served := s.served ++ [⟨false, form, (s.world r).login form, s.table, s.table⟩] } := by
  have htable : s.tableAfter r form = s.table := by
    unfold tableAfter
    rw [if_neg (fun h => by rw [hr] at h; exact absurd h.1 (by decide))]
  unfold answerForm
  rw [hr, htable]
  rfl

theorem answerForm_overrun (s : Accounts) (hr : r.registers = true) (hlen : 200 ≤ (sqlInsert form).length) :
    s.answerForm r form = { s with overrun := true } := by
  have hans : (s.world r).answer (if r.registers then 51 else 50) form = none := by
    simp only [hr, if_true, World.answer, World.register, hlen]
  unfold answerForm
  rw [hans]

theorem answerForm_known (s : Accounts) (hr : r.registers = true) (hlen : (sqlInsert form).length < 200)
    (hname : s.users.lookup form.name ≠ none) :
    s.answerForm r form =
      { s with served := s.served ++ [⟨true, form, bytes "/registerError.html", s.table, s.table⟩] } := by
  have hans : (s.world r).answer (if r.registers then 51 else 50) form =
      some (s.world r, bytes "/registerError.html") := by
    simp only [hr, if_true, World.answer, World.register, if_neg (Nat.not_le.mpr hlen)]
    exact if_neg hname
  have htable : s.tableAfter r form = s.table := by
    unfold tableAfter
    rw [if_neg (fun h => hname h.2.1)]
  unfold answerForm
  rw [hans, htable, hr]
  rfl

theorem answerForm_new (s : Accounts) (hr : r.registers = true) (hlen : (sqlInsert form).length < 200)
    (hname : s.users.lookup form.name = none) :
    s.answerForm r form =
      { s with
        users := s.users ++ [(form.name, form.password)]
        table := s.tableAfter r form
        served := s.served ++ [⟨true, form, if r.inserts then bytes "/log.html" else bytes "/registerError.html",
          s.table, s.tableAfter r form⟩] } := by
  have hans : (s.world r).answer (if r.registers then 51 else 50) form =
      some ({ s.world r with users := s.users ++ [(form.name, form.password)] },
        if r.inserts then bytes "/log.html" else bytes "/registerError.html") := by
    simp only [hr, if_true, World.answer, World.register, if_neg (Nat.not_le.mpr hlen)]
    exact if_pos hname
  unfold answerForm
  rw [hans, hr]

theorem init_synced_iff (rows : List (List UInt8 × List UInt8)) :
    (init rows).Synced ↔
      ∀ name password other, (name, password) ∈ rows → (name, other) ∈ rows → password = other := by
  rw [← initMysqlResult_mirrors_iff]
  refine ⟨fun h => h.mirrors, fun h => ⟨rfl, h, fun x hx => ?_⟩⟩
  cases hx

/-- One more answer, which is right too. -/
theorem right_append {served : List Served} {x : Served} (h : ∀ y ∈ served, y.Right) (hx : x.Right) :
    ∀ y ∈ served ++ [x], y.Right := by
  intro y hy
  rcases List.mem_append.mp hy with hy | hy
  · exact h y hy
  · rw [List.mem_singleton.mp hy]
    exact hx

theorem Synced.login (h : s.Synced) (hr : r.registers = false) : (s.answerForm r form).Synced := by
  rw [answerForm_login s hr]
  refine ⟨h.inside, h.mirrors, right_append h.right ?_⟩
  simp only [Served.Right, Bool.false_eq_true, if_false]
  rw [← h.mirrors]
  unfold World.login
  constructor
  · intro hpage
    split at hpage
    next hl => exact hl
    next => exact absurd hpage (by decide)
  · exact fun hl => if_pos hl

theorem Synced.known (h : s.Synced) (hr : r.registers = true) (hlen : (sqlInsert form).length < 200)
    (hname : s.users.lookup form.name ≠ none) : (s.answerForm r form).Synced := by
  rw [answerForm_known s hr hlen hname]
  refine ⟨h.inside, h.mirrors, right_append h.right ?_⟩
  simp only [Served.Right, if_true]
  refine ⟨fun hpage => absurd hpage (by decide), fun htable => ?_⟩
  have hlength := congrArg List.length htable
  rw [List.length_append, List.length_singleton] at hlength
  omega

theorem Synced.new (h : s.Synced) (hr : r.registers = true) (hlen : (sqlInsert form).length < 200)
    (hname : s.users.lookup form.name = none) (hins : r.inserts = true) : (s.answerForm r form).Synced := by
  have htable : s.tableAfter r form = s.table ++ [(form.name, form.password)] := if_pos ⟨hr, hname, hins⟩
  rw [answerForm_new s hr hlen hname, htable, hins]
  refine ⟨h.inside, h.mirrors.append hname, right_append h.right ?_⟩
  simp only [Served.Right, if_true]

/-- A refused insert leaves a pair in the map that the table does not have. -/
theorem Synced.refused (h : s.Synced) (hr : r.registers = true) (hlen : (sqlInsert form).length < 200)
    (hname : s.users.lookup form.name = none) (hins : r.inserts = false) : ¬ (s.answerForm r form).Synced := by
  have htable : s.tableAfter r form = s.table := if_neg fun hc => by
    rw [hins] at hc
    exact absurd hc.2.2 (by decide)
  rw [answerForm_new s hr hlen hname, htable]
  intro ht
  have hm : (form.name, form.password) ∈ s.table := by
    refine (ht.mirrors form.name form.password).mp ?_
    rw [List.lookup_append, hname]
    simp
  rw [(h.mirrors _ _).mpr hm] at hname
  cases hname

theorem Synced.answerForm_iff (h : s.Synced) :
    (s.answerForm r form).Synced ↔ (r.registers = true →
      (sqlInsert form).length < 200 ∧ (s.users.lookup form.name = none → r.inserts = true)) := by
  cases hr : r.registers with
  | false => exact ⟨fun _ h => absurd h (by decide), fun _ => h.login hr⟩
  | true =>
    by_cases hlen : (sqlInsert form).length < 200
    · by_cases hname : s.users.lookup form.name = none
      · cases hins : r.inserts with
        | true => exact ⟨fun _ _ => ⟨hlen, fun _ => rfl⟩, fun _ => h.new hr hlen hname hins⟩
        | false =>
          refine ⟨fun ht => absurd ht (h.refused hr hlen hname hins), fun hl => ?_⟩
          exact absurd ((hl rfl).2 hname) (by decide)
      · exact ⟨fun _ _ => ⟨hlen, fun hn => absurd hn hname⟩, fun _ => h.known hr hlen hname⟩
    · refine ⟨fun ht => ?_, fun hl => absurd (hl rfl).1 hlen⟩
      rw [answerForm_overrun s hr (Nat.not_lt.mp hlen)] at ht
      exact Bool.noConfusion ht.inside

/-- A request keeps map, table and answers in step if and only if it lands. -/
theorem Synced.handle_iff (h : s.Synced) : (s.handle r).Synced ↔ s.Lands r := by
  unfold handle Lands
  split
  next hform =>
    refine ⟨fun ht => Bool.noConfusion ht.inside, fun ⟨form, hsome, _⟩ => ?_⟩
    rw [hform] at hsome
    cases hsome
  next form hform =>
    rw [h.answerForm_iff]
    refine ⟨fun hl => ⟨form, hform, hl⟩, fun ⟨other, hsome, hl⟩ => ?_⟩
    rw [hform] at hsome
    cases Option.some.inj hsome
    exact hl

theorem step_some (hs : s.step r = some t) : t = s.handle r := by
  unfold step at hs
  split at hs
  next => cases hs
  next => exact (Option.some.inj hs).symm

/-- Map, table and answers agree in every state of a run exactly when the loaded table has
one password for each name and every registration lands. -/
theorem accounts_synced_iff (rows : List (List UInt8 × List UInt8)) (rs : List AccountRequest) :
    Along step Synced (init rows) rs ↔
      (∀ name password other, (name, password) ∈ rows → (name, other) ∈ rows → password = other) ∧
        StepsMeet step Lands (init rows) rs := by
  have hkeeps : ∀ s r t, Synced s → s.step r = some t → (t.Synced ↔ s.Lands r) := by
    intro s r t h hs
    rw [step_some hs]
    exact h.handle_iff
  have hrun : (init rows).Synced → (Along step Synced (init rows) rs ↔ StepsMeet step Lands (init rows) rs) :=
    along_iff_stepsMeet Synced (fun s r t h hl hs => (hkeeps s r t h hs).mpr hl) (fun _ h => h)
      (fun s r t h hl hs ht => hl ((hkeeps s r t h hs).mp ht)) rs
  constructor
  · intro h
    exact ⟨(init_synced_iff rows).mp h.head, (hrun h.head).mp h⟩
  · rintro ⟨hrows, hmeet⟩
    exact (hrun ((init_synced_iff rows).mpr hrows)).mpr hmeet

/-- A registration that the database refuses is answered with an error, and the login
after it is welcomed. -/
theorem accounts_not_always_synced : ¬ ∀ (rows : List (List UInt8 × List UInt8)) (rs : List AccountRequest),
    Along step Synced (init rows) rs := by
  intro h
  have hrun := h [] [⟨true, bytes "user=a&password=1" ++ [0], false⟩, ⟨false, bytes "user=a&password=1" ++ [0], false⟩]
  have hlast := ((along_cons_some rfl).mp ((along_cons_some rfl).mp hrun).2).2.head
  have hright := hlast.right ⟨false, ⟨[97], [49]⟩, bytes "/welcome.html", [], []⟩ (by decide)
  exact absurd (hright.mp rfl) (by decide)

end Accounts

end CppInAction
