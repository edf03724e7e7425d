import CppInAction.HttpHeaders
import CppInAction.HttpRequest
import CppInAction.SqlLiteral

namespace CppInAction

/-- The bytes that the two extraction loops copy, whether or not the arrays hold them. -/
def formBytes (text : List UInt8) : Option (List UInt8 × List UInt8) := do
  let (name, rest) ← scanUntil 38 (text.drop 5)
  let (password, _) ← scanUntil 0 (rest.drop 10)
  some (name, password)

theorem readForm_bytes (buf : Buffer readBufferSize) (off : Nat) : readForm buf (.into off) =
    (formBytes (buf.bytes.drop off)).bind fun r =>
      if r.1.length < 100 ∧ r.2.length < 100 then some ⟨r.1.takeWhile (· ≠ 0), r.2⟩ else none := by
  simp only [readForm, formBytes, List.drop_drop, Option.bind_eq_bind, Option.bind_assoc, Option.bind_some]

/-- The loops read the body up to its terminator, which is at body.length, and no byte behind
it, and write inside the two arrays of 100. -/
def ExtractsInside (buf : Buffer readBufferSize) (off : Nat) (body : List UInt8) : Prop :=
  ∃ name password, formBytes (buf.bytes.drop off) = some (name, password) ∧
    5 + name.length ≤ body.length ∧ 5 + name.length + 10 + password.length ≤ body.length ∧
    name.length + 1 ≤ 100 ∧ password.length + 1 ≤ 100

/-- Five bytes, a name, an ampersand, nine bytes and a password, and both fit their arrays. -/
def FormShape (body : List UInt8) : Prop :=
  ∃ user name key password, body = user ++ (name ++ 38 :: (key ++ password)) ∧ user.length = 5 ∧ 38 ∉ name ∧
    key.length = 9 ∧ name.length ≤ 99 ∧ password.length ≤ 99

section Form

variable {stop : UInt8} {text front rest name password tail body : List UInt8} {buf : Buffer readBufferSize} {off : Nat}

theorem scanUntil_append (h : stop ∉ front) : scanUntil stop (front ++ stop :: rest) = some (front, stop :: rest) := by
  induction front with
  | nil => simp [scanUntil]
  | cons b front ih =>
    simp only [List.mem_cons, not_or] at h
    rw [List.cons_append, scanUntil, if_neg fun hb => h.1 hb.symm, ih h.2]
    rfl

theorem scanUntil_split {r : List UInt8 × List UInt8} (h : scanUntil stop text = some r) :
    stop ∉ r.1 ∧ ∃ rest, r.2 = stop :: rest ∧ text = r.1 ++ stop :: rest := by
  induction text generalizing r with
  | nil => cases h
  | cons b text ih =>
    rw [scanUntil] at h
    split at h
    next hb =>
      cases Option.some.inj h
      exact ⟨by simp, text, by rw [hb], by rw [hb]; rfl⟩
    next hb =>
      obtain ⟨r', hr, rfl⟩ := Option.map_eq_some_iff.mp h
      obtain ⟨hfree, rest, hrest, htext⟩ := ih hr
      exact ⟨by simp [hfree, Ne.symm hb], rest, hrest, by rw [htext]; rfl⟩

theorem formBytes_shape {user key : List UInt8} (huser : user.length = 5) (hname : 38 ∉ name) (hkey : key.length = 9)
    (hpassword : 0 ∉ password) :
    formBytes (user ++ (name ++ 38 :: (key ++ password)) ++ 0 :: tail) = some (name, password) := by
  have hfive : (user ++ (name ++ 38 :: (key ++ password)) ++ 0 :: tail).drop 5 =
      name ++ 38 :: (key ++ (password ++ 0 :: tail)) := by
    rw [List.append_assoc, List.drop_left' huser]
    simp
  have hten : (38 :: (key ++ (password ++ 0 :: tail))).drop 10 = password ++ 0 :: tail := by
    rw [List.drop_succ_cons, List.drop_left' hkey]
  unfold formBytes
  rw [hfive, scanUntil_append hname, Option.bind_eq_bind, Option.bind_some]
  simp only
  rw [hten, scanUntil_append hpassword]
  rfl

theorem append_cons_split {as bs cs ds : List UInt8} {b c : UInt8} (h : as ++ b :: bs = cs ++ c :: ds) (hne : b ≠ c)
    (hle : as.length ≤ cs.length) : ∃ es, cs = as ++ b :: es ∧ bs = es ++ c :: ds := by
  rcases List.append_eq_append_iff.mp h with ⟨es, hcs, hbs⟩ | ⟨es, has, hcs⟩
  · cases es with
    | nil =>
      rw [List.nil_append] at hbs
      exact absurd (List.cons.inj hbs).1 hne
    | cons e es =>
      obtain ⟨rfl, htail⟩ := List.cons.inj hbs
      exact ⟨es, hcs, htail⟩
  · have hlen := congrArg List.length has
    rw [List.length_append] at hlen
    have hnil : es = [] := List.length_eq_zero_iff.mp (by omega)
    rw [hnil, List.nil_append] at hcs
    exact absurd (List.cons.inj hcs).1.symm hne

theorem extractsInside_iff (h : buf.cstr off = some body) : ExtractsInside buf off body ↔ FormShape body := by
  obtain ⟨tail, htext, hfree⟩ := Buffer.cstr_eq_some_iff.mp h
  unfold ExtractsInside
  rw [htext]
  constructor
  · rintro ⟨name, password, hbytes, hfive, hfifteen, hname, hpassword⟩
    obtain ⟨r, hr, hbytes⟩ := Option.bind_eq_some_iff.mp hbytes
    obtain ⟨r', hr', hbytes⟩ := Option.bind_eq_some_iff.mp hbytes
    obtain ⟨rfl, rfl⟩ := Prod.mk.inj (Option.some.inj hbytes)
    obtain ⟨hamp, rest, hrest, hsplit⟩ := scanUntil_split hr
    obtain ⟨hzero, rest', _, hsplit'⟩ := scanUntil_split hr'
    have huser : (body.take 5).length = 5 := by
      rw [List.length_take]
      omega
    -- the ampersand stands in the body
    rw [List.drop_append_of_le_length (by omega)] at hsplit
    obtain ⟨key, hbody, rfl⟩ := append_cons_split hsplit.symm (by decide) (by rw [List.length_drop]; omega)
    have hlen := congrArg List.length hbody
    simp only [List.length_drop, List.length_append, List.length_cons] at hlen
    -- and the password ends at its terminator
    rw [hrest, List.drop_succ_cons, List.drop_append_of_le_length (by omega)] at hsplit'
    have hkey : 0 ∉ key.drop 9 := fun hmem => hfree (List.mem_of_mem_drop (by
      rw [hbody]
      exact List.mem_append_right _ (List.mem_cons_of_mem _ (List.mem_of_mem_drop hmem))))
    have hpass : r'.1 = key.drop 9 := by
      have hboth := (scanUntil_append hkey).symm.trans (congrArg (scanUntil 0) hsplit')
      rw [scanUntil_append hzero] at hboth
      exact (congrArg Prod.fst (Option.some.inj hboth)).symm
    refine ⟨body.take 5, r.1, key.take 9, key.drop 9, ?_, huser, hamp, ?_, by omega, ?_⟩
    · rw [List.take_append_drop, ← hbody, List.take_append_drop]
    · rw [List.length_take]
      omega
    · rw [← hpass]
      omega
  · rintro ⟨user, name, key, password, rfl, huser, hamp, hkey, hname, hpassword⟩
    have hzero : 0 ∉ password := fun hmem => hfree (by simp [hmem])
    refine ⟨name, password, formBytes_shape huser hamp hkey hzero, ?_, ?_, by omega, by omega⟩
    all_goals
      simp only [List.length_append, List.length_cons]
      omega

theorem readForm_user (h : buf.cstr off = some (bytes "user=" ++ name ++ bytes "&password=" ++ password))
    (hamp : 38 ∉ name) (hname : name.length < 100) (hpassword : password.length < 100) :
    readForm buf (.into off) = some ⟨name, password⟩ := by
  obtain ⟨tail, htext, hfree⟩ := Buffer.cstr_eq_some_iff.mp h
  simp only [List.mem_append, not_or] at hfree
  obtain ⟨⟨⟨_, hfname⟩, _⟩, hfpassword⟩ := hfree
  have hshape : buf.bytes.drop off = bytes "user=" ++ (name ++ 38 :: (bytes "password=" ++ password)) ++ 0 :: tail := by
    rw [htext, show bytes "&password=" = 38 :: bytes "password=" from rfl]
    simp
  have hwhole : name.takeWhile (· ≠ 0) = name := by
    rw [List.takeWhile_eq_self_iff]
    intro b hb
    have hne : b ≠ 0 := fun h0 => hfname (h0 ▸ hb)
    simpa using hne
  rw [readForm_bytes, hshape, formBytes_shape rfl hamp rfl hfpassword, Option.bind_some, if_pos ⟨hname, hpassword⟩, hwhole]

end Form

/-- For every body in m_string the loops stay inside it and inside their arrays if and only if it
has the shape of a form; and the body of a name and a password gives them back. -/
theorem readForm_extracts_iff (buf : Buffer readBufferSize) (off : Nat) (body : List UInt8) (h : buf.cstr off = some body) :
    (ExtractsInside buf off body ↔ FormShape body) ∧
    ∀ name password, body = bytes "user=" ++ name ++ bytes "&password=" ++ password → 38 ∉ name → name.length < 100 →
      password.length < 100 → readForm buf (.into off) = some ⟨name, password⟩ :=
  ⟨extractsInside_iff h, fun _ _ hbody hamp hname hpassword => readForm_user (hbody ▸ h) hamp hname hpassword⟩

theorem readForm_extracts_iff_user : ∃ buf : Buffer readBufferSize, readForm buf (.into 0) = some ⟨bytes "ab", bytes "cd"⟩ := by
  have hfree : 0 ∉ bytes "user=ab&password=cd" := by decide
  obtain ⟨buf, hcstr⟩ := exists_line hfree (by decide)
  exact ⟨buf, (readForm_extracts_iff buf 0 _ hcstr).2 (bytes "ab") (bytes "cd") rfl (by decide) (by decide) (by decide)⟩

/-- A body without an ampersand. -/
theorem readForm_not_always_extracts :
    ¬ ∀ (buf : Buffer readBufferSize) (off : Nat) (body : List UInt8), buf.cstr off = some body →
      ExtractsInside buf off body := by
  intro h
  have hfree : 0 ∉ bytes "user=ab" := by decide
  obtain ⟨buf, hcstr⟩ := exists_line hfree (by decide)
  obtain ⟨user, name, key, password, hbody, _⟩ := (extractsInside_iff hcstr).mp (h buf 0 _ hcstr)
  have hamp : 38 ∈ bytes "user=ab" := by simp [hbody]
  exact absurd hamp (by decide)

/-- What follows a text that is expected here. -/
def expect (text s : List UInt8) : Option (List UInt8) := if text.isPrefixOf s then some (s.drop text.length) else none

/-- The two values of an INSERT of one row into the user table, as the database reads them. -/
def readInsert (escapes : Bool) (s : List UInt8) : Option (List UInt8 × List UInt8) := do
  let s ← expect (bytes "INSERT INTO user(username, password) VALUES('") s
  let (name, s) ← readLiteral escapes s
  let s ← expect (bytes ", '") s
  let (password, s) ← readLiteral escapes s
  if s = bytes ")" then some (name, password) else none

/-- The statement fits its allocation of 200 and inserts the name and the password. -/
def Inserts (escapes : Bool) (form : Form) : Prop :=
  (sqlInsert form).length + 1 ≤ 200 ∧ readInsert escapes (sqlInsert form) = some (form.name, form.password)

theorem expect_append (text rest : List UInt8) : expect text (text ++ rest) = some rest := by
  rw [expect, if_pos (List.isPrefixOf_iff_prefix.mpr (List.prefix_append text rest)), List.drop_left]

theorem sqlInsert_eq (form : Form) : sqlInsert form = bytes "INSERT INTO user(username, password) VALUES('" ++
    (form.name ++ 39 :: 44 :: 32 :: 39 :: (form.password ++ [39, 41])) := by
  have hopen : bytes "INSERT INTO user(username, password) VALUES('" =
      bytes "INSERT INTO user(username, password) VALUES(" ++ bytes "'" := rfl
  have hmiddle : bytes "', '" = [39, 44, 32, 39] := rfl
  have hclose : bytes "')" = [39, 41] := rfl
  rw [sqlInsert, hopen, hmiddle, hclose]
  simp only [List.append_assoc, List.cons_append, List.nil_append]

theorem sqlInsert_length (form : Form) : (sqlInsert form).length = 51 + form.name.length + form.password.length := by
  have hhead : (bytes "INSERT INTO user(username, password) VALUES('").length = 45 := rfl
  rw [sqlInsert_eq]
  simp only [List.length_append, List.length_cons, List.length_nil, hhead]
  omega

theorem readInsert_iff (escapes : Bool) (form : Form) : readInsert escapes (sqlInsert form) = some (form.name, form.password) ↔
    plainText escapes form.name ∧ plainText escapes form.password := by
  have hcomma : ¬ isSpecial escapes 44 := by cases escapes <;> decide
  have hparen : ¬ isSpecial escapes 41 := by cases escapes <;> decide
  have hnext : expect (bytes ", '") (44 :: 32 :: 39 :: (form.password ++ [39, 41])) = some (form.password ++ [39, 41]) :=
    expect_append (bytes ", '") (form.password ++ [39, 41])
  rw [sqlInsert_eq, readInsert, expect_append, Option.bind_eq_bind, Option.bind_some]
  constructor
  · intro h
    obtain ⟨⟨name, rest⟩, hname, h⟩ := Option.bind_eq_some_iff.mp h
    obtain ⟨s, hs, h⟩ := Option.bind_eq_some_iff.mp h
    obtain ⟨⟨password, rest'⟩, hpassword, h⟩ := Option.bind_eq_some_iff.mp h
    simp only at h
    split at h
    next =>
      obtain ⟨hfirst, hsecond⟩ := Prod.mk.inj (Option.some.inj h)
      subst hfirst hsecond
      obtain ⟨hplain, rfl⟩ := (readLiteral_eq_iff hcomma).mp hname
      cases Option.some.inj (hnext.symm.trans hs)
      exact ⟨hplain, ((readLiteral_eq_iff hparen).mp hpassword).1⟩
    next => cases h
  · rintro ⟨hname, hpassword⟩
    have hfirst := (readLiteral_eq_iff (z := 32 :: 39 :: (form.password ++ [39, 41])) hcomma).mpr ⟨hname, rfl⟩
    have hsecond := (readLiteral_eq_iff (z := []) hparen).mpr ⟨hpassword, rfl⟩
    simp only [Option.bind_eq_bind, Option.bind_some, hfirst, hnext, hsecond]
    rfl

/-- The statement inserts the two texts if and only if there is room for both and each can stand
between quotes as it is. -/
theorem sqlInsert_inserts_iff (escapes : Bool) (form : Form) : Inserts escapes form ↔
    form.name.length + form.password.length ≤ 148 ∧ plainText escapes form.name ∧ plainText escapes form.password := by
  unfold Inserts
  rw [readInsert_iff, sqlInsert_length]
  have hroom : 51 + form.name.length + form.password.length + 1 ≤ 200 ↔
      form.name.length + form.password.length ≤ 148 := by omega
  rw [hroom]

/-- The body of a registration whose name has a quote. -/
theorem sqlInsert_not_always_inserts :
    ¬ ∀ (escapes : Bool) (buf : Buffer readBufferSize) (off : Nat) (form : Form), readForm buf (.into off) = some form →
      Inserts escapes form := by
  intro h
  have hfree : 0 ∉ bytes "user=a'b&password=c" := by decide
  obtain ⟨buf, hcstr⟩ := exists_line hfree (by decide)
  have hform : readForm buf (.into 0) = some ⟨bytes "a'b", bytes "c"⟩ :=
    readForm_user hcstr (by decide) (by decide) (by decide)
  have hplain := (readInsert_iff true _).mp (h true buf 0 _ hform).2
  exact absurd hplain.1 (by decide)

end CppInAction
