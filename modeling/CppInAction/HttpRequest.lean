import CppInAction.HttpResponse
import CppInAction.HttpParse

namespace CppInAction

/-- A name in the file system and what stat, open and mmap see of it. -/
structure FileEntry where
  othersRead : Bool
  isDir : Bool
  openable : Bool
  content : List UInt8
deriving DecidableEq

def FileEntry.stat (e : FileEntry) : FileStat := ⟨e.othersRead, e.isDir, e.content.length⟩

/-- mmap of the opened file: an empty range and an unopened file both fail. -/
def FileEntry.mmap (e : FileEntry) : FileAddress :=
  if e.openable ∧ e.content ≠ [] then .mapped e.content else .failed

/-- What do_request shares with the rest of the process: the users map, the answer
of the database to an insert, and the file system. -/
structure World where
  users : List (List UInt8 × List UInt8)
  mysqlQuery : List UInt8 → Bool
  files : List UInt8 → Option FileEntry

/-- The name and password taken from a request body. -/
structure Form where
  name : List UInt8
  password : List UInt8
deriving DecidableEq

/-- The bytes before the first occurrence of a stop byte, and those from it on;
a loop that finds none runs out of the buffer. -/
def scanUntil (stop : UInt8) : List UInt8 → Option (List UInt8 × List UInt8)
  | [] => none
  | b :: rest =>
    if b = stop then some ([], b :: rest) else (scanUntil stop rest).map fun r => (b :: r.1, r.2)

/-- The two extraction loops over m_string; name and password are arrays of 100. -/
def readForm (buf : Buffer readBufferSize) : CharPtr → Option Form
  | .into off => do
    let (name, rest) ← scanUntil 38 (buf.bytes.drop (off + 5))
    let (password, _) ← scanUntil 0 (rest.drop 10)
    if name.length < 100 ∧ password.length < 100 then some ⟨name.takeWhile (· ≠ 0), password⟩
    else none
  | _ => none

/-- strncpy of n characters: the string cut to n, or padded with zeros. -/
def strncpy (s : List UInt8) (n : Nat) : List UInt8 := s.take n ++ List.replicate (n - s.length) 0

theorem strncpy_length (s : List UInt8) (n : Nat) : (strncpy s n).length = n := by
  simp only [strncpy, List.length_append, List.length_take, List.length_replicate]
  omega

theorem strncpy_zero (s : List UInt8) (n : Nat) :
    strncpy s n ++ [0] = s.take n ++ 0 :: List.replicate (n - s.length) 0 := by
  rw [strncpy, List.append_assoc, ← List.replicate_one, List.replicate_append_replicate, Nat.add_comm, List.replicate_add]
  rfl

def sqlInsert (form : Form) : List UInt8 :=
  bytes "INSERT INTO user(username, password) VALUES(" ++ bytes "'" ++ form.name ++ bytes "', '" ++
    form.password ++ bytes "')"

/-- Registration: the page to go to and the users map; the statement is built in an
allocation of 200. -/
def World.register (w : World) (form : Form) : Option (World × List UInt8) :=
  if 200 ≤ (sqlInsert form).length then none
  else if w.users.lookup form.name = none then
    some ({ w with users := w.users ++ [(form.name, form.password)] },
      if w.mysqlQuery (sqlInsert form) then bytes "/log.html" else bytes "/registerError.html")
  else some (w, bytes "/registerError.html")

def World.login (w : World) (form : Form) : List UInt8 :=
  if w.users.lookup form.name = some form.password then bytes "/welcome.html" else bytes "/logError.html"

/-- The digit 3 registers and the digit 2 logs in. -/
def World.answer (w : World) (digit : UInt8) (form : Form) : Option (World × List UInt8) :=
  if digit = 51 then w.register form else some (w, w.login form)

/-- The pages that answer a form. -/
def answerPages : List (List UInt8) :=
  [bytes "/log.html", bytes "/registerError.html", bytes "/welcome.html", bytes "/logError.html"]

theorem World.answer_spec {w w' : World} {digit : UInt8} {form : Form} {page : List UInt8}
    (h : w.answer digit form = some (w', page)) : w'.files = w.files ∧ page ∈ answerPages := by
  unfold World.answer at h
  split at h
  · unfold World.register at h
    split at h
    · cases h
    · split at h
      · obtain ⟨rfl, rfl⟩ := Prod.mk.inj (Option.some.inj h)
        refine ⟨rfl, ?_⟩
        split <;> simp [answerPages]
      · obtain ⟨rfl, rfl⟩ := Prod.mk.inj (Option.some.inj h)
        exact ⟨rfl, by simp [answerPages]⟩
  · obtain ⟨rfl, rfl⟩ := Prod.mk.inj (Option.some.inj h)
    refine ⟨rfl, ?_⟩
    unfold World.login
    split <;> simp [answerPages]

/-- Where m_url points and where the character after its last slash stands. -/
def HttpConn.urlMark (c : HttpConn) : Option (Nat × Nat) :=
  match c.url with
  | .into off => do
    let s ← c.readBuf.cstr off
    let p ← strrchr s 47
    some (off, off + p + 1)
  | _ => none

/-- The request is a login or a registration. -/
def HttpConn.isForm (c : HttpConn) : Bool :=
  match c.urlMark with
  | some (_, q) => c.cgi = 1 && (c.readBuf.bytes[q]? = some 50 || c.readBuf.bytes[q]? = some 51)
  | none => false

/-- The CGI branch of do_request: the path without its digit goes to m_real_file,
the form is read through m_string, and m_url becomes the answering page. -/
def HttpConn.doForm (c : HttpConn) (w : World) (off : Nat) (digit : UInt8) :
    Option (HttpConn × World × Form) := do
  let rest ← c.readBuf.cstr (off + 2)
  if 199 ≤ rest.length then none
  else do
    let file ← c.realFile.blit c.docRoot.length (strncpy (47 :: rest) (fileNameLen - c.docRoot.length - 1))
    let form ← readForm c.readBuf c.string
    let (w, page) ← w.answer digit form
    let buf ← c.readBuf.blit off (page ++ [0])
    some ({ c with realFile := file, readBuf := buf }, w, form)

theorem HttpConn.doForm_split {c c' : HttpConn} {w w' : World} {off : Nat} {digit : UInt8} {form : Form}
    (h : c.doForm w off digit = some (c', w', form)) :
    ∃ rest page file buf, c.readBuf.cstr (off + 2) = some rest ∧ rest.length < 199 ∧
      readForm c.readBuf c.string = some form ∧ w.answer digit form = some (w', page) ∧
      c.readBuf.blit off (page ++ [0]) = some buf ∧ c' = { c with realFile := file, readBuf := buf } := by
  obtain ⟨rest, hrest, h⟩ := Option.bind_eq_some_iff.mp h
  split at h
  · cases h
  next hlen =>
    obtain ⟨file, _, h⟩ := Option.bind_eq_some_iff.mp h
    obtain ⟨form', hform, h⟩ := Option.bind_eq_some_iff.mp h
    obtain ⟨⟨w1, page⟩, hanswer, h⟩ := Option.bind_eq_some_iff.mp h
    obtain ⟨buf, hblit, h⟩ := Option.bind_eq_some_iff.mp h
    cases Option.some.inj h
    exact ⟨rest, page, file, buf, hrest, by omega, hform, hanswer, hblit, rfl⟩

/-- The page a digit stands for. -/
def staticPage (digit : UInt8) : Option (List UInt8) :=
  if digit = 48 then some (bytes "/register.html")
  else if digit = 49 then some (bytes "/log.html")
  else if digit = 53 then some (bytes "/picture.html")
  else if digit = 54 then some (bytes "/video.html")
  else if digit = 55 then some (bytes "/fans.html")
  else none

/-- What goes behind the document root: the page of a digit, or m_url itself. -/
def HttpConn.routeText (c : HttpConn) (off : Nat) (digit : UInt8) : Option (List UInt8) :=
  match staticPage digit with
  | some page => some page
  | none => (c.readBuf.cstr off).map (strncpy · (fileNameLen - c.docRoot.length - 1))

/-- The routing at the end of do_request; the character after the slash is read
again, since m_url may have been overwritten. -/
def HttpConn.route (c : HttpConn) (off q : Nat) : Option HttpConn := do
  let digit ← c.readBuf.bytes[q]?
  let text ← c.routeText off digit
  let file ← c.realFile.blit c.docRoot.length text
  some { c with realFile := file }

theorem HttpConn.route_split {c c' : HttpConn} {off q : Nat} (h : c.route off q = some c') :
    ∃ digit text file, c.readBuf.bytes[q]? = some digit ∧ c.routeText off digit = some text ∧
      c.realFile.blit c.docRoot.length text = some file ∧ c' = { c with realFile := file } := by
  obtain ⟨digit, hdigit, h⟩ := Option.bind_eq_some_iff.mp h
  obtain ⟨text, htext, h⟩ := Option.bind_eq_some_iff.mp h
  obtain ⟨file, hblit, h⟩ := Option.bind_eq_some_iff.mp h
  exact ⟨digit, text, file, hdigit, htext, hblit, (Option.some.inj h).symm⟩

/-- stat, the permission tests, and mmap. -/
def HttpConn.serve (c : HttpConn) (w : World) : Option (HttpConn × HttpCode) := do
  let path ← c.realFile.cstr 0
  match w.files path with
  | none => some (c, .noResource)
  | some e =>
    let c : HttpConn := { c with fileStat := e.stat }
    if e.othersRead = false then some (c, .forbiddenRequest)
    else if e.isDir then some (c, .badRequest)
    else some ({ c with fileAddress := e.mmap }, .fileRequest)

/-- do_request up to the routing: the object, the world, and the form it has read. -/
def HttpConn.locate (c : HttpConn) (w : World) : Option (HttpConn × World × Option Form) := do
  let file ← c.realFile.blit 0 (c.docRoot ++ [0])
  let (off, q) ← c.urlMark
  let digit ← c.readBuf.bytes[q]?
  let c : HttpConn := { c with realFile := file }
  if c.cgi = 1 ∧ (digit = 50 ∨ digit = 51) then do
    let (c, w, form) ← c.doForm w off digit
    let c ← c.route off q
    some (c, w, some form)
  else do
    let c ← c.route off q
    some (c, w, none)

structure Requested where
  conn : HttpConn
  world : World
  form : Option Form
  code : HttpCode

def HttpConn.doRequest (c : HttpConn) (w : World) : Option Requested := do
  let (c, w, form) ← c.locate w
  let (c, code) ← c.serve w
  some ⟨c, w, form, code⟩

/-- close_conn: the epoll entry goes and the descriptor is forgotten. -/
def HttpConn.closeConn (c : HttpConn) : HttpConn × List EpollCall :=
  if c.sockfd ≠ -1 then ({ c with sockfd := -1 }, [.removefd c.sockfd]) else (c, [])

/-- The end of process(): re-arm for reading, or prepare the response, close on
failure, and in either case arm for writing. -/
def HttpConn.respond (c : HttpConn) (code : HttpCode) : HttpConn × Bool × List EpollCall :=
  if code = .noRequest then (c, false, [c.rearm .epollin])
  else
    let r := c.processWrite code
    if r.2 then (r.1, true, [r.1.rearm .epollout])
    else
      let r := r.1.closeConn
      (r.1, false, r.2 ++ [r.1.rearm .epollout])

/-- What a call of process() leaves behind. -/
structure Handled where
  conn : HttpConn
  world : World
  form : Option Form
  code : HttpCode
  written : Bool
  calls : List EpollCall

def HttpConn.finish (c : HttpConn) (w : World) (form : Option Form) (code : HttpCode) : Handled :=
  let r := c.respond code
  ⟨r.1, w, form, code, r.2.1, r.2.2⟩

/-- What process() makes of the end of process_read; none when it has no defined outcome. -/
def ReadExit.answer (w : World) : ReadExit → Option Handled
  | .returns c code => some (c.finish w none code)
  | .doRequest c => (c.doRequest w).map fun r => r.conn.finish r.world r.form r.code
  | _ => none

def HttpConn.process (c : HttpConn) (w : World) (fuel : Nat) : Option Handled :=
  (c.processRead fuel).bind (ReadExit.answer w)

end CppInAction
