import CppInAction.HttpWrite

namespace CppInAction

def ok200Title : List UInt8 := bytes "OK"
def error403Title : List UInt8 := bytes "Forbidden"
def error403Form : List UInt8 := bytes "You do not have permission to get file form this server.\n"
def error404Title : List UInt8 := bytes "Not Found"
def error404Form : List UInt8 := bytes "The requested file was not found on this server.\n"
def error500Title : List UInt8 := bytes "Internal Error"
def error500Form : List UInt8 := bytes "There was an unusual problem serving the request file.\n"
def okString : List UInt8 := bytes "<html><body></body></html>"

def crlf : List UInt8 := [13, 10]

/-- vsnprintf of an already formatted text: at most size - 1 characters and a
terminator, all inside the array. -/
def vsnprintf {n : Nat} (b : Buffer n) (off size : Nat) (fits : off + size ≤ n)
    (text : List UInt8) : Buffer n :=
  if h : size = 0 then b
  else
    ⟨b.bytes.take off ++ (text.take (size - 1) ++ [0]) ++ b.bytes.drop (off + (min (size - 1) text.length + 1)), by
      have := b.length_eq
      simp only [List.length_append, List.length_take, List.length_drop, List.length_singleton]
      omega⟩

/-- add_response, given the text that its format and arguments produce. -/
def HttpConn.addResponse (c : HttpConn) (text : List UInt8) : HttpConn × Bool :=
  if h : writeBufferSize ≤ c.writeIdx then (c, false)
  else
    let size := writeBufferSize - c.writeIdx - 1
    let c' := { c with writeBuf := vsnprintf c.writeBuf c.writeIdx size (by omega) text }
    if size ≤ text.length then (c', false)
    else ({ c' with writeIdx := c.writeIdx + text.length }, true)

def statusLine (status : Int) (title : List UInt8) : List UInt8 :=
  bytes "HTTP/1.1" ++ [32] ++ decimal status ++ [32] ++ title ++ crlf

def contentLengthLine (contentLen : Int) : List UInt8 :=
  bytes "Content-Length:" ++ decimal contentLen ++ crlf

def lingerLine (linger : Bool) : List UInt8 :=
  bytes "Connection:" ++ (if linger then bytes "keep-alive" else bytes "close") ++ crlf

def HttpConn.addStatusLine (c : HttpConn) (status : Int) (title : List UInt8) : HttpConn × Bool :=
  c.addResponse (statusLine status title)

def HttpConn.addContentLength (c : HttpConn) (contentLen : Int) : HttpConn × Bool :=
  c.addResponse (contentLengthLine contentLen)

def HttpConn.addLinger (c : HttpConn) : HttpConn × Bool := c.addResponse (lingerLine c.linger)

def HttpConn.addBlankLine (c : HttpConn) : HttpConn × Bool := c.addResponse crlf

def HttpConn.addContent (c : HttpConn) (content : List UInt8) : HttpConn × Bool :=
  c.addResponse content

/-- The chain of && in add_headers stops at the first helper that fails. -/
def HttpConn.addHeaders (c : HttpConn) (contentLen : Int) : HttpConn × Bool :=
  let r := c.addContentLength contentLen
  if r.2 then
    let r := r.1.addLinger
    if r.2 then r.1.addBlankLine else r
  else r

/-- An error page: the results of the status line and the headers are ignored. -/
def HttpConn.errorPage (c : HttpConn) (status : Int) (title form : List UInt8) : HttpConn × Bool :=
  let c := (c.addStatusLine status title).1
  let c := (c.addHeaders form.length).1
  let r := c.addContent form
  if r.2 then
    ({ r.1 with
        iovec0 := ⟨.writeBuf 0, r.1.writeIdx⟩
        iovecCount := 1
        bytesToSend := r.1.writeIdx }, true)
  else (r.1, false)

/-- The FILE_REQUEST case. With an empty file it runs on into the default case,
which returns false. -/
def HttpConn.filePage (c : HttpConn) : HttpConn × Bool :=
  let c := (c.addStatusLine 200 ok200Title).1
  if c.fileStat.size ≠ 0 then
    let c := (c.addHeaders (toInt32 c.fileStat.size)).1
    ({ c with
        iovec0 := ⟨.writeBuf 0, c.writeIdx⟩
        iovec1 := ⟨.file 0, c.fileStat.size⟩
        bytesToSend := toInt32 (c.writeIdx + c.fileStat.size) }, true)
  else
    let c := (c.addHeaders okString.length).1
    ((c.addContent okString).1, false)

def HttpConn.processWrite (c : HttpConn) : HttpCode → HttpConn × Bool
  | .internalError => c.errorPage 500 error500Title error500Form
  | .badRequest => c.errorPage 404 error404Title error404Form
  | .forbiddenRequest => c.errorPage 403 error403Title error403Form
  | .fileRequest => c.filePage
  | _ => (c, false)

/-- The memory an iovec entry describes; none when it is not inside one object. -/
def HttpConn.entryBytes (c : HttpConn) (v : IoVec) : Option (List UInt8) :=
  match v.base, c.fileAddress with
  | .writeBuf off, _ =>
    if 0 ≤ off ∧ off + v.len ≤ writeBufferSize then
      some ((c.writeBuf.bytes.drop off.toNat).take v.len)
    else none
  | .file off, .mapped content =>
    if 0 ≤ off ∧ off + v.len ≤ content.length then some ((content.drop off.toNat).take v.len)
    else none
  | _, _ => none

/-- The bytes of the first m_iovec_count entries. -/
def HttpConn.described (c : HttpConn) : Option (List UInt8) :=
  if 0 ≤ c.iovecCount ∧ c.iovecCount ≤ 2 then
    (c.iovecs.mapM c.entryBytes).map List.flatten
  else none

/-- A response: status line, headers with the length of the body, blank line, body. -/
def httpMessage (status : Int) (title : List UInt8) (linger : Bool) (body : List UInt8) : List UInt8 :=
  statusLine status title ++ contentLengthLine body.length ++ lingerLine linger ++ crlf ++ body

/-- The status code that belongs to an outcome of process_read. -/
def statusOf : HttpCode → Option Int
  | .badRequest => some 400
  | .noResource => some 404
  | .forbiddenRequest => some 403
  | .fileRequest => some 200
  | .internalError => some 500
  | _ => none

/-- process_write succeeds and describes one well-formed response for the outcome,
with the file as body when a non-empty file is served. -/
def HttpConn.Answers (c : HttpConn) (ret : HttpCode) (file : List UInt8) : Prop :=
  (c.processWrite ret).2 = true ∧ ∃ status title body, statusOf ret = some status ∧
    (c.processWrite ret).1.described = some (httpMessage status title c.linger body) ∧
    (c.processWrite ret).1.bytesToSend = (httpMessage status title c.linger body).length ∧
    (ret = .fileRequest → file ≠ [] → body = file)

/-- Number of header bytes of a 200 response for a body of the given size. -/
def okHeaderLength (linger : Bool) (size : Nat) : Nat :=
  54 + (decimal size).length + if linger then 5 else 0

/-- From c to c' only the write buffer changed, and it now holds the text. -/
structure HttpConn.Wrote (c c' : HttpConn) (text : List UInt8) : Prop where
  same : ∃ buf idx, c' = { c with writeBuf := buf, writeIdx := idx }
  idx : c'.writeIdx = text.length
  holds : c'.writeBuf.bytes.take text.length = text

theorem HttpConn.wrote_nil {c : HttpConn} (h : c.writeIdx = 0) : c.Wrote c [] :=
  ⟨⟨c.writeBuf, c.writeIdx, rfl⟩, h, rfl⟩

theorem HttpConn.addResponse_fileStat (c : HttpConn) (text : List UInt8) :
    (c.addResponse text).1.fileStat = c.fileStat := by
  unfold HttpConn.addResponse
  split
  next => rfl
  next => simp only; split <;> rfl

theorem vsnprintf_take {n : Nat} (b : Buffer n) (off size : Nat) (fits : off + size ≤ n)
    {text : List UInt8} (h : text.length < size) :
    (vsnprintf b off size fits text).bytes.take (off + text.length) = b.bytes.take off ++ text := by
  have hlen := b.length_eq
  have hz : size ≠ 0 := by omega
  simp only [vsnprintf, hz, dite_false]
  rw [List.take_of_length_le (l := text) (by omega), List.append_assoc, List.append_assoc,
    ← List.append_assoc (b.bytes.take off) text, List.take_left']
  simp only [List.length_append, List.length_take]
  omega

/-- A text that leaves room for its terminator is appended. -/
theorem HttpConn.Wrote.addResponse {c c' : HttpConn} {text : List UInt8} (h : c.Wrote c' text) (more : List UInt8)
    (room : text.length + more.length + 1 < writeBufferSize) :
    (c'.addResponse more).2 = true ∧ c.Wrote (c'.addResponse more).1 (text ++ more) := by
  obtain ⟨⟨buf, idx, rfl⟩, rfl, hold⟩ := h
  have hopen : ¬ writeBufferSize ≤ text.length := by omega
  have hfit : ¬ writeBufferSize - text.length - 1 ≤ more.length := by omega
  simp only [HttpConn.addResponse, hopen, hfit, dite_false, if_false]
  refine ⟨trivial, ⟨_, _, rfl⟩, by simp, ?_⟩
  rw [List.length_append, vsnprintf_take _ _ _ _ (by omega), hold]

theorem HttpConn.Wrote.linger {c c' : HttpConn} {text : List UInt8} (h : c.Wrote c' text) :
    c'.linger = c.linger := by
  obtain ⟨_, _, rfl⟩ := h.same
  rfl

theorem HttpConn.Wrote.addHeaders {c c' : HttpConn} {text : List UInt8}
    (h : c.Wrote c' text) (contentLen : Int)
    (room : text.length + (contentLengthLine contentLen).length + (lingerLine c.linger).length + 3
      < writeBufferSize) :
    (c'.addHeaders contentLen).2 = true ∧ c.Wrote (c'.addHeaders contentLen).1
      (text ++ contentLengthLine contentLen ++ lingerLine c.linger ++ crlf) := by
  obtain ⟨ok1, h1⟩ := h.addResponse (contentLengthLine contentLen) (by omega)
  obtain ⟨ok2, h2⟩ := h1.addResponse (lingerLine c.linger)
    (by simp only [List.length_append]; omega)
  obtain ⟨ok3, h3⟩ := h2.addResponse crlf
    (by simp only [List.length_append, crlf, List.length_cons, List.length_nil]; omega)
  simp only [HttpConn.addHeaders, HttpConn.addContentLength, HttpConn.addLinger,
    HttpConn.addBlankLine, ok1, h1.linger, ok2, if_true]
  exact ⟨ok3, h3⟩

theorem decimal_length_le {x : Int} (h : x.natAbs < 10 ^ 10) : (decimal x).length ≤ 11 := by
  have hdigits : ∀ n : Nat, n < 10 ^ 10 → (bytes n.repr).length ≤ 10 := by
    intro n hn
    rw [bytes, List.length_map, Nat.toList_repr]
    exact (Nat.length_toDigits_le_iff (by decide) (by decide)).mpr hn
  unfold decimal
  split
  next => have := hdigits x.natAbs h; simp only [List.length_cons]; omega
  next => have := hdigits x.toNat (by omega); omega

theorem toInt32_natAbs_le (x : Int) : (toInt32 x).natAbs < 10 ^ 10 := by
  have hlt := toInt32_lt x
  have hge := Int.le_bmod (x := x) (m := 2 ^ 32) (by decide)
  unfold toInt32 at hlt ⊢
  omega

theorem lingerLine_length (linger : Bool) :
    (lingerLine linger).length = 18 + if linger then 5 else 0 := by
  cases linger <;> decide

theorem contentLengthLine_length (x : Int) :
    (contentLengthLine x).length = 17 + (decimal x).length := by
  have : (bytes "Content-Length:").length = 15 := by decide
  simp only [contentLengthLine, crlf, List.length_append, List.length_cons, List.length_nil, this]
  omega

/-- An error page leaves its whole message in the write buffer and one entry on it. -/
theorem HttpConn.errorPage_spec {c : HttpConn} {status : Int} {title form : List UInt8}
    (empty : c.writeIdx = 0) (room : (statusLine status title).length + form.length ≤ 500) :
    ∃ buf : Buffer writeBufferSize, buf.bytes.take (httpMessage status title c.linger form).length =
        httpMessage status title c.linger form ∧
      (httpMessage status title c.linger form).length ≤ writeBufferSize ∧
      c.errorPage status title form =
        ({ c with
            writeBuf := buf
            writeIdx := (httpMessage status title c.linger form).length
            iovec0 := ⟨.writeBuf 0, (httpMessage status title c.linger form).length⟩
            iovecCount := 1
            bytesToSend := (httpMessage status title c.linger form).length }, true) := by
  have hl := lingerLine_length c.linger
  have hc := contentLengthLine_length form.length
  have hd : (decimal form.length).length ≤ 11 := decimal_length_le (by omega)
  have hl' : (if c.linger then 5 else 0) ≤ 5 := by split <;> omega
  have hsize : (httpMessage status title c.linger form).length ≤ 600 := by
    simp only [httpMessage, List.length_append, crlf, List.length_cons, List.length_nil]
    omega
  obtain ⟨_, h1⟩ := (HttpConn.wrote_nil empty).addResponse (statusLine status title)
    (by simp only [List.length_nil, writeBufferSize]; omega)
  rw [List.nil_append] at h1
  obtain ⟨_, h2⟩ := h1.addHeaders form.length (by simp only [writeBufferSize]; omega)
  obtain ⟨ok3, h3⟩ := h2.addResponse form (by
    simp only [List.length_append, crlf, List.length_cons, List.length_nil, writeBufferSize]
    omega)
  have hmsg : statusLine status title ++ contentLengthLine form.length ++ lingerLine c.linger ++ crlf ++
      form = httpMessage status title c.linger form := rfl
  rw [hmsg] at h3
  obtain ⟨⟨buf, idx, he⟩, hidx, hold⟩ := h3
  rw [he] at hidx hold
  refine ⟨buf, hold, by simp only [writeBufferSize]; omega, ?_⟩
  simp only [HttpConn.errorPage, HttpConn.addStatusLine, HttpConn.addContent, ok3, if_true, he]
  simp only at hidx
  rw [hidx]

theorem HttpConn.described_single {c : HttpConn} {text : List UInt8} (count : c.iovecCount = 1)
    (entry : c.iovec0 = ⟨.writeBuf 0, text.length⟩) (fits : text.length ≤ writeBufferSize)
    (hold : c.writeBuf.bytes.take text.length = text) : c.described = some text := by
  have hb : c.entryBytes ⟨.writeBuf 0, text.length⟩ = some text := by
    have : (text.length : Int) ≤ writeBufferSize := by omega
    simp [HttpConn.entryBytes, this, hold]
  simp [HttpConn.described, HttpConn.iovecs, count, entry, hb]

theorem HttpConn.described_pair {c : HttpConn} {text file : List UInt8} (count : c.iovecCount = 2)
    (entry0 : c.iovec0 = ⟨.writeBuf 0, text.length⟩) (fits : text.length ≤ writeBufferSize)
    (hold : c.writeBuf.bytes.take text.length = text)
    (entry1 : c.iovec1 = ⟨.file 0, file.length⟩) (mapped : c.fileAddress = .mapped file) :
    c.described = some (text ++ file) := by
  have hb0 : c.entryBytes ⟨.writeBuf 0, text.length⟩ = some text := by
    have : (text.length : Int) ≤ writeBufferSize := by omega
    simp [HttpConn.entryBytes, this, hold]
  have hb1 : c.entryBytes ⟨.file 0, file.length⟩ = some file := by
    simp [HttpConn.entryBytes, mapped]
  simp [HttpConn.described, HttpConn.iovecs, count, entry0, entry1, hb0, hb1]

/-- The header a non-empty file is announced with; its length is held to an int. -/
def fileHeader (linger : Bool) (size : Nat) : List UInt8 :=
  statusLine 200 ok200Title ++ contentLengthLine (toInt32 size) ++ lingerLine linger ++ crlf

theorem fileHeader_length (linger : Bool) (size : Nat) :
    (fileHeader linger size).length = 54 + (decimal (toInt32 size)).length + if linger then 5 else 0 := by
  have : (statusLine 200 ok200Title).length = 17 := by decide
  simp only [fileHeader, List.length_append, contentLengthLine_length, lingerLine_length, this, crlf,
    List.length_cons, List.length_nil]
  omega

theorem fileHeader_length_le (linger : Bool) (size : Nat) : (fileHeader linger size).length ≤ 70 := by
  have hd := decimal_length_le (toInt32_natAbs_le size)
  have hl : (if linger then 5 else 0) ≤ 5 := by split <;> omega
  rw [fileHeader_length]
  omega

/-- A non-empty file is answered with its header in the write buffer and two
entries set; the number of entries stays what it was. -/
structure HttpConn.ServesFile (c c' : HttpConn) : Prop where
  count : c'.iovecCount = c.iovecCount
  entry0 : c'.iovec0 = ⟨.writeBuf 0, (fileHeader c.linger c.fileStat.size).length⟩
  entry1 : c'.iovec1 = ⟨.file 0, c.fileStat.size⟩
  address : c'.fileAddress = c.fileAddress
  toSend : c'.bytesToSend = toInt32 ((fileHeader c.linger c.fileStat.size).length + c.fileStat.size)
  idx : c'.writeIdx = (fileHeader c.linger c.fileStat.size).length
  haveSend : c'.bytesHaveSend = c.bytesHaveSend
  epoll : ∀ ev, c'.rearm ev = c.rearm ev
  holds : c'.writeBuf.bytes.take (fileHeader c.linger c.fileStat.size).length =
    fileHeader c.linger c.fileStat.size

theorem HttpConn.filePage_servesFile {c : HttpConn} (empty : c.writeIdx = 0) (size : c.fileStat.size ≠ 0) :
    c.filePage.2 = true ∧ c.ServesFile c.filePage.1 := by
  have hs : (statusLine 200 ok200Title).length = 17 := by decide
  have hl := lingerLine_length c.linger
  have hc := contentLengthLine_length (toInt32 c.fileStat.size)
  have hd := decimal_length_le (toInt32_natAbs_le c.fileStat.size)
  have hl' : (if c.linger then 5 else 0) ≤ 5 := by split <;> omega
  obtain ⟨_, h1⟩ := (HttpConn.wrote_nil empty).addResponse (statusLine 200 ok200Title)
    (by simp only [List.length_nil, writeBufferSize]; omega)
  rw [List.nil_append] at h1
  obtain ⟨_, h2⟩ := h1.addHeaders (toInt32 c.fileStat.size)
    (by simp only [writeBufferSize]; omega)
  obtain ⟨⟨buf1, idx1, he1⟩, _, _⟩ := h1
  obtain ⟨⟨buf, idx, he⟩, hidx, hold⟩ := h2
  rw [he] at hidx hold
  have hstat : (c.addResponse (statusLine 200 ok200Title)).1.fileStat = c.fileStat := by rw [he1]
  simp only at hidx
  have hpage : c.filePage = ({ c with
      writeBuf := buf
      writeIdx := (fileHeader c.linger c.fileStat.size).length
      iovec0 := ⟨.writeBuf 0, (fileHeader c.linger c.fileStat.size).length⟩
      iovec1 := ⟨.file 0, c.fileStat.size⟩
      bytesToSend := toInt32 ((fileHeader c.linger c.fileStat.size).length + c.fileStat.size) }, true) := by
    simp only [HttpConn.filePage, HttpConn.addStatusLine, hstat, size, ne_eq, not_false_eq_true,
      if_true, he]
    rw [hidx]
    rfl
  rw [hpage]
  exact ⟨rfl, ⟨rfl, rfl, rfl, rfl, by simp, rfl, rfl, fun _ => rfl, hold⟩⟩

/-- The outcomes that get their response: the two error pages with their own
status, and a non-empty file whose entry is already counted and whose total fits an int. -/
def HttpConn.AnswerCond (c : HttpConn) (ret : HttpCode) : Prop :=
  ret = .internalError ∨ ret = .forbiddenRequest ∨
    (ret = .fileRequest ∧ c.fileStat.size ≠ 0 ∧ c.iovecCount = 2 ∧
      okHeaderLength c.linger c.fileStat.size + c.fileStat.size < 2 ^ 31)

theorem HttpConn.errorPage_describes {c : HttpConn} (status : Int) (title form : List UInt8)
    (empty : c.writeIdx = 0) (room : (statusLine status title).length + form.length ≤ 500) :
    (c.errorPage status title form).2 = true ∧
      (c.errorPage status title form).1.described = some (httpMessage status title c.linger form) ∧
      (c.errorPage status title form).1.bytesToSend = (httpMessage status title c.linger form).length := by
  obtain ⟨buf, hold, fits, he⟩ := HttpConn.errorPage_spec empty room
  rw [he]
  exact ⟨rfl, HttpConn.described_single rfl rfl fits hold, rfl⟩

theorem statusLine_code {a b : Int} {s t x y : List UInt8} (ha : (decimal a).length = 3)
    (hb : (decimal b).length = 3) (h : statusLine a s ++ x = statusLine b t ++ y) :
    decimal a = decimal b := by
  have htake := congrArg (fun l => (l.drop 9).take 3) h
  have h9 : (bytes "HTTP/1.1" ++ [32]).length = 9 := by decide
  have code : ∀ (d : Int) (u v : List UInt8), (decimal d).length = 3 →
      ((statusLine d u ++ v).drop 9).take 3 = decimal d := by
    intro d u v hd
    simp only [statusLine, List.append_assoc]
    rw [← List.append_assoc (bytes "HTTP/1.1"), List.drop_left' h9, List.take_left' hd]
  simpa only [code _ _ _ ha, code _ _ _ hb] using htake

theorem httpMessage_length_ge (status : Int) (title : List UInt8) (linger : Bool) (body : List UInt8) :
    body.length ≤ (httpMessage status title linger body).length := by
  simp only [httpMessage, List.length_append]
  omega

/-- A file response with any other number of entries does not describe its total. -/
theorem HttpConn.ServesFile.count_two {c c' : HttpConn} {file title : List UInt8} (h : c.ServesFile c')
    (hsize : c.fileStat.size = file.length) (size : c.fileStat.size ≠ 0)
    (hd : c'.described = some (httpMessage 200 title c.linger file))
    (hb : c'.bytesToSend = (httpMessage 200 title c.linger file).length) : c.iovecCount = 2 := by
  have hge := httpMessage_length_ge 200 title c.linger file
  have hlen := fileHeader_length_le c.linger c.fileStat.size
  have hcount := h.count
  have hrange : 0 ≤ c'.iovecCount ∧ c'.iovecCount ≤ 2 := by
    by_contra hn
    simp [HttpConn.described, hn] at hd
  by_contra hne
  obtain hzero | hone : c'.iovecCount = 0 ∨ c'.iovecCount = 1 := by omega
  · simp [HttpConn.described, HttpConn.iovecs, hzero] at hd
    have hnil := congrArg List.length hd
    simp only [List.length_nil] at hnil
    omega
  · rw [HttpConn.described_single hone h.entry0 (by simp only [writeBufferSize]; omega) h.holds] at hd
    have hl := congrArg List.length (Option.some.inj hd)
    have hmod := toInt32_emod ((fileHeader c.linger c.fileStat.size).length + c.fileStat.size)
    rw [← h.toSend, hb, ← hl] at hmod
    omega

theorem HttpConn.filePage_answers_iff {c : HttpConn} {file : List UInt8} (empty : c.writeIdx = 0)
    (hsize : c.fileStat.size = file.length) (mapped : file ≠ [] → c.fileAddress = .mapped file) :
    c.Answers .fileRequest file ↔ c.fileStat.size ≠ 0 ∧ c.iovecCount = 2 ∧
      okHeaderLength c.linger c.fileStat.size + c.fileStat.size < 2 ^ 31 := by
  by_cases size : c.fileStat.size = 0
  · have hfail : c.filePage.2 = false := by
      simp [HttpConn.filePage, HttpConn.addStatusLine, HttpConn.addResponse_fileStat, size]
    simp [HttpConn.Answers, HttpConn.processWrite, hfail, size]
  have hfile : file ≠ [] := by
    rintro rfl
    exact size hsize
  obtain ⟨ok, serves⟩ := HttpConn.filePage_servesFile empty size
  have hfits := fileHeader_length_le c.linger c.fileStat.size
  constructor
  · rintro ⟨_, status, title, body, hs, hd, hb, hbody⟩
    cases Option.some.inj hs
    cases hbody rfl hfile
    have hcount := serves.count_two hsize size hd hb
    refine ⟨size, hcount, ?_⟩
    have hpair := HttpConn.described_pair (serves.count.trans hcount) serves.entry0
      (by simp only [writeBufferSize]; omega) serves.holds (hsize ▸ serves.entry1)
      (serves.address.trans (mapped hfile))
    have hmsg := Option.some.inj (hpair.symm.trans hd)
    have hl := congrArg List.length hmsg
    have hint := toInt32_lt ((fileHeader c.linger c.fileStat.size).length + c.fileStat.size)
    rw [← serves.toSend] at hint
    simp only [HttpConn.processWrite] at hb
    rw [hb, ← hl, List.length_append, fileHeader_length,
      toInt32_of_nonneg (by omega) (by omega)] at hint
    simp only [okHeaderLength, hsize] at hint ⊢
    omega
  · rintro ⟨_, hcount, hlt⟩
    have hint : toInt32 c.fileStat.size = c.fileStat.size :=
      toInt32_of_nonneg (by omega) (by simp only [okHeaderLength] at hlt; omega)
    have hheader : fileHeader c.linger c.fileStat.size ++ file =
        httpMessage 200 ok200Title c.linger file := by
      simp only [fileHeader, httpMessage, hint]
      rw [hsize]
    have hpair := HttpConn.described_pair (serves.count.trans hcount) serves.entry0
      (by simp only [writeBufferSize]; omega) serves.holds (hsize ▸ serves.entry1)
      (serves.address.trans (mapped hfile))
    refine ⟨ok, 200, ok200Title, file, rfl, hheader ▸ hpair, ?_, fun _ _ => rfl⟩
    have hlen := fileHeader_length c.linger c.fileStat.size
    rw [hint] at hlen
    simp only [HttpConn.processWrite]
    rw [serves.toSend, ← hheader, List.length_append, ← hsize, toInt32_of_nonneg (by omega)
      (by simp only [okHeaderLength] at hlt; omega)]
    simp

/-- From an empty write buffer, process_write answers an outcome with its own
well-formed response exactly in the cases of the condition. -/
theorem processWrite_answers_iff {c : HttpConn} {ret : HttpCode} {file : List UInt8}
    (empty : c.writeIdx = 0) (outcome : (statusOf ret).isSome)
    (served : ret = .fileRequest →
      c.fileStat.size = file.length ∧ (file ≠ [] → c.fileAddress = .mapped file)) :
    c.Answers ret file ↔ c.AnswerCond ret := by
  cases ret with
  | internalError =>
    obtain ⟨ok, hd, hb⟩ := HttpConn.errorPage_describes 500 error500Title error500Form empty (by decide)
    exact iff_of_true ⟨ok, 500, _, _, rfl, hd, hb, by simp⟩ (Or.inl rfl)
  | forbiddenRequest =>
    obtain ⟨ok, hd, hb⟩ := HttpConn.errorPage_describes 403 error403Title error403Form empty (by decide)
    exact iff_of_true ⟨ok, 403, _, _, rfl, hd, hb, by simp⟩ (Or.inr (Or.inl rfl))
  | badRequest =>
    refine iff_of_false ?_ (by simp [HttpConn.AnswerCond])
    rintro ⟨_, status, title, body, hs, hd, _, _⟩
    cases Option.some.inj hs
    obtain ⟨_, hd', _⟩ := HttpConn.errorPage_describes 404 error404Title error404Form empty (by decide)
    have hmsg := Option.some.inj (hd'.symm.trans hd)
    simp only [httpMessage, List.append_assoc] at hmsg
    exact absurd (statusLine_code (by decide) (by decide) hmsg) (by decide)
  | fileRequest =>
    obtain ⟨hsize, mapped⟩ := served rfl
    rw [HttpConn.filePage_answers_iff empty hsize mapped]
    simp [HttpConn.AnswerCond]
  | noResource =>
    refine iff_of_false ?_ (by simp [HttpConn.AnswerCond])
    rintro ⟨ok, _⟩
    simp [HttpConn.processWrite] at ok
  | noRequest => simp [statusOf] at outcome
  | getRequest => simp [statusOf] at outcome
  | closedConnection => simp [statusOf] at outcome

/-- A slot that already sends two entries serves a three-byte file. -/
theorem processWrite_answers_iff_sample :
    let c := { HttpConn.zero with
      fileStat := ⟨true, false, 3⟩, fileAddress := .mapped (bytes "abc"), iovecCount := 2 }
    c.writeIdx = 0 ∧ (c.Answers .fileRequest (bytes "abc") ↔ c.AnswerCond .fileRequest) :=
  ⟨rfl, processWrite_answers_iff rfl rfl (by decide)⟩

/-- A missing file gets no response at all. -/
theorem processWrite_not_always_answers : ¬ ∀ (c : HttpConn) (ret : HttpCode) (file : List UInt8),
    c.writeIdx = 0 → (statusOf ret).isSome →
    (ret = .fileRequest → c.fileStat.size = file.length ∧ (file ≠ [] → c.fileAddress = .mapped file)) →
    c.Answers ret file := by
  intro h
  have hanswer := h HttpConn.zero .noResource [] rfl rfl (by simp)
  simp [HttpConn.Answers, HttpConn.processWrite] at hanswer

/-- The responses of process_write that announce their own entries are ready to be sent. -/
theorem HttpConn.errorPage_ready {c : HttpConn} {status : Int} {title form : List UInt8}
    (empty : c.writeIdx = 0) (fresh : c.bytesHaveSend = 0)
    (room : (statusLine status title).length + form.length ≤ 500) :
    (c.errorPage status title form).1.Ready none := by
  obtain ⟨buf, _, fits, he⟩ := HttpConn.errorPage_spec empty room
  rw [he]
  simp only [writeBufferSize] at fits
  exact ⟨rfl, by simp, rfl, by simp, fresh, by simp only; omega⟩

theorem HttpConn.ServesFile.ready {c c' : HttpConn} (h : c.ServesFile c') (fresh : c.bytesHaveSend = 0)
    (count : c.iovecCount = 2)
    (fits : (fileHeader c.linger c.fileStat.size).length + c.fileStat.size < 2 ^ 31) :
    c'.Ready (some c.fileStat.size) := by
  have hint := h.toSend
  rw [toInt32_of_nonneg (by omega) (by omega)] at hint
  refine ⟨by rw [h.entry0, h.idx], ?_, h.count.trans count, ?_, h.haveSend.trans fresh, by omega⟩
  · rintro size ⟨⟩
    exact h.entry1
  · rw [hint, h.idx]
    rfl

end CppInAction
