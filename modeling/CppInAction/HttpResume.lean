import CppInAction.HttpArrival

namespace CppInAction

/-- What a complete request says, in the terms of the members that hold it. -/
structure Request where
  method : Method
  url : List UInt8
  linger : Bool
  contentLength : Int
  body : List UInt8
deriving DecidableEq

/-- How far a byte stream has come: bytes are missing, a line is malformed, or
the request is there. -/
inductive Arrival
  | missing
  | malformed
  | complete (r : Request)
deriving DecidableEq

/-- The resource of a request: an absolute prefix is taken off up to the first
slash, and the bare slash is the default page. -/
def resourceOf (url : List UInt8) : Option (List UInt8) :=
  let path :=
    if strncaseEq url (bytes "http://") 7 then (url.drop 7).dropWhile (· ≠ 47)
    else if strncaseEq url (bytes "https://") 8 then (url.drop 8).dropWhile (· ≠ 47)
    else url
  if path.head? ≠ some 47 then none
  else if path = [47] then some (bytes "/judge.html")
  else some path

def methodOf (name : List UInt8) : Option Method :=
  if strcaseEq name (bytes "GET") then some .get
  else if strcaseEq name (bytes "POST") then some .post
  else none

/-- The documented request line: method, resource and HTTP/1.1, separated by blanks. -/
def requestLineOf (line : List UInt8) : Option Request := do
  let method ← methodOf (line.takeWhile (!isBlank ·))
  let rest := (line.dropWhile (!isBlank ·)).dropWhile isBlank
  let url ← resourceOf (rest.takeWhile (!isBlank ·))
  let version := (rest.dropWhile (!isBlank ·)).dropWhile isBlank
  if strcaseEq version (bytes "HTTP/1.1") then some ⟨method, url, false, 0, []⟩ else none

/-- The two header fields that matter to a request. -/
def Request.header (r : Request) (line : List UInt8) : Request :=
  if strncaseEq line (bytes "Connection:") 11 then
    { r with linger := strcaseEq ((line.drop 11).dropWhile isBlank) (bytes "keep-alive") || r.linger }
  else if strncaseEq line (bytes "Content-length:") 15 then
    { r with contentLength := atol ((line.drop 15).dropWhile isBlank) }
  else r

def Request.bodyArrival (r : Request) (p : List UInt8) : Arrival :=
  if (p.length : Int) < r.contentLength then .missing
  else .complete { r with body := p.take r.contentLength.toNat }

/-- The header block up to its empty line; every line uses up two bytes at least,
so the length of the text is enough fuel. -/
def Request.headersArrival : Nat → Request → List UInt8 → Arrival
  | 0, _, _ => .missing
  | fuel + 1, r, p => match lineBreak p with
    | (.lineOpen, _) => .missing
    | (.lineBad, _) => .malformed
    | (.lineOk, k) =>
      if k = 0 then r.bodyArrival (p.drop 2)
      else (r.header (p.take k)).headersArrival fuel (p.drop (k + 2))

/-- The documented reading of a byte stream, whatever the deliveries were. -/
def arrival (p : List UInt8) : Arrival :=
  match lineBreak p with
  | (.lineOpen, _) => .missing
  | (.lineBad, _) => .malformed
  | (.lineOk, k) => match requestLineOf (p.take k) with
    | none => .malformed
    | some r => r.headersArrival p.length (p.drop (k + 2))

example : arrival (bytes "POST /a HTTP/1.1\r\nContent-length: 2\r\n\r\nhi") =
    .complete ⟨.post, bytes "/a", false, 2, bytes "hi"⟩ := by decide

/-- The members read by do_request carry the request. -/
def HttpConn.Carries (c : HttpConn) (r : Request) : Prop :=
  c.method = r.method ∧ c.linger = r.linger ∧ c.contentLength = r.contentLength ∧
  (∃ off, c.url = .into off ∧ c.readBuf.cstr off = some r.url) ∧
  (r.contentLength ≠ 0 →
    ∃ off, c.string = .into off ∧ (c.readBuf.bytes.drop off).take r.body.length = r.body)

/-- After each delivery process_read answers as the stream received so far
demands: it asks for more while bytes are missing, refuses at the first malformed
line, and reaches do_request with the request once it is complete. -/
def HttpConn.FollowsArrival (c : HttpConn) (received : List UInt8) : List (List UInt8) → Prop
  | [] => True
  | chunk :: rest => match c.deliver chunk with
    | none => False
    | some c1 => match arrival (received ++ chunk) with
      | .missing => ∃ fuel c2, c1.processRead fuel = some (.returns c2 .noRequest) ∧
          c2.FollowsArrival (received ++ chunk) rest
      | .malformed => ∃ fuel c2, c1.processRead fuel = some (.returns c2 .badRequest)
      | .complete r => ∃ fuel c2, c1.processRead fuel = some (.doRequest c2) ∧ c2.Carries r

/-- The object after the first delivery of a request. -/
theorem HttpConn.deliver_first (c : HttpConn) {p : List UInt8} (hp : p.length < readBufferSize) :
    ∃ buf : Buffer readBufferSize, buf.bytes = p ++ List.replicate (readBufferSize - p.length) 0 ∧
      c.initRequest.deliver p = some { c.initRequest with readBuf := buf, readIdx := p.length } := by
  have hle : 0 + p.length ≤ readBufferSize := by omega
  refine ⟨⟨p ++ List.replicate (readBufferSize - p.length) 0, by simp; omega⟩, rfl, ?_⟩
  simp [HttpConn.deliver, HttpConn.initRequest, Buffer.blit, Buffer.zero, hp.le]

/-- Read as a C string, the buffer ends at the first zero byte of the delivery. -/
theorem cstr_first {buf : Buffer readBufferSize} {p : List UInt8} {k : Nat}
    (hb : buf.bytes = p ++ List.replicate (k + 1) 0) : buf.cstr 0 = some (p.takeWhile (· ≠ 0)) := by
  unfold Buffer.cstr
  rw [List.drop_zero, if_pos (by simp [hb, List.replicate_succ]), hb, List.takeWhile_append]
  split
  next hlen =>
    have hall := (List.takeWhile_sublist (· ≠ (0 : UInt8)) (l := p)).eq_of_length hlen
    rw [hall]
    simp [List.replicate_succ]
  next => rfl

/-- A complete line ends the call without a return. -/
theorem HttpConn.processRead_flowsOff {c c1 : HttpConn} {fuel : Nat} {e : ReadExit}
    (hs : c.checkState = .requestLine) (hl : c.parseLine = some (c1, .lineOk))
    (h : c.processRead fuel = some e) : e = .flowsOff c1 := by
  have hiter := HttpConn.readIter_first hs hl
  rw [if_pos rfl] at hiter
  cases fuel with
  | zero => cases h
  | succ fuel => exact Option.some.inj (h.symm.trans (HttpConn.readLoop_exit hiter))

/-- The first delivery is malformed at its first line break, and is refused as a
request line by the code, which reads it up to the first zero byte. -/
def refusedAtOnce (p : List UInt8) : Prop :=
  (lineBreak p).1 = .lineBad ∧ rejectsRequestLine (p.takeWhile (· ≠ 0)) = true

/-- parse_line after the first delivery. -/
theorem HttpConn.parseLine_first (c : HttpConn) {p : List UInt8} {buf : Buffer readBufferSize} {k : Nat}
    (hb : buf.bytes = p ++ List.replicate k 0) :
    ∃ buf' i,
      HttpConn.parseLine { c.initRequest with readBuf := buf, readIdx := p.length } =
        some ({ c.initRequest with readBuf := buf', readIdx := p.length, checkedIdx := i },
          (lineBreak p).1) ∧
      ((lineBreak p).1 ≠ .lineOk → buf' = buf) := by
  have hd : buf.bytes.drop 0 = p ++ List.replicate k 0 := by simpa using hb
  obtain ⟨buf', i, hscan, _, hno⟩ := scanLine_lineBreak hd (by omega)
  refine ⟨buf', i, ?_, fun h => (hno h).2⟩
  have hlen : ((p.length : Int) - ((0 : Nat) : Int)).toNat = p.length := by omega
  rw [show ((0 : Nat) : Int) + (p.length : Int) = p.length by omega] at hscan
  simp only [HttpConn.parseLine, HttpConn.initRequest, hlen, hscan, Option.bind_eq_bind, Option.bind_some]

/-- A first delivery is answered as documented exactly when it is refused at once. -/
theorem HttpConn.followsArrival_first (c : HttpConn) {p : List UInt8} {rest : List (List UInt8)}
    (hp : p.length < readBufferSize) :
    c.initRequest.FollowsArrival [] (p :: rest) ↔ refusedAtOnce p := by
  obtain ⟨buf, hb, hd⟩ := HttpConn.deliver_first c hp
  obtain ⟨buf', i, hl, hkeep⟩ := HttpConn.parseLine_first c hb
  simp only [HttpConn.FollowsArrival, hd, List.nil_append, refusedAtOnce]
  have hcstr : buf.cstr 0 = some (p.takeWhile (· ≠ 0)) :=
    cstr_first (k := readBufferSize - p.length - 1) (by rw [hb]; congr 2; omega)
  cases hst : (lineBreak p).1 with
  | lineOk =>
    rw [hst] at hl
    refine iff_of_false ?_ (by simp)
    intro h
    split at h
    next =>
      obtain ⟨fuel, c2, hr, _⟩ := h
      cases HttpConn.processRead_flowsOff rfl hl hr
    next =>
      obtain ⟨fuel, c2, hr⟩ := h
      cases HttpConn.processRead_flowsOff rfl hl hr
    next =>
      obtain ⟨fuel, c2, hr, _⟩ := h
      cases HttpConn.processRead_flowsOff rfl hl hr
  | lineBad =>
    rw [hst] at hl
    cases hkeep (by simp [hst])
    have harr : arrival p = .malformed := by
      unfold arrival
      split <;> simp_all
    simp only [harr, true_and]
    rw [HttpConn.processRead_first rfl hl hcstr]
    simp
  | lineOpen =>
    rw [hst] at hl
    cases hkeep (by simp [hst])
    have harr : arrival p = .missing := by
      unfold arrival
      split <;> simp_all
    refine iff_of_false ?_ (by simp)
    simp only [harr]
    rintro ⟨fuel, c2, hr, _⟩
    have := (HttpConn.processRead_first rfl hl hcstr .noRequest).mp ⟨fuel, c2, hr⟩
    simp at this

/-- Over every cut of every request, process_read follows the stream exactly when
nothing is delivered or the first delivery is refused at once. -/
theorem followsArrival_iff_refused (c : HttpConn) (chunks : List (List UInt8))
    (h : chunks.flatten.length < readBufferSize) :
    c.initRequest.FollowsArrival [] chunks ↔
      chunks = [] ∨ ∃ p rest, chunks = p :: rest ∧ refusedAtOnce p := by
  cases chunks with
  | nil => simp [HttpConn.FollowsArrival]
  | cons p rest =>
    have hp : p.length < readBufferSize := by
      rw [List.flatten_cons, List.length_append] at h
      omega
    rw [HttpConn.followsArrival_first c hp]
    simp

theorem followsArrival_iff_refused_sample :
    [bytes "GET\n"].flatten.length < readBufferSize ∧
      HttpConn.zero.initRequest.FollowsArrival [] [bytes "GET\n"] :=
  ⟨by decide, (followsArrival_iff_refused _ _ (by decide)).mpr
    (Or.inr ⟨_, _, rfl, by decide, by decide⟩)⟩

/-- A whole request in one delivery leaves the loop at its first line. -/
theorem followsArrival_not_always :
    ¬ ∀ (c : HttpConn) (chunks : List (List UInt8)), chunks.flatten.length < readBufferSize →
      c.initRequest.FollowsArrival [] chunks := by
  intro h
  have hf := h HttpConn.zero [bytes "GET /a HTTP/1.1\r\n\r\n"] (by decide)
  rw [HttpConn.followsArrival_first _ (by decide)] at hf
  exact absurd hf.1 (by decide)

end CppInAction
