import CppInAction.HttpConn

namespace CppInAction

/-- The scan of parse_line from index i, with fuel for the bytes up to m_read_idx. -/
def scanLine (buf : Buffer readBufferSize) (readIdx : Int) :
    Nat → Nat → Option (Buffer readBufferSize × Nat × LineStatus)
  | 0, i => some (buf, i, .lineOpen)
  | fuel + 1, i => do
    let temp ← buf.bytes[i]?
    if temp = 13 then
      if (i : Int) + 1 = readIdx then some (buf, i, .lineOpen)
      else do
        let next ← buf.bytes[i + 1]?
        if next = 10 then do
          let buf ← buf.put i 0
          let buf ← buf.put (i + 1) 0
          some (buf, i + 2, .lineOk)
        else some (buf, i, .lineBad)
    else if temp = 10 then
      if 1 < i then do
        let prev ← buf.bytes[i - 1]?
        if prev = 13 then do
          let buf ← buf.put (i - 1) 0
          let buf ← buf.put i 0
          some (buf, i + 1, .lineOk)
        else some (buf, i, .lineBad)
      else some (buf, i, .lineBad)
    else scanLine buf readIdx fuel (i + 1)

def HttpConn.parseLine (c : HttpConn) : Option (HttpConn × LineStatus) := do
  let (buf, i, status) ← scanLine c.readBuf c.readIdx (c.readIdx - c.checkedIdx).toNat c.checkedIdx
  some ({ c with readBuf := buf, checkedIdx := i }, status)

/-- How far m_url moves past an absolute prefix: to the first slash after it,
to null when there is none, and not at all without the prefix. -/
def skipScheme (scheme : List UInt8) (n : Nat) (s : List UInt8) : Option Nat :=
  if strncaseEq s scheme n then (strchr (s.drop n) 47).map (n + ·) else some 0

/-- The end of parse_request_line: the leading slash and the default page. -/
def HttpConn.parsePath (c : HttpConn) (url : Nat) : Option (HttpConn × HttpCode) := do
  let s ← c.readBuf.cstr url
  if s.head? ≠ some 47 then some ({ c with url := .into url }, .badRequest)
  else if s.length = 1 then do
    let buf ← c.readBuf.blit (url + 1) (bytes "judge.html" ++ [0])
    some ({ c with readBuf := buf, url := .into url, checkState := .header }, .noRequest)
  else some ({ c with url := .into url, checkState := .header }, .noRequest)

/-- The absolute prefixes of a resource; a null m_url is passed on to the second
strncasecmp, but tested after it. -/
def HttpConn.parseUrl (c : HttpConn) (url : Nat) : Option (HttpConn × HttpCode) := do
  let s ← c.readBuf.cstr url
  let k ← skipScheme (bytes "http:://") 7 s
  let s ← c.readBuf.cstr (url + k)
  match skipScheme (bytes "https:://") 8 s with
  | none => some ({ c with url := .null }, .badRequest)
  | some k' => c.parsePath (url + k + k')

/-- The middle of parse_request_line: resource and version, for a text that
starts right after the blank that ended the method. -/
def HttpConn.parseVersion (c : HttpConn) (text : Nat) : Option (HttpConn × HttpCode) := do
  let blanks ← strspnIn (c.readBuf.bytes.drop text)
  let url := text + blanks
  let stop ← strpbrkIn (c.readBuf.bytes.drop url)
  match stop with
  | none => some ({ c with url := .into url, version := .null }, .badRequest)
  | some j => do
    let buf ← c.readBuf.put (url + j) 0
    let blanks ← strspnIn (buf.bytes.drop (url + j + 1))
    let version := url + j + 1 + blanks
    let c := { c with readBuf := buf, url := .into url, version := .into version }
    let known ← strcasecmpEq (buf.bytes.drop version) (bytes "HTTP/1.1")
    if known then c.parseUrl url else some (c, .badRequest)

/-- The second method name is spelt as the source spells it. -/
def HttpConn.parseRequestLine (c : HttpConn) (text : Nat) : Option (HttpConn × HttpCode) := do
  let stop ← strpbrkIn (c.readBuf.bytes.drop text)
  match stop with
  | none => some ({ c with url := .null }, .badRequest)
  | some i => do
    let buf ← c.readBuf.put (text + i) 0
    let method ← buf.cstr text
    let c := { c with readBuf := buf, url := .into (text + i + 1) }
    if strcaseEq method (bytes "GET") then
      HttpConn.parseVersion { c with method := .get } (text + i + 1)
    else if strcaseEq method (bytes "POSE") then
      HttpConn.parseVersion { c with method := .post, cgi := 1 } (text + i + 1)
    else some (c, .badRequest)

/-- Where a header value starts: past the name, then past leading blanks. -/
def headerValue (buf : Buffer readBufferSize) (text : Nat) : Option Nat :=
  (strspnIn (buf.bytes.drop text)).map (text + ·)

/-- The value behind the name Connection is keep-alive. -/
def keepAliveAt (buf : Buffer readBufferSize) (text : Nat) : Option Bool := do
  let value ← headerValue buf text
  strcasecmpEq (buf.bytes.drop value) (bytes "keep-alive")

/-- The number behind the name Content-length. -/
def contentLengthAt (buf : Buffer readBufferSize) (text : Nat) : Option Int := do
  let value ← headerValue buf text
  atolIn (buf.bytes.drop value)

/-- Like parse_request_line, it reads the array as the C functions do, each up to the byte where it stops. -/
def HttpConn.parseHeaders (c : HttpConn) (text : Nat) : Option (HttpConn × HttpCode) := do
  let first ← c.readBuf.bytes[text]?
  if first = 0 then
    if c.contentLength ≠ 0 then some ({ c with checkState := .content }, .noRequest)
    else some (c, .getRequest)
  else do
    let connection ← strncasecmpEq (c.readBuf.bytes.drop text) (bytes "Connection") 11
    if connection then do
      let keepAlive ← keepAliveAt c.readBuf (text + 11)
      some ({ c with linger := keepAlive || c.linger }, .noRequest)
    else do
      let contentLength ← strncasecmpEq (c.readBuf.bytes.drop text) (bytes "Content-length:") 15
      if contentLength then do
        let value ← contentLengthAt c.readBuf (text + 15)
        some ({ c with contentLength := value }, .noRequest)
      else do
        let host ← strncasecmpEq (c.readBuf.bytes.drop text) (bytes "Host:") 5
        if host then do
          let value ← headerValue c.readBuf (text + 5)
          some ({ c with host := .into value }, .noRequest)
        else some (c, .noRequest)

def HttpConn.parseContent (c : HttpConn) (text : Nat) : Option (HttpConn × HttpCode) :=
  if toLong (c.contentLength + c.checkedIdx) ≤ c.readIdx then do
    let index := (text : Int) + c.contentLength
    if index < 0 then none
    else do
      let buf ← c.readBuf.put index.toNat 0
      some ({ c with readBuf := buf, string := .into text }, .getRequest)
  else some (c, .noRequest)

/-- How a call of process_read can end; leaving the loop reaches the end of the
function without a return statement. -/
inductive ReadExit
  | returns (c : HttpConn) (code : HttpCode)
  | doRequest (c : HttpConn)
  | flowsOff (c : HttpConn)
  | undefined

inductive ReadIter
  | next (c : HttpConn) (lineStatus : LineStatus)
  | exit (e : ReadExit)

/-- The switch on the main state, for the line at text. -/
def HttpConn.dispatch (c : HttpConn) (text : Nat) (lineStatus : LineStatus) : ReadIter :=
  match c.checkState with
  | .requestLine => match c.parseRequestLine text with
    | none => .exit .undefined
    | some (c, ret) => if ret = .badRequest then .exit (.returns c .badRequest) else .next c lineStatus
  | .header => match c.parseHeaders text with
    | none => .exit .undefined
    | some (c, ret) =>
      if ret = .badRequest then .exit (.returns c .badRequest)
      else if ret = .getRequest then .exit (.doRequest c)
      else .next c lineStatus
  | .content => match c.parseContent text with
    | none => .exit .undefined
    | some (c, ret) => if ret = .getRequest then .exit (.doRequest c) else .next c .lineOpen

/-- The body of the loop: the text is at m_start_line, which moves to m_checked_idx. -/
def HttpConn.readBody (c : HttpConn) (lineStatus : LineStatus) : ReadIter :=
  HttpConn.dispatch { c with startLine := c.checkedIdx } c.startLine lineStatus

/-- One test of the loop condition and, when it holds, the body. The second half
of the condition compares line_status with the new status and the result with
LINE_OK, so it holds when the two differ; line_status is not assigned. -/
def HttpConn.readIter (c : HttpConn) (lineStatus : LineStatus) : ReadIter :=
  if c.checkState = .content ∧ lineStatus = .lineOk then c.readBody lineStatus
  else match c.parseLine with
    | none => .exit .undefined
    | some (c, status) => if status ≠ lineStatus then c.readBody lineStatus else .exit (.flowsOff c)

/-- The loop of process_read; none while the fuel is used up. -/
def HttpConn.readLoop : Nat → HttpConn → LineStatus → Option ReadExit
  | 0, _, _ => none
  | fuel + 1, c, lineStatus => match c.readIter lineStatus with
    | .next c lineStatus => c.readLoop fuel lineStatus
    | .exit e => some e

def HttpConn.processRead (c : HttpConn) (fuel : Nat) : Option ReadExit := c.readLoop fuel .lineOk

/-- New bytes from the socket are stored at m_read_idx. -/
def HttpConn.deliver (c : HttpConn) (chunk : List UInt8) : Option HttpConn := do
  let buf ← c.readBuf.blit c.readIdx.toNat chunk
  some { c with readBuf := buf, readIdx := c.readIdx + chunk.length }

end CppInAction
