import CppInAction.HttpArrival
import CppInAction.HttpRequest

namespace CppInAction

/-- The members the parser works on, taken from c, and every other member from s. -/
def HttpConn.over (c s : HttpConn) : HttpConn :=
  { s with
    readBuf := c.readBuf
    readIdx := c.readIdx
    checkedIdx := c.checkedIdx
    startLine := c.startLine
    checkState := c.checkState
    method := c.method
    url := c.url
    version := c.version
    host := c.host
    contentLength := c.contentLength
    linger := c.linger
    cgi := c.cgi }

/-- The object do_request is reached with: a body that was parsed is in m_string,
and without one m_string is what it was. -/
def HttpConn.reuse (c s : HttpConn) : HttpConn :=
  if c.checkState = .content then { c.over s with string := c.string } else c.over s

def ReadExit.over (s : HttpConn) : ReadExit → ReadExit
  | .returns c code => .returns (c.over s) code
  | .doRequest c => .doRequest (c.reuse s)
  | .flowsOff c => .flowsOff (c.over s)
  | .undefined => .undefined

def ReadIter.over (s : HttpConn) : ReadIter → ReadIter
  | .next c st => .next (c.over s) st
  | .exit e => .exit (e.over s)

def overResult {β : Type} (s : HttpConn) (r : Option (HttpConn × β)) : Option (HttpConn × β) :=
  r.map fun x => (x.1.over s, x.2)

theorem HttpConn.over_self (c : HttpConn) : c.over c = c := rfl

theorem HttpConn.parsePath_over (c s : HttpConn) (url : Nat) :
    (c.over s).parsePath url = overResult s (c.parsePath url) := by
  have hb : (c.over s).readBuf = c.readBuf := rfl
  unfold HttpConn.parsePath
  rw [hb]
  cases c.readBuf.cstr url with
  | none => rfl
  | some t =>
    simp only [Option.bind_eq_bind, Option.bind_some]
    split
    next => rfl
    next =>
      split
      next => cases c.readBuf.blit (url + 1) (bytes "judge.html" ++ [0]) <;> rfl
      next => rfl

theorem HttpConn.parseUrl_over (c s : HttpConn) (url : Nat) :
    (c.over s).parseUrl url = overResult s (c.parseUrl url) := by
  have hb : (c.over s).readBuf = c.readBuf := rfl
  unfold HttpConn.parseUrl
  rw [hb]
  cases c.readBuf.cstr url with
  | none => rfl
  | some t =>
    simp only [Option.bind_eq_bind, Option.bind_some]
    cases skipScheme (bytes "http:://") 7 t with
    | none => rfl
    | some k =>
      simp only [Option.bind_some]
      cases c.readBuf.cstr (url + k) with
      | none => rfl
      | some t =>
        simp only [Option.bind_some]
        cases skipScheme (bytes "https:://") 8 t with
        | none => rfl
        | some k' => exact HttpConn.parsePath_over c s (url + k + k')

theorem HttpConn.parseVersion_over (c s : HttpConn) (text : Nat) :
    (c.over s).parseVersion text = overResult s (c.parseVersion text) := by
  have hb : (c.over s).readBuf = c.readBuf := rfl
  unfold HttpConn.parseVersion
  rw [hb]
  cases strspnIn (c.readBuf.bytes.drop text) with
  | none => rfl
  | some blanks =>
    simp only [Option.bind_eq_bind, Option.bind_some]
    rcases strpbrkIn (c.readBuf.bytes.drop (text + blanks)) with _ | _ | j
    · rfl
    · rfl
    · simp only [Option.bind_some]
      cases c.readBuf.put (text + blanks + j) 0 with
      | none => rfl
      | some buf =>
        simp only [Option.bind_some]
        cases strspnIn (buf.bytes.drop (text + blanks + j + 1)) with
        | none => rfl
        | some blanks' =>
          simp only [Option.bind_some]
          rcases strcasecmpEq (buf.bytes.drop (text + blanks + j + 1 + blanks')) (bytes "HTTP/1.1") with _ | _ | _
          · rfl
          · rfl
          · exact HttpConn.parseUrl_over { c with
              readBuf := buf
              url := .into (text + blanks)
              version := .into (text + blanks + j + 1 + blanks') } s _

theorem HttpConn.parseRequestLine_over (c s : HttpConn) (text : Nat) :
    (c.over s).parseRequestLine text = overResult s (c.parseRequestLine text) := by
  have hb : (c.over s).readBuf = c.readBuf := rfl
  unfold HttpConn.parseRequestLine
  rw [hb]
  rcases strpbrkIn (c.readBuf.bytes.drop text) with _ | _ | i
  · rfl
  · rfl
  · simp only [Option.bind_eq_bind, Option.bind_some]
    cases c.readBuf.put (text + i) 0 with
    | none => rfl
    | some buf =>
      simp only [Option.bind_some]
      cases buf.cstr text with
      | none => rfl
      | some m =>
        simp only [Option.bind_some]
        split
        next =>
          exact HttpConn.parseVersion_over { c with
            readBuf := buf, url := .into (text + i + 1), method := .get } s _
        next =>
          split
          next =>
            exact HttpConn.parseVersion_over { c with
              readBuf := buf, url := .into (text + i + 1), method := .post, cgi := 1 } s _
          next => rfl

theorem HttpConn.parseHeaders_over (c s : HttpConn) (text : Nat) :
    (c.over s).parseHeaders text = overResult s (c.parseHeaders text) := by
  have hb : (c.over s).readBuf = c.readBuf := rfl
  have hc : (c.over s).contentLength = c.contentLength := rfl
  unfold HttpConn.parseHeaders
  rw [hb, hc]
  cases c.readBuf.bytes[text]? with
  | none => rfl
  | some first =>
    simp only [Option.bind_eq_bind, Option.bind_some]
    split
    next => split <;> rfl
    next =>
      rcases strncasecmpEq (c.readBuf.bytes.drop text) (bytes "Connection") 11 with _ | _ | _
      · rfl
      · rcases strncasecmpEq (c.readBuf.bytes.drop text) (bytes "Content-length:") 15 with _ | _ | _
        · rfl
        · rcases strncasecmpEq (c.readBuf.bytes.drop text) (bytes "Host:") 5 with _ | _ | _
          · rfl
          · rfl
          · cases headerValue c.readBuf (text + 5) <;> rfl
        · cases contentLengthAt c.readBuf (text + 15) <;> rfl
      · cases keepAliveAt c.readBuf (text + 11) <;> rfl

theorem HttpConn.parseLine_over (c s : HttpConn) : (c.over s).parseLine = overResult s c.parseLine := by
  unfold HttpConn.parseLine
  change (scanLine c.readBuf c.readIdx (c.readIdx - c.checkedIdx).toNat c.checkedIdx).bind _ = _
  cases scanLine c.readBuf c.readIdx (c.readIdx - c.checkedIdx).toNat c.checkedIdx <;> rfl

/-- A header line that ends the request changes nothing. -/
theorem HttpConn.parseHeaders_get {c c' : HttpConn} {text : Nat}
    (h : c.parseHeaders text = some (c', .getRequest)) : c' = c := by
  rcases HttpConn.parseHeaders_inv h with ⟨_, _, _, hret⟩ | ⟨_, _, rfl, _⟩ | ⟨_, hret, _⟩
  · cases hret
  · rfl
  · cases hret

theorem HttpConn.dispatch_header_over {c : HttpConn} (s : HttpConn) (text : Nat) (lineStatus : LineStatus)
    (hs : c.checkState = .header) :
    (c.over s).dispatch text lineStatus = (c.dispatch text lineStatus).over s := by
  have hs' : (c.over s).checkState = .header := hs
  simp only [HttpConn.dispatch, hs, hs', HttpConn.parseHeaders_over]
  cases hp : c.parseHeaders text with
  | none => rfl
  | some r =>
    obtain ⟨c', ret⟩ := r
    simp only [overResult, Option.map_some]
    cases ret with
    | getRequest =>
      cases HttpConn.parseHeaders_get hp
      simp [ReadIter.over, ReadExit.over, HttpConn.reuse, hs]
    | _ => rfl

/-- parse_content sets m_string when, and only when, the body is complete. -/
theorem HttpConn.parseContent_over (c s : HttpConn) (text : Nat) :
    (c.over s).parseContent text = (c.parseContent text).map fun r =>
      (if r.2 = .getRequest then { r.1.over s with string := r.1.string } else r.1.over s, r.2) := by
  have hl : (c.over s).contentLength = c.contentLength := rfl
  have hi : (c.over s).checkedIdx = c.checkedIdx := rfl
  have hr : (c.over s).readIdx = c.readIdx := rfl
  have hb : (c.over s).readBuf = c.readBuf := rfl
  unfold HttpConn.parseContent
  rw [hl, hi, hr, hb]
  by_cases hlen : toLong (c.contentLength + c.checkedIdx) ≤ c.readIdx
  · simp only [if_pos hlen]
    by_cases hneg : (text : Int) + c.contentLength < 0
    · simp [hneg]
    · simp only [if_neg hneg]
      cases c.readBuf.put ((text : Int) + c.contentLength).toNat 0 <;> rfl
  · simp only [if_neg hlen]
    rfl

theorem HttpConn.dispatch_content_over {c : HttpConn} (s : HttpConn) (text : Nat) (lineStatus : LineStatus)
    (hs : c.checkState = .content) :
    (c.over s).dispatch text lineStatus = (c.dispatch text lineStatus).over s := by
  have hs' : (c.over s).checkState = .content := hs
  simp only [HttpConn.dispatch, hs, hs', HttpConn.parseContent_over]
  cases hp : c.parseContent text with
  | none => rfl
  | some r =>
    obtain ⟨c', ret⟩ := r
    have hst := (HttpConn.parseContent_state hp).trans hs
    simp only [Option.map_some]
    by_cases hg : ret = .getRequest
    · simp [hg, ReadIter.over, ReadExit.over, HttpConn.reuse, hst]
    · simp [hg, ReadIter.over]

/-- The parser neither reads nor writes the members outside its own. -/
theorem HttpConn.dispatch_over (c s : HttpConn) (text : Nat) (lineStatus : LineStatus) :
    (c.over s).dispatch text lineStatus = (c.dispatch text lineStatus).over s := by
  cases hs : c.checkState with
  | requestLine =>
    rw [HttpConn.dispatch_requestLine hs, HttpConn.dispatch_requestLine (c := c.over s) hs,
      HttpConn.parseRequestLine_over]
    cases c.parseRequestLine text with
    | none => rfl
    | some r =>
      simp only [overResult, Option.map_some]
      split <;> rfl
  | header => exact HttpConn.dispatch_header_over s text lineStatus hs
  | content => exact HttpConn.dispatch_content_over s text lineStatus hs

theorem HttpConn.readIter_over (c s : HttpConn) (lineStatus : LineStatus) :
    (c.over s).readIter lineStatus = (c.readIter lineStatus).over s := by
  have hs : (c.over s).checkState = c.checkState := rfl
  unfold HttpConn.readIter
  rw [hs]
  split
  next => exact HttpConn.dispatch_over { c with startLine := c.checkedIdx } s _ _
  next =>
    rw [HttpConn.parseLine_over]
    cases c.parseLine with
    | none => rfl
    | some r =>
      obtain ⟨c', status⟩ := r
      simp only [overResult, Option.map_some]
      split
      next => exact HttpConn.dispatch_over { c' with startLine := c'.checkedIdx } s _ _
      next => rfl

theorem HttpConn.readLoop_over (c s : HttpConn) (fuel : Nat) (lineStatus : LineStatus) :
    (c.over s).readLoop fuel lineStatus = (c.readLoop fuel lineStatus).map (ReadExit.over s) := by
  induction fuel generalizing c lineStatus with
  | zero => rfl
  | succ fuel ih =>
    simp only [HttpConn.readLoop, HttpConn.readIter_over]
    cases c.readIter lineStatus with
    | next c' st => exact ih c' st
    | exit e => rfl

/-- process_read on two objects that agree on the parser members ends alike. -/
theorem HttpConn.processRead_over (c s : HttpConn) (fuel : Nat) :
    (c.over s).processRead fuel = (c.processRead fuel).map (ReadExit.over s) :=
  HttpConn.readLoop_over c s fuel .lineOk

/-- More fuel does not change the end of the loop. -/
theorem HttpConn.readLoop_mono {c : HttpConn} {lineStatus : LineStatus} {fuel more : Nat} {e : ReadExit}
    (h : c.readLoop fuel lineStatus = some e) (hle : fuel ≤ more) : c.readLoop more lineStatus = some e := by
  induction fuel generalizing c lineStatus more with
  | zero => cases h
  | succ fuel ih =>
    obtain ⟨more, rfl⟩ : ∃ m, more = m + 1 := ⟨more - 1, by omega⟩
    simp only [HttpConn.readLoop] at h ⊢
    cases hi : c.readIter lineStatus with
    | next c' st =>
      simp only [hi] at h
      exact ih h (by omega)
    | exit e' =>
      simp only [hi] at h
      exact h

theorem HttpConn.processRead_unique {c : HttpConn} {fuel fuel' : Nat} {e e' : ReadExit}
    (h : c.processRead fuel = some e) (h' : c.processRead fuel' = some e') : e = e' := by
  have h1 := HttpConn.readLoop_mono h (Nat.le_max_left fuel fuel')
  have h2 := HttpConn.readLoop_mono h' (Nat.le_max_right fuel fuel')
  exact Option.some.inj (h1.symm.trans h2)

end CppInAction
