import CppInAction.HttpArrival

namespace CppInAction

/-- A complete line moves the scan on; any other end changes no byte, and is found again
from where the scan stopped. -/
theorem scanLine_end {buf buf' : Buffer readBufferSize} {readIdx : Int} {fuel i j : Nat} {status : LineStatus}
    (hfuel : fuel = (readIdx - i).toNat) (h : scanLine buf readIdx fuel i = some (buf', j, status)) :
    status = .lineOk ∧ i < j ∧ (i : Int) < readIdx ∨
      status ≠ .lineOk ∧ buf' = buf ∧ i ≤ j ∧ scanLine buf readIdx (readIdx - j).toNat j = some (buf, j, status) ∧
        (status = .lineBad → buf.bytes[j]? ≠ some 0) := by
  induction fuel generalizing i with
  | zero =>
    cases Option.some.inj h
    rw [← hfuel]
    exact Or.inr ⟨by simp, rfl, le_rfl, rfl, by simp⟩
  | succ fuel ih =>
    have hscan := h
    rw [hfuel] at hscan
    obtain ⟨temp, htemp, h⟩ := Option.bind_eq_some_iff.mp h
    split at h
    next hcr =>
      rw [hcr] at htemp
      split at h
      next => cases Option.some.inj h; exact Or.inr ⟨by simp, rfl, le_rfl, hscan, by simp⟩
      next =>
        obtain ⟨next, _, h⟩ := Option.bind_eq_some_iff.mp h
        split at h
        next =>
          obtain ⟨buf1, _, h⟩ := Option.bind_eq_some_iff.mp h
          obtain ⟨buf2, _, h⟩ := Option.bind_eq_some_iff.mp h
          cases Option.some.inj h
          exact Or.inl ⟨rfl, by omega, by omega⟩
        next => cases Option.some.inj h; exact Or.inr ⟨by simp, rfl, le_rfl, hscan, by simp [htemp]⟩
    next =>
      split at h
      next hlf =>
        rw [hlf] at htemp
        split at h
        next =>
          obtain ⟨prev, _, h⟩ := Option.bind_eq_some_iff.mp h
          split at h
          next =>
            obtain ⟨buf1, _, h⟩ := Option.bind_eq_some_iff.mp h
            obtain ⟨buf2, _, h⟩ := Option.bind_eq_some_iff.mp h
            cases Option.some.inj h
            exact Or.inl ⟨rfl, by omega, by omega⟩
          next => cases Option.some.inj h; exact Or.inr ⟨by simp, rfl, le_rfl, hscan, by simp [htemp]⟩
        next => cases Option.some.inj h; exact Or.inr ⟨by simp, rfl, le_rfl, hscan, by simp [htemp]⟩
      next =>
        rcases ih (by omega) h with ⟨hok, hlt, _⟩ | ⟨hne, hbuf, hle, hagain, hbad⟩
        · exact Or.inl ⟨hok, by omega, by omega⟩
        · exact Or.inr ⟨hne, hbuf, by omega, hagain, hbad⟩

/-- The object in the loop body, when parse_line has stopped at i. -/
def HttpConn.movedTo (c : HttpConn) (i : Nat) : HttpConn := { c with checkedIdx := i, startLine := i }

theorem HttpConn.movedTo_self {c : HttpConn} (h : c.startLine = c.checkedIdx) : c.movedTo c.checkedIdx = c :=
  congrArg (fun i => { c with startLine := i }) h.symm

@[simp] theorem HttpConn.movedTo_readBuf (c : HttpConn) (i : Nat) : (c.movedTo i).readBuf = c.readBuf := rfl
@[simp] theorem HttpConn.movedTo_readIdx (c : HttpConn) (i : Nat) : (c.movedTo i).readIdx = c.readIdx := rfl
@[simp] theorem HttpConn.movedTo_checkedIdx (c : HttpConn) (i : Nat) : (c.movedTo i).checkedIdx = i := rfl
@[simp] theorem HttpConn.movedTo_startLine (c : HttpConn) (i : Nat) : (c.movedTo i).startLine = i := rfl
@[simp] theorem HttpConn.movedTo_checkState (c : HttpConn) (i : Nat) : (c.movedTo i).checkState = c.checkState := rfl

def HttpConn.toContent (c : HttpConn) : HttpConn := { c with checkState := .content }

/-- The members the loop goes by are the same. -/
structure HttpConn.SameParse (c c' : HttpConn) : Prop where
  readBuf : c'.readBuf = c.readBuf
  readIdx : c'.readIdx = c.readIdx
  checkedIdx : c'.checkedIdx = c.checkedIdx
  startLine : c'.startLine = c.startLine
  checkState : c'.checkState = c.checkState

/-- parse_line stops at i short of a complete line. -/
def HttpConn.StopsAt (c : HttpConn) (i : Nat) (status : LineStatus) : Prop :=
  status ≠ .lineOk ∧ c.parseLine = some ({ c with checkedIdx := i }, status)

theorem HttpConn.parseLine_cases (c : HttpConn) :
    c.parseLine = none ∨
    (∃ buf i, c.parseLine = some ({ c with readBuf := buf, checkedIdx := i }, .lineOk) ∧
      c.checkedIdx < i ∧ (c.checkedIdx : Int) < c.readIdx) ∨
    ∃ i status, c.StopsAt i status ∧ c.checkedIdx ≤ i ∧ (status = .lineBad → c.readBuf.bytes[i]? ≠ some 0) := by
  cases hscan : scanLine c.readBuf c.readIdx (c.readIdx - c.checkedIdx).toNat c.checkedIdx with
  | none =>
    left
    simp only [HttpConn.parseLine, hscan, Option.bind_eq_bind, Option.bind_none]
  | some r =>
    obtain ⟨buf, i, status⟩ := r
    right
    have hparse : c.parseLine = some ({ c with readBuf := buf, checkedIdx := i }, status) := by
      simp only [HttpConn.parseLine, hscan, Option.bind_eq_bind, Option.bind_some]
    rcases scanLine_end rfl hscan with ⟨rfl, hlt, hread⟩ | ⟨hne, rfl, hle, _, hbad⟩
    · exact Or.inl ⟨buf, i, hparse, hlt, hread⟩
    · exact Or.inr ⟨i, status, ⟨hne, hparse⟩, hle, hbad⟩

/-- Up to m_read_idx the scan stays inside the array. -/
theorem scanLine_inside {buf : Buffer readBufferSize} {readIdx : Int} {fuel i : Nat}
    (hfuel : fuel = (readIdx - i).toNat) (hread : readIdx ≤ readBufferSize) : scanLine buf readIdx fuel i ≠ none := by
  induction fuel generalizing i with
  | zero => simp [scanLine]
  | succ fuel ih =>
    have hlen := buf.length_eq
    have hput : ∀ (b : Buffer readBufferSize) (k : Nat), (k : Int) < readIdx →
        ∃ b', b.put k 0 = some b' := fun b k hk => ⟨_, if_pos (by omega)⟩
    have hat : ∀ k : Nat, (k : Int) < readIdx → ∃ v, buf.bytes[k]? = some v := fun k hk =>
      ⟨_, List.getElem?_eq_getElem (by omega)⟩
    obtain ⟨temp, htemp⟩ := hat i (by omega)
    unfold scanLine
    rw [htemp, Option.bind_eq_bind, Option.bind_some]
    split
    next =>
      split
      next => simp
      next hlast =>
        obtain ⟨next, hnext⟩ := hat (i + 1) (by omega)
        rw [hnext, Option.bind_some]
        split
        next =>
          obtain ⟨buf1, hbuf1⟩ := hput buf i (by omega)
          obtain ⟨buf2, hbuf2⟩ := hput buf1 (i + 1) (by omega)
          simp [hbuf1, hbuf2]
        next => simp
    next =>
      split
      next =>
        split
        next =>
          obtain ⟨prev, hprev⟩ := hat (i - 1) (by omega)
          rw [hprev, Option.bind_some]
          split
          next =>
            obtain ⟨buf1, hbuf1⟩ := hput buf (i - 1) (by omega)
            obtain ⟨buf2, hbuf2⟩ := hput buf1 i (by omega)
            simp [hbuf1, hbuf2]
          next => simp
        next => simp
      next => exact ih (by omega)

theorem HttpConn.parseLine_inside {c : HttpConn} (hread : c.readIdx ≤ readBufferSize) : c.parseLine ≠ none := by
  intro h
  rcases Option.bind_eq_none_iff.mp h with h
  cases hscan : scanLine c.readBuf c.readIdx (c.readIdx - c.checkedIdx).toNat c.checkedIdx with
  | none => exact scanLine_inside rfl hread hscan
  | some r => cases h r hscan

/-- Where parse_line has stopped, it stops again without moving. -/
theorem HttpConn.StopsAt.again {c c' : HttpConn} {i : Nat} {status : LineStatus} (h : c.StopsAt i status)
    (hbuf : c'.readBuf = c.readBuf) (hread : c'.readIdx = c.readIdx) (hchecked : c'.checkedIdx = i) :
    c'.StopsAt i status := by
  obtain ⟨hne, hparse⟩ := h
  obtain ⟨⟨buf, j, st⟩, hscan, he⟩ := Option.bind_eq_some_iff.mp hparse
  cases Option.some.inj he
  rcases scanLine_end rfl hscan with ⟨rfl, _, _⟩ | ⟨_, _, _, hagain, _⟩
  · exact absurd rfl hne
  · refine ⟨hne, ?_⟩
    simp only [HttpConn.parseLine, hbuf, hread, hchecked, hagain, Option.bind_eq_bind, Option.bind_some]

theorem HttpConn.StopsAt.unique {c : HttpConn} {i j : Nat} {status status' : LineStatus} (h : c.StopsAt i status)
    (h' : c.StopsAt j status') : i = j ∧ status = status' := by
  have heq := Option.some.inj (h.2.symm.trans h'.2)
  exact ⟨congrArg (fun r => r.1.checkedIdx) heq, congrArg Prod.snd heq⟩

/-- The text is a header line that parse_headers reads inside the buffer. -/
def HttpConn.HasHeader (c : HttpConn) (text : Nat) : Prop :=
  c.readBuf.bytes[text]? ≠ some 0 ∧ (c.parseHeaders text).isSome

theorem HttpConn.parseHeaders_isSome {c c' : HttpConn} {text : Nat} (hbuf : c'.readBuf = c.readBuf) :
    (c'.parseHeaders text).isSome = (c.parseHeaders text).isSome := by
  unfold HttpConn.parseHeaders
  rw [hbuf]
  cases c.readBuf.bytes[text]? with
  | none => rfl
  | some first =>
    simp only [Option.bind_eq_bind, Option.bind_some]
    by_cases hzero : first = 0
    · simp only [hzero, if_true]
      split <;> split <;> rfl
    · simp only [hzero, if_false]
      rcases strncasecmpEq (c.readBuf.bytes.drop text) (bytes "Connection") 11 with _ | _ | _
      · rfl
      · rcases strncasecmpEq (c.readBuf.bytes.drop text) (bytes "Content-length:") 15 with _ | _ | _
        · rfl
        · rcases strncasecmpEq (c.readBuf.bytes.drop text) (bytes "Host:") 5 with _ | _ | _
          · rfl
          · rfl
          · cases headerValue c.readBuf (text + 5) <;> rfl
        · cases contentLengthAt c.readBuf (text + 15) <;> rfl
      · cases keepAliveAt c.readBuf (text + 11) <;> rfl

theorem HttpConn.HasHeader.congr {c c' : HttpConn} {text : Nat} (h : c.HasHeader text)
    (hbuf : c'.readBuf = c.readBuf) : c'.HasHeader text :=
  ⟨hbuf ▸ h.1, (HttpConn.parseHeaders_isSome hbuf).trans h.2⟩

/-- What parse_headers does to the object: an empty line ends the headers, any other sets at
most the members of the known fields. -/
theorem HttpConn.parseHeaders_cases (c : HttpConn) (text : Nat) :
    c.parseHeaders text = none ∨
    (c.readBuf.bytes[text]? = some 0 ∧ c.contentLength ≠ 0 ∧
      c.parseHeaders text = some (c.toContent, .noRequest)) ∨
    (c.readBuf.bytes[text]? = some 0 ∧ c.parseHeaders text = some (c, .getRequest)) ∨
    (c.HasHeader text ∧ ∃ c', c.parseHeaders text = some (c', .noRequest) ∧ c.SameParse c') := by
  cases hp : c.parseHeaders text with
  | none => exact Or.inl rfl
  | some r =>
    right
    obtain ⟨c', ret⟩ := r
    have hsome : (c.parseHeaders text).isSome := by rw [hp]; rfl
    rcases HttpConn.parseHeaders_inv hp with ⟨hzero, hlen, rfl, rfl⟩ | ⟨hzero, _, rfl, rfl⟩ | ⟨hne, rfl, _, _, _, rfl⟩
    · exact Or.inl ⟨hzero, hlen, rfl⟩
    · exact Or.inr (Or.inl ⟨hzero, rfl⟩)
    · exact Or.inr (Or.inr ⟨⟨hne, hsome⟩, _, rfl, ⟨rfl, rfl, rfl, rfl, rfl⟩⟩)

theorem HttpConn.parseHeaders_empty {c : HttpConn} {text : Nat} (h : c.readBuf.bytes[text]? = some 0)
    (hlen : c.contentLength ≠ 0) : c.parseHeaders text = some (c.toContent, .noRequest) := by
  simp [HttpConn.parseHeaders, h, hlen, HttpConn.toContent]

theorem HttpConn.hasHeader_unknown {c : HttpConn} {text : Nat} {s : List UInt8} (h : c.readBuf.cstr text = some s)
    (hne : s ≠ []) (hconnection : strncaseEq s (bytes "Connection") 11 = false)
    (hlength : strncaseEq s (bytes "Content-length:") 15 = false) (hhost : strncaseEq s (bytes "Host:") 5 = false) :
    c.HasHeader text := by
  obtain ⟨_, _, hfree, hfirst⟩ := Buffer.drop_of_cstr h
  refine ⟨?_, ?_⟩
  · obtain ⟨a, s, rfl⟩ := List.exists_cons_of_ne_nil hne
    rw [hfirst]
    exact fun hzero => hfree (Option.some.inj hzero ▸ List.mem_cons_self)
  · simp [HttpConn.parseHeaders_cstr h, hne, hconnection, hlength, hhost]

/-- The members that place the parser in the buffer are the same. -/
def HttpConn.SamePlace (c c' : HttpConn) : Prop :=
  c'.startLine = c.startLine ∧ c'.checkedIdx = c.checkedIdx ∧ c'.readIdx = c.readIdx

/-- The parser stays at its place, and the line is refused or leads to the headers. -/
def HttpConn.Goes (c c' : HttpConn) (ret : HttpCode) : Prop :=
  c.SamePlace c' ∧ (ret = .badRequest ∨ ret = .noRequest ∧ c'.checkState = .header)

theorem HttpConn.parsePath_goes {c c' : HttpConn} {url : Nat} {ret : HttpCode}
    (h : c.parsePath url = some (c', ret)) : c.Goes c' ret := by
  obtain ⟨s, _, h⟩ := Option.bind_eq_some_iff.mp h
  split at h
  next => cases Option.some.inj h; exact ⟨⟨rfl, rfl, rfl⟩, Or.inl rfl⟩
  next =>
    split at h
    next =>
      obtain ⟨buf, _, h⟩ := Option.bind_eq_some_iff.mp h
      cases Option.some.inj h
      exact ⟨⟨rfl, rfl, rfl⟩, Or.inr ⟨rfl, rfl⟩⟩
    next => cases Option.some.inj h; exact ⟨⟨rfl, rfl, rfl⟩, Or.inr ⟨rfl, rfl⟩⟩

theorem HttpConn.parseUrl_goes {c c' : HttpConn} {url : Nat} {ret : HttpCode}
    (h : c.parseUrl url = some (c', ret)) : c.Goes c' ret := by
  obtain ⟨s, _, h⟩ := Option.bind_eq_some_iff.mp h
  obtain ⟨k, _, h⟩ := Option.bind_eq_some_iff.mp h
  obtain ⟨s', _, h⟩ := Option.bind_eq_some_iff.mp h
  split at h
  next => cases Option.some.inj h; exact ⟨⟨rfl, rfl, rfl⟩, Or.inl rfl⟩
  next => exact HttpConn.parsePath_goes h

theorem HttpConn.parseVersion_goes {c c' : HttpConn} {text : Nat} {ret : HttpCode}
    (h : c.parseVersion text = some (c', ret)) : c.Goes c' ret := by
  obtain ⟨blanks, _, h⟩ := Option.bind_eq_some_iff.mp h
  obtain ⟨stop, _, h⟩ := Option.bind_eq_some_iff.mp h
  split at h
  next => cases Option.some.inj h; exact ⟨⟨rfl, rfl, rfl⟩, Or.inl rfl⟩
  next =>
    obtain ⟨buf, _, h⟩ := Option.bind_eq_some_iff.mp h
    obtain ⟨blanks', _, h⟩ := Option.bind_eq_some_iff.mp h
    obtain ⟨known, _, h⟩ := Option.bind_eq_some_iff.mp h
    split at h
    next =>
      have hgoes := HttpConn.parseUrl_goes h
      exact hgoes
    next => cases Option.some.inj h; exact ⟨⟨rfl, rfl, rfl⟩, Or.inl rfl⟩

theorem HttpConn.parseRequestLine_goes {c c' : HttpConn} {text : Nat} {ret : HttpCode}
    (h : c.parseRequestLine text = some (c', ret)) : c.Goes c' ret := by
  obtain ⟨stop, _, h⟩ := Option.bind_eq_some_iff.mp h
  split at h
  next => cases Option.some.inj h; exact ⟨⟨rfl, rfl, rfl⟩, Or.inl rfl⟩
  next =>
    obtain ⟨buf, _, h⟩ := Option.bind_eq_some_iff.mp h
    obtain ⟨method, _, h⟩ := Option.bind_eq_some_iff.mp h
    simp only at h
    split at h
    next =>
      have hgoes := HttpConn.parseVersion_goes h
      exact hgoes
    next =>
      split at h
      next =>
        have hgoes := HttpConn.parseVersion_goes h
        exact hgoes
      next => cases Option.some.inj h; exact ⟨⟨rfl, rfl, rfl⟩, Or.inl rfl⟩

theorem HttpConn.parseContent_place {c c' : HttpConn} {text : Nat} {ret : HttpCode}
    (h : c.parseContent text = some (c', ret)) : c.SamePlace c' := by
  unfold HttpConn.parseContent at h
  split at h
  next =>
    simp only at h
    split at h
    next => cases h
    next =>
      obtain ⟨buf, _, h⟩ := Option.bind_eq_some_iff.mp h
      cases Option.some.inj h
      exact ⟨rfl, rfl, rfl⟩
  next => cases Option.some.inj h; exact ⟨rfl, rfl, rfl⟩

theorem HttpConn.parseHeaders_place {c c' : HttpConn} {text : Nat} {ret : HttpCode}
    (h : c.parseHeaders text = some (c', ret)) : c.SamePlace c' := by
  rcases c.parseHeaders_cases text with hp | ⟨_, _, hp⟩ | ⟨_, hp⟩ | ⟨_, c2, hp, hsame⟩
  · cases hp.symm.trans h
  · cases hp.symm.trans h; exact ⟨rfl, rfl, rfl⟩
  · cases hp.symm.trans h; exact ⟨rfl, rfl, rfl⟩
  · cases hp.symm.trans h; exact ⟨hsame.startLine, hsame.checkedIdx, hsame.readIdx⟩

theorem HttpConn.parseHeaders_readBuf {c c' : HttpConn} {text : Nat} {ret : HttpCode}
    (h : c.parseHeaders text = some (c', ret)) : c'.readBuf = c.readBuf := by
  rcases HttpConn.parseHeaders_inv h with ⟨_, _, rfl, _⟩ | ⟨_, _, rfl, _⟩ | ⟨_, _, _, _, _, rfl⟩ <;> rfl

/-- The body announced by the headers does not end before m_read_idx when it begins at i. -/
def HttpConn.LacksBody (c : HttpConn) (i : Nat) : Prop := c.readIdx < toLong (c.contentLength + i)

theorem HttpConn.readIter_stops {c : HttpConn} {i : Nat} {status : LineStatus} (hs : c.checkState ≠ .content)
    (hstop : c.StopsAt i status) : c.readIter .lineOk = (c.movedTo i).dispatch c.startLine .lineOk := by
  simp only [HttpConn.readIter, hs, false_and, if_false, hstop.2, if_pos hstop.1]
  rfl

theorem HttpConn.readIter_content {c : HttpConn} (hs : c.checkState = .content) :
    c.readIter .lineOk = (c.movedTo c.checkedIdx).dispatch c.startLine .lineOk :=
  if_pos ⟨hs, rfl⟩

/-- Once line_status is lowered, another end of parse_line goes on with the loop. -/
theorem HttpConn.readIter_lowered {c c' : HttpConn} {status : LineStatus} (hparse : c.parseLine = some (c', status))
    (hne : status ≠ .lineOpen) :
    c.readIter .lineOpen = (c'.movedTo c'.checkedIdx).dispatch c'.startLine .lineOpen := by
  simp only [HttpConn.readIter, reduceCtorEq, and_false, if_false, hparse, if_pos hne]
  rfl

theorem HttpConn.lacksBody_iff {c : HttpConn} {i : Nat} :
    c.LacksBody i ↔ ¬ toLong (c.contentLength + i) ≤ c.readIdx :=
  Int.not_le.symm

theorem HttpConn.parseContent_lacks {c : HttpConn} (h : c.LacksBody c.checkedIdx) (text : Nat) :
    c.parseContent text = some (c, .noRequest) :=
  if_neg (HttpConn.lacksBody_iff.mp h)

theorem HttpConn.dispatch_lacks {c : HttpConn} (hs : c.checkState = .content) (hl : c.LacksBody c.checkedIdx)
    (text : Nat) (lineStatus : LineStatus) : c.dispatch text lineStatus = .next c .lineOpen := by
  simp [HttpConn.dispatch, hs, c.parseContent_lacks hl text]

/-- In the body the loop goes on exactly while it is missing. -/
theorem HttpConn.dispatch_content {c : HttpConn} (hs : c.checkState = .content) (text : Nat)
    (lineStatus : LineStatus) :
    (c.parseContent text = none ∧ c.dispatch text lineStatus = .exit .undefined) ∨
    (¬ c.LacksBody c.checkedIdx ∧ ∃ c', c.dispatch text lineStatus = .exit (.doRequest c')) ∨
    c.LacksBody c.checkedIdx ∧ c.dispatch text lineStatus = .next c .lineOpen := by
  cases hp : c.parseContent text with
  | none => exact Or.inl ⟨rfl, by simp only [HttpConn.dispatch, hs, hp]⟩
  | some r =>
    right
    by_cases hl : c.LacksBody c.checkedIdx
    · cases (c.parseContent_lacks hl text).symm.trans hp
      exact Or.inr ⟨hl, HttpConn.dispatch_lacks hs hl text lineStatus⟩
    · obtain ⟨c', ret⟩ := r
      have hret : ret = .getRequest := by
        unfold HttpConn.parseContent at hp
        rw [if_pos (not_not.mp (mt HttpConn.lacksBody_iff.mpr hl))] at hp
        simp only at hp
        split at hp
        next => cases hp
        next =>
          obtain ⟨buf, _, he⟩ := Option.bind_eq_some_iff.mp hp
          exact (congrArg Prod.snd (Option.some.inj he)).symm
      exact Or.inl ⟨hl, c', by simp only [HttpConn.dispatch, hs, hp, hret, if_true]⟩

/-- In the headers the loop leaves, goes on with the body after an empty line, or goes on with
the headers after a header line. -/
theorem HttpConn.dispatch_header {c : HttpConn} (hs : c.checkState = .header) (text : Nat) (lineStatus : LineStatus) :
    (c.parseHeaders text = none ∧ c.dispatch text lineStatus = .exit .undefined) ∨
    (c.readBuf.bytes[text]? = some 0 ∧ c.dispatch text lineStatus = .exit (.doRequest c)) ∨
    (c.readBuf.bytes[text]? = some 0 ∧ c.contentLength ≠ 0 ∧
      c.dispatch text lineStatus = .next c.toContent lineStatus) ∨
    (c.HasHeader text ∧ ∃ c', c.parseHeaders text = some (c', .noRequest) ∧
      c.dispatch text lineStatus = .next c' lineStatus ∧ c.SameParse c') := by
  rcases c.parseHeaders_cases text with hp | ⟨hzero, hlen, hp⟩ | ⟨hzero, hp⟩ | ⟨hheader, c', hp, hsame⟩
  · exact Or.inl ⟨hp, by simp only [HttpConn.dispatch, hs, hp]⟩
  · exact Or.inr (Or.inr (Or.inl ⟨hzero, hlen, by simp [HttpConn.dispatch, hs, hp]⟩))
  · exact Or.inr (Or.inl ⟨hzero, by simp [HttpConn.dispatch, hs, hp]⟩)
  · exact Or.inr (Or.inr (Or.inr ⟨hheader, c', hp, by simp [HttpConn.dispatch, hs, hp], hsame⟩))

theorem HttpConn.dispatch_hasHeader {c : HttpConn} {text : Nat} (hs : c.checkState = .header) (h : c.HasHeader text)
    (lineStatus : LineStatus) : ∃ c', c.dispatch text lineStatus = .next c' lineStatus ∧ c.SameParse c' := by
  rcases HttpConn.dispatch_header hs text lineStatus with
    ⟨hno, _⟩ | ⟨hzero, _⟩ | ⟨hzero, _⟩ | ⟨_, c', _, hd, hsame⟩
  · have hsome := h.2
    rw [hno] at hsome
    cases hsome
  · exact absurd hzero h.1
  · exact absurd hzero h.1
  · exact ⟨c', hd, hsame⟩

theorem HttpConn.dispatch_empty {c : HttpConn} {text : Nat} (hs : c.checkState = .header)
    (hzero : c.readBuf.bytes[text]? = some 0) (hlen : c.contentLength ≠ 0) (lineStatus : LineStatus) :
    c.dispatch text lineStatus = .next c.toContent lineStatus := by
  simp [HttpConn.dispatch, hs, HttpConn.parseHeaders_empty hzero hlen]

/-- In the request line state the loop leaves, or goes on with the headers at the same place. -/
theorem HttpConn.dispatch_line {c : HttpConn} (hs : c.checkState = .requestLine) (text : Nat) (lineStatus : LineStatus) :
    (c.parseRequestLine text = none ∧ c.dispatch text lineStatus = .exit .undefined) ∨
    (∃ c' code, c.dispatch text lineStatus = .exit (.returns c' code)) ∨
    ∃ c', c.parseRequestLine text = some (c', .noRequest) ∧ c.dispatch text lineStatus = .next c' lineStatus ∧
      c'.checkState = .header := by
  rw [HttpConn.dispatch_requestLine hs]
  cases hp : c.parseRequestLine text with
  | none => exact Or.inl ⟨rfl, rfl⟩
  | some r =>
    right
    obtain ⟨c', ret⟩ := r
    rcases (HttpConn.parseRequestLine_goes hp).2 with rfl | ⟨rfl, hheader⟩
    · exact Or.inl ⟨_, _, rfl⟩
    · exact Or.inr ⟨c', rfl, rfl, hheader⟩

theorem HttpConn.dispatch_accepted {c c' : HttpConn} {text : Nat} (hs : c.checkState = .requestLine)
    (hp : c.parseRequestLine text = some (c', .noRequest)) (lineStatus : LineStatus) :
    c.dispatch text lineStatus = .next c' lineStatus ∧ c'.checkState = .header := by
  rcases HttpConn.dispatch_line hs text lineStatus with ⟨hno, _⟩ | ⟨_, _, hd⟩ | ⟨c2, hp2, hd, hheader⟩
  · cases hno.symm.trans hp
  · rw [HttpConn.dispatch_requestLine hs, hp] at hd
    cases hd
  · cases Option.some.inj (hp2.symm.trans hp)
    exact ⟨hd, hheader⟩

theorem HttpConn.SameParse.stopsAt {c c' : HttpConn} {i : Nat} {status : LineStatus} (h : (c.movedTo i).SameParse c')
    (hstop : c.StopsAt i status) : c'.StopsAt c'.checkedIdx status := by
  rw [show c'.checkedIdx = i from h.checkedIdx]
  exact hstop.again h.readBuf h.readIdx h.checkedIdx

end CppInAction
