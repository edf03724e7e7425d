import CppInAction.HttpAccept
import CppInAction.HttpHangs

namespace CppInAction

/-- The object that a call of process_read leaves behind; do_request does not move the parser. -/
def ReadExit.conn : ReadExit → Option HttpConn
  | .returns c _ => some c
  | .doRequest c => some c
  | .flowsOff c => some c
  | .undefined => none

def ReadIter.conn : ReadIter → Option HttpConn
  | .next c _ => some c
  | .exit e => e.conn

/-- The states of the parser after init and any read_once and process_read calls. -/
inductive HttpConn.Parsing : HttpConn → Prop
  | init (c : HttpConn) : Parsing c.initRequest
  | readOnce {c c' : HttpConn} {chunk : List UInt8} : Parsing c → c.deliver chunk = some c' → Parsing c'
  | processRead {c c' : HttpConn} {fuel : Nat} {e : ReadExit} : Parsing c → c.processRead fuel = some e →
      e.conn = some c' → Parsing c'

theorem HttpConn.dispatch_place {c c' : HttpConn} {text : Nat} {lineStatus : LineStatus}
    (h : (c.dispatch text lineStatus).conn = some c') : c.SamePlace c' := by
  cases hs : c.checkState with
  | requestLine =>
    cases hp : c.parseRequestLine text with
    | none => simp [HttpConn.dispatch, hs, hp, ReadIter.conn, ReadExit.conn] at h
    | some r =>
      obtain ⟨c2, ret⟩ := r
      have hplace := (HttpConn.parseRequestLine_goes hp).1
      simp only [HttpConn.dispatch, hs, hp] at h
      split at h <;> cases Option.some.inj h <;> exact hplace
  | header =>
    cases hp : c.parseHeaders text with
    | none => simp [HttpConn.dispatch, hs, hp, ReadIter.conn, ReadExit.conn] at h
    | some r =>
      obtain ⟨c2, ret⟩ := r
      have hplace := HttpConn.parseHeaders_place hp
      simp only [HttpConn.dispatch, hs, hp] at h
      split at h
      next => cases Option.some.inj h; exact hplace
      next => split at h <;> cases Option.some.inj h <;> exact hplace
  | content =>
    cases hp : c.parseContent text with
    | none => simp [HttpConn.dispatch, hs, hp, ReadIter.conn, ReadExit.conn] at h
    | some r =>
      obtain ⟨c2, ret⟩ := r
      have hplace := HttpConn.parseContent_place hp
      simp only [HttpConn.dispatch, hs, hp] at h
      split at h <;> cases Option.some.inj h <;> exact hplace

/-- m_start_line is not past m_checked_idx, and m_read_idx is inside the buffer or at its end. -/
structure HttpConn.Placed (c : HttpConn) : Prop where
  start : c.startLine ≤ c.checkedIdx
  nonneg : 0 ≤ c.readIdx
  inside : c.readIdx ≤ readBufferSize

theorem HttpConn.readBody_place {c c' : HttpConn} {lineStatus : LineStatus} (h0 : 0 ≤ c.readIdx)
    (hread : c.readIdx ≤ readBufferSize) (h : (c.readBody lineStatus).conn = some c') : c'.Placed := by
  obtain ⟨hstart, hchecked, hsame⟩ := HttpConn.dispatch_place h
  exact ⟨(hstart.trans hchecked.symm).le, hsame ▸ h0, hsame ▸ hread⟩

theorem HttpConn.readIter_place {c c' : HttpConn} {lineStatus : LineStatus} (hplace : c.Placed)
    (h : (c.readIter lineStatus).conn = some c') : c'.Placed := by
  unfold HttpConn.readIter at h
  split at h
  next => exact HttpConn.readBody_place hplace.nonneg hplace.inside h
  next =>
    rcases c.parseLine_cases with hnone | ⟨buf, i, hparse, hlt, _⟩ | ⟨i, status, hstop, hle, _⟩
    · exact absurd hnone (HttpConn.parseLine_inside hplace.inside)
    · simp only [hparse] at h
      split at h
      next => exact HttpConn.readBody_place (c := { c with readBuf := buf, checkedIdx := i }) hplace.nonneg hplace.inside h
      next =>
        cases Option.some.inj h
        exact ⟨hplace.start.trans hlt.le, hplace.nonneg, hplace.inside⟩
    · simp only [hstop.2] at h
      split at h
      next => exact HttpConn.readBody_place (c := { c with checkedIdx := i }) hplace.nonneg hplace.inside h
      next =>
        cases Option.some.inj h
        exact ⟨hplace.start.trans hle, hplace.nonneg, hplace.inside⟩

theorem HttpConn.readLoop_place {c c' : HttpConn} {lineStatus : LineStatus} {fuel : Nat} {e : ReadExit}
    (hplace : c.Placed) (h : c.readLoop fuel lineStatus = some e) (he : e.conn = some c') : c'.Placed := by
  induction fuel generalizing c lineStatus with
  | zero => cases h
  | succ fuel ih =>
    cases hi : c.readIter lineStatus with
    | next c1 st =>
      rw [HttpConn.readLoop_next hi] at h
      exact ih (HttpConn.readIter_place hplace (by rw [hi]; rfl)) h
    | exit e' =>
      cases Option.some.inj ((HttpConn.readLoop_exit hi).symm.trans h)
      exact HttpConn.readIter_place hplace (by rw [hi]; exact he)

theorem HttpConn.Parsing.placed {c : HttpConn} (h : c.Parsing) : c.Placed := by
  induction h with
  | init c => exact ⟨Nat.le_refl 0, Int.le_refl 0, show (0 : Int) ≤ readBufferSize by decide⟩
  | @readOnce c _ chunk _ hdeliver ih =>
    obtain ⟨buf, hblit, he⟩ := Option.bind_eq_some_iff.mp hdeliver
    cases Option.some.inj he
    have hnonneg := ih.nonneg
    have hfits := (Buffer.blit_eq_some_iff.mp hblit).1
    refine ⟨ih.start, ?_, ?_⟩
    · change 0 ≤ c.readIdx + chunk.length
      omega
    · change c.readIdx + chunk.length ≤ readBufferSize
      omega
  | processRead _ hrun he ih => exact HttpConn.readLoop_place ih hrun he

/-- In every state of the parser and for every content of the buffer, process_read leaves its
loop, inside the buffer all the way and getting on with every iteration, exactly when it meets
no text that it cannot pass and none that leads it outside the buffer. -/
theorem processRead_ends_iff (c : HttpConn) (buf : Buffer readBufferSize) (h : c.Parsing) :
    ((∃ fuel e, HttpConn.processRead { c with readBuf := buf } fuel = some e ∧ e ≠ .undefined) ∧
      HttpConn.Progresses { c with readBuf := buf } .lineOk) ↔
      ¬ HttpConn.Hangs { c with readBuf := buf } ∧ ¬ HttpConn.Strays { c with readBuf := buf } := by
  rw [← HttpConn.progresses_iff (c := { c with readBuf := buf }) h.placed.start h.placed.inside]
  exact ⟨fun hp => hp.2, fun hp => ⟨hp.ends, hp⟩⟩

/-- A request line with its CRLF and the empty line behind it. -/
theorem processRead_ends_iff_crlf :
    ∃ c, HttpConn.zero.initRequest.deliver (bytes "GET /a HTTP/1.1\r\n\r\n") = some c ∧
      (∃ fuel e, c.processRead fuel = some e ∧ e ≠ .undefined) ∧ c.Progresses .lineOk := by
  obtain ⟨buf, hbuf, hdeliver⟩ :=
    HttpConn.deliver_first HttpConn.zero (p := bytes "GET /a HTTP/1.1\r\n\r\n") (by decide)
  obtain ⟨buf', i, hscan, hok, _⟩ := @scanLine_lineBreak buf _ _ 0 hbuf (by omega)
  have hparse : ∀ readIdx : Int, readIdx = 19 →
      HttpConn.parseLine { HttpConn.zero.initRequest with readBuf := buf, readIdx := readIdx } =
        some ({ HttpConn.zero.initRequest with readBuf := buf', checkedIdx := i, readIdx := readIdx }, .lineOk) := by
    rintro _ rfl
    have hscan : scanLine buf 19 19 0 = some (buf', i, .lineOk) := hscan
    have hfuel : ((19 : Int) - (HttpConn.zero.initRequest.checkedIdx : Nat)).toNat = 19 := by decide
    simp only [HttpConn.parseLine, hfuel]
    exact congrArg (Option.bind · _) hscan
  refine ⟨_, hdeliver, (processRead_ends_iff _ buf (.readOnce (.init _) hdeliver)).mpr ⟨?_, ?_⟩⟩
  · rintro ⟨j, status, _, hstop, _⟩
    exact hstop.not_line (hparse _ rfl)
  · rintro ⟨j, status, hstop, _⟩
    exact hstop.not_line (hparse _ rfl)

theorem HttpConn.stopsAt_loneLf {c : HttpConn} {b : UInt8} (hread : (c.checkedIdx : Int) < c.readIdx)
    (hat : c.readBuf.bytes[c.checkedIdx]? = some 10) (hbefore : c.readBuf.bytes[c.checkedIdx - 1]? = some b)
    (hb : b ≠ 13) : c.StopsAt c.checkedIdx .lineBad := by
  obtain ⟨fuel, hfuel⟩ : ∃ fuel, (c.readIdx - c.checkedIdx).toNat = fuel + 1 :=
    ⟨(c.readIdx - c.checkedIdx).toNat - 1, by omega⟩
  refine ⟨by simp, ?_⟩
  simp [HttpConn.parseLine, hfuel, scanLine, hat, hbefore, hb]

/-- The request line GET /a, lone LF, b: parse_line stops at the LF before and after the line
is accepted. -/
theorem HttpConn.hangs_loneLf :
    ∃ c, HttpConn.zero.initRequest.deliver (bytes "GET /a\nb HTTP/1.1") = some c ∧ c.Hangs := by
  obtain ⟨buf, hbuf, hdeliver⟩ := HttpConn.deliver_first HttpConn.zero (p := bytes "GET /a\nb HTTP/1.1") (by decide)
  refine ⟨_, hdeliver, ?_⟩
  have hdrop : buf.bytes.drop 0 = bytes "GET /a\nb HTTP/1.1" ++ List.replicate 2031 0 := hbuf
  obtain ⟨buf', i, hscan, _, hno⟩ := scanLine_lineBreak hdrop (by omega)
  have hbreak : lineBreak (bytes "GET /a\nb HTTP/1.1") = (.lineBad, 6) := by decide
  rw [hbreak] at hscan hno
  obtain ⟨rfl, rfl⟩ := hno (by simp)
  have hstop : HttpConn.StopsAt { HttpConn.zero.initRequest with readBuf := buf', readIdx := 17 } 6 .lineBad := by
    refine ⟨by simp, ?_⟩
    have hscan : scanLine buf' 17 17 0 = some (buf', 6, .lineBad) := hscan
    have hfuel : ((17 : Int) - (HttpConn.zero.initRequest.checkedIdx : Nat)).toNat = 17 := by decide
    simp only [HttpConn.parseLine, hfuel]
    exact congrArg (Option.bind · _) hscan
  have hcstr : buf'.cstr 0 = some (bytes "GET /a\nb HTTP/1.1") := cstr_first (k := 2030) hbuf
  have hresource : firstWord (pastWord (bytes "GET /a\nb HTTP/1.1")) = bytes "/a\nb" := rfl
  obtain ⟨c', hparse, hurl⟩ := HttpConn.parseRequestLine_resource (c := HttpConn.movedTo
    { HttpConn.zero.initRequest with readBuf := buf', readIdx := 17 } 6) (m := .get) hcstr rfl rfl hresource rfl
    (by decide)
  have hurl : c'.readBuf.cstr 4 = some (bytes "/a\nb") := hurl
  obtain ⟨hstart, hchecked, hread⟩ := (HttpConn.parseRequestLine_goes hparse).1
  have htext : c'.readBuf.cstr 6 = some (bytes "\nb") := Buffer.cstr_drop (k := 2) hurl (by decide)
  obtain ⟨tail, hbytes, _⟩ := Buffer.cstr_eq_some_iff.mp hurl
  have hat : c'.readBuf.bytes[6]? = some 10 := by
    have := congrArg (·[2]?) hbytes
    simpa [List.getElem?_drop, bytes] using this
  have hbefore : c'.readBuf.bytes[5]? = some 97 := by
    have := congrArg (·[1]?) hbytes
    simpa [List.getElem?_drop, bytes] using this
  have hchecked : c'.checkedIdx = 6 := hchecked
  have hread : c'.readIdx = 17 := hread
  have hstop' : c'.StopsAt c'.checkedIdx .lineBad := by
    refine HttpConn.stopsAt_loneLf (b := 97) ?_ ?_ ?_ (by decide)
    · rw [hread, hchecked]
      decide
    · rw [hchecked]
      exact hat
    · rw [hchecked]
      exact hbefore
  have hheader : c'.HasHeader 6 := HttpConn.hasHeader_unknown htext (by decide) rfl rfl rfl
  rw [hchecked] at hstop'
  have hstart : c'.startLine = 6 := hstart
  exact ⟨6, .lineBad, c', hstop, hparse, 6, .lineBad, hstop', Or.inl ⟨hstart ▸ hheader, hheader⟩⟩

/-- The bytes GET /a, LF, b HTTP/1.1 keep the worker in the loop. -/
theorem processRead_not_always_ends :
    ¬ ∀ c : HttpConn, c.Parsing → (∃ fuel e, c.processRead fuel = some e) ∧ c.Progresses .lineOk := by
  intro h
  obtain ⟨c, hdeliver, hhangs⟩ := HttpConn.hangs_loneLf
  obtain ⟨⟨fuel, e, hrun⟩, _⟩ := h c (.readOnce (.init _) hdeliver)
  cases (hhangs.never fuel).symm.trans hrun

end CppInAction
