import CppInAction.HttpLine

namespace CppInAction

theorem HttpConn.parseLine_frame {c c' : HttpConn} {status : LineStatus}
    (h : c.parseLine = some (c', status)) : ∃ buf i, c' = { c with readBuf := buf, checkedIdx := i } := by
  obtain ⟨⟨buf, i, st⟩, _, h⟩ := Option.bind_eq_some_iff.mp h
  cases Option.some.inj h
  exact ⟨buf, i, rfl⟩

/-- parse_headers never refuses a line, and only ever goes on to the body. -/
theorem HttpConn.parseHeaders_state {c c' : HttpConn} {text : Nat} {ret : HttpCode}
    (h : c.parseHeaders text = some (c', ret)) :
    ret ≠ .badRequest ∧ (c'.checkState = c.checkState ∨ c'.checkState = .content) := by
  rcases HttpConn.parseHeaders_inv h with ⟨_, _, rfl, rfl⟩ | ⟨_, _, rfl, rfl⟩ | ⟨_, rfl, _, _, _, rfl⟩
  · exact ⟨by simp, Or.inr rfl⟩
  · exact ⟨by simp, Or.inl rfl⟩
  · exact ⟨by simp, Or.inl rfl⟩

theorem HttpConn.parseContent_state {c c' : HttpConn} {text : Nat} {ret : HttpCode}
    (h : c.parseContent text = some (c', ret)) : c'.checkState = c.checkState := by
  unfold HttpConn.parseContent at h
  split at h
  next =>
    simp only at h
    split at h
    next => simp at h
    next =>
      obtain ⟨buf, _, h⟩ := Option.bind_eq_some_iff.mp h
      cases Option.some.inj h
      rfl
  next => cases Option.some.inj h; rfl

/-- Past the request line, the loop body never leaves with a code of its own and
never goes back to the request line. -/
theorem HttpConn.dispatch_past {c : HttpConn} {text : Nat} {lineStatus : LineStatus}
    (h : c.checkState ≠ .requestLine) :
    (∀ c' code, c.dispatch text lineStatus ≠ .exit (.returns c' code)) ∧
      ∀ c' st, c.dispatch text lineStatus = .next c' st → c'.checkState ≠ .requestLine := by
  unfold HttpConn.dispatch
  cases hs : c.checkState with
  | requestLine => exact absurd hs h
  | header =>
    cases hp : c.parseHeaders text with
    | none => simp
    | some r =>
      obtain ⟨c1, ret⟩ := r
      obtain ⟨hne, hst⟩ := HttpConn.parseHeaders_state hp
      simp only [hne, if_false]
      by_cases hg : ret = .getRequest
      · simp [hg]
      · simp only [hg, if_false]
        refine ⟨by simp, ?_⟩
        rintro c' st ⟨⟩
        rcases hst with hst | hst <;> simp [hst, hs]
  | content =>
    cases hp : c.parseContent text with
    | none => simp
    | some r =>
      obtain ⟨c1, ret⟩ := r
      have hst := HttpConn.parseContent_state hp
      by_cases hg : ret = .getRequest
      · simp [hg]
      · simp only [hg, if_false]
        refine ⟨by simp, ?_⟩
        rintro c' st ⟨⟩
        simp [hst, hs]

theorem HttpConn.readIter_past {c : HttpConn} (lineStatus : LineStatus) (h : c.checkState ≠ .requestLine) :
    (∀ c' code, c.readIter lineStatus ≠ .exit (.returns c' code)) ∧
      ∀ c' st, c.readIter lineStatus = .next c' st → c'.checkState ≠ .requestLine := by
  unfold HttpConn.readIter
  split
  next => exact HttpConn.dispatch_past h
  next =>
    cases hp : c.parseLine with
    | none => simp
    | some r =>
      obtain ⟨c1, status⟩ := r
      obtain ⟨buf, i, rfl⟩ := HttpConn.parseLine_frame hp
      simp only
      split
      next => exact HttpConn.dispatch_past h
      next => simp

theorem HttpConn.readLoop_past {fuel : Nat} {c : HttpConn} {lineStatus : LineStatus}
    (h : c.checkState ≠ .requestLine) (c' : HttpConn) (code : HttpCode) :
    c.readLoop fuel lineStatus ≠ some (.returns c' code) := by
  induction fuel generalizing c lineStatus with
  | zero => simp [HttpConn.readLoop]
  | succ fuel ih =>
    obtain ⟨hret, hnext⟩ := HttpConn.readIter_past lineStatus h
    cases hi : c.readIter lineStatus with
    | next c1 st => simpa only [HttpConn.readLoop, hi] using ih (hnext c1 st hi)
    | exit e =>
      simp only [HttpConn.readLoop, hi, ne_eq, Option.some.injEq]
      rintro rfl
      exact hret c' code hi

theorem HttpConn.dispatch_requestLine {c : HttpConn} {text : Nat} {lineStatus : LineStatus}
    (hs : c.checkState = .requestLine) :
    c.dispatch text lineStatus = match c.parseRequestLine text with
      | none => .exit .undefined
      | some (c', ret) => if ret = .badRequest then .exit (.returns c' .badRequest) else .next c' lineStatus := by
  cases hr : c.parseRequestLine text with
  | none => simp only [HttpConn.dispatch, hs, hr]
  | some x => simp only [HttpConn.dispatch, hs, hr]

/-- In the request line state, the loop returns a code exactly when the text is no
request line. -/
theorem HttpConn.dispatch_returns {c : HttpConn} {text : Nat} {line : List UInt8} (lineStatus : LineStatus)
    (hs : c.checkState = .requestLine) (ht : c.readBuf.cstr text = some line) :
    (rejectsRequestLine line = true ∧
      ∃ c', c.dispatch text lineStatus = .exit (.returns c' .badRequest)) ∨
    (rejectsRequestLine line = false ∧
      (c.dispatch text lineStatus = .exit .undefined ∨
        ∃ c', c.dispatch text lineStatus = .next c' lineStatus ∧ c'.checkState = .header)) := by
  rw [HttpConn.dispatch_requestLine hs]
  rcases HttpConn.parseRequestLine_moves ht with ⟨hrej, c', hp⟩ | ⟨hrej, hp⟩
  · exact Or.inl ⟨hrej, c', by simp [hp]⟩
  · refine Or.inr ⟨hrej, ?_⟩
    cases hr : c.parseRequestLine text with
    | none => exact Or.inl rfl
    | some r =>
      obtain ⟨c', ret⟩ := r
      obtain ⟨rfl, hst⟩ := hp c' ret hr
      exact Or.inr ⟨c', by simp, hst⟩

theorem HttpConn.readLoop_exit {c : HttpConn} {lineStatus : LineStatus} {e : ReadExit} {fuel : Nat}
    (h : c.readIter lineStatus = .exit e) : c.readLoop (fuel + 1) lineStatus = some e := by
  simp only [HttpConn.readLoop, h]

theorem HttpConn.readLoop_next {c c' : HttpConn} {lineStatus st : LineStatus} {fuel : Nat}
    (h : c.readIter lineStatus = .next c' st) :
    c.readLoop (fuel + 1) lineStatus = c'.readLoop fuel st := by
  simp only [HttpConn.readLoop, h]

/-- The first test of the loop: a complete line leaves it, and any other status
parses the text there is. -/
theorem HttpConn.readIter_first {c c1 : HttpConn} {status : LineStatus}
    (hs : c.checkState = .requestLine) (hl : c.parseLine = some (c1, status)) :
    c.readIter .lineOk = if status = .lineOk then .exit (.flowsOff c1) else c1.readBody .lineOk := by
  by_cases hok : status = .lineOk <;> simp [HttpConn.readIter, hs, hl, hok]

/-- What a call that begins with a request line can return. -/
theorem HttpConn.processRead_first {c c1 : HttpConn} {status : LineStatus} {line : List UInt8}
    (hs : c.checkState = .requestLine) (hl : c.parseLine = some (c1, status))
    (ht : c1.readBuf.cstr c.startLine = some line) (code : HttpCode) :
    (∃ fuel c', c.processRead fuel = some (.returns c' code)) ↔
      status ≠ .lineOk ∧ rejectsRequestLine line = true ∧ code = .badRequest := by
  have hiter := HttpConn.readIter_first hs hl
  obtain ⟨buf, i, rfl⟩ := HttpConn.parseLine_frame hl
  by_cases hok : status = .lineOk
  · rw [if_pos hok] at hiter
    refine iff_of_false ?_ (fun h => h.1 hok)
    rintro ⟨fuel, c', hf⟩
    cases fuel with
    | zero => cases hf
    | succ fuel =>
      have he := hf.symm.trans (HttpConn.readLoop_exit hiter)
      cases Option.some.inj he
  · rw [if_neg hok] at hiter
    rcases HttpConn.dispatch_returns (c := { c with readBuf := buf, checkedIdx := i, startLine := i })
        .lineOk hs ht with ⟨hrej, c2, hd⟩ | ⟨hrej, hd | ⟨c2, hd, hst⟩⟩
    · have hexit := hiter.trans hd
      refine ⟨?_, ?_⟩
      · rintro ⟨fuel, c', hf⟩
        cases fuel with
        | zero => cases hf
        | succ fuel =>
          cases Option.some.inj (hf.symm.trans (HttpConn.readLoop_exit hexit))
          exact ⟨hok, hrej, rfl⟩
      · rintro ⟨_, _, rfl⟩
        exact ⟨1, c2, HttpConn.readLoop_exit hexit⟩
    · refine iff_of_false ?_ (by simp [hrej])
      rintro ⟨fuel, c', hf⟩
      cases fuel with
      | zero => cases hf
      | succ fuel => cases Option.some.inj (hf.symm.trans (HttpConn.readLoop_exit (hiter.trans hd)))
    · refine iff_of_false ?_ (by simp [hrej])
      rintro ⟨fuel, c', hf⟩
      cases fuel with
      | zero => cases hf
      | succ fuel =>
        have hnext := hf.symm.trans (HttpConn.readLoop_next (hiter.trans hd))
        exact HttpConn.readLoop_past (by simp [hst]) c' code hnext.symm

end CppInAction
