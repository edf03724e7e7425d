import CppInAction.HttpLoop

namespace CppInAction

/-- In the headers: parse_line stops short of a complete line, and the loop takes the text at
m_start_line and then the text where it stopped for header lines; or it takes the first for
the empty line, and the body is missing behind a malformed one. -/
def HttpConn.LoopsInHeaders (c : HttpConn) : Prop :=
  ∃ i status, c.StopsAt i status ∧
    (c.HasHeader c.startLine ∧ c.HasHeader i ∨
      c.readBuf.bytes[c.startLine]? = some 0 ∧ c.contentLength ≠ 0 ∧ status = .lineBad ∧ c.LacksBody i)

/-- In the body: it is missing, and parse_line comes upon a malformed line before it is there. -/
inductive HttpConn.LoopsInBody : HttpConn → Prop
  | bad {c : HttpConn} {i : Nat} : c.LacksBody c.checkedIdx → c.StopsAt i .lineBad → c.LacksBody i → LoopsInBody c
  | line {c c' : HttpConn} : c.LacksBody c.checkedIdx → c.parseLine = some (c', .lineOk) →
      LoopsInBody (c'.movedTo c'.checkedIdx) → LoopsInBody c

/-- The states in which a call of process_read meets a text that it cannot pass. -/
def HttpConn.Hangs (c : HttpConn) : Prop :=
  match c.checkState with
  | .requestLine => ∃ i status c', c.StopsAt i status ∧
      (c.movedTo i).parseRequestLine c.startLine = some (c', .noRequest) ∧
      c'.LoopsInHeaders
  | .header => c.LoopsInHeaders
  | .content => (c.movedTo c.checkedIdx).LoopsInBody

/-- In the loop body, for the text at this index: parse_headers reads, or parse_content writes,
outside the buffer, at once or after a line that parse_headers takes. -/
inductive HttpConn.StraysAt : HttpConn → Nat → Prop
  | text {c : HttpConn} {text : Nat} : c.checkState = .header → c.parseHeaders text = none → StraysAt c text
  | body {c : HttpConn} {text : Nat} : c.checkState = .content → c.parseContent text = none → StraysAt c text
  | line {c c' : HttpConn} {text : Nat} : c.checkState = .header → c.parseHeaders text = some (c', .noRequest) →
      StraysAt c' c'.startLine → StraysAt c text

def HttpConn.StraysInHeaders (c : HttpConn) : Prop :=
  ∃ i status, c.StopsAt i status ∧ (c.movedTo i).StraysAt c.startLine

/-- In the body: parse_content writes outside the buffer, at once or while the body is missing
and parse_line goes on. -/
inductive HttpConn.StraysInBody : HttpConn → Nat → Prop
  | body {c : HttpConn} {text : Nat} : c.parseContent text = none → StraysInBody c text
  | bad {c : HttpConn} {text i : Nat} : c.LacksBody c.checkedIdx → c.StopsAt i .lineBad →
      (c.movedTo i).parseContent c.startLine = none → StraysInBody c text
  | line {c c' : HttpConn} {text : Nat} : c.LacksBody c.checkedIdx → c.parseLine = some (c', .lineOk) →
      StraysInBody (c'.movedTo c'.checkedIdx) c'.startLine → StraysInBody c text

/-- The states in which a call of process_read reads or writes outside the buffer. -/
def HttpConn.Strays (c : HttpConn) : Prop :=
  match c.checkState with
  | .requestLine => ∃ i status, c.StopsAt i status ∧
      ((c.movedTo i).parseRequestLine c.startLine = none ∨
        ∃ c', (c.movedTo i).parseRequestLine c.startLine = some (c', .noRequest) ∧ c'.StraysInHeaders)
  | .header => c.StraysInHeaders
  | .content => (c.movedTo c.checkedIdx).StraysInBody c.startLine

def CheckState.rank : CheckState → Nat
  | .requestLine => 0
  | .header => 1
  | .content => 2

/-- An iteration moves the parser on, or lowers line_status, as it does to leave the loop. -/
def HttpConn.Advances (c : HttpConn) (lineStatus : LineStatus) (c' : HttpConn) (st : LineStatus) : Prop :=
  c.checkedIdx < c'.checkedIdx ∨ c.startLine < c'.startLine ∨ c.checkState.rank < c'.checkState.rank ∨
    lineStatus = .lineOk ∧ st = .lineOpen

/-- Every iteration advances, down to one that leaves the loop; none is undefined. -/
inductive HttpConn.Progresses : HttpConn → LineStatus → Prop
  | exit {c : HttpConn} {lineStatus : LineStatus} {e : ReadExit} : c.readIter lineStatus = .exit e →
      e ≠ .undefined → Progresses c lineStatus
  | next {c c' : HttpConn} {lineStatus st : LineStatus} : c.readIter lineStatus = .next c' st →
      c.Advances lineStatus c' st → Progresses c' st → Progresses c lineStatus

theorem HttpConn.Progresses.ends {c : HttpConn} {lineStatus : LineStatus} (h : c.Progresses lineStatus) :
    ∃ fuel e, c.readLoop fuel lineStatus = some e ∧ e ≠ .undefined := by
  induction h with
  | exit hiter hne => exact ⟨1, _, HttpConn.readLoop_exit hiter, hne⟩
  | next hiter _ _ ih =>
    obtain ⟨fuel, e, hrun, hne⟩ := ih
    exact ⟨fuel + 1, e, (HttpConn.readLoop_next hiter).trans hrun, hne⟩

theorem HttpConn.Progresses.not_undefined {c : HttpConn} {lineStatus : LineStatus} (h : c.Progresses lineStatus) :
    c.readIter lineStatus ≠ .exit .undefined := by
  intro hiter
  cases h with
  | exit hexit hne => exact hne (ReadIter.exit.inj (hexit.symm.trans hiter))
  | next hnext _ _ => cases hnext.symm.trans hiter

theorem HttpConn.Progresses.of_next {c c' : HttpConn} {lineStatus st : LineStatus} (h : c.Progresses lineStatus)
    (hiter : c.readIter lineStatus = .next c' st) : c'.Progresses st := by
  cases h with
  | exit hexit _ => cases hexit.symm.trans hiter
  | next hnext _ hrest =>
    obtain ⟨rfl, rfl⟩ := ReadIter.next.inj (hnext.symm.trans hiter)
    exact hrest

theorem HttpConn.readLoop_never {c c' : HttpConn} {lineStatus st : LineStatus}
    (hiter : c.readIter lineStatus = .next c' st) (h : ∀ fuel, c'.readLoop fuel st = none) (fuel : Nat) :
    c.readLoop fuel lineStatus = none := by
  cases fuel with
  | zero => rfl
  | succ fuel => exact (HttpConn.readLoop_next hiter).trans (h fuel)

/-- A header line at the place where parse_line stops is parsed again for ever. -/
theorem HttpConn.readLoop_header_never {c : HttpConn} {status : LineStatus} (hs : c.checkState = .header)
    (hplace : c.startLine = c.checkedIdx) (hstop : c.StopsAt c.checkedIdx status) (h : c.HasHeader c.checkedIdx)
    (fuel : Nat) : c.readLoop fuel .lineOk = none := by
  induction fuel generalizing c with
  | zero => rfl
  | succ fuel ih =>
    have hiter := HttpConn.readIter_stops (by simp [hs]) hstop
    obtain ⟨c', hd, hsame⟩ := HttpConn.dispatch_hasHeader (c := c.movedTo c.checkedIdx) hs (h.congr rfl) .lineOk
    rw [hplace] at hiter
    rw [HttpConn.readLoop_next (hiter.trans hd)]
    have hchecked : c'.checkedIdx = c.checkedIdx := hsame.checkedIdx
    refine ih (hsame.checkState.trans hs) (hsame.startLine.trans hchecked.symm) (hsame.stopsAt hstop) ?_
    rw [hchecked]
    exact h.congr hsame.readBuf

theorem HttpConn.readLoop_bad_never {c : HttpConn} (hs : c.checkState = .content)
    (hstop : c.StopsAt c.checkedIdx .lineBad) (h : c.LacksBody c.checkedIdx) (fuel : Nat) :
    c.readLoop fuel .lineOpen = none := by
  induction fuel generalizing c with
  | zero => rfl
  | succ fuel ih =>
    have hiter := HttpConn.readIter_lowered hstop.2 (by simp)
    have hd := HttpConn.dispatch_lacks (c := c.movedTo c.checkedIdx) hs h c.startLine .lineOpen
    rw [HttpConn.readLoop_next (hiter.trans hd)]
    exact ih hs (hstop.again rfl rfl rfl) h

theorem HttpConn.LoopsInBody.lacks {c : HttpConn} (h : c.LoopsInBody) : c.LacksBody c.checkedIdx := by
  cases h with
  | bad hl _ _ => exact hl
  | line hl _ _ => exact hl

theorem HttpConn.LoopsInBody.never {c : HttpConn} (h : c.LoopsInBody) (hs : c.checkState = .content) (fuel : Nat) :
    c.readLoop fuel .lineOpen = none := by
  induction h generalizing fuel with
  | @bad c i _ hstop hl =>
    have hiter := HttpConn.readIter_lowered hstop.2 (by simp)
    have hd := HttpConn.dispatch_lacks (c := c.movedTo i) hs hl c.startLine .lineOpen
    exact HttpConn.readLoop_never (hiter.trans hd) (HttpConn.readLoop_bad_never hs (hstop.again rfl rfl rfl) hl) fuel
  | @line c c' _ hparse hloop ih =>
    have hiter := HttpConn.readIter_lowered hparse (by simp)
    have hs' : (c'.movedTo c'.checkedIdx).checkState = .content := by
      obtain ⟨buf, i, rfl⟩ := HttpConn.parseLine_frame hparse
      exact hs
    have hd := HttpConn.dispatch_lacks hs' hloop.lacks c'.startLine .lineOpen
    exact HttpConn.readLoop_never (hiter.trans hd) (ih hs') fuel

theorem HttpConn.readLoop_content_never {c : HttpConn} (hs : c.checkState = .content)
    (h : (c.movedTo c.checkedIdx).LoopsInBody) (fuel : Nat) : c.readLoop fuel .lineOk = none := by
  have hiter := HttpConn.readIter_content hs
  have hd := HttpConn.dispatch_lacks (c := c.movedTo c.checkedIdx) hs h.lacks c.startLine .lineOk
  exact HttpConn.readLoop_never (hiter.trans hd) (h.never hs) fuel

theorem HttpConn.LoopsInHeaders.never {c : HttpConn} (h : c.LoopsInHeaders) (hs : c.checkState = .header)
    (fuel : Nat) : c.readLoop fuel .lineOk = none := by
  obtain ⟨i, status, hstop, htext⟩ := h
  have hiter := HttpConn.readIter_stops (by simp [hs]) hstop
  rcases htext with ⟨htext, hnext⟩ | ⟨hzero, hlen, rfl, hl⟩
  · obtain ⟨c', hd, hsame⟩ := HttpConn.dispatch_hasHeader (c := c.movedTo i) hs (htext.congr rfl) .lineOk
    refine HttpConn.readLoop_never (hiter.trans hd) (HttpConn.readLoop_header_never (hsame.checkState.trans hs)
      (hsame.startLine.trans hsame.checkedIdx.symm) (hsame.stopsAt hstop) ?_) fuel
    rw [show c'.checkedIdx = i from hsame.checkedIdx]
    exact hnext.congr hsame.readBuf
  · have hd := HttpConn.dispatch_empty (c := c.movedTo i) hs hzero hlen .lineOk
    exact HttpConn.readLoop_never (hiter.trans hd)
      (HttpConn.readLoop_content_never rfl (.bad hl (hstop.again rfl rfl rfl) hl)) fuel

theorem HttpConn.Hangs.never {c : HttpConn} (h : c.Hangs) (fuel : Nat) : c.processRead fuel = none := by
  unfold HttpConn.Hangs at h
  unfold HttpConn.processRead
  cases hs : c.checkState with
  | requestLine =>
    rw [hs] at h
    obtain ⟨i, status, c', hstop, hparse, hloop⟩ := h
    have hiter := HttpConn.readIter_stops (by simp [hs]) hstop
    obtain ⟨hd, hheader⟩ := HttpConn.dispatch_accepted (c := c.movedTo i) hs hparse .lineOk
    exact HttpConn.readLoop_never (hiter.trans hd) (hloop.never hheader) fuel
  | header =>
    rw [hs] at h
    exact HttpConn.LoopsInHeaders.never h hs fuel
  | content =>
    rw [hs] at h
    exact HttpConn.readLoop_content_never hs h fuel

theorem HttpConn.progresses_lowered {c : HttpConn} {text : Nat} (hs : c.checkState = .content)
    (hread : c.readIdx ≤ readBufferSize) (hl : c.LacksBody c.checkedIdx) (h : ¬ c.LoopsInBody)
    (hin : ¬ c.StraysInBody text) : c.Progresses .lineOpen := by
  induction hn : (c.readIdx - c.checkedIdx).toNat using Nat.strong_induction_on generalizing c text with
  | _ n ih =>
    rcases c.parseLine_cases with hnone | ⟨buf, i, hparse, hlt, _⟩ | ⟨i, status, hstop, _, _⟩
    · exact absurd hnone (HttpConn.parseLine_inside hread)
    · have hiter := HttpConn.readIter_lowered hparse (by simp)
      rcases HttpConn.dispatch_content (c := HttpConn.movedTo { c with readBuf := buf } i) hs c.startLine .lineOpen with
        ⟨hno, _⟩ | ⟨_, c', hd⟩ | ⟨hl', hd⟩
      · exact absurd (.line hl hparse (.body hno)) hin
      · exact .exit (hiter.trans hd) (by simp)
      · refine .next (hiter.trans hd) (Or.inl hlt) (ih _ ?_ hs hread hl' (fun hloop => h (.line hl hparse hloop))
          (fun hout => hin (.line hl hparse hout)) rfl)
        simp only [HttpConn.movedTo_checkedIdx, HttpConn.movedTo_readIdx]
        omega
    · by_cases hopen : status = .lineOpen
      · exact .exit (e := .flowsOff { c with checkedIdx := i }) (by simp [HttpConn.readIter, hstop.2, hopen]) (by simp)
      · have hbad : status = .lineBad := by
          cases status with
          | lineOk => exact absurd rfl hstop.1
          | lineBad => rfl
          | lineOpen => exact absurd rfl hopen
        subst hbad
        have hiter := HttpConn.readIter_lowered hstop.2 (by simp)
        rcases HttpConn.dispatch_content (c := c.movedTo i) hs c.startLine .lineOpen with
          ⟨hno, _⟩ | ⟨_, c', hd⟩ | ⟨hl', _⟩
        · exact absurd (.bad hl hstop hno) hin
        · exact .exit (hiter.trans hd) (by simp)
        · exact absurd (.bad hl hstop hl') h

theorem HttpConn.progresses_content {c : HttpConn} (hs : c.checkState = .content)
    (hread : c.readIdx ≤ readBufferSize) (h : ¬ (c.movedTo c.checkedIdx).LoopsInBody)
    (hin : ¬ (c.movedTo c.checkedIdx).StraysInBody c.startLine) : c.Progresses .lineOk := by
  have hiter := HttpConn.readIter_content hs
  rcases HttpConn.dispatch_content (c := c.movedTo c.checkedIdx) hs c.startLine .lineOk with
    ⟨hno, _⟩ | ⟨_, c', hd⟩ | ⟨hl, hd⟩
  · exact absurd (.body hno) hin
  · exact .exit (hiter.trans hd) (by simp)
  · exact .next (hiter.trans hd) (Or.inr (Or.inr (Or.inr ⟨rfl, rfl⟩)))
      (HttpConn.progresses_lowered hs hread hl h hin)

/-- Where parse_line has stopped, only a malformed line can hold the body up. -/
theorem HttpConn.StopsAt.loopsInBody {c : HttpConn} {status : LineStatus} (hstop : c.StopsAt c.checkedIdx status)
    (h : c.LoopsInBody) : status = .lineBad ∧ c.LacksBody c.checkedIdx := by
  cases h with
  | bad hl hstop' _ => exact ⟨(hstop.unique hstop').2, hl⟩
  | line _ hparse _ =>
    have hok := congrArg Prod.snd (Option.some.inj (hstop.2.symm.trans hparse))
    exact absurd hok hstop.1

theorem HttpConn.StopsAt.not_line {c c' : HttpConn} {i : Nat} {status : LineStatus} (hstop : c.StopsAt i status)
    (hparse : c.parseLine = some (c', .lineOk)) : False :=
  hstop.1 (congrArg Prod.snd (Option.some.inj (hstop.2.symm.trans hparse)))

/-- Behind an empty line and a stop of parse_line, only this text can lead outside the buffer. -/
theorem HttpConn.StopsAt.straysInBody {c : HttpConn} {status : LineStatus} {text : Nat}
    (hstop : c.StopsAt c.checkedIdx status) (h : c.StraysInBody text) : c.parseContent text = none := by
  cases h with
  | body hno => exact hno
  | bad hl hstop' hno =>
    obtain ⟨rfl, _⟩ := hstop.unique hstop'
    rw [HttpConn.parseContent_lacks (c := c.movedTo c.checkedIdx) hl] at hno
    cases hno
  | line _ hparse _ => exact (hstop.not_line hparse).elim

theorem HttpConn.StopsAt.progresses_body {c : HttpConn} {i : Nat} {status : LineStatus} (hstop : c.StopsAt i status)
    (hread : c.readIdx ≤ readBufferSize) (h : ¬ (status = .lineBad ∧ c.LacksBody i))
    (hin : (c.movedTo i).toContent.parseContent i ≠ none) : (c.movedTo i).toContent.Progresses .lineOk := by
  have hstop' : HttpConn.StopsAt ((c.movedTo i).toContent.movedTo i) i status := hstop.again rfl rfl rfl
  exact HttpConn.progresses_content rfl hread (fun hloop => h (hstop'.loopsInBody hloop))
    (fun hout => hin (hstop'.straysInBody hout))

theorem HttpConn.advances_toContent {c : HttpConn} (hs : c.checkState = .header) (i : Nat) (lineStatus : LineStatus) :
    c.Advances lineStatus (c.movedTo i).toContent lineStatus := by
  refine Or.inr (Or.inr (Or.inl ?_))
  rw [hs]
  exact Nat.lt_add_one 1

theorem HttpConn.progresses_stopped {c : HttpConn} {status : LineStatus} (hs : c.checkState = .header)
    (hread : c.readIdx ≤ readBufferSize) (hplace : c.startLine = c.checkedIdx) (hstop : c.StopsAt c.checkedIdx status)
    (h : ¬ c.HasHeader c.checkedIdx) (hin : ¬ (c.movedTo c.checkedIdx).StraysAt c.checkedIdx)
    (hbyte : status = .lineBad → c.readBuf.bytes[c.checkedIdx]? ≠ some 0) : c.Progresses .lineOk := by
  have hiter := HttpConn.readIter_stops (by simp [hs]) hstop
  rw [hplace] at hiter
  rcases HttpConn.dispatch_header (c := c.movedTo c.checkedIdx) hs c.checkedIdx .lineOk with
    ⟨hno, _⟩ | ⟨_, hd⟩ | ⟨hzero, hlen, hd⟩ | ⟨hheader, _⟩
  · exact absurd (.text hs hno) hin
  · exact .exit (hiter.trans hd) (by simp)
  · exact .next (hiter.trans hd) (HttpConn.advances_toContent hs _ _)
      (hstop.progresses_body hread (fun hend => hbyte hend.1 hzero)
        fun hno => hin (.line hs (HttpConn.parseHeaders_empty hzero hlen) (.body rfl hno)))
  · exact (h (hheader.congr rfl)).elim

theorem HttpConn.progresses_headers {c : HttpConn} (hs : c.checkState = .header) (hread : c.readIdx ≤ readBufferSize)
    (hplace : c.startLine ≤ c.checkedIdx) (h : ¬ c.LoopsInHeaders) (hin : ¬ c.StraysInHeaders) :
    c.Progresses .lineOk := by
  rcases c.parseLine_cases with hnone | ⟨buf, i, hparse, _, _⟩ | ⟨i, status, hstop, hle, hbyte⟩
  · exact absurd hnone (HttpConn.parseLine_inside hread)
  · exact .exit (e := .flowsOff { c with readBuf := buf, checkedIdx := i }) (by simp [HttpConn.readIter, hs, hparse])
      (by simp)
  · have hiter := HttpConn.readIter_stops (by simp [hs]) hstop
    rcases HttpConn.dispatch_header (c := c.movedTo i) hs c.startLine .lineOk with
      ⟨hno, _⟩ | ⟨_, hd⟩ | ⟨hzero, hlen, hd⟩ | ⟨hheader, c', hp, hd, hsame⟩
    · exact absurd ⟨i, status, hstop, .text hs hno⟩ hin
    · exact .exit (hiter.trans hd) (by simp)
    · exact .next (hiter.trans hd) (HttpConn.advances_toContent hs _ _)
        (hstop.progresses_body hread (fun hend => h ⟨i, status, hstop, Or.inr ⟨hzero, hlen, hend⟩⟩)
          fun hno => hin ⟨i, status, hstop, .line hs (HttpConn.parseHeaders_empty hzero hlen) (.body rfl hno)⟩)
    · have hnext : ¬ c.HasHeader i := fun hnext => h ⟨i, status, hstop, Or.inl ⟨hheader.congr rfl, hnext⟩⟩
      have hchecked : c'.checkedIdx = i := hsame.checkedIdx
      have hstart : c'.startLine = i := hsame.startLine
      refine .next (hiter.trans hd) ?_ (HttpConn.progresses_stopped (hsame.checkState.trans hs)
        (hsame.readIdx.trans_le hread) (hstart.trans hchecked.symm) (hsame.stopsAt hstop) (fun hnext' => ?_)
        (fun hout => ?_) (fun hbad => ?_))
      · -- The text at m_start_line is a header line and the text at i is not, so they differ.
        have hne : c.startLine ≠ i := fun he => hnext (he ▸ hheader.congr rfl)
        refine Or.inr (Or.inl ?_)
        omega
      · rw [hchecked] at hnext'
        exact hnext (hnext'.congr hsame.readBuf.symm)
      · rw [HttpConn.movedTo_self (hstart.trans hchecked.symm), ← hstart.trans hchecked.symm] at hout
        exact hin ⟨i, status, hstop, .line hs hp hout⟩
      · rw [hchecked, hsame.readBuf]
        exact hbyte hbad

theorem HttpConn.progresses_requestLine {c : HttpConn} (hs : c.checkState = .requestLine)
    (hread : c.readIdx ≤ readBufferSize) (h : ¬ c.Hangs) (hin : ¬ c.Strays) : c.Progresses .lineOk := by
  unfold HttpConn.Hangs at h
  unfold HttpConn.Strays at hin
  rw [hs] at h hin
  rcases c.parseLine_cases with hnone | ⟨buf, i, hparse, _, _⟩ | ⟨i, status, hstop, hle, hbyte⟩
  · exact absurd hnone (HttpConn.parseLine_inside hread)
  · exact .exit (e := .flowsOff { c with readBuf := buf, checkedIdx := i }) (by simp [HttpConn.readIter, hs, hparse])
      (by simp)
  · have hiter := HttpConn.readIter_stops (by simp [hs]) hstop
    rcases HttpConn.dispatch_line (c := c.movedTo i) hs c.startLine .lineOk with
      ⟨hno, _⟩ | ⟨c', code, hd⟩ | ⟨c', hp, hd, hheader⟩
    · exact absurd ⟨i, status, hstop, Or.inl hno⟩ hin
    · exact .exit (hiter.trans hd) (by simp)
    · obtain ⟨hstart, hchecked, hsame⟩ := (HttpConn.parseRequestLine_goes hp).1
      refine .next (hiter.trans hd) (Or.inr (Or.inr (Or.inl ?_)))
        (HttpConn.progresses_headers hheader (hsame.trans_le hread) (hstart.trans hchecked.symm).le
          (fun hloop => h ⟨i, status, c', hstop, hp, hloop⟩)
          (fun hout => hin ⟨i, status, hstop, Or.inr ⟨c', hp, hout⟩⟩))
      rw [hs, hheader]
      exact Nat.lt_add_one 0

/-- For a text that leads outside the buffer, the loop body is undefined or goes on to one that is. -/
theorem HttpConn.StraysAt.stuck {c : HttpConn} {text : Nat} (h : c.StraysAt text) :
    ∀ {status : LineStatus}, c.startLine = c.checkedIdx → c.StopsAt c.checkedIdx status →
      c.dispatch text .lineOk = .exit .undefined ∨
        ∃ c', c.dispatch text .lineOk = .next c' .lineOk ∧ ¬ c'.Progresses .lineOk := by
  induction h with
  | text hs hno => exact fun _ _ => Or.inl (by simp only [HttpConn.dispatch, hs, hno])
  | body hs hno => exact fun _ _ => Or.inl (by simp only [HttpConn.dispatch, hs, hno])
  | @line c c' text hs hp _ ih =>
    intro status hplace hstop
    have hd : c.dispatch text .lineOk = .next c' .lineOk := by simp [HttpConn.dispatch, hs, hp]
    obtain ⟨hstart, hchecked, hread⟩ := HttpConn.parseHeaders_place hp
    have hbuf : c'.readBuf = c.readBuf := HttpConn.parseHeaders_readBuf hp
    have hplace' : c'.startLine = c'.checkedIdx := (hstart.trans hplace).trans hchecked.symm
    have hstop' : c'.StopsAt c'.checkedIdx status := by
      rw [hchecked]
      exact hstop.again hbuf hread hchecked
    have hiter : c'.readIter .lineOk = c'.dispatch c'.startLine .lineOk := by
      by_cases hc : c'.checkState = .content
      · rw [HttpConn.readIter_content hc, HttpConn.movedTo_self hplace']
      · rw [HttpConn.readIter_stops hc hstop', HttpConn.movedTo_self hplace']
    refine Or.inr ⟨c', hd, fun hprog => ?_⟩
    rcases ih hplace' hstop' with hundef | ⟨c2, hnext, hnot⟩
    · exact hprog.not_undefined (hiter.trans hundef)
    · exact hnot (hprog.of_next (hiter.trans hnext))

theorem HttpConn.StraysInHeaders.stuck {c : HttpConn} (h : c.StraysInHeaders) (hs : c.checkState = .header) :
    ¬ c.Progresses .lineOk := by
  intro hprog
  obtain ⟨i, status, hstop, hout⟩ := h
  have hiter := HttpConn.readIter_stops (by simp [hs]) hstop
  rcases hout.stuck rfl (hstop.again rfl rfl rfl) with hundef | ⟨c', hnext, hnot⟩
  · exact hprog.not_undefined (hiter.trans hundef)
  · exact hnot (hprog.of_next (hiter.trans hnext))

theorem HttpConn.StraysInBody.stuck {c : HttpConn} {text : Nat} (h : c.StraysInBody text)
    (hs : c.checkState = .content) (lineStatus : LineStatus) :
    c.dispatch text lineStatus = .exit .undefined ∨
      c.dispatch text lineStatus = .next c .lineOpen ∧ ¬ c.Progresses .lineOpen := by
  induction h generalizing lineStatus with
  | body hno => exact Or.inl (by simp only [HttpConn.dispatch, hs, hno])
  | @bad c text i hl hstop hno =>
    refine Or.inr ⟨HttpConn.dispatch_lacks hs hl text lineStatus, fun hprog => hprog.not_undefined ?_⟩
    rw [HttpConn.readIter_lowered hstop.2 (by simp)]
    have hs' : (c.movedTo i).checkState = .content := hs
    exact (show (c.movedTo i).dispatch c.startLine .lineOpen = .exit .undefined by
      simp only [HttpConn.dispatch, hs', hno])
  | @line c c' text hl hparse _ ih =>
    have hs' : (c'.movedTo c'.checkedIdx).checkState = .content := by
      obtain ⟨buf, i, rfl⟩ := HttpConn.parseLine_frame hparse
      exact hs
    have hiter := HttpConn.readIter_lowered hparse (by simp)
    refine Or.inr ⟨HttpConn.dispatch_lacks hs hl text lineStatus, fun hprog => ?_⟩
    rcases ih hs' .lineOpen with hundef | ⟨hnext, hnot⟩
    · exact hprog.not_undefined (hiter.trans hundef)
    · exact hnot (hprog.of_next (hiter.trans hnext))

theorem HttpConn.Strays.stuck {c : HttpConn} (h : c.Strays) : ¬ c.Progresses .lineOk := by
  unfold HttpConn.Strays at h
  intro hprog
  cases hs : c.checkState with
  | requestLine =>
    rw [hs] at h
    obtain ⟨i, status, hstop, hout⟩ := h
    have hiter := HttpConn.readIter_stops (by simp [hs]) hstop
    rcases hout with hno | ⟨c', hparse, hout⟩
    · refine hprog.not_undefined (hiter.trans ?_)
      rw [HttpConn.dispatch_requestLine (c := c.movedTo i) hs, hno]
    · obtain ⟨hd, hheader⟩ := HttpConn.dispatch_accepted (c := c.movedTo i) hs hparse .lineOk
      exact hout.stuck hheader (hprog.of_next (hiter.trans hd))
  | header =>
    rw [hs] at h
    exact HttpConn.StraysInHeaders.stuck h hs hprog
  | content =>
    rw [hs] at h
    have hiter := HttpConn.readIter_content hs
    rcases HttpConn.StraysInBody.stuck h hs .lineOk with hundef | ⟨hnext, hnot⟩
    · exact hprog.not_undefined (hiter.trans hundef)
    · exact hnot (hprog.of_next (hiter.trans hnext))

/-- Where m_start_line is not past m_checked_idx, the loop of process_read gets by without standing
still exactly when it meets no text that it cannot pass and stays inside the buffer. -/
theorem HttpConn.progresses_iff {c : HttpConn} (hplace : c.startLine ≤ c.checkedIdx)
    (hread : c.readIdx ≤ readBufferSize) : c.Progresses .lineOk ↔ ¬ c.Hangs ∧ ¬ c.Strays := by
  constructor
  · refine fun hp => ⟨fun hh => ?_, fun hout => hout.stuck hp⟩
    obtain ⟨fuel, e, hrun, _⟩ := hp.ends
    cases (hh.never fuel).symm.trans hrun
  · rintro ⟨h, hin⟩
    cases hs : c.checkState with
    | requestLine => exact HttpConn.progresses_requestLine hs hread h hin
    | header =>
      unfold HttpConn.Hangs at h
      unfold HttpConn.Strays at hin
      rw [hs] at h hin
      exact HttpConn.progresses_headers hs hread hplace h hin
    | content =>
      unfold HttpConn.Hangs at h
      unfold HttpConn.Strays at hin
      rw [hs] at h hin
      exact HttpConn.progresses_content hs hread h hin

end CppInAction
