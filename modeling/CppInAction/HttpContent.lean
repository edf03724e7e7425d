import CppInAction.HttpHeaders

namespace CppInAction

/-- The object after init, with these bytes in the buffer and the parser at checkedIdx. -/
def HttpConn.holds (c : HttpConn) (buf : Buffer readBufferSize) (checkedIdx : Nat) (readIdx : Int) : HttpConn :=
  { c.initRequest with readBuf := buf, checkedIdx := checkedIdx, readIdx := readIdx }

theorem HttpConn.holds_readBuf (c : HttpConn) (buf : Buffer readBufferSize) (checkedIdx : Nat) (readIdx : Int) :
    (c.holds buf checkedIdx readIdx).readBuf = buf := rfl

/-- parse_content on the body at m_checked_idx waits for more, or has the whole body and ends
it inside the buffer and behind everything before the body. -/
def HttpConn.EndsBody (c : HttpConn) : Prop :=
  c.parseContent c.checkedIdx = some (c, .noRequest) ∨
  ∃ (c' : HttpConn) (i : Nat), c.parseContent c.checkedIdx = some (c', .getRequest) ∧
    toLong (c.contentLength + c.checkedIdx) = c.contentLength + c.checkedIdx ∧
    0 ≤ c.contentLength ∧ c.checkedIdx + c.contentLength ≤ c.readIdx ∧
    (i : Int) = c.checkedIdx + c.contentLength ∧ c.checkedIdx ≤ i ∧ i ≤ readBufferSize - 1 ∧
    c'.readBuf.bytes = c.readBuf.bytes.set i 0 ∧
    c'.readBuf.bytes.take c.checkedIdx = c.readBuf.bytes.take c.checkedIdx

/-- The number of the last Content-length header, or 0 without one. -/
def announced {buf : Buffer readBufferSize} (lines : List (HeaderLine buf)) : Int :=
  (valuesOf (bytes "Content-length:") (lines.map HeaderLine.line)).getLast?.elim 0 atol

theorem atol_range (s : List UInt8) : -(2 ^ 63) ≤ atol s ∧ atol s ≤ 2 ^ 63 - 1 := by
  unfold atol
  simp only
  omega

theorem announced_range {buf : Buffer readBufferSize} (lines : List (HeaderLine buf)) :
    -(2 ^ 63) ≤ announced lines ∧ announced lines ≤ 2 ^ 63 - 1 := by
  unfold announced
  cases (valuesOf (bytes "Content-length:") (lines.map HeaderLine.line)).getLast? with
  | none => decide
  | some value => exact atol_range value

theorem toLong_of_range {x : Int} (h0 : -(2 ^ 63) ≤ x) (h : x < 2 ^ 63) : toLong x = x := by
  unfold toLong
  rw [Int.bmod_eq_of_le (by omega) (by omega)]

theorem toLong_of_overflow {x : Int} (h0 : 2 ^ 63 ≤ x) (h : x < 2 ^ 63 + 2 ^ 62) : toLong x < 0 := by
  unfold toLong
  rw [Int.bmod_def]
  split <;> omega

section Content

variable {c : HttpConn}

theorem HttpConn.parseContent_waits_iff :
    c.parseContent c.checkedIdx = some (c, .noRequest) ↔ c.readIdx < toLong (c.contentLength + c.checkedIdx) := by
  unfold HttpConn.parseContent
  split
  next hle =>
    simp only [Option.bind_eq_bind]
    split
    next => simp [hle]
    next => cases c.readBuf.put _ 0 <;> simp [hle]
  next hlt => simp [Int.not_le.mp hlt]

theorem HttpConn.parseContent_ends {i : Nat} (h : toLong (c.contentLength + c.checkedIdx) ≤ c.readIdx)
    (hi : (i : Int) = c.checkedIdx + c.contentLength) :
    c.parseContent c.checkedIdx =
      (c.readBuf.put i 0).map fun buf => ({ c with readBuf := buf, string := .into c.checkedIdx }, .getRequest) := by
  unfold HttpConn.parseContent
  have hindex : ¬ (c.checkedIdx : Int) + c.contentLength < 0 := by omega
  have hnat : ((c.checkedIdx : Int) + c.contentLength).toNat = i := by omega
  simp only [if_pos h, hindex, if_false, hnat]
  cases c.readBuf.put i 0 <;> rfl

theorem HttpConn.endsBody_iff (hle : (c.checkedIdx : Int) ≤ c.readIdx) (hread : c.readIdx ≤ readBufferSize)
    (hrange : -(2 ^ 63) ≤ c.contentLength ∧ c.contentLength ≤ 2 ^ 63 - 1) :
    c.EndsBody ↔ 0 ≤ c.contentLength ∧ c.contentLength + c.checkedIdx < 2 ^ 63 ∧
      (c.contentLength + c.checkedIdx = readBufferSize → c.readIdx < readBufferSize) := by
  have hsize : (readBufferSize : Int) = 2048 := rfl
  have h63 : (2 : Int) ^ 63 = 9223372036854775808 := by decide
  constructor
  · rintro (hwait | ⟨c', i, _, _, h0, hall, hi, _, hlast, _⟩)
    · have hlt := HttpConn.parseContent_waits_iff.mp hwait
      have hfits : c.contentLength + c.checkedIdx < 2 ^ 63 := by
        by_contra hover
        have := toLong_of_overflow (x := c.contentLength + c.checkedIdx) (by omega) (by omega)
        omega
      rw [toLong_of_range (by omega) hfits] at hlt
      exact ⟨by omega, hfits, by omega⟩
    · have hlast' : i < 2048 := Nat.lt_of_le_pred (by decide) hlast
      exact ⟨h0, by omega, by omega⟩
  · rintro ⟨h0, hfits, hfull⟩
    have hlong := toLong_of_range (x := c.contentLength + c.checkedIdx) (by omega) hfits
    by_cases hall : c.contentLength + c.checkedIdx ≤ c.readIdx
    · right
      obtain ⟨i, hi⟩ := Int.eq_ofNat_of_zero_le (show 0 ≤ c.checkedIdx + c.contentLength by omega)
      have hput : i < readBufferSize := by
        rw [show readBufferSize = 2048 from rfl]
        omega
      have hparse := HttpConn.parseContent_ends (i := i) (hlong.trans_le hall) hi.symm
      rw [Buffer.put, if_pos hput] at hparse
      refine ⟨_, i, hparse, hlong, h0, by omega, hi.symm, by omega, Nat.le_pred_of_lt hput, rfl, ?_⟩
      exact List.take_set_of_le (by omega)
    · left
      rw [HttpConn.parseContent_waits_iff, hlong]
      omega

end Content

theorem HttpConn.parseAll_members {c c' : HttpConn} {buf : Buffer readBufferSize} {lines : List (HeaderLine buf)}
    (hbuf : c.readBuf = buf) (hlength : c.contentLength = 0)
    (h : c.parseAll (lines.map HeaderLine.text) = some c') :
    c'.contentLength = announced lines ∧ c'.checkedIdx = c.checkedIdx ∧ c'.readIdx = c.readIdx := by
  rw [HttpConn.parseAll_lines hbuf] at h
  split at h
  next =>
    rw [← Option.some.inj h]
    refine ⟨HttpConn.contentLength_foldl lines hlength, ?_, ?_⟩
    · rw [HttpConn.foldl_withLine]
    · rw [HttpConn.foldl_withLine]
  next => cases h

/-- Whatever the headers, the body at m_checked_idx is ended safely if and only if its length is
not negative, its end is no overflow, and it does not fill the buffer to the last byte. -/
theorem parseContent_endsBody_iff (c c' : HttpConn) (buf : Buffer readBufferSize) (lines : List (HeaderLine buf))
    (checkedIdx : Nat) (readIdx : Int) (hle : checkedIdx ≤ readIdx) (hread : readIdx ≤ readBufferSize)
    (hparse : (c.holds buf checkedIdx readIdx).parseAll (lines.map HeaderLine.text) = some c') :
    c'.EndsBody ↔ 0 ≤ announced lines ∧ announced lines + checkedIdx < 2 ^ 63 ∧
      (announced lines + checkedIdx = readBufferSize → readIdx < readBufferSize) := by
  obtain ⟨hnumber, hchecked, hidx⟩ := HttpConn.parseAll_members (HttpConn.holds_readBuf ..) rfl hparse
  have hiff := HttpConn.endsBody_iff (c := c') (by rw [hchecked, hidx]; exact hle) (by rw [hidx]; exact hread)
    (by rw [hnumber]; exact announced_range lines)
  rw [hnumber, hchecked, hidx] at hiff
  exact hiff

theorem exists_parsed {text : List UInt8} (hfree : 0 ∉ text) (hfits : text.length < readBufferSize) (hne : text ≠ [])
    (hword : strcaseEq text (bytes "Connection") = false) (checkedIdx : Nat) (readIdx : Int) :
    ∃ (buf : Buffer readBufferSize) (l : HeaderLine buf) (c' : HttpConn), l.line = text ∧
      (HttpConn.zero.holds buf checkedIdx readIdx).parseAll ([l].map HeaderLine.text) = some c' := by
  obtain ⟨buf, hcstr⟩ := exists_line hfree hfits
  let l : HeaderLine buf := ⟨0, text, hcstr, hne⟩
  have hread : [l].all HeaderLine.readable = true := by
    have hbare : l.bare = false := hword
    simp [HeaderLine.readable, hbare]
  have hparse := HttpConn.parseAll_lines (HttpConn.zero.holds_readBuf buf checkedIdx readIdx) [l]
  exact ⟨buf, l, _, rfl, hparse.trans (if_pos hread)⟩

theorem announced_single {buf : Buffer readBufferSize} {l : HeaderLine buf} {text : List UInt8} (h : l.line = text) :
    announced [l] = (valueOf (bytes "Content-length:") text).elim 0 atol := by
  unfold announced valuesOf
  rw [List.map_singleton, h]
  cases hvalue : valueOf (bytes "Content-length:") text with
  | none => rw [List.filterMap_cons_none hvalue]; rfl
  | some value => rw [List.filterMap_cons_some hvalue]; rfl

/-- One line that announces five bytes, which have arrived. -/
theorem parseContent_endsBody_iff_five : ∃ (buf : Buffer readBufferSize) (lines : List (HeaderLine buf)) (c' : HttpConn),
    announced lines = 5 ∧ (HttpConn.zero.holds buf 21 26).parseAll (lines.map HeaderLine.text) = some c' ∧
      c'.EndsBody := by
  have hfree : 0 ∉ bytes "Content-length: 5" := by decide
  obtain ⟨buf, l, c', hline, hparse⟩ := exists_parsed hfree (by decide) (by decide) (by decide) 21 26
  have hfive : announced [l] = 5 := announced_single hline
  refine ⟨buf, [l], c', hfive, hparse, ?_⟩
  apply (parseContent_endsBody_iff _ c' buf [l] 21 26 (by decide) (by decide) hparse).mpr
  rw [hfive]
  decide

/-- A negative length ends the body in front of it. -/
theorem parseContent_not_always_endsBody :
    ¬ ∀ (c c' : HttpConn) (buf : Buffer readBufferSize) (lines : List (HeaderLine buf)) (checkedIdx : Nat) (readIdx : Int),
      checkedIdx ≤ readIdx → readIdx ≤ readBufferSize →
      (c.holds buf checkedIdx readIdx).parseAll (lines.map HeaderLine.text) = some c' → c'.EndsBody := by
  intro h
  have hfree : 0 ∉ bytes "Content-length: -5" := by decide
  obtain ⟨buf, l, c', hline, hparse⟩ := exists_parsed hfree (by decide) (by decide) (by decide) 22 22
  have hnegative : announced [l] = -5 := announced_single hline
  obtain ⟨hnumber, hchecked, hidx⟩ := HttpConn.parseAll_members (HttpConn.holds_readBuf ..) rfl hparse
  have hends := h _ c' buf [l] 22 22 (by decide) (by decide) hparse
  have hle : (c'.checkedIdx : Int) ≤ c'.readIdx := by
    rw [hchecked, hidx]
    exact Int.le_refl 22
  have hread : c'.readIdx ≤ readBufferSize := by
    rw [hidx]
    exact Int.le.intro 2026 rfl
  have hsafe := (HttpConn.endsBody_iff hle hread (by rw [hnumber]; exact announced_range [l])).mp hends
  rw [hnumber, hnegative] at hsafe
  exact absurd hsafe.1 (by decide)

end CppInAction
