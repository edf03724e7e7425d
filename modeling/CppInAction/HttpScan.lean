import CppInAction.HttpLine

namespace CppInAction

/-- The first CR or LF of the text stands behind pre and is a CR followed by an LF. -/
def CompleteAt (p pre : List UInt8) : Prop := 13 ∉ pre ∧ 10 ∉ pre ∧ ∃ post, p = pre ++ 13 :: 10 :: post

/-- It is a lone LF, or a CR followed by another byte. -/
def MalformedAt (p pre : List UInt8) : Prop :=
  13 ∉ pre ∧ 10 ∉ pre ∧ ∃ post, p = pre ++ 10 :: post ∨ ∃ b, b ≠ 10 ∧ p = pre ++ 13 :: b :: post

variable {p pre rest : List UInt8}

theorem lineBreak_append (h13 : 13 ∉ pre) (h10 : 10 ∉ pre) (rest : List UInt8) :
    lineBreak (pre ++ rest) = ((lineBreak rest).1, pre.length + (lineBreak rest).2) := by
  induction pre with
  | nil => simp
  | cons b pre ih =>
    have hb13 : b ≠ 13 := fun hb => h13 (hb ▸ List.mem_cons_self)
    have hb10 : b ≠ 10 := fun hb => h10 (hb ▸ List.mem_cons_self)
    have htail := ih (fun hm => h13 (List.mem_cons_of_mem b hm)) (fun hm => h10 (List.mem_cons_of_mem b hm))
    simp only [List.cons_append, lineBreak, hb13, hb10, if_false, htail, List.length_cons]
    congr 1
    omega

theorem lineBreak_split (p : List UInt8) :
    ∃ pre rest, p = pre ++ rest ∧ 13 ∉ pre ∧ 10 ∉ pre ∧ lineBreak p = ((lineBreak rest).1, pre.length) ∧
      (rest = [] ∨ ∃ post, rest = 13 :: post ∨ rest = 10 :: post) := by
  induction p with
  | nil => exact ⟨[], [], rfl, by simp, by simp, rfl, Or.inl rfl⟩
  | cons b p ih =>
    by_cases h13 : b = 13
    · subst h13
      refine ⟨[], 13 :: p, rfl, by simp, by simp, ?_, Or.inr ⟨p, Or.inl rfl⟩⟩
      cases p with
      | nil => rfl
      | cons next p => by_cases hn : next = 10 <;> simp [lineBreak, hn]
    · by_cases h10 : b = 10
      · subst h10
        exact ⟨[], 10 :: p, rfl, by simp, by simp, rfl, Or.inr ⟨p, Or.inr rfl⟩⟩
      · obtain ⟨pre, rest, rfl, hpre13, hpre10, hbreak, hrest⟩ := ih
        have hne13 : 13 ∉ b :: pre := by simp [Ne.symm h13, hpre13]
        have hne10 : 10 ∉ b :: pre := by simp [Ne.symm h10, hpre10]
        refine ⟨b :: pre, rest, rfl, hne13, hne10, ?_, hrest⟩
        simp only [lineBreak, h13, h10, if_false, hbreak, List.length_cons]

theorem CompleteAt.lineBreak_eq (h : CompleteAt p pre) : lineBreak p = (.lineOk, pre.length) := by
  obtain ⟨h13, h10, post, rfl⟩ := h
  rw [lineBreak_append h13 h10]
  rfl

theorem MalformedAt.lineBreak_eq (h : MalformedAt p pre) : lineBreak p = (.lineBad, pre.length) := by
  obtain ⟨h13, h10, post, rfl | ⟨b, hb, rfl⟩⟩ := h
  · rw [lineBreak_append h13 h10]
    rfl
  · rw [lineBreak_append h13 h10]
    simp [lineBreak, hb]

theorem lineBreak_ok_iff (p : List UInt8) : (lineBreak p).1 = .lineOk ↔ ∃ pre, CompleteAt p pre := by
  constructor
  · intro hok
    obtain ⟨pre, rest, rfl, h13, h10, hbreak, hrest⟩ := lineBreak_split p
    rw [hbreak] at hok
    refine ⟨pre, h13, h10, ?_⟩
    rcases hrest with rfl | ⟨post, rfl | rfl⟩
    · cases hok
    · cases post with
      | nil => cases hok
      | cons b post =>
        by_cases hb : b = 10
        · exact ⟨post, by rw [hb]⟩
        · simp [lineBreak, hb] at hok
    · cases hok
  · rintro ⟨pre, hpre⟩
    rw [hpre.lineBreak_eq]

theorem lineBreak_bad_iff (p : List UInt8) : (lineBreak p).1 = .lineBad ↔ ∃ pre, MalformedAt p pre := by
  constructor
  · intro hbad
    obtain ⟨pre, rest, rfl, h13, h10, hbreak, hrest⟩ := lineBreak_split p
    rw [hbreak] at hbad
    refine ⟨pre, h13, h10, ?_⟩
    rcases hrest with rfl | ⟨post, rfl | rfl⟩
    · cases hbad
    · cases post with
      | nil => cases hbad
      | cons b post =>
        by_cases hb : b = 10
        · simp [lineBreak, hb] at hbad
        · exact ⟨post, Or.inr ⟨b, hb, rfl⟩⟩
    · exact ⟨post, Or.inl rfl⟩
  · rintro ⟨pre, hpre⟩
    rw [hpre.lineBreak_eq]

/-- A scan that runs out of bytes goes on from where it stopped. -/
theorem lineBreak_resume (h : (lineBreak p).1 = .lineOpen) (more : List UInt8) :
    lineBreak (p ++ more) =
      ((lineBreak ((p ++ more).drop (lineBreak p).2)).1,
        (lineBreak p).2 + (lineBreak ((p ++ more).drop (lineBreak p).2)).2) := by
  obtain ⟨pre, rest, rfl, h13, h10, hbreak, _⟩ := lineBreak_split p
  rw [hbreak, List.append_assoc, List.drop_left]
  exact lineBreak_append h13 h10 (rest ++ more)

/-- The received bytes that parse_line has not passed yet. -/
def HttpConn.unchecked (c : HttpConn) : List UInt8 := (c.readBuf.bytes.take c.readIdx.toNat).drop c.checkedIdx

/-- No CR stands right before m_checked_idx. -/
def HttpConn.ClearBefore (c : HttpConn) : Prop := 0 < c.checkedIdx → c.readBuf.bytes[c.checkedIdx - 1]? ≠ some 13

/-- What parse_line does, by the first line break of the unchecked bytes. -/
theorem HttpConn.parseLine_lineBreak {c : HttpConn} (hread : c.readIdx ≤ readBufferSize) (hclear : c.ClearBefore) :
    ∃ buf i, c.parseLine = some ({ c with readBuf := buf, checkedIdx := i }, (lineBreak c.unchecked).1) ∧
      ((lineBreak c.unchecked).1 = .lineOk → i = c.checkedIdx + (lineBreak c.unchecked).2 + 2 ∧
        buf.bytes = (c.readBuf.bytes.set (c.checkedIdx + (lineBreak c.unchecked).2) 0).set
          (c.checkedIdx + (lineBreak c.unchecked).2 + 1) 0) ∧
      ((lineBreak c.unchecked).1 ≠ .lineOk → i = c.checkedIdx + (lineBreak c.unchecked).2 ∧ buf = c.readBuf) := by
  have hlen := c.readBuf.length_eq
  by_cases hle : (c.checkedIdx : Int) ≤ c.readIdx
  · have hsplit : c.readBuf.bytes.drop c.checkedIdx = c.unchecked ++ c.readBuf.bytes.drop c.readIdx.toNat := by
      unfold HttpConn.unchecked
      nth_rewrite 1 [← List.take_append_drop c.readIdx.toNat c.readBuf.bytes]
      refine List.drop_append_of_le_length ?_
      rw [List.length_take]
      omega
    have hcount : c.unchecked.length = (c.readIdx - c.checkedIdx).toNat := by
      unfold HttpConn.unchecked
      rw [List.length_drop, List.length_take]
      omega
    obtain ⟨buf, i, hscan, hok, hno⟩ := scanLine_lineBreak hsplit fun b hi hb heq =>
      hclear (by omega) (heq ▸ hb)
    rw [hcount, show (c.checkedIdx : Int) + ((c.readIdx - c.checkedIdx).toNat : Nat) = c.readIdx by omega] at hscan
    refine ⟨buf, i, ?_, hok, hno⟩
    simp only [HttpConn.parseLine, hscan, Option.bind_eq_bind, Option.bind_some]
  · have hnil : c.unchecked = [] := by
      unfold HttpConn.unchecked
      refine List.drop_eq_nil_of_le ?_
      rw [List.length_take]
      omega
    have hfuel : (c.readIdx - c.checkedIdx).toNat = 0 := by omega
    rw [hnil]
    refine ⟨c.readBuf, c.checkedIdx, ?_, by simp [lineBreak], fun _ => ⟨rfl, rfl⟩⟩
    simp only [HttpConn.parseLine, hfuel, scanLine, Option.bind_eq_bind, Option.bind_some]
    rfl

theorem HttpConn.unchecked_getElem {c : HttpConn} {j : Nat} (hj : j < c.unchecked.length) :
    c.readBuf.bytes[c.checkedIdx + j]? = c.unchecked[j]? := by
  unfold HttpConn.unchecked at hj ⊢
  rw [List.length_drop, List.length_take] at hj
  rw [List.getElem?_drop, List.getElem?_take, if_pos (by omega)]

theorem HttpConn.parseLine_clear {c c' : HttpConn} {status : LineStatus} (hread : c.readIdx ≤ readBufferSize)
    (hclear : c.ClearBefore) (h : c.parseLine = some (c', status)) : c'.ClearBefore := by
  obtain ⟨buf, i, hparse, hok, hno⟩ := HttpConn.parseLine_lineBreak hread hclear
  rw [hparse] at h
  cases Option.some.inj h
  intro hpos
  change buf.bytes[i - 1]? ≠ some 13
  by_cases hst : (lineBreak c.unchecked).1 = .lineOk
  · obtain ⟨rfl, hbytes⟩ := hok hst
    rw [hbytes, Nat.add_succ_sub_one, List.getElem?_set]
    split
    next => split <;> simp
    next hne => exact absurd rfl hne
  · obtain ⟨rfl, rfl⟩ := hno hst
    obtain ⟨pre, rest, hsplit, h13, _, hbreak, _⟩ := lineBreak_split c.unchecked
    rw [hbreak]
    by_cases hpre : pre = []
    · subst hpre
      exact hclear (by simpa [hbreak] using hpos)
    · have hlt : pre.length - 1 < pre.length := Nat.sub_lt (List.length_pos_iff.mpr hpre) Nat.one_pos
      have hlen : pre.length - 1 < c.unchecked.length := by
        rw [hsplit, List.length_append]
        omega
      change c.readBuf.bytes[c.checkedIdx + pre.length - 1]? ≠ some 13
      rw [show c.checkedIdx + pre.length - 1 = c.checkedIdx + (pre.length - 1) by omega,
        HttpConn.unchecked_getElem hlen, hsplit, List.getElem?_append_left hlt]
      exact fun hcr => h13 (List.mem_of_getElem? hcr)

theorem Buffer.eq_of_bytes {n : Nat} {b b' : Buffer n} (h : b.bytes = b'.bytes) : b = b' := by
  cases b
  cases b'
  simp only at h
  subst h
  rfl

/-- After LINE_OPEN, a call with more bytes gives what one call with all of them gives. -/
theorem HttpConn.parseLine_resume {c c' : HttpConn} {r : Int} (hclear : c.ClearBefore) (hle : c.readIdx ≤ r)
    (hr : r ≤ readBufferSize) (h : c.parseLine = some (c', .lineOpen)) :
    HttpConn.parseLine { c' with readIdx := r } = HttpConn.parseLine { c with readIdx := r } := by
  have hclear' := HttpConn.parseLine_clear (Int.le_trans hle hr) hclear h
  obtain ⟨buf, i, hparse, _, hno⟩ := HttpConn.parseLine_lineBreak (Int.le_trans hle hr) hclear
  rw [hparse] at h
  obtain ⟨rfl, hst⟩ := Prod.mk.inj (Option.some.inj h)
  obtain ⟨rfl, rfl⟩ := hno (by simp [hst])
  by_cases hin : (c.checkedIdx : Int) ≤ c.readIdx
  · obtain ⟨more, hmore⟩ : ∃ more, HttpConn.unchecked { c with readIdx := r } = c.unchecked ++ more := by
      refine ⟨(c.readBuf.bytes.take r.toNat).drop c.readIdx.toNat, ?_⟩
      have hlen := c.readBuf.length_eq
      have htake : c.readBuf.bytes.take c.readIdx.toNat =
          (c.readBuf.bytes.take r.toNat).take c.readIdx.toNat := by
        rw [List.take_take, min_eq_left (by omega)]
      unfold HttpConn.unchecked
      rw [htake]
      nth_rewrite 1 [← List.take_append_drop c.readIdx.toNat (c.readBuf.bytes.take r.toNat)]
      refine List.drop_append_of_le_length ?_
      simp only [List.length_take]
      omega
    have hrest : HttpConn.unchecked { c with checkedIdx := c.checkedIdx + (lineBreak c.unchecked).2, readIdx := r } =
        (c.unchecked ++ more).drop (lineBreak c.unchecked).2 := by
      rw [← hmore]
      exact List.drop_drop.symm
    obtain ⟨buf1, i1, hparse1, hok1, hno1⟩ :=
      HttpConn.parseLine_lineBreak (c := { c with readIdx := r }) hr hclear
    obtain ⟨buf2, i2, hparse2, hok2, hno2⟩ := HttpConn.parseLine_lineBreak
      (c := { c with checkedIdx := c.checkedIdx + (lineBreak c.unchecked).2, readIdx := r }) hr hclear'
    rw [hmore, lineBreak_resume hst more] at hparse1 hok1 hno1
    rw [hrest] at hparse2 hok2 hno2
    rw [hparse1, hparse2]
    by_cases hend : (lineBreak ((c.unchecked ++ more).drop (lineBreak c.unchecked).2)).1 = .lineOk
    · obtain ⟨rfl, hbytes1⟩ := hok1 hend
      obtain ⟨rfl, hbytes2⟩ := hok2 hend
      have hbuf : buf2 = buf1 := Buffer.eq_of_bytes (by
        rw [hbytes1, hbytes2]
        simp only [Nat.add_assoc])
      rw [hbuf]
      simp only [Nat.add_assoc]
    · obtain ⟨rfl, rfl⟩ := hno1 hend
      obtain ⟨rfl, rfl⟩ := hno2 hend
      simp only [Nat.add_assoc]
  · have hnil : c.unchecked = [] := by
      have hlen := c.readBuf.length_eq
      unfold HttpConn.unchecked
      refine List.drop_eq_nil_of_le ?_
      rw [List.length_take]
      omega
    rw [hnil]
    rfl

/-- parse_line finds the first line break of the unchecked bytes, zeroes a complete one, and
can be resumed at any cut. -/
theorem parseLine_scans (c : HttpConn) (hread : c.readIdx ≤ readBufferSize) (hclear : c.ClearBefore) :
    ∃ c' status, c.parseLine = some (c', status) ∧
      (status = .lineOk ↔ ∃ pre, CompleteAt c.unchecked pre) ∧
      (status = .lineBad ↔ ∃ pre, MalformedAt c.unchecked pre) ∧
      (status = .lineOpen ↔ (¬ ∃ pre, CompleteAt c.unchecked pre) ∧ ¬ ∃ pre, MalformedAt c.unchecked pre) ∧
      (∀ pre, CompleteAt c.unchecked pre → c'.checkedIdx = c.checkedIdx + pre.length + 2 ∧
        c'.readBuf.bytes =
          (c.readBuf.bytes.set (c.checkedIdx + pre.length) 0).set (c.checkedIdx + pre.length + 1) 0) ∧
      (status ≠ .lineOk → c'.readBuf = c.readBuf) ∧ c'.ClearBefore ∧
      (status = .lineOpen → ∀ r, c.readIdx ≤ r → r ≤ readBufferSize →
        HttpConn.parseLine { c' with readIdx := r } = HttpConn.parseLine { c with readIdx := r }) := by
  obtain ⟨buf, i, hparse, hok, hno⟩ := HttpConn.parseLine_lineBreak hread hclear
  refine ⟨_, _, hparse, lineBreak_ok_iff _, lineBreak_bad_iff _, ?_, fun pre hpre => ?_, fun hst => (hno hst).2,
    HttpConn.parseLine_clear hread hclear hparse, fun hst r hle hr => ?_⟩
  · rw [← lineBreak_ok_iff, ← lineBreak_bad_iff]
    cases (lineBreak c.unchecked).1 <;> simp
  · obtain ⟨hi, hbytes⟩ := hok (by rw [hpre.lineBreak_eq])
    rw [hpre.lineBreak_eq] at hi hbytes
    exact ⟨hi, hbytes⟩
  · exact HttpConn.parseLine_resume hclear hle hr (hst ▸ hparse)

/-- A, CRLF, B and CRLF. -/
def twoLines : Buffer readBufferSize where
  bytes := bytes "A\r\nB\r\n" ++ List.replicate 2042 0
  length_eq := by rw [List.length_append, List.length_replicate]; rfl

/-- Five bytes of it have arrived, so that a CR is the last one; the LF comes with the next read. -/
theorem parseLine_scans_crlf :
    (∃ c', HttpConn.parseLine { HttpConn.zero with readBuf := twoLines, readIdx := 5 } = some (c', .lineOk) ∧
      c'.checkedIdx = 3 ∧ c'.readBuf.bytes = (twoLines.bytes.set 1 0).set 2 0) ∧
    ∃ c', HttpConn.parseLine { HttpConn.zero with readBuf := twoLines, checkedIdx := 3, readIdx := 5 } =
        some (c', .lineOpen) ∧
      HttpConn.parseLine { c' with readIdx := 6 } =
        HttpConn.parseLine { HttpConn.zero with readBuf := twoLines, checkedIdx := 3, readIdx := 6 } := by
  constructor
  · have hline : CompleteAt (HttpConn.unchecked { HttpConn.zero with readBuf := twoLines, readIdx := 5 }) [65] :=
      ⟨by decide, by decide, [66, 13], rfl⟩
    obtain ⟨c', status, hparse, hok, _, _, hzero, _⟩ :=
      parseLine_scans { HttpConn.zero with readBuf := twoLines, readIdx := 5 } (by decide)
        (fun hpos => absurd hpos (by decide))
    cases hok.mpr ⟨_, hline⟩
    exact ⟨c', hparse, hzero _ hline⟩
  · have hrest : HttpConn.unchecked { HttpConn.zero with readBuf := twoLines, checkedIdx := 3, readIdx := 5 } = [66, 13] :=
      rfl
    obtain ⟨c', status, hparse, _, _, hopen, _, _, _, hresume⟩ :=
      parseLine_scans { HttpConn.zero with readBuf := twoLines, checkedIdx := 3, readIdx := 5 } (by decide)
        (fun _ => by decide)
    have hstatus : status = .lineOpen := by
      rw [hopen, ← lineBreak_ok_iff, ← lineBreak_bad_iff, hrest]
      decide
    subst hstatus
    exact ⟨c', hparse, hresume rfl 6 (by decide) (by decide)⟩

end CppInAction
