import CppInAction.HttpLine

namespace CppInAction

theorem strncaseEq_length {s t : List UInt8} (h : strncaseEq s t t.length = true) : t.length ≤ s.length := by
  have hlen := congrArg List.length (of_decide_eq_true h)
  simp only [List.length_map, List.length_take] at hlen
  omega

/-- The value of a header line with this name and colon, without the blanks before it. -/
def valueOf (name line : List UInt8) : Option (List UInt8) :=
  if strncaseEq line name name.length then some ((line.drop name.length).dropWhile isBlank) else none

/-- The values of the headers with this name and colon, in order. -/
def valuesOf (name : List UInt8) (lines : List (List UInt8)) : List (List UInt8) := lines.filterMap (valueOf name)

/-- A line in the buffer that is not empty. -/
structure HeaderLine (buf : Buffer readBufferSize) where
  text : Nat
  line : List UInt8
  isLine : buf.cstr text = some line
  nonempty : line ≠ []

/-- The calls of parse_headers for the lines at these places. -/
def HttpConn.parseAll (c : HttpConn) (texts : List Nat) : Option HttpConn :=
  texts.foldlM (fun c text => (c.parseHeaders text).map Prod.fst) c

/-- The string m_host points at. -/
def HttpConn.hostText (c : HttpConn) : Option (List UInt8) :=
  match c.host with
  | .into off => c.readBuf.cstr off
  | _ => none

namespace HeaderLine

variable {buf : Buffer readBufferSize}

/-- The line is the bare word that the code looks for in place of the Connection header. -/
def bare (l : HeaderLine buf) : Bool := strcaseEq l.line (bytes "Connection")

/-- Whether keep-alive stands behind the terminator of the line, where the code looks for the value; none when it
looks past the end of the array. -/
def behind (l : HeaderLine buf) : Option Bool := keepAliveAt buf (l.text + 11)

/-- A Connection header that asks for keep-alive. -/
def keepsAlive (l : HeaderLine buf) : Bool :=
  (valueOf (bytes "Connection:") l.line).any (strcaseEq · (bytes "keep-alive"))

/-- The line has one of the three names. -/
def known (l : HeaderLine buf) : Bool :=
  (valueOf (bytes "Connection:") l.line).isSome || (valueOf (bytes "Content-length:") l.line).isSome ||
    (valueOf (bytes "Host:") l.line).isSome

/-- The bare word with keep-alive behind its terminator. -/
def wakes (l : HeaderLine buf) : Bool := l.bare && l.behind.getD false

/-- What parse_headers looks at behind the bare word is in the array. -/
def readable (l : HeaderLine buf) : Bool := !l.bare || l.behind.isSome

/-- Where the value of a Host header starts. -/
def hostAt (l : HeaderLine buf) : Option Nat :=
  (valueOf (bytes "Host:") l.line).map fun _ => l.text + 5 + strspn (l.line.drop 5)

end HeaderLine

/-- The object after a header line. -/
def HttpConn.withLine {buf : Buffer readBufferSize} (c : HttpConn) (l : HeaderLine buf) : HttpConn :=
  { c with
    linger := l.wakes || c.linger
    contentLength := (valueOf (bytes "Content-length:") l.line).elim c.contentLength atol
    host := l.hostAt.elim c.host .into }

theorem headerValue_cstr {buf : Buffer readBufferSize} {text : Nat} {value : List UInt8}
    (h : buf.cstr text = some value) : headerValue buf text = some (text + strspn value) := by
  rw [headerValue, Buffer.strspnIn_cstr h]
  rfl

theorem contentLengthAt_cstr {buf : Buffer readBufferSize} {text : Nat} {value : List UInt8}
    (h : buf.cstr text = some value) : contentLengthAt buf text = some (atol (value.dropWhile isBlank)) := by
  have hnumber := Buffer.cstr_drop h (strspn_le value)
  rw [drop_strspn] at hnumber
  rw [contentLengthAt, headerValue_cstr h]
  exact Buffer.atolIn_cstr hnumber

section Lines

variable {buf : Buffer readBufferSize} {c : HttpConn} {l : HeaderLine buf}

/-- What stands behind a name that the line begins with. -/
theorem HeaderLine.cstr_value (name : List UInt8) (h : strncaseEq l.line name name.length = true) :
    buf.cstr (l.text + name.length) = some (l.line.drop name.length) :=
  Buffer.cstr_drop l.isLine (strncaseEq_length h)

/-- Each of the three names excludes the others. -/
theorem HeaderLine.names_disjoint (s : List UInt8) :
    (strcaseEq s (bytes "Connection") = true →
      strncaseEq s (bytes "Content-length:") 15 = false ∧ strncaseEq s (bytes "Host:") 5 = false) ∧
    (strncaseEq s (bytes "Content-length:") 15 = true → strncaseEq s (bytes "Host:") 5 = false) := by
  have agree : ∀ (p q : List UInt8) (n k : Nat), 4 ≤ n → 4 ≤ k → strcaseEq (p.take 4) (q.take 4) = false →
      strncaseEq s p n = true → strncaseEq s q k = false := by
    intro p q n k hn hk hne hp
    apply Bool.eq_false_iff.mpr
    intro hq
    exact Bool.false_ne_true (hne.symm.trans (strncaseEq_agree hp hq hn hk))
  refine ⟨fun h => ?_, agree _ _ 15 5 (by decide) (by decide) (by decide)⟩
  rw [← strncaseEq_whole (n := 11) (by decide)] at h
  exact ⟨agree _ _ 11 15 (by decide) (by decide) (by decide) h, agree _ _ 11 5 (by decide) (by decide) (by decide) h⟩

theorem valueOf_none {name line : List UInt8} (h : strncaseEq line name name.length = false) :
    valueOf name line = none :=
  if_neg (Bool.eq_false_iff.mp h)

theorem HttpConn.parseHeaders_line (hbuf : c.readBuf = buf) (l : HeaderLine buf) :
    c.parseHeaders l.text = if l.readable then some (c.withLine l, .noRequest) else none := by
  subst hbuf
  obtain ⟨hconnection, hlength⟩ := HeaderLine.names_disjoint l.line
  rw [HttpConn.parseHeaders_cstr l.isLine, if_neg l.nonempty, strncaseEq_whole (t := bytes "Connection") (by decide)]
  by_cases hbare : strcaseEq l.line (bytes "Connection") = true
  · obtain ⟨h15, h5⟩ := hconnection hbare
    have hno15 : valueOf (bytes "Content-length:") l.line = none := valueOf_none h15
    have hno5 : valueOf (bytes "Host:") l.line = none := valueOf_none h5
    rw [if_pos hbare]
    cases hs : keepAliveAt c.readBuf (l.text + 11) with
    | none => simp [HeaderLine.readable, HeaderLine.bare, HeaderLine.behind, hbare, hs]
    | some alive => simp [HeaderLine.readable, HeaderLine.bare, HeaderLine.behind, HeaderLine.wakes, HeaderLine.hostAt,
        HttpConn.withLine, hbare, hs, hno15, hno5]
  · have hread : l.readable = true := by simp [HeaderLine.readable, HeaderLine.bare, hbare]
    have hwakes : l.wakes = false := by simp [HeaderLine.wakes, HeaderLine.bare, hbare]
    rw [if_neg hbare, if_pos hread]
    by_cases h15 : strncaseEq l.line (bytes "Content-length:") 15 = true
    · have hno5 : valueOf (bytes "Host:") l.line = none := valueOf_none (hlength h15)
      have hvalue : valueOf (bytes "Content-length:") l.line = some ((l.line.drop 15).dropWhile isBlank) := if_pos h15
      have hread := contentLengthAt_cstr (HeaderLine.cstr_value (bytes "Content-length:") h15)
      have hat : contentLengthAt c.readBuf (l.text + 15) = some (atol ((l.line.drop 15).dropWhile isBlank)) := hread
      rw [if_pos h15, hat]
      simp [HttpConn.withLine, HeaderLine.hostAt, hwakes, hno5, hvalue]
    · have hno15 : valueOf (bytes "Content-length:") l.line = none := if_neg h15
      rw [if_neg h15]
      by_cases h5 : strncaseEq l.line (bytes "Host:") 5 = true
      · have hvalue : valueOf (bytes "Host:") l.line = some ((l.line.drop 5).dropWhile isBlank) := if_pos h5
        have hread := headerValue_cstr (HeaderLine.cstr_value (bytes "Host:") h5)
        have hat : headerValue c.readBuf (l.text + 5) = some (l.text + 5 + strspn (l.line.drop 5)) := hread
        rw [if_pos h5, hat]
        simp [HttpConn.withLine, HeaderLine.hostAt, hwakes, hno15, hvalue]
      · have hno5 : valueOf (bytes "Host:") l.line = none := if_neg h5
        rw [if_neg h5]
        simp [HttpConn.withLine, HeaderLine.hostAt, hwakes, hno15, hno5]

theorem HttpConn.parseAll_lines (hbuf : c.readBuf = buf) (lines : List (HeaderLine buf)) :
    c.parseAll (lines.map HeaderLine.text) =
      if lines.all HeaderLine.readable then some (lines.foldl HttpConn.withLine c) else none := by
  unfold HttpConn.parseAll
  induction lines generalizing c with
  | nil => rfl
  | cons l lines ih =>
    rw [List.map_cons, List.foldlM_cons, HttpConn.parseHeaders_line hbuf l]
    cases hread : l.readable with
    | false => simp [hread]
    | true =>
      have hbuf' : (c.withLine l).readBuf = buf := hbuf
      simpa [hread] using ih hbuf'

theorem getLast_filterMap_cons {α β γ : Type} (f : α → Option β) (g : β → γ) (d : γ) (a : α) (as : List α) :
    ((a :: as).filterMap f).getLast?.elim d g = (as.filterMap f).getLast?.elim ((f a).elim d g) g := by
  cases h : f a with
  | none => rw [List.filterMap_cons_none h]; rfl
  | some b =>
    rw [List.filterMap_cons_some h, List.getLast?_cons]
    cases (as.filterMap f).getLast? <;> rfl

theorem HttpConn.foldl_withLine (lines : List (HeaderLine buf)) : lines.foldl HttpConn.withLine c =
    { c with
      linger := lines.any HeaderLine.wakes || c.linger
      contentLength := (lines.filterMap (valueOf (bytes "Content-length:") ·.line)).getLast?.elim c.contentLength atol
      host := (lines.filterMap HeaderLine.hostAt).getLast?.elim c.host .into } := by
  induction lines generalizing c with
  | nil => rfl
  | cons l lines ih =>
    rw [List.foldl_cons, ih, getLast_filterMap_cons, getLast_filterMap_cons, List.any_cons]
    simp only [HttpConn.withLine, Bool.or_left_comm, Bool.or_assoc]

theorem HeaderLine.hostAt_text {off : Nat} (h : l.hostAt = some off) :
    buf.cstr off = valueOf (bytes "Host:") l.line := by
  obtain ⟨value, hvalue, rfl⟩ := Option.map_eq_some_iff.mp h
  rw [hvalue]
  unfold valueOf at hvalue
  split at hvalue
  next hname =>
    have hlen : 5 ≤ l.line.length := strncaseEq_length hname
    cases Option.some.inj hvalue
    rw [Buffer.cstr_drop (Buffer.cstr_drop l.isLine hlen) (strspn_le _), drop_strspn]
    rfl
  next => cases hvalue

/-- The members that parse_headers sets are what these lines say. -/
structure HttpConn.HasHeaders (c : HttpConn) (lines : List (List UInt8)) : Prop where
  linger : c.linger = true ↔ ∃ value ∈ valuesOf (bytes "Connection:") lines, strcaseEq value (bytes "keep-alive") = true
  contentLength : c.contentLength = (valuesOf (bytes "Content-length:") lines).getLast?.elim 0 atol
  host : c.hostText = (valuesOf (bytes "Host:") lines).getLast?

/-- The lines are read as headers, those of other names count for nothing, and only the order of
lines with the same name matters. -/
def HttpConn.FoldsHeaders (c : HttpConn) (lines : List (HeaderLine buf)) : Prop :=
  ∃ c', c.parseAll (lines.map HeaderLine.text) = some c' ∧ c'.HasHeaders (lines.map HeaderLine.line) ∧
    c.parseAll ((lines.filter HeaderLine.known).map HeaderLine.text) = some c' ∧
    ∀ lines' : List (HeaderLine buf), lines'.Perm lines →
      (∀ name ∈ [bytes "Connection:", bytes "Content-length:", bytes "Host:"],
        lines'.filter (fun l => (valueOf name l.line).isSome) = lines.filter fun l => (valueOf name l.line).isSome) →
      c.parseAll (lines'.map HeaderLine.text) = some c'

theorem filterMap_filter_of_isSome {α β : Type} {f : α → Option β} {p : α → Bool}
    (h : ∀ a, (f a).isSome = true → p a = true) (as : List α) : (as.filter p).filterMap f = as.filterMap f := by
  rw [List.filterMap_filter]
  refine List.filterMap_congr fun a _ => ?_
  cases ha : f a with
  | none => simp
  | some b => simp [h a (by rw [ha]; rfl)]

theorem HeaderLine.known_of_hostAt (l : HeaderLine buf) (h : l.hostAt.isSome = true) : l.known = true := by
  have hhost : (valueOf (bytes "Host:") l.line).isSome = true := by simpa [HeaderLine.hostAt] using h
  simp [HeaderLine.known, hhost]

/-- The bare word is none of the names. -/
theorem HeaderLine.wakes_of_known (h : l.known = true) : l.wakes = false := by
  unfold HeaderLine.wakes
  cases hbare : l.bare with
  | false => rfl
  | true =>
    obtain ⟨h15, h5⟩ := (HeaderLine.names_disjoint l.line).1 hbare
    have h11 : strncaseEq l.line (bytes "Connection:") 11 = false := by
      apply Bool.eq_false_iff.mpr
      intro hname
      have hlen : 11 ≤ l.line.length := strncaseEq_length hname
      have hword : l.line.length = (bytes "Connection").length := by
        simpa using congrArg List.length (of_decide_eq_true hbare)
      have hten : (bytes "Connection").length = 10 := rfl
      omega
    rw [HeaderLine.known, valueOf_none h11, valueOf_none h15, valueOf_none h5] at h
    cases h

theorem HttpConn.hostText_foldl {lines : List (HeaderLine buf)} (hbuf : c.readBuf = buf) (hhost : c.host = .null) :
    (lines.foldl HttpConn.withLine c).hostText = (valuesOf (bytes "Host:") (lines.map HeaderLine.line)).getLast? := by
  have hvalues : (lines.filterMap HeaderLine.hostAt).map buf.cstr =
      (valuesOf (bytes "Host:") (lines.map HeaderLine.line)).map some := by
    unfold valuesOf
    rw [List.filterMap_map, List.map_filterMap, List.map_filterMap]
    refine List.filterMap_congr fun l _ => ?_
    cases hat : l.hostAt with
    | none =>
      have hno : valueOf (bytes "Host:") l.line = none := by simpa [HeaderLine.hostAt] using hat
      simp [hno]
    | some off =>
      obtain ⟨value, hvalue, _⟩ := Option.map_eq_some_iff.mp hat
      have htext := HeaderLine.hostAt_text hat
      rw [hvalue] at htext
      simp [hvalue, htext]
  have hlast := congrArg List.getLast? hvalues
  rw [List.getLast?_map, List.getLast?_map] at hlast
  rw [HttpConn.foldl_withLine]
  unfold HttpConn.hostText
  cases hoff : (lines.filterMap HeaderLine.hostAt).getLast? with
  | none =>
    rw [hoff] at hlast
    rw [Option.map_eq_none_iff.mp hlast.symm]
    simp [hhost]
  | some off =>
    rw [hoff] at hlast
    obtain ⟨value, hvalue, htext⟩ := Option.map_eq_some_iff.mp hlast.symm
    rw [hvalue]
    simp [hbuf, htext]

theorem HttpConn.linger_foldl (lines : List (HeaderLine buf)) (h : c.linger = false) :
    (lines.foldl HttpConn.withLine c).linger = lines.any HeaderLine.wakes := by
  rw [HttpConn.foldl_withLine]
  simp [h]

theorem HttpConn.contentLength_foldl (lines : List (HeaderLine buf)) (h : c.contentLength = 0) :
    (lines.foldl HttpConn.withLine c).contentLength =
      (valuesOf (bytes "Content-length:") (lines.map HeaderLine.line)).getLast?.elim 0 atol := by
  rw [HttpConn.foldl_withLine, valuesOf, List.filterMap_map, h]
  rfl

theorem HeaderLine.exists_keepsAlive (lines : List (HeaderLine buf)) :
    (∃ value ∈ valuesOf (bytes "Connection:") (lines.map HeaderLine.line), strcaseEq value (bytes "keep-alive") = true) ↔
      ∃ l ∈ lines, l.keepsAlive = true := by
  simp only [valuesOf, List.filterMap_map, List.mem_filterMap, HeaderLine.keepsAlive, Option.any_eq_true_iff_get,
    Function.comp_apply]
  constructor
  · rintro ⟨value, ⟨l, hl, hvalue⟩, heq⟩
    exact ⟨l, hl, by simp [hvalue], by simpa [hvalue] using heq⟩
  · rintro ⟨l, hl, hsome, heq⟩
    exact ⟨_, ⟨l, hl, (Option.some_get hsome).symm⟩, heq⟩

/-- A line that parse_headers does not misread: no Connection header that asks for keep-alive, and
no bare word Connection with keep-alive behind its terminator, or with so few bytes that the code looks past the
end of the array. -/
def HeaderLine.Plain (l : HeaderLine buf) : Prop := l.keepsAlive = false ∧ (l.bare = true → l.behind = some false)

theorem HeaderLine.plain_iff (l : HeaderLine buf) :
    l.Plain ↔ l.keepsAlive = false ∧ l.readable = true ∧ l.wakes = false := by
  unfold HeaderLine.Plain HeaderLine.readable HeaderLine.wakes
  cases l.bare <;> rcases l.behind with _ | _ | _ <;> simp

theorem HttpConn.foldl_plain {lines : List (HeaderLine buf)} (h : ∀ l ∈ lines, l.Plain) :
    lines.foldl HttpConn.withLine c =
      { c with
        contentLength := (lines.filterMap (valueOf (bytes "Content-length:") ·.line)).getLast?.elim c.contentLength atol
        host := (lines.filterMap HeaderLine.hostAt).getLast?.elim c.host .into } := by
  have hwakes : lines.any HeaderLine.wakes = false := by
    rw [List.any_eq_false]
    intro l hl
    rw [(l.plain_iff.mp (h l hl)).2.2]
    exact Bool.false_ne_true
  rw [HttpConn.foldl_withLine, hwakes]
  rfl

theorem HttpConn.parseAll_plain {lines : List (HeaderLine buf)} (hbuf : c.readBuf = buf) (h : ∀ l ∈ lines, l.Plain) :
    c.parseAll (lines.map HeaderLine.text) = some
      { c with
        contentLength := (lines.filterMap (valueOf (bytes "Content-length:") ·.line)).getLast?.elim c.contentLength atol
        host := (lines.filterMap HeaderLine.hostAt).getLast?.elim c.host .into } := by
  have hread : lines.all HeaderLine.readable = true :=
    List.all_eq_true.mpr fun l hl => (l.plain_iff.mp (h l hl)).2.1
  rw [HttpConn.parseAll_lines hbuf, if_pos hread, HttpConn.foldl_plain h]

theorem HttpConn.FoldsHeaders.plain {lines : List (HeaderLine buf)} (hbuf : c.readBuf = buf) (hlinger : c.linger = false)
    (h : c.FoldsHeaders lines) : ∀ l ∈ lines, l.Plain := by
  obtain ⟨c', hparse, hhas, hknown, _⟩ := h
  rw [HttpConn.parseAll_lines hbuf] at hparse hknown
  split at hparse
  next hread =>
    cases Option.some.inj hparse
    -- the lines of the three names alone never set m_linger
    have hoff : (lines.foldl HttpConn.withLine c).linger = false := by
      split at hknown
      next =>
        rw [← Option.some.inj hknown, HttpConn.linger_foldl _ hlinger, List.any_eq_false]
        intro l hl
        rw [HeaderLine.wakes_of_known (List.mem_filter.mp hl).2]
        exact Bool.false_ne_true
      next => cases hknown
    have hno := hhas.linger
    rw [hoff, HeaderLine.exists_keepsAlive] at hno
    rw [HttpConn.linger_foldl _ hlinger, List.any_eq_false] at hoff
    intro l hl
    refine l.plain_iff.mpr ⟨?_, List.all_eq_true.mp hread l hl, Bool.eq_false_iff.mpr (hoff l hl)⟩
    apply Bool.eq_false_iff.mpr
    intro hkeep
    exact Bool.false_ne_true (hno.mpr ⟨l, hl, hkeep⟩)
  next => cases hparse

theorem HttpConn.foldsHeaders_of_plain {lines : List (HeaderLine buf)} (hbuf : c.readBuf = buf)
    (hlinger : c.linger = false) (hlength : c.contentLength = 0) (hhost : c.host = .null) (h : ∀ l ∈ lines, l.Plain) :
    c.FoldsHeaders lines := by
  refine ⟨_, HttpConn.parseAll_plain hbuf h, ?_, ?_, ?_⟩
  · have hfold : lines.foldl HttpConn.withLine c = _ := HttpConn.foldl_plain h
    rw [← hfold]
    refine ⟨?_, HttpConn.contentLength_foldl lines hlength, HttpConn.hostText_foldl hbuf hhost⟩
    rw [hfold, HeaderLine.exists_keepsAlive]
    constructor
    · intro hon
      exact absurd (hon.symm.trans hlinger) (by decide)
    · rintro ⟨l, hl, hkeep⟩
      exact absurd (hkeep.symm.trans (h l hl).1) (by decide)
  · rw [HttpConn.parseAll_plain hbuf fun l hl => h l (List.mem_of_mem_filter hl),
      filterMap_filter_of_isSome HeaderLine.known_of_hostAt,
      filterMap_filter_of_isSome fun l hl => by simp [HeaderLine.known, hl]]
  · intro lines' hperm hsame
    have hlengths := congrArg (List.filterMap (valueOf (bytes "Content-length:") ·.line))
      (hsame (bytes "Content-length:") (by simp))
    have hhosts := congrArg (List.filterMap HeaderLine.hostAt) (hsame (bytes "Host:") (by simp))
    have hname : ∀ l : HeaderLine buf, l.hostAt.isSome = true → (valueOf (bytes "Host:") l.line).isSome = true := by
      intro l hl
      simpa [HeaderLine.hostAt] using hl
    rw [filterMap_filter_of_isSome fun _ hl => hl, filterMap_filter_of_isSome fun _ hl => hl] at hlengths
    rw [filterMap_filter_of_isSome hname, filterMap_filter_of_isSome hname] at hhosts
    rw [HttpConn.parseAll_plain hbuf fun l hl => h l (hperm.mem_iff.mp hl), hlengths, hhosts]

end Lines

/-- From the initial state the header lines are folded as headers if and only if none is misread. -/
theorem parseHeaders_folds_iff (c : HttpConn) (buf : Buffer readBufferSize) (lines : List (HeaderLine buf)) :
    HttpConn.FoldsHeaders { c.initRequest with readBuf := buf } lines ↔ ∀ l ∈ lines, l.Plain :=
  ⟨fun h => HttpConn.FoldsHeaders.plain rfl rfl h, fun h => HttpConn.foldsHeaders_of_plain rfl rfl rfl rfl h⟩

theorem exists_line {text : List UInt8} (hfree : 0 ∉ text) (hfits : text.length < readBufferSize) :
    ∃ buf : Buffer readBufferSize, buf.cstr 0 = some text := by
  have hempty : (Buffer.zero readBufferSize).cstr 0 = some [] :=
    Buffer.cstr_eq_some_iff.mpr ⟨List.replicate 2047 0, rfl, by simp⟩
  obtain ⟨buf, _, hcstr⟩ := Buffer.cstr_blit_append hempty hfree (by rw [List.length_nil]; omega)
  exact ⟨buf, hcstr⟩

/-- The one line Connection: keep-alive does not set m_linger. -/
theorem parseHeaders_not_always_folds :
    ¬ ∀ (c : HttpConn) (buf : Buffer readBufferSize) (lines : List (HeaderLine buf)),
      HttpConn.FoldsHeaders { c.initRequest with readBuf := buf } lines := by
  intro h
  have hfree : 0 ∉ bytes "Connection: keep-alive" := by decide
  obtain ⟨buf, hcstr⟩ := exists_line hfree (by decide)
  have hplain := HttpConn.FoldsHeaders.plain rfl rfl
    (h HttpConn.zero buf [⟨0, bytes "Connection: keep-alive", hcstr, by decide⟩]) _ List.mem_cons_self
  have hkeep : (valueOf (bytes "Connection:") (bytes "Connection: keep-alive")).any
      (strcaseEq · (bytes "keep-alive")) = false := hplain.1
  exact absurd hkeep (by decide)

end CppInAction
