import CppInAction.HttpAccept

namespace CppInAction

/-- The two arrays agree but for the bytes from lo to hi - 1. -/
def SameOutside {n : Nat} (lo hi : Nat) (b b' : Buffer n) : Prop :=
  ∀ j, j < lo ∨ hi ≤ j → b'.bytes[j]? = b.bytes[j]?

/-- The call ends, and has stored between lo and hi alone; only a null pointer leaves it without an end. -/
def HttpConn.Frames (c : HttpConn) (lo hi : Nat) (null : Prop) (r : Option (HttpConn × HttpCode)) : Prop :=
  (r = none ∧ null) ∨ ∃ c' code, r = some (c', code) ∧ SameOutside lo hi c.readBuf c'.readBuf

variable {n lo hi i url text : Nat} {b b' b'' : Buffer n} {c c' : HttpConn} {s line : List UInt8} {null : Prop}
  {r : Option (HttpConn × HttpCode)}

theorem SameOutside.refl (lo hi : Nat) (b : Buffer n) : SameOutside lo hi b b := fun _ _ => rfl

theorem SameOutside.trans (h : SameOutside lo hi b b') (h' : SameOutside lo hi b' b'') : SameOutside lo hi b b'' :=
  fun j hj => (h' j hj).trans (h j hj)

theorem sameOutside_put {v : UInt8} (h : b.put i v = some b') (hlo : lo ≤ i) (hhi : i < hi) :
    SameOutside lo hi b b' := by
  obtain ⟨_, hb⟩ := Buffer.put_eq_some h
  intro j hj
  rw [hb, List.getElem?_set_ne (by omega)]

theorem sameOutside_blit {xs : List UInt8} (h : b.blit i xs = some b') (hlo : lo ≤ i) (hhi : i + xs.length ≤ hi) :
    SameOutside lo hi b b' := by
  obtain ⟨hfits, hb⟩ := Buffer.blit_eq_some_iff.mp h
  have htake := Buffer.length_take (b := b) (i := i) (by omega)
  intro j hj
  rw [hb]
  rcases hj with hj | hj
  · rw [List.append_assoc, List.getElem?_append_left (by omega), List.getElem?_take_of_lt (by omega)]
  · rw [List.getElem?_append_right (by rw [List.length_append]; omega), List.getElem?_drop, List.length_append, htake]
    congr 1
    omega

/-- Stores within the bounds before the call. -/
theorem HttpConn.Frames.after (h : c'.Frames lo hi null r) (hb : SameOutside lo hi c.readBuf c'.readBuf) :
    c.Frames lo hi null r := by
  rcases h with ⟨hnone, hnull⟩ | ⟨d, code, hr, hd⟩
  · exact Or.inl ⟨hnone, hnull⟩
  · exact Or.inr ⟨d, code, hr, hb.trans hd⟩

theorem HttpConn.parsePath_frames (h : c.readBuf.cstr url = some s) (hlo : lo ≤ url)
    (hroom : s.length = 1 → url + 12 ≤ hi) (hhi : hi ≤ readBufferSize) :
    c.Frames lo hi False (c.parsePath url) := by
  right
  simp only [HttpConn.parsePath, h, Option.bind_eq_bind, Option.bind_some]
  split
  next => exact ⟨_, _, rfl, SameOutside.refl lo hi _⟩
  next =>
    split
    next hone =>
      have hlen : (bytes "judge.html" ++ [0]).length = 11 := by decide
      have hfits := hroom hone
      have hblit : url + 1 + (bytes "judge.html" ++ [0]).length ≤ readBufferSize := by
        rw [hlen]
        omega
      obtain ⟨b, hblit, _⟩ := Buffer.exists_blit (b := c.readBuf) hblit
      rw [hblit]
      exact ⟨_, _, rfl, sameOutside_blit hblit (by omega) (by rw [hlen]; omega)⟩
    next => exact ⟨_, _, rfl, SameOutside.refl lo hi _⟩

/-- The slash that is left of a resource is followed by at least ten bytes in front of the terminators. -/
theorem HttpConn.parseUrl_frames (h : c.readBuf.cstr url = some s) (hlo : lo ≤ url)
    (hroom : url + s.length + 11 ≤ hi) (hhi : hi ≤ readBufferSize) :
    c.Frames lo hi (skipScheme (bytes "http:://") 7 s = none) (c.parseUrl url) := by
  simp only [HttpConn.parseUrl, h, Option.bind_eq_bind, Option.bind_some]
  cases hk : skipScheme (bytes "http:://") 7 s with
  | none => exact Or.inl ⟨rfl, rfl⟩
  | some k =>
    have hs := Buffer.cstr_drop h (skipScheme_le hk)
    simp only [Option.bind_some, hs]
    right
    cases hk' : skipScheme (bytes "https:://") 8 (s.drop k) with
    | none => exact ⟨_, _, rfl, SameOutside.refl lo hi _⟩
    | some k' =>
      have hs' := Buffer.cstr_drop hs (skipScheme_le hk')
      have hpath : c.Frames lo hi False (c.parsePath (url + k + k')) :=
        HttpConn.parsePath_frames hs' (by omega) (fun hone => by
          rw [List.length_drop, List.length_drop] at hone
          omega) hhi
      exact hpath.resolve_left fun hno => hno.2

theorem strcaseEq_length {s t : List UInt8} (h : strcaseEq s t = true) : s.length = t.length := by
  simp only [strcaseEq, decide_eq_true_eq] at h
  simpa using congrArg List.length h

theorem HttpConn.parseVersion_frames (h : c.readBuf.cstr text = some s) (hlo : lo ≤ text)
    (hroom : text + s.length + 2 ≤ hi) (hhi : hi ≤ readBufferSize) :
    c.Frames lo hi (skipScheme (bytes "http:://") 7 (firstWord (s.dropWhile isBlank)) = none)
      (c.parseVersion text) := by
  rcases HttpConn.parseVersion_cstr h with ⟨_, hparse⟩ | ⟨j, b, version, hj, hlt, hb, hword, hparse⟩
  · rw [hparse]
    exact Or.inr ⟨_, _, rfl, SameOutside.refl lo hi _⟩
  · have hblanks := strspn_le s
    have hslen : (s.dropWhile isBlank).length = s.length - strspn s := by rw [← drop_strspn, List.length_drop]
    have hput : SameOutside lo hi c.readBuf b := sameOutside_put hb (by omega) (by omega)
    rw [hparse]
    split
    next hver =>
      have hwlen := congrArg List.length (words_of_strpbrk hj).1
      rw [(words_of_strpbrk hj).1] at hword
      have height : (bytes "HTTP/1.1").length = 8 := by decide
      have hversion := (strcaseEq_length hver).trans height
      have hvlen := strspn_le ((s.dropWhile isBlank).drop (j + 1))
      rw [← drop_strspn, List.length_drop, List.length_drop] at hversion
      rw [List.length_take] at hwlen
      rw [List.length_drop] at hvlen
      -- the eight characters of the version stand behind the separator
      refine HttpConn.Frames.after (HttpConn.parseUrl_frames hword (by omega) (by omega) hhi) hput
    next => exact Or.inr ⟨_, _, rfl, hput⟩

theorem HttpConn.parseRequestLine_frames (h : c.readBuf.cstr text = some line) (hlo : lo ≤ text)
    (hroom : text + line.length + 2 ≤ hi) (hhi : hi ≤ readBufferSize) :
    c.Frames lo hi (skipScheme (bytes "http:://") 7 (firstWord (pastWord line)) = none) (c.parseRequestLine text) := by
  rcases HttpConn.parseRequestLine_cstr h with ⟨_, hparse⟩ | ⟨i, b, hfind, hlt, hb, hrest, hparse⟩
  · rw [hparse]
    exact Or.inr ⟨_, _, rfl, SameOutside.refl lo hi _⟩
  · have hput : SameOutside lo hi c.readBuf b := sameOutside_put hb (by omega) (by omega)
    have hlen : (line.drop (i + 1)).length = line.length - (i + 1) := List.length_drop
    rw [hparse, ← (words_of_strpbrk hfind).2]
    split
    next => exact HttpConn.Frames.after (HttpConn.parseVersion_frames hrest (by omega) (by omega) hhi) hput
    next =>
      split
      next => exact HttpConn.Frames.after (HttpConn.parseVersion_frames hrest (by omega) (by omega) hhi) hput
      next => exact Or.inr ⟨_, _, rfl, hput⟩

theorem HttpConn.parseRequestLine_empty (h : c.readBuf.cstr text = some []) :
    c.Frames lo hi null (c.parseRequestLine text) := by
  rcases HttpConn.parseRequestLine_cstr h with ⟨_, hparse⟩ | ⟨i, b, hfind, _⟩
  · rw [hparse]
    exact Or.inr ⟨_, _, rfl, SameOutside.refl lo hi _⟩
  · cases hfind

/-- Where parse_line finds a line, its last two bytes have become zero. -/
theorem scanLine_ok {buf buf' : Buffer readBufferSize} {readIdx : Int} {fuel i i' : Nat}
    (h : scanLine buf readIdx fuel i = some (buf', i', .lineOk)) :
    ∃ k, i' = k + 2 ∧ i ≤ k + 1 ∧ buf'.bytes[k]? = some 0 ∧ buf'.bytes[k + 1]? = some 0 := by
  have hstores : ∀ {k : Nat} {b1 b2 : Buffer readBufferSize}, buf.put k 0 = some b1 → b1.put (k + 1) 0 = some b2 →
      b2.bytes[k]? = some 0 ∧ b2.bytes[k + 1]? = some 0 := by
    intro k b1 b2 h1 h2
    obtain ⟨hk, hb1⟩ := Buffer.put_eq_some h1
    obtain ⟨hk', hb2⟩ := Buffer.put_eq_some h2
    have hlen := buf.length_eq
    constructor
    · rw [hb2, List.getElem?_set_ne (by omega), hb1, List.getElem?_set_self (by omega)]
    · rw [hb2, List.getElem?_set_self (by rw [b1.length_eq]; omega)]
  induction fuel generalizing i with
  | zero => cases h
  | succ fuel ih =>
    obtain ⟨temp, _, h⟩ := Option.bind_eq_some_iff.mp h
    split at h
    next =>
      split at h
      next => cases h
      next =>
        obtain ⟨next, _, h⟩ := Option.bind_eq_some_iff.mp h
        split at h
        next =>
          obtain ⟨b1, h1, h⟩ := Option.bind_eq_some_iff.mp h
          obtain ⟨b2, h2, h⟩ := Option.bind_eq_some_iff.mp h
          cases h
          exact ⟨i, rfl, Nat.le_succ i, hstores h1 h2⟩
        next => cases h
    next =>
      split at h
      next =>
        split at h
        next hone =>
          obtain ⟨prev, _, h⟩ := Option.bind_eq_some_iff.mp h
          split at h
          next =>
            obtain ⟨b1, h1, h⟩ := Option.bind_eq_some_iff.mp h
            obtain ⟨b2, h2, h⟩ := Option.bind_eq_some_iff.mp h
            cases h
            have hback : i - 1 + 1 = i := by omega
            rw [← hback] at h2
            exact ⟨i - 1, by omega, by omega, hstores h1 h2⟩
          next => cases h
        next => cases h
      next =>
        obtain ⟨k, hk, hle, hzero⟩ := ih h
        exact ⟨k, hk, by omega, hzero⟩

/-- Behind a parse_line that found a line, parse_request_line changes no byte outside of the line
and its two terminators. It passes a null pointer on where the resource has the prefix http::/ and
no slash behind it. -/
theorem HttpConn.parseRequestLine_frame {c c1 : HttpConn} (hstart : c.startLine ≤ c.checkedIdx)
    (hline : c.parseLine = some (c1, .lineOk)) :
    ∃ line, c1.readBuf.cstr c.startLine = some line ∧
      c1.Frames c.startLine c1.checkedIdx (skipScheme (bytes "http:://") 7 (firstWord (pastWord line)) = none)
        (c1.parseRequestLine c.startLine) := by
  obtain ⟨⟨buf, i, status⟩, hscan, hrest⟩ := Option.bind_eq_some_iff.mp hline
  cases hrest
  obtain ⟨k, rfl, hle, hzero, hzero'⟩ := scanLine_ok hscan
  have hend : k + 1 < readBufferSize := by
    obtain ⟨hlt, _⟩ := List.getElem?_eq_some_iff.mp hzero'
    rwa [buf.length_eq] at hlt
  by_cases hk : c.startLine ≤ k
  · obtain ⟨line, hcstr, hlen⟩ := Buffer.exists_cstr hzero hk
    exact ⟨line, hcstr, HttpConn.parseRequestLine_frames hcstr le_rfl (by simp only; omega) (by simp only; omega)⟩
  · -- the line feed was all that was left of the line
    have heq : c.startLine = k + 1 := by omega
    obtain ⟨line, hcstr, hlen⟩ := Buffer.exists_cstr hzero' heq.le
    obtain rfl : line = [] := List.length_eq_zero_iff.mp (by omega)
    exact ⟨[], hcstr, HttpConn.parseRequestLine_empty hcstr⟩

/-- A lone slash, with a header line behind the request line. -/
theorem parseRequestLine_frame_slash :
    ∃ (c c1 : HttpConn) (line : List UInt8), bytes "GET / HTTP/1.1\r\nHost: x\r\n" <+: c.readBuf.bytes ∧
      c.parseLine = some (c1, .lineOk) ∧ c1.readBuf.cstr c.startLine = some line ∧
      c1.Frames c.startLine c1.checkedIdx (skipScheme (bytes "http:://") 7 (firstWord (pastWord line)) = none)
        (c1.parseRequestLine c.startLine) := by
  obtain ⟨buf, hbuf, _⟩ :=
    HttpConn.deliver_first HttpConn.zero (p := bytes "GET / HTTP/1.1\r\nHost: x\r\n") (by decide)
  obtain ⟨buf', i, hline, _⟩ := HttpConn.parseLine_first HttpConn.zero hbuf
  have hok : (lineBreak (bytes "GET / HTTP/1.1\r\nHost: x\r\n")).1 = .lineOk := by decide
  rw [hok] at hline
  obtain ⟨line, hcstr, hframe⟩ := HttpConn.parseRequestLine_frame le_rfl hline
  exact ⟨_, _, line, ⟨_, hbuf.symm⟩, hline, hcstr, hframe⟩

end CppInAction
