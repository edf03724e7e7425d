import CppInAction.HttpParse

namespace CppInAction

/-- The first line break of a text and where it stands. -/
def lineBreak : List UInt8 → LineStatus × Nat
  | [] => (.lineOpen, 0)
  | b :: rest =>
    if b = 13 then
      match rest with
      | [] => (.lineOpen, 0)
      | next :: _ => if next = 10 then (.lineOk, 0) else (.lineBad, 0)
    else if b = 10 then (.lineBad, 0)
    else ((lineBreak rest).1, (lineBreak rest).2 + 1)

/-- The resource is refused after the absolute prefixes the code strips. -/
def rejectsUrl (url : List UInt8) : Bool :=
  match skipScheme (bytes "http:://") 7 url with
  | none => false
  | some k => match skipScheme (bytes "https:://") 8 (url.drop k) with
    | none => true
    | some k' => (url.drop (k + k')).head? ≠ some 47

/-- A text that is no request line for the code: no blank, another method, no
second blank, another version, or a refused resource. -/
def rejectsRequestLine (line : List UInt8) : Bool :=
  match strpbrk line with
  | none => true
  | some i =>
    let method := line.take i
    let rest := (line.drop (i + 1)).dropWhile isBlank
    if strcaseEq method (bytes "GET") || strcaseEq method (bytes "POSE") then
      match strpbrk rest with
      | none => true
      | some j =>
        let version := (rest.drop (j + 1)).dropWhile isBlank
        if strcaseEq version (bytes "HTTP/1.1") then rejectsUrl (rest.take j) else true
    else true

/-- Two texts that one string begins with agree as far as both go. -/
theorem strncaseEq_agree {s p q : List UInt8} {m n k : Nat} (hp : strncaseEq s p n = true) (hq : strncaseEq s q k = true)
    (hn : m ≤ n) (hk : m ≤ k) : strcaseEq (p.take m) (q.take m) = true := by
  simp only [strncaseEq, strcaseEq, decide_eq_true_eq] at hp hq ⊢
  have hp' := congrArg (List.take m) hp
  have hq' := congrArg (List.take m) hq
  simp only [← List.map_take, List.take_take, Nat.min_eq_left hn, Nat.min_eq_left hk] at hp' hq'
  exact hp'.symm.trans hq'

theorem drop_strspn (s : List UInt8) : s.drop (strspn s) = s.dropWhile isBlank := by
  unfold strspn
  nth_rewrite 2 [← List.takeWhile_append_dropWhile (p := isBlank) (l := s)]
  exact List.drop_left

theorem strspn_le (s : List UInt8) : strspn s ≤ s.length :=
  (List.takeWhile_sublist _).length_le

/-- In front of a terminator parse_headers goes by the line. -/
theorem HttpConn.parseHeaders_cstr {c : HttpConn} {text : Nat} {s : List UInt8} (h : c.readBuf.cstr text = some s) :
    c.parseHeaders text =
      if s = [] then
        if c.contentLength ≠ 0 then some ({ c with checkState := .content }, .noRequest) else some (c, .getRequest)
      else if strncaseEq s (bytes "Connection") 11 then (keepAliveAt c.readBuf (text + 11)).map fun keepAlive =>
        ({ c with linger := keepAlive || c.linger }, .noRequest)
      else if strncaseEq s (bytes "Content-length:") 15 then (contentLengthAt c.readBuf (text + 15)).map fun value =>
        ({ c with contentLength := value }, .noRequest)
      else if strncaseEq s (bytes "Host:") 5 then (headerValue c.readBuf (text + 5)).map fun value =>
        ({ c with host := .into value }, .noRequest)
      else some (c, .noRequest) := by
  obtain ⟨tail, hdrop, hfree, hfirst⟩ := Buffer.drop_of_cstr h
  unfold HttpConn.parseHeaders
  rw [hfirst, hdrop, strncasecmpEq_string tail 11 hfree (by decide), strncasecmpEq_string tail 15 hfree (by decide),
    strncasecmpEq_string tail 5 hfree (by decide)]
  cases s with
  | nil => rfl
  | cons a s =>
    have hne : a ≠ 0 := fun he => hfree (he ▸ List.mem_cons_self)
    simp only [List.cons_append, List.headD_cons, Option.bind_eq_bind, Option.bind_some, if_neg hne,
      if_neg (List.cons_ne_nil a s)]
    split
    next => cases keepAliveAt c.readBuf (text + 11) <;> rfl
    next =>
      split
      next => cases contentLengthAt c.readBuf (text + 15) <;> rfl
      next =>
        split
        next => cases headerValue c.readBuf (text + 5) <;> rfl
        next => rfl

/-- A line that parse_headers does not take for the empty one sets at most the members of the known fields. -/
theorem HttpConn.parseHeaders_inv {c c' : HttpConn} {text : Nat} {ret : HttpCode}
    (h : c.parseHeaders text = some (c', ret)) :
    (c.readBuf.bytes[text]? = some 0 ∧ c.contentLength ≠ 0 ∧ c' = { c with checkState := .content } ∧
      ret = .noRequest) ∨
    (c.readBuf.bytes[text]? = some 0 ∧ c.contentLength = 0 ∧ c' = c ∧ ret = .getRequest) ∨
    (c.readBuf.bytes[text]? ≠ some 0 ∧ ret = .noRequest ∧ ∃ linger contentLength host,
      c' = { c with linger := linger, contentLength := contentLength, host := host }) := by
  obtain ⟨first, hfirst, h⟩ := Option.bind_eq_some_iff.mp h
  split at h
  next hzero =>
    rw [hzero] at hfirst
    split at h
    next hlen => cases Option.some.inj h; exact Or.inl ⟨hfirst, hlen, rfl, rfl⟩
    next hlen => cases Option.some.inj h; exact Or.inr (Or.inl ⟨hfirst, not_not.mp hlen, rfl, rfl⟩)
  next hne =>
    refine Or.inr (Or.inr ⟨fun hzero => hne (Option.some.inj (hfirst.symm.trans hzero)), ?_⟩)
    obtain ⟨connection, _, h⟩ := Option.bind_eq_some_iff.mp h
    split at h
    next =>
      obtain ⟨value, _, h⟩ := Option.bind_eq_some_iff.mp h
      cases Option.some.inj h
      exact ⟨rfl, _, _, _, rfl⟩
    next =>
      obtain ⟨contentLength, _, h⟩ := Option.bind_eq_some_iff.mp h
      split at h
      next =>
        obtain ⟨value, _, h⟩ := Option.bind_eq_some_iff.mp h
        cases Option.some.inj h
        exact ⟨rfl, _, _, _, rfl⟩
      next =>
        obtain ⟨host, _, h⟩ := Option.bind_eq_some_iff.mp h
        split at h
        next =>
          obtain ⟨value, _, h⟩ := Option.bind_eq_some_iff.mp h
          cases Option.some.inj h
          exact ⟨rfl, _, _, _, rfl⟩
        next => cases Option.some.inj h; exact ⟨rfl, _, _, _, rfl⟩

theorem findIdx?_lt {p : UInt8 → Bool} {s : List UInt8} {i : Nat} (h : s.findIdx? p = some i) :
    i < s.length := by
  obtain ⟨hi, _⟩ := List.findIdx?_eq_some_iff_getElem.mp h
  exact hi

theorem Buffer.put_zero_exists {n : Nat} {b : Buffer n} {i k : Nat} {s : List UInt8}
    (h : b.cstr i = some s) (hk : k < s.length) : ∃ b', b.put (i + k) 0 = some b' := by
  have hend := Buffer.cstr_end_lt h
  exact ⟨_, if_pos (by omega)⟩

/-- The line was refused, or the parser moved on to the headers. -/
def Moves (rejects : Bool) (r : Option (HttpConn × HttpCode)) : Prop :=
  (rejects = true ∧ ∃ c', r = some (c', .badRequest)) ∨
  (rejects = false ∧ ∀ c' ret, r = some (c', ret) → ret = .noRequest ∧ c'.checkState = .header)

theorem skipScheme_le {scheme s : List UInt8} {n k : Nat} (h : skipScheme scheme n s = some k) :
    k ≤ s.length := by
  unfold skipScheme at h
  split at h
  next =>
    obtain ⟨j, hj, rfl⟩ := Option.map_eq_some_iff.mp h
    have := findIdx?_lt hj
    rw [List.length_drop] at this
    omega
  next => cases Option.some.inj h; exact Nat.zero_le _

theorem HttpConn.parsePath_moves {c : HttpConn} {url : Nat} {s : List UInt8}
    (h : c.readBuf.cstr url = some s) : Moves (s.head? ≠ some 47) (c.parsePath url) := by
  simp only [HttpConn.parsePath, h, Option.bind_eq_bind, Option.bind_some]
  by_cases hh : s.head? = some 47
  · right
    simp only [hh, ne_eq, not_true_eq_false, decide_false, if_false, true_and]
    intro c' ret hr
    split at hr
    next =>
      obtain ⟨buf, _, hr⟩ := Option.bind_eq_some_iff.mp hr
      cases Option.some.inj hr
      exact ⟨rfl, rfl⟩
    next =>
      cases Option.some.inj hr
      exact ⟨rfl, rfl⟩
  · left
    simp [hh]

theorem HttpConn.parseUrl_moves {c : HttpConn} {url : Nat} {s : List UInt8}
    (h : c.readBuf.cstr url = some s) : Moves (rejectsUrl s) (c.parseUrl url) := by
  simp only [HttpConn.parseUrl, rejectsUrl, h, Option.bind_eq_bind, Option.bind_some]
  cases hk : skipScheme (bytes "http:://") 7 s with
  | none => right; simp
  | some k =>
    have hs := Buffer.cstr_drop h (skipScheme_le hk)
    simp only [Option.bind_some, hs]
    cases hk' : skipScheme (bytes "https:://") 8 (s.drop k) with
    | none => left; simp
    | some k' =>
      have hs' := Buffer.cstr_drop hs (skipScheme_le hk')
      rw [List.drop_drop] at hs'
      exact HttpConn.parsePath_moves hs'

theorem http11_free : 0 ∉ bytes "HTTP/1.1" := by decide

/-- In front of a terminator parse_version refuses a text without a second blank, and otherwise cuts the resource
out and looks at the version. -/
theorem HttpConn.parseVersion_cstr {c : HttpConn} {text : Nat} {s : List UInt8} (h : c.readBuf.cstr text = some s) :
    (strpbrk (s.dropWhile isBlank) = none ∧
      c.parseVersion text = some ({ c with url := .into (text + strspn s), version := .null }, .badRequest)) ∨
    ∃ j buf version, strpbrk (s.dropWhile isBlank) = some j ∧ j < (s.dropWhile isBlank).length ∧
      c.readBuf.put (text + strspn s + j) 0 = some buf ∧
      buf.cstr (text + strspn s) = some ((s.dropWhile isBlank).take j) ∧
      c.parseVersion text =
        if strcaseEq (((s.dropWhile isBlank).drop (j + 1)).dropWhile isBlank) (bytes "HTTP/1.1") then
          HttpConn.parseUrl { c with readBuf := buf, url := .into (text + strspn s), version := version }
            (text + strspn s)
        else some ({ c with readBuf := buf, url := .into (text + strspn s), version := version }, .badRequest) := by
  have hs := Buffer.cstr_drop h (strspn_le s)
  rw [drop_strspn] at hs
  simp only [HttpConn.parseVersion, Buffer.strspnIn_cstr h, Buffer.strpbrkIn_cstr hs, Option.bind_eq_bind,
    Option.bind_some]
  cases hj : strpbrk (s.dropWhile isBlank) with
  | none => exact Or.inl ⟨rfl, rfl⟩
  | some j =>
    have hlt := findIdx?_lt hj
    obtain ⟨buf, hb⟩ := Buffer.put_zero_exists hs hlt
    have hv := (Buffer.cstr_put_after (i := text + strspn s + j + 1) (by omega) hb).trans
      (Buffer.cstr_drop (k := j + 1) hs hlt)
    have hv' := Buffer.cstr_drop hv (strspn_le _)
    rw [drop_strspn] at hv'
    simp only [hb, Option.bind_some, Buffer.strspnIn_cstr hv, Buffer.strcasecmpEq_cstr hv' http11_free]
    exact Or.inr ⟨j, buf, _, rfl, hlt, hb, Buffer.cstr_put_cut hs hlt hb, rfl⟩

theorem HttpConn.parseVersion_moves {c : HttpConn} {text : Nat} {s : List UInt8}
    (h : c.readBuf.cstr text = some s) :
    Moves (match strpbrk (s.dropWhile isBlank) with
      | none => true
      | some j =>
        if strcaseEq (((s.dropWhile isBlank).drop (j + 1)).dropWhile isBlank) (bytes "HTTP/1.1") then
          rejectsUrl ((s.dropWhile isBlank).take j)
        else true) (c.parseVersion text) := by
  rcases HttpConn.parseVersion_cstr h with ⟨hnone, hparse⟩ | ⟨j, buf, version, hj, _, _, hword, hparse⟩
  · rw [hnone, hparse]
    exact Or.inl ⟨rfl, _, rfl⟩
  · rw [hj, hparse]
    by_cases hver : strcaseEq (((s.dropWhile isBlank).drop (j + 1)).dropWhile isBlank) (bytes "HTTP/1.1")
    · simp only [hver, if_true]
      exact HttpConn.parseUrl_moves hword
    · left; simp [hver]

/-- In front of a terminator parse_request_line cuts the method off at the first blank, and goes on behind it with
a method that it knows. -/
theorem HttpConn.parseRequestLine_cstr {c : HttpConn} {text : Nat} {line : List UInt8}
    (h : c.readBuf.cstr text = some line) :
    (strpbrk line = none ∧ c.parseRequestLine text = some ({ c with url := .null }, .badRequest)) ∨
    ∃ i buf, strpbrk line = some i ∧ i < line.length ∧ c.readBuf.put (text + i) 0 = some buf ∧
      buf.cstr (text + i + 1) = some (line.drop (i + 1)) ∧
      c.parseRequestLine text =
        if strcaseEq (line.take i) (bytes "GET") then
          HttpConn.parseVersion { c with readBuf := buf, url := .into (text + i + 1), method := .get } (text + i + 1)
        else if strcaseEq (line.take i) (bytes "POSE") then
          HttpConn.parseVersion { c with readBuf := buf, url := .into (text + i + 1), method := .post, cgi := 1 }
            (text + i + 1)
        else some ({ c with readBuf := buf, url := .into (text + i + 1) }, .badRequest) := by
  simp only [HttpConn.parseRequestLine, Buffer.strpbrkIn_cstr h, Option.bind_eq_bind, Option.bind_some]
  cases hi : strpbrk line with
  | none => exact Or.inl ⟨rfl, rfl⟩
  | some i =>
    have hlt := findIdx?_lt hi
    obtain ⟨buf, hb⟩ := Buffer.put_zero_exists h hlt
    have hrest := (Buffer.cstr_put_after (i := text + i + 1) (by omega) hb).trans
      (Buffer.cstr_drop (k := i + 1) h hlt)
    refine Or.inr ⟨i, buf, rfl, hlt, hb, hrest, ?_⟩
    simp only [hb, Option.bind_some, Buffer.cstr_put_cut h hlt hb]

/-- On every terminated text, parse_request_line refuses exactly the texts that
are no request line, and otherwise never returns BAD_REQUEST. -/
theorem HttpConn.parseRequestLine_moves {c : HttpConn} {text : Nat} {line : List UInt8}
    (h : c.readBuf.cstr text = some line) : Moves (rejectsRequestLine line) (c.parseRequestLine text) := by
  unfold rejectsRequestLine
  rcases HttpConn.parseRequestLine_cstr h with ⟨hnone, hparse⟩ | ⟨i, buf, hi, _, _, hrest, hparse⟩
  · rw [hnone, hparse]
    exact Or.inl ⟨rfl, _, rfl⟩
  · rw [hi, hparse]
    by_cases hget : strcaseEq (line.take i) (bytes "GET")
    · simp only [hget, if_true, Bool.true_or]
      exact HttpConn.parseVersion_moves hrest
    · by_cases hpost : strcaseEq (line.take i) (bytes "POSE")
      · simp only [hget, hpost, if_true, Bool.or_true, Bool.false_eq_true, if_false]
        exact HttpConn.parseVersion_moves hrest
      · left; simp [hget, hpost]

/-- parse_line finds the first line break of the unchecked bytes, zeroes a
complete one, and stops at any other. -/
theorem scanLine_lineBreak {buf : Buffer readBufferSize} {rest tail : List UInt8} {i : Nat}
    (hd : buf.bytes.drop i = rest ++ tail)
    (hprev : ∀ b, 1 < i → buf.bytes[i - 1]? = some b → b ≠ 13) :
    ∃ buf' i', scanLine buf (i + rest.length) rest.length i = some (buf', i', (lineBreak rest).1) ∧
      ((lineBreak rest).1 = .lineOk → i' = i + (lineBreak rest).2 + 2 ∧
        buf'.bytes = (buf.bytes.set (i + (lineBreak rest).2) 0).set (i + (lineBreak rest).2 + 1) 0) ∧
      ((lineBreak rest).1 ≠ .lineOk → i' = i + (lineBreak rest).2 ∧ buf' = buf) := by
  induction rest generalizing i with
  | nil => exact ⟨buf, i, rfl, by simp [lineBreak], fun _ => ⟨rfl, rfl⟩⟩
  | cons b rest ih =>
    have hget : buf.bytes[i]? = some b := by
      have := congrArg (·[0]?) hd
      simpa [List.getElem?_drop] using this
    have hi : i < readBufferSize := by
      obtain ⟨hlt, _⟩ := List.getElem?_eq_some_iff.mp hget
      rwa [buf.length_eq] at hlt
    have hd' : buf.bytes.drop (i + 1) = rest ++ tail := by
      rw [← List.drop_drop, hd]
      rfl
    simp only [List.length_cons, scanLine, hget, Option.bind_eq_bind, Option.bind_some]
    by_cases hcr : b = 13
    · cases rest with
      | nil => simp [hcr, lineBreak]
      | cons next rest =>
        have hnext : buf.bytes[i + 1]? = some next := by
          have := congrArg (·[0]?) hd'
          simpa [List.getElem?_drop] using this
        have hi' : i + 1 < readBufferSize := by
          obtain ⟨hlt, _⟩ := List.getElem?_eq_some_iff.mp hnext
          rwa [buf.length_eq] at hlt
        have hne : ¬ (i : Int) + 1 = i + ((rest.length + 1 + 1 : Nat) : Int) := by omega
        simp only [hcr, if_true, List.length_cons, hne, if_false, hnext, Option.bind_some]
        by_cases hlf : next = 10
        · simp [hlf, lineBreak, Buffer.put, hi, hi']
        · simp [hlf, lineBreak]
    · by_cases hlf : b = 10
      · have hbad : ∀ x, 1 < i → buf.bytes[i - 1]? = some x → ¬ x = 13 := hprev
        simp only [hlf, lineBreak, show ((10 : UInt8) = 13) = False by decide, if_false, if_true]
        by_cases hi1 : 1 < i
        · obtain ⟨x, hx⟩ : ∃ x, buf.bytes[i - 1]? = some x := by
            refine ⟨_, List.getElem?_eq_getElem ?_⟩
            rw [buf.length_eq]
            omega
          simp [hi1, hx, hbad x hi1 hx]
        · simp [hi1]
      · obtain ⟨buf', i', hs, hok, hno⟩ := ih hd' (by
          intro x _ hx
          simp only [Nat.add_sub_cancel, hget, Option.some.injEq] at hx
          exact hx ▸ hcr)
        have hlen : (i : Int) + ((rest.length + 1 : Nat) : Int) = ((i + 1 : Nat) : Int) + rest.length := by
          omega
        simp only [hcr, hlf, if_false, lineBreak, hlen]
        refine ⟨buf', i', hs, fun h => ?_, fun h => ?_⟩
        · obtain ⟨h1, h2⟩ := hok h
          rw [show i + ((lineBreak rest).2 + 1) = i + 1 + (lineBreak rest).2 by omega]
          exact ⟨h1, h2⟩
        · obtain ⟨h1, h2⟩ := hno h
          exact ⟨by omega, h2⟩

end CppInAction
