import CppInAction.HttpResume

namespace CppInAction

/-- The bytes before the first blank. -/
def firstWord (s : List UInt8) : List UInt8 := s.takeWhile (!isBlank ·)

/-- What follows the first word and the blanks behind it. -/
def pastWord (s : List UInt8) : List UInt8 := (s.dropWhile (!isBlank ·)).dropWhile isBlank

theorem strpbrk_word (s : List UInt8) :
    (strpbrk s = none ∧ pastWord s = []) ∨
      ∃ i, strpbrk s = some i ∧ i < s.length ∧ s.take i = firstWord s ∧ (s.drop (i + 1)).dropWhile isBlank = pastWord s := by
  induction s with
  | nil => exact Or.inl ⟨rfl, rfl⟩
  | cons b s ih =>
    by_cases hb : isBlank b
    · refine Or.inr ⟨0, ?_, by simp, ?_, ?_⟩
      · simp [strpbrk, List.findIdx?_cons, hb]
      · simp [firstWord, hb]
      · simp [pastWord, hb]
    · have hfind : strpbrk (b :: s) = (strpbrk s).map (· + 1) := by simp [strpbrk, List.findIdx?_cons, hb]
      have hfirst : firstWord (b :: s) = b :: firstWord s := by simp [firstWord, hb]
      have hpast : pastWord (b :: s) = pastWord s := by simp [pastWord, hb]
      rw [hfind, hpast]
      rcases ih with ⟨hnone, hnil⟩ | ⟨i, hi, hlt, htake, hdrop⟩
      · exact Or.inl ⟨by rw [hnone]; rfl, hnil⟩
      · refine Or.inr ⟨i + 1, by rw [hi]; rfl, by simpa using hlt, ?_, ?_⟩
        · rw [List.take_succ_cons, htake, hfirst]
        · rw [List.drop_succ_cons, hdrop]

theorem pastWord_of_strpbrk {s : List UInt8} (h : strpbrk s = none) : pastWord s = [] := by
  rcases strpbrk_word s with ⟨_, hnil⟩ | ⟨i, hi, _⟩
  · exact hnil
  · cases h.symm.trans hi

theorem words_of_strpbrk {s : List UInt8} {i : Nat} (h : strpbrk s = some i) :
    s.take i = firstWord s ∧ (s.drop (i + 1)).dropWhile isBlank = pastWord s := by
  rcases strpbrk_word s with ⟨hnone, _⟩ | ⟨i', hi, _, htake, hdrop⟩
  · cases h.symm.trans hnone
  · cases h.symm.trans hi
    exact ⟨htake, hdrop⟩

theorem requestLineOf_words (line : List UInt8) : requestLineOf line =
    (methodOf (firstWord line)).bind fun method => (resourceOf (firstWord (pastWord line))).bind fun url =>
      if strcaseEq (pastWord (pastWord line)) (bytes "HTTP/1.1") then some ⟨method, url, false, 0, []⟩ else none := rfl

/-- The middle of parse_request_line refuses another version, and otherwise has cut out
the resource. -/
theorem HttpConn.parseVersion_words {c : HttpConn} {text : Nat} {s : List UInt8} (h : c.readBuf.cstr text = some s) :
    (strcaseEq (pastWord (s.dropWhile isBlank)) (bytes "HTTP/1.1") = false →
      ∃ c', c.parseVersion text = some (c', .badRequest) ∧ c'.checkState = c.checkState) ∧
    (strcaseEq (pastWord (s.dropWhile isBlank)) (bytes "HTTP/1.1") = true →
      ∃ buf version, buf.cstr (text + strspn s) = some (firstWord (s.dropWhile isBlank)) ∧
        c.parseVersion text =
          HttpConn.parseUrl { c with readBuf := buf, url := .into (text + strspn s), version := version }
            (text + strspn s)) := by
  rcases HttpConn.parseVersion_cstr h with ⟨hnone, hparse⟩ | ⟨j, buf, version, hj, _, _, hword, hparse⟩
  · rw [pastWord_of_strpbrk hnone, hparse]
    refine ⟨fun _ => ⟨_, rfl, rfl⟩, fun hver => ?_⟩
    exact absurd hver (by decide)
  · obtain ⟨htake, hdrop⟩ := words_of_strpbrk hj
    rw [hparse, ← hdrop]
    refine ⟨fun hver => ?_, fun hver => ?_⟩
    · simp only [hver, Bool.false_eq_true, if_false]
      exact ⟨_, rfl, rfl⟩
    · simp only [hver, if_true]
      exact ⟨buf, version, htake ▸ hword, rfl⟩

/-- Where the resource of a line starts. -/
def resourceAt (text : Nat) (line : List UInt8) : Nat := text + (line.length - (pastWord line).length)

/-- The methods the code knows, with the value it gives to m_cgi. -/
def spelledMethod (name : List UInt8) : Option Method :=
  if strcaseEq name (bytes "GET") then some .get
  else if strcaseEq name (bytes "POSE") then some .post
  else none

def HttpConn.withMethod (c : HttpConn) : Method → HttpConn
  | .post => { c with method := .post, cgi := 1 }
  | m => { c with method := m }

theorem HttpConn.withMethod_checkState (c : HttpConn) (m : Method) : (c.withMethod m).checkState = c.checkState := by
  cases m <;> rfl

theorem HttpConn.withMethod_readBuf (c : HttpConn) (m : Method) : (c.withMethod m).readBuf = c.readBuf := by
  cases m <;> rfl

theorem HttpConn.parseRequestLine_words {c : HttpConn} {text : Nat} {line : List UInt8}
    (h : c.readBuf.cstr text = some line) :
    (spelledMethod (firstWord line) = none ∨ strcaseEq (pastWord (pastWord line)) (bytes "HTTP/1.1") = false →
      ∃ c', c.parseRequestLine text = some (c', .badRequest) ∧ c'.checkState = c.checkState) ∧
    (∀ m, spelledMethod (firstWord line) = some m →
      strcaseEq (pastWord (pastWord line)) (bytes "HTTP/1.1") = true →
      ∃ buf version, buf.cstr (resourceAt text line) = some (firstWord (pastWord line)) ∧
        c.parseRequestLine text =
          ({ c with readBuf := buf, url := .into (resourceAt text line), version := version }.withMethod m).parseUrl
            (resourceAt text line)) := by
  rcases HttpConn.parseRequestLine_cstr h with ⟨hnone, hline⟩ | ⟨i, buf, hi, hlt, _, hrest, hline⟩
  · rw [pastWord_of_strpbrk hnone, hline]
    refine ⟨fun _ => ⟨_, rfl, rfl⟩, fun m _ hver => ?_⟩
    exact absurd hver (by decide)
  · obtain ⟨htake, hdrop⟩ := words_of_strpbrk hi
    have hat : text + i + 1 + strspn (line.drop (i + 1)) = resourceAt text line := by
      have hle := strspn_le (line.drop (i + 1))
      have hlen := congrArg List.length hdrop
      rw [← drop_strspn, List.length_drop] at hlen
      unfold resourceAt
      rw [List.length_drop] at hle hlen
      omega
    have hparse : c.parseRequestLine text = (spelledMethod (firstWord line)).elim
        (some ({ c with readBuf := buf, url := .into (text + i + 1) }, .badRequest))
        fun m => ({ c with readBuf := buf, url := .into (text + i + 1) }.withMethod m).parseVersion (text + i + 1) := by
      rw [hline, htake, spelledMethod]
      split
      next => rfl
      next => split <;> rfl
    have hbuf : ∀ m, ({ c with readBuf := buf, url := .into (text + i + 1) }.withMethod m).readBuf.cstr
        (text + i + 1) = some (line.drop (i + 1)) := by
      intro m
      rw [HttpConn.withMethod_readBuf]
      exact hrest
    rw [hparse]
    refine ⟨fun hbad => ?_, fun m hm hver => ?_⟩
    · cases hm : spelledMethod (firstWord line) with
      | none => exact ⟨_, rfl, rfl⟩
      | some m =>
        have hver := hbad.resolve_left (by simp [hm])
        obtain ⟨c', hc', hstate⟩ := (HttpConn.parseVersion_words (hbuf m)).1 (by rw [hdrop]; exact hver)
        exact ⟨c', hc', hstate.trans (HttpConn.withMethod_checkState _ m)⟩
    · rw [hm]
      obtain ⟨buf', version, hword, hc'⟩ := (HttpConn.parseVersion_words (hbuf m)).2 (by rw [hdrop]; exact hver)
      rw [hat, hdrop] at hword
      rw [hat] at hc'
      refine ⟨buf', version, hword, hc'.trans ?_⟩
      cases m <;> rfl

theorem strncaseEq_slash {s p : List UInt8} {n : Nat} (h : strncaseEq s (104 :: p) (n + 1) = true) :
    s.head? ≠ some 47 := by
  intro hslash
  obtain ⟨rest, rfl⟩ := List.head?_eq_some_iff.mp hslash
  simp only [strncaseEq, strcaseEq, decide_eq_true_eq] at h
  exact absurd (List.cons.inj h).1 (by decide)

/-- Which of the two absolute prefixes a resource has. -/
def isAbsolute (url : List UInt8) : Bool := strncaseEq url (bytes "http://") 7 || strncaseEq url (bytes "https://") 8

theorem isAbsolute_head {url : List UInt8} (h : isAbsolute url = true) : url.head? ≠ some 47 :=
  ((Bool.or_eq_true _ _).mp h).elim (fun h => strncaseEq_slash h) fun h => strncaseEq_slash h

/-- A resource with one of the prefixes as the code spells them. -/
def isMisspelt (url : List UInt8) : Bool :=
  strncaseEq url (bytes "http:://") 7 || strncaseEq url (bytes "https:://") 8

theorem isMisspelt_head {url : List UInt8} (h : isMisspelt url = true) : url.head? ≠ some 47 :=
  ((Bool.or_eq_true _ _).mp h).elim (fun h => strncaseEq_slash h) fun h => strncaseEq_slash h

theorem not_misspelt_of_slash {url : List UInt8} (h : url.head? = some 47) : isMisspelt url = false := by
  by_contra hmis
  rw [Bool.not_eq_false] at hmis
  exact isMisspelt_head hmis h

theorem isMisspelt_not_absolute {url : List UInt8} (h : isMisspelt url = true) : isAbsolute url = false := by
  by_contra habs
  rw [Bool.not_eq_false] at habs
  rcases (Bool.or_eq_true _ _).mp h with h | h <;> rcases (Bool.or_eq_true _ _).mp habs with habs | habs
  · exact absurd (strncaseEq_agree (m := 6) h habs (by decide) (by decide)) (by decide)
  · exact absurd (strncaseEq_agree (m := 5) h habs (by decide) (by decide)) (by decide)
  · exact absurd (strncaseEq_agree (m := 5) h habs (by decide) (by decide)) (by decide)
  · exact absurd (strncaseEq_agree (m := 7) h habs (by decide) (by decide)) (by decide)

theorem resourceOf_relative {url : List UInt8} (h : isAbsolute url = false) :
    resourceOf url = if url.head? ≠ some 47 then none else if url = [47] then some (bytes "/judge.html") else some url := by
  obtain ⟨hhttp, hhttps⟩ := Bool.or_eq_false_iff.mp h
  simp only [resourceOf, hhttp, hhttps, Bool.false_eq_true, if_false]

theorem resourceOf_misspelt {url : List UInt8} (h : isMisspelt url = true) : resourceOf url = none := by
  rw [resourceOf_relative (isMisspelt_not_absolute h), if_pos (isMisspelt_head h)]

theorem not_misspelt_of_resource {url path : List UInt8} (h : resourceOf url = some path) : isMisspelt url = false := by
  by_contra hmis
  rw [Bool.not_eq_false] at hmis
  rw [resourceOf_misspelt hmis] at h
  cases h

/-- The end of parse_request_line without a leading slash, with the bare slash and with
any other resource. -/
theorem HttpConn.parsePath_word {c : HttpConn} {off : Nat} {url : List UInt8} (h : c.readBuf.cstr off = some url) :
    (url.head? ≠ some 47 → c.parsePath off = some ({ c with url := .into off }, .badRequest)) ∧
    (url = [47] → off + 12 ≤ readBufferSize → ∃ buf, buf.cstr off = some (bytes "/judge.html") ∧
      c.parsePath off = some ({ c with readBuf := buf, url := .into off, checkState := .header }, .noRequest)) ∧
    (url = [47] → ¬ off + 12 ≤ readBufferSize → c.parsePath off = none) ∧
    (url.head? = some 47 → url ≠ [47] →
      c.parsePath off = some ({ c with url := .into off, checkState := .header }, .noRequest)) := by
  simp only [HttpConn.parsePath, h, Option.bind_eq_bind, Option.bind_some]
  refine ⟨fun hhead => by rw [if_pos hhead], fun hurl hroom => ?_, fun hurl hroom => ?_, fun hhead hurl => ?_⟩
  · subst hurl
    have hten : (bytes "judge.html").length = 10 := by decide
    have hpage : 0 ∉ bytes "judge.html" := by decide
    obtain ⟨buf, hblit, hcstr⟩ := Buffer.cstr_blit_append h hpage (by rw [hten]; exact hroom)
    refine ⟨buf, hcstr, ?_⟩
    have hblit : c.readBuf.blit (off + 1) (bytes "judge.html" ++ [0]) = some buf := hblit
    rw [hblit]
    rfl
  · subst hurl
    have hlen : (bytes "judge.html" ++ [0]).length = 11 := by decide
    have hblit : c.readBuf.blit (off + 1) (bytes "judge.html" ++ [0]) = none := dif_neg (by omega)
    rw [hblit]
    rfl
  · have hone : ¬ url.length = 1 := by
      intro hone
      obtain ⟨b, rfl⟩ := List.length_eq_one_iff.mp hone
      cases Option.some.inj hhead
      exact hurl rfl
    rw [if_neg (by simp [hhead]), if_neg hone]

theorem HttpConn.parsePath_slash {c : HttpConn} {off : Nat} {url : List UInt8} (h : c.readBuf.cstr off = some url)
    (hhead : url.head? = some 47) : ∀ c', c.parsePath off ≠ some (c', .badRequest) := by
  intro c' hbad
  obtain ⟨_, hroom, hfull, hother⟩ := HttpConn.parsePath_word h
  by_cases hone : url = [47]
  · by_cases hfits : off + 12 ≤ readBufferSize
    · obtain ⟨buf, _, hparse⟩ := hroom hone hfits
      cases hparse.symm.trans hbad
    · cases (hfull hone hfits).symm.trans hbad
  · cases (hother hhead hone).symm.trans hbad

theorem skipScheme_slash {s p : List UInt8} {n : Nat} (h : s.head? = some 47) :
    skipScheme (104 :: p) (n + 1) s = some 0 := by
  unfold skipScheme
  split
  next hprefix => exact absurd h (strncaseEq_slash hprefix)
  next => rfl

theorem strchr_some {s : List UInt8} {i : Nat} (h : strchr s 47 = some i) : (s.drop i).head? = some 47 := by
  obtain ⟨hi, hat, _⟩ := List.findIdx?_eq_some_iff_getElem.mp h
  rw [List.head?_drop, List.getElem?_eq_getElem hi]
  simpa using hat

theorem strchr_none {s : List UInt8} : strchr s 47 = none ↔ 47 ∉ s := by
  simp only [strchr, List.findIdx?_eq_none_iff, decide_eq_false_iff_not]
  exact ⟨fun hall hm => hall 47 hm rfl, fun hout b hb heq => hout (heq ▸ hb)⟩

/-- The prefixes as the code spells them: past http::/ it never refuses, and past https::/
only without a later slash. -/
theorem HttpConn.parseUrl_word {c : HttpConn} {off : Nat} {url : List UInt8} (h : c.readBuf.cstr off = some url) :
    (isMisspelt url = false → c.parseUrl off = c.parsePath off) ∧
    (strncaseEq url (bytes "http:://") 7 = true → ∀ c', c.parseUrl off ≠ some (c', .badRequest)) ∧
    (strncaseEq url (bytes "http:://") 7 = false → strncaseEq url (bytes "https:://") 8 = true →
      47 ∈ url.drop 8 → ∀ c', c.parseUrl off ≠ some (c', .badRequest)) ∧
    (strncaseEq url (bytes "http:://") 7 = false → strncaseEq url (bytes "https:://") 8 = true →
      47 ∉ url.drop 8 → c.parseUrl off = some ({ c with url := .null }, .badRequest)) := by
  have hpath : ∀ {k : Nat}, k ≤ url.length → (url.drop k).head? = some 47 →
      ∀ c', c.parsePath (off + k) ≠ some (c', .badRequest) := fun hk hhead =>
    HttpConn.parsePath_slash (Buffer.cstr_drop h hk) hhead
  simp only [HttpConn.parseUrl, h, Option.bind_eq_bind, Option.bind_some]
  refine ⟨fun hmis => ?_, fun hhttp => ?_, fun hhttp hhttps hslash => ?_, fun hhttp hhttps hslash => ?_⟩
  · obtain ⟨hhttp, hhttps⟩ := Bool.or_eq_false_iff.mp hmis
    simp only [skipScheme, hhttp, hhttps, Bool.false_eq_true, if_false, Option.bind_some, Nat.add_zero, h]
  · cases hfind : strchr (url.drop 7) 47 with
    | none =>
      have hnull : skipScheme (bytes "http:://") 7 url = none := by
        rw [skipScheme, if_pos hhttp, hfind]
        rfl
      simp [hnull]
    | some j =>
      have hhead := strchr_some hfind
      rw [List.drop_drop] at hhead
      have hle : 7 + j ≤ url.length := by
        have hlt := findIdx?_lt hfind
        rw [List.length_drop] at hlt
        omega
      have hfirst : skipScheme (bytes "http:://") 7 url = some (7 + j) := by
        rw [skipScheme, if_pos hhttp, hfind]
        rfl
      have hsecond : skipScheme (bytes "https:://") 8 (url.drop (7 + j)) = some 0 :=
        skipScheme_slash (p := (bytes "https:://").tail) (n := 7) hhead
      simp only [hfirst, Option.bind_some, Buffer.cstr_drop h hle, hsecond]
      exact hpath hle hhead
  · simp only [skipScheme, hhttp, hhttps, Bool.false_eq_true, if_false, if_true, Option.bind_some, Nat.add_zero, h]
    cases hfind : strchr (url.drop 8) 47 with
    | none => exact absurd hslash (strchr_none.mp hfind)
    | some j =>
      have hhead := strchr_some hfind
      rw [List.drop_drop] at hhead
      have hle : 8 + j ≤ url.length := by
        have hlt := findIdx?_lt hfind
        rw [List.length_drop] at hlt
        omega
      simp only [Option.map_some]
      exact hpath hle hhead
  · simp only [skipScheme, hhttp, hhttps, Bool.false_eq_true, if_false, if_true, Option.bind_some, Nat.add_zero, h,
      strchr_none.mpr hslash, Option.map_none]

/-- A line whose resource begins with a slash and goes on is accepted, and the resource stays in place. -/
theorem HttpConn.parseRequestLine_resource {c : HttpConn} {text : Nat} {line url : List UInt8} {m : Method}
    (h : c.readBuf.cstr text = some line) (hm : spelledMethod (firstWord line) = some m)
    (hver : strcaseEq (pastWord (pastWord line)) (bytes "HTTP/1.1") = true) (hurl : firstWord (pastWord line) = url)
    (hhead : url.head? = some 47) (hne : url ≠ [47]) :
    ∃ c', c.parseRequestLine text = some (c', .noRequest) ∧ c'.readBuf.cstr (resourceAt text line) = some url := by
  obtain ⟨buf, version, hword, hwords⟩ := (HttpConn.parseRequestLine_words h).2 m hm hver
  rw [hurl] at hword
  have hword' : ({ c with readBuf := buf, url := .into (resourceAt text line), version := version }.withMethod
      m).readBuf.cstr (resourceAt text line) = some url := by
    rw [HttpConn.withMethod_readBuf]
    exact hword
  have hmis : isMisspelt url = false := not_misspelt_of_slash hhead
  have hpath := (HttpConn.parsePath_word hword').2.2.2 hhead hne
  exact ⟨_, hwords.trans (((HttpConn.parseUrl_word hword').1 hmis).trans hpath), hword'⟩

/-- parse_request_line takes the documented request lines, with what they say, and refuses
every other line. -/
def HttpConn.TakesDocumented (c : HttpConn) (text : Nat) (line : List UInt8) : Prop :=
  match requestLineOf line with
  | none => ∃ c', c.parseRequestLine text = some (c', .badRequest) ∧ c'.checkState = c.checkState
  | some r => ∃ c' off, c.parseRequestLine text = some (c', .noRequest) ∧ c'.checkState = .header ∧
      c'.method = r.method ∧ c'.cgi = (if r.method = .post then 1 else 0) ∧ c'.url = .into off ∧
      c'.readBuf.cstr off = some r.url

/-- A line on which the misspelt literals make no difference, and whose bare slash leaves
room for judge.html. -/
def AvoidsSlips (text : Nat) (line : List UInt8) : Prop :=
  strcaseEq (pastWord (pastWord line)) (bytes "HTTP/1.1") = true →
    (strcaseEq (firstWord line) (bytes "POST") = true → resourceOf (firstWord (pastWord line)) = none) ∧
    (strcaseEq (firstWord line) (bytes "POSE") = true →
      (firstWord (pastWord line)).head? ≠ some 47) ∧
    (strcaseEq (firstWord line) (bytes "GET") = true →
      (isAbsolute (firstWord (pastWord line)) = true → resourceOf (firstWord (pastWord line)) = none) ∧
      (firstWord (pastWord line) = [47] → resourceAt text line + 12 ≤ readBufferSize)) ∧
    (strcaseEq (firstWord line) (bytes "GET") = true ∨ strcaseEq (firstWord line) (bytes "POSE") = true →
      strncaseEq (firstWord (pastWord line)) (bytes "http:://") 7 = false ∧
      (strncaseEq (firstWord (pastWord line)) (bytes "https:://") 8 = true →
        47 ∉ (firstWord (pastWord line)).drop 8))

instance (text : Nat) (line : List UInt8) : Decidable (AvoidsSlips text line) :=
  inferInstanceAs (Decidable (_ → (_ → _) ∧ (_ → _) ∧ (_ → (_ → _) ∧ (_ → _)) ∧ (_ → _ ∧ (_ → _))))

theorem strcaseEq_trans {s p q : List UInt8} (hp : strcaseEq s p = true) (hq : strcaseEq s q = true) :
    strcaseEq p q = true := by
  simp only [strcaseEq, decide_eq_true_eq] at hp hq ⊢
  exact hp.symm.trans hq

theorem methodOf_cases (name : List UInt8) :
    (strcaseEq name (bytes "GET") = true ∧ methodOf name = some .get ∧ spelledMethod name = some .get ∧
      strcaseEq name (bytes "POST") = false ∧ strcaseEq name (bytes "POSE") = false) ∨
    (strcaseEq name (bytes "POST") = true ∧ methodOf name = some .post ∧ spelledMethod name = none ∧
      strcaseEq name (bytes "GET") = false ∧ strcaseEq name (bytes "POSE") = false) ∨
    (strcaseEq name (bytes "POSE") = true ∧ methodOf name = none ∧ spelledMethod name = some .post ∧
      strcaseEq name (bytes "GET") = false ∧ strcaseEq name (bytes "POST") = false) ∨
    (methodOf name = none ∧ spelledMethod name = none ∧ strcaseEq name (bytes "GET") = false ∧
      strcaseEq name (bytes "POST") = false ∧ strcaseEq name (bytes "POSE") = false) := by
  have hne : ∀ {p q : List UInt8}, strcaseEq name p = true → strcaseEq p q = false → strcaseEq name q = false := by
    intro p q hp hpq
    by_contra hq
    rw [Bool.not_eq_false] at hq
    rw [strcaseEq_trans hp hq] at hpq
    cases hpq
  by_cases hget : strcaseEq name (bytes "GET") = true
  · exact Or.inl ⟨hget, by simp [methodOf, hget], by simp [spelledMethod, hget], hne hget (by decide),
      hne hget (by decide)⟩
  · rw [Bool.not_eq_true] at hget
    by_cases hpost : strcaseEq name (bytes "POST") = true
    · have hpose := hne hpost (q := bytes "POSE") (by decide)
      exact Or.inr (Or.inl ⟨hpost, by simp [methodOf, hget, hpost], by simp [spelledMethod, hget, hpose], hget, hpose⟩)
    · rw [Bool.not_eq_true] at hpost
      by_cases hpose : strcaseEq name (bytes "POSE") = true
      · exact Or.inr (Or.inr (Or.inl ⟨hpose, by simp [methodOf, hget, hpost], by simp [spelledMethod, hget, hpose],
          hget, hpost⟩))
      · rw [Bool.not_eq_true] at hpose
        exact Or.inr (Or.inr (Or.inr ⟨by simp [methodOf, hget, hpost], by simp [spelledMethod, hget, hpose], hget,
          hpost, hpose⟩))

theorem requestLineOf_version {line : List UInt8}
    (hver : strcaseEq (pastWord (pastWord line)) (bytes "HTTP/1.1") = false) : requestLineOf line = none := by
  rw [requestLineOf_words]
  cases methodOf (firstWord line) with
  | none => rfl
  | some method => cases hurl : resourceOf (firstWord (pastWord line)) <;> simp [hver]

theorem requestLineOf_method {line : List UInt8} {method : Method}
    (hver : strcaseEq (pastWord (pastWord line)) (bytes "HTTP/1.1") = true)
    (hmethod : methodOf (firstWord line) = some method) :
    requestLineOf line = (resourceOf (firstWord (pastWord line))).map fun url => ⟨method, url, false, 0, []⟩ := by
  rw [requestLineOf_words, hmethod]
  cases hurl : resourceOf (firstWord (pastWord line)) <;> simp [hver]

theorem requestLineOf_unknown {line : List UInt8} (hmethod : methodOf (firstWord line) = none) :
    requestLineOf line = none := by
  rw [requestLineOf_words, hmethod]
  rfl

/-- A known method with the right version is refused when no prefix is misspelt and the
resource has no leading slash. -/
theorem HttpConn.refuses_iff {c : HttpConn} {text : Nat} {line : List UInt8} {m : Method}
    (h : c.readBuf.cstr text = some line) (hm : spelledMethod (firstWord line) = some m)
    (hver : strcaseEq (pastWord (pastWord line)) (bytes "HTTP/1.1") = true) :
    (∃ c', c.parseRequestLine text = some (c', .badRequest) ∧ c'.checkState = c.checkState) ↔
      (firstWord (pastWord line)).head? ≠ some 47 ∧
      strncaseEq (firstWord (pastWord line)) (bytes "http:://") 7 = false ∧
      (strncaseEq (firstWord (pastWord line)) (bytes "https:://") 8 = true → 47 ∉ (firstWord (pastWord line)).drop 8) := by
  obtain ⟨buf, version, hurl, hparse⟩ := (HttpConn.parseRequestLine_words h).2 m hm hver
  generalize firstWord (pastWord line) = url at hurl ⊢
  generalize hc1 : ({ c with readBuf := buf, url := .into (resourceAt text line), version := version }.withMethod m) =
    c1 at hparse
  have hbuf : c1.readBuf.cstr (resourceAt text line) = some url := by
    rw [← hc1, HttpConn.withMethod_readBuf]
    exact hurl
  have hstate : c1.checkState = c.checkState := by rw [← hc1, HttpConn.withMethod_checkState]
  rw [hparse]
  obtain ⟨hplain, hhttp, hhttps, hnull⟩ := HttpConn.parseUrl_word hbuf
  have hrefuse := (HttpConn.parsePath_word hbuf).1
  by_cases h1 : strncaseEq url (bytes "http:://") 7 = true
  · refine iff_of_false ?_ (by simp [h1])
    rintro ⟨c', hbad, _⟩
    exact hhttp h1 c' hbad
  · rw [Bool.not_eq_true] at h1
    by_cases h2 : strncaseEq url (bytes "https:://") 8 = true
    · have hhead : url.head? ≠ some 47 := isMisspelt_head (by simp [isMisspelt, h2])
      by_cases hslash : 47 ∈ url.drop 8
      · refine iff_of_false ?_ (fun hall => hall.2.2 h2 hslash)
        rintro ⟨c', hbad, _⟩
        exact hhttps h1 h2 hslash c' hbad
      · exact iff_of_true ⟨_, hnull h1 h2 hslash, hstate⟩ ⟨hhead, h1, fun _ => hslash⟩
    · rw [Bool.not_eq_true] at h2
      rw [hplain (by simp [isMisspelt, h1, h2])]
      by_cases hhead : url.head? = some 47
      · refine iff_of_false ?_ (fun hall => hall.1 hhead)
        rintro ⟨c', hbad, _⟩
        exact HttpConn.parsePath_slash hbuf hhead c' hbad
      · exact iff_of_true ⟨_, hrefuse hhead, hstate⟩ ⟨hhead, h1, by simp [h2]⟩

/-- A GET line is taken, with its resource, when the resource has a leading slash and the
default page fits. -/
theorem HttpConn.takesGet_iff {c : HttpConn} {text : Nat} {line url : List UInt8} (hcgi : c.cgi = 0)
    (h : c.readBuf.cstr text = some line) (hget : strcaseEq (firstWord line) (bytes "GET") = true)
    (hver : strcaseEq (pastWord (pastWord line)) (bytes "HTTP/1.1") = true)
    (hres : resourceOf (firstWord (pastWord line)) = some url) :
    (∃ c' off, c.parseRequestLine text = some (c', .noRequest) ∧ c'.checkState = .header ∧ c'.method = .get ∧
      c'.cgi = 0 ∧ c'.url = .into off ∧ c'.readBuf.cstr off = some url) ↔
      isAbsolute (firstWord (pastWord line)) = false ∧
        (firstWord (pastWord line) = [47] → resourceAt text line + 12 ≤ readBufferSize) := by
  have hm : spelledMethod (firstWord line) = some .get := by simp [spelledMethod, hget]
  obtain ⟨buf, version, hword, hparse⟩ := (HttpConn.parseRequestLine_words h).2 _ hm hver
  generalize firstWord (pastWord line) = word at hword hres ⊢
  have hmis : isMisspelt word = false := not_misspelt_of_resource hres
  generalize hc1 : ({ c with readBuf := buf, url := .into (resourceAt text line), version := version }.withMethod .get) =
    c1 at hparse
  have hbuf : c1.readBuf.cstr (resourceAt text line) = some word := by
    rw [← hc1]
    exact hword
  have hmethod : c1.method = .get := by rw [← hc1]; rfl
  have hcgi1 : c1.cgi = 0 := by rw [← hc1]; exact hcgi
  obtain ⟨hrefuse, hroom, hfull, hother⟩ := HttpConn.parsePath_word hbuf
  rw [hparse, (HttpConn.parseUrl_word hbuf).1 hmis]
  by_cases habs : isAbsolute word = true
  · refine iff_of_false ?_ (by simp [habs])
    rintro ⟨c', off, hok, _⟩
    cases (hrefuse (isAbsolute_head habs)).symm.trans hok
  · rw [Bool.not_eq_true] at habs
    rw [resourceOf_relative habs] at hres
    by_cases hhead : word.head? = some 47
    · rw [if_neg (by simp [hhead])] at hres
      by_cases hone : word = [47]
      · rw [if_pos hone] at hres
        cases Option.some.inj hres
        by_cases hfits : resourceAt text line + 12 ≤ readBufferSize
        · obtain ⟨buf', hpage, hok⟩ := hroom hone hfits
          exact iff_of_true ⟨_, _, hok, rfl, hmethod, hcgi1, rfl, hpage⟩ ⟨habs, fun _ => hfits⟩
        · refine iff_of_false ?_ (fun hall => hfits (hall.2 hone))
          rintro ⟨c', off, hok, _⟩
          cases (hfull hone hfits).symm.trans hok
      · rw [if_neg hone] at hres
        cases Option.some.inj hres
        exact iff_of_true ⟨_, _, hother hhead hone, rfl, hmethod, hcgi1, rfl, hbuf⟩ ⟨habs, fun heq => absurd heq hone⟩
    · rw [if_pos hhead] at hres
      cases hres

theorem HttpConn.takesDocumented_none {c : HttpConn} {text : Nat} {line : List UInt8} (h : requestLineOf line = none) :
    c.TakesDocumented text line ↔
      ∃ c', c.parseRequestLine text = some (c', .badRequest) ∧ c'.checkState = c.checkState := by
  unfold HttpConn.TakesDocumented
  rw [h]

theorem HttpConn.takesDocumented_some {c : HttpConn} {text : Nat} {line : List UInt8} {r : Request}
    (h : requestLineOf line = some r) :
    c.TakesDocumented text line ↔
      ∃ c' off, c.parseRequestLine text = some (c', .noRequest) ∧ c'.checkState = .header ∧ c'.method = r.method ∧
        c'.cgi = (if r.method = .post then 1 else 0) ∧ c'.url = .into off ∧ c'.readBuf.cstr off = some r.url := by
  unfold HttpConn.TakesDocumented
  rw [h]

theorem resourceOf_none_head {url : List UInt8} (h : resourceOf url = none) : url.head? ≠ some 47 := by
  by_cases habs : isAbsolute url = true
  · exact isAbsolute_head habs
  · rw [Bool.not_eq_true] at habs
    rw [resourceOf_relative habs] at h
    intro hhead
    rw [if_neg (by simp [hhead])] at h
    split at h <;> cases h

/-- The lines of a method that code and documentation spell alike. -/
theorem HttpConn.takesDocumented_get_iff {c : HttpConn} {text : Nat} {line : List UInt8} (hcgi : c.cgi = 0)
    (h : c.readBuf.cstr text = some line) (hver : strcaseEq (pastWord (pastWord line)) (bytes "HTTP/1.1") = true)
    (hget : strcaseEq (firstWord line) (bytes "GET") = true) (hmethod : methodOf (firstWord line) = some .get)
    (hspelled : spelledMethod (firstWord line) = some .get) :
    c.TakesDocumented text line ↔
      ((isAbsolute (firstWord (pastWord line)) = true → resourceOf (firstWord (pastWord line)) = none) ∧
        (firstWord (pastWord line) = [47] → resourceAt text line + 12 ≤ readBufferSize)) ∧
      strncaseEq (firstWord (pastWord line)) (bytes "http:://") 7 = false ∧
      (strncaseEq (firstWord (pastWord line)) (bytes "https:://") 8 = true → 47 ∉ (firstWord (pastWord line)).drop 8) := by
  have hline := requestLineOf_method hver hmethod
  cases hres : resourceOf (firstWord (pastWord line)) with
  | none =>
    rw [hres] at hline
    rw [HttpConn.takesDocumented_none hline, HttpConn.refuses_iff h hspelled hver]
    have hhead := resourceOf_none_head hres
    have hone : firstWord (pastWord line) ≠ [47] := by
      intro hone
      rw [hone] at hhead
      exact hhead rfl
    simp [hhead, hone]
  | some url =>
    rw [hres] at hline
    rw [HttpConn.takesDocumented_some hline]
    obtain ⟨h1, h2⟩ := Bool.or_eq_false_iff.mp (not_misspelt_of_resource hres)
    refine (HttpConn.takesGet_iff hcgi h hget hver hres).trans ?_
    simp [h1, h2]

/-- The lines of a method that only the documentation knows are all refused. -/
theorem HttpConn.takesDocumented_post_iff {c : HttpConn} {text : Nat} {line : List UInt8}
    (h : c.readBuf.cstr text = some line) (hver : strcaseEq (pastWord (pastWord line)) (bytes "HTTP/1.1") = true)
    (hmethod : methodOf (firstWord line) = some .post) (hspelled : spelledMethod (firstWord line) = none) :
    c.TakesDocumented text line ↔ resourceOf (firstWord (pastWord line)) = none := by
  have hline := requestLineOf_method hver hmethod
  have hbad := (HttpConn.parseRequestLine_words h).1 (Or.inl hspelled)
  cases hres : resourceOf (firstWord (pastWord line)) with
  | none =>
    rw [hres] at hline
    exact iff_of_true ((HttpConn.takesDocumented_none hline).mpr hbad) rfl
  | some url =>
    rw [hres] at hline
    refine iff_of_false ?_ (by simp)
    rw [HttpConn.takesDocumented_some hline]
    rintro ⟨c', off, hok, _⟩
    obtain ⟨c2, hbad, _⟩ := hbad
    cases hbad.symm.trans hok

/-- parse_request_line is as documented exactly on the lines that avoid its slips. -/
theorem parseRequestLine_documented_iff (c : HttpConn) (text : Nat) (line : List UInt8) (hcgi : c.cgi = 0)
    (h : c.readBuf.cstr text = some line) : c.TakesDocumented text line ↔ AvoidsSlips text line := by
  by_cases hver : strcaseEq (pastWord (pastWord line)) (bytes "HTTP/1.1") = true
  · unfold AvoidsSlips
    rcases methodOf_cases (firstWord line) with ⟨hget, hmethod, hspelled, hpost, hpose⟩ |
      ⟨hpost, hmethod, hspelled, hget, hpose⟩ | ⟨hpose, hmethod, hspelled, hget, hpost⟩ |
      ⟨hmethod, hspelled, hget, hpost, hpose⟩
    · rw [HttpConn.takesDocumented_get_iff hcgi h hver hget hmethod hspelled]
      simp [hver, hget, hpost, hpose]
    · rw [HttpConn.takesDocumented_post_iff h hver hmethod hspelled]
      simp [hver, hget, hpost, hpose]
    · rw [HttpConn.takesDocumented_none (requestLineOf_unknown hmethod), HttpConn.refuses_iff h hspelled hver]
      simp [hver, hget, hpost, hpose]
    · have hbad := (HttpConn.parseRequestLine_words h).1 (Or.inl hspelled)
      rw [HttpConn.takesDocumented_none (requestLineOf_unknown hmethod)]
      exact iff_of_true hbad (by simp [hget, hpost, hpose])
  · rw [Bool.not_eq_true] at hver
    refine iff_of_true ?_ (fun hok => absurd (hver.symm.trans hok) Bool.false_ne_true)
    exact (HttpConn.takesDocumented_none (requestLineOf_version hver)).mpr
      ((HttpConn.parseRequestLine_words h).1 (Or.inr hver))

/-- An object whose buffer begins with the line. -/
def HttpConn.holding (line : List UInt8) (h : line.length < readBufferSize) : HttpConn :=
  { HttpConn.zero with readBuf := ⟨line ++ List.replicate (readBufferSize - line.length) 0, by simp; omega⟩ }

theorem HttpConn.holding_cstr {line : List UInt8} (h : line.length < readBufferSize) (hz : 0 ∉ line) :
    (HttpConn.holding line h).readBuf.cstr 0 = some line := by
  refine Buffer.cstr_eq_some_iff.mpr ⟨List.replicate (readBufferSize - line.length - 1) 0, ?_, hz⟩
  obtain ⟨k, hk⟩ : ∃ k, readBufferSize - line.length = k + 1 := ⟨readBufferSize - line.length - 1, by omega⟩
  change line ++ List.replicate (readBufferSize - line.length) 0 = _
  rw [hk, List.replicate_succ, Nat.add_sub_cancel]

theorem parseRequestLine_documented_iff_get :
    (HttpConn.holding (bytes "get  /a HTTP/1.1") (by decide)).TakesDocumented 0 (bytes "get  /a HTTP/1.1") :=
  (parseRequestLine_documented_iff _ 0 _ rfl (HttpConn.holding_cstr _ (by decide))).mpr (by decide)

/-- POST is spelt another way in the code. -/
theorem parseRequestLine_not_always_documented :
    ¬ ∀ (c : HttpConn) (text : Nat) (line : List UInt8), c.cgi = 0 → c.readBuf.cstr text = some line →
      c.TakesDocumented text line := by
  intro h
  have hline : (bytes "POST /a HTTP/1.1").length < readBufferSize := by decide
  have hcstr := HttpConn.holding_cstr hline (by decide)
  have htakes := h _ 0 _ rfl hcstr
  rw [HttpConn.takesDocumented_some (r := ⟨.post, bytes "/a", false, 0, []⟩) (by decide)] at htakes
  obtain ⟨c', off, hok, _⟩ := htakes
  obtain ⟨c2, hbad, _⟩ := (HttpConn.parseRequestLine_words hcstr).1 (Or.inl (by decide))
  cases hbad.symm.trans hok

end CppInAction
