import CppInAction.HttpAccept

namespace CppInAction

def IsWord (s : List UInt8) : Prop := ∀ b ∈ s, isBlank b = false

def IsBlanks (s : List UInt8) : Prop := s ≠ [] ∧ ∀ b ∈ s, isBlank b = true

/-- A request line in its five pieces. -/
def lineText (method blanks url blanks' version : List UInt8) : List UInt8 :=
  method ++ (blanks ++ (url ++ (blanks' ++ version)))

variable {s t method blanks url blanks' version scheme host path : List UInt8}

theorem takeWhile_word (hs : IsWord s) (ht : IsBlanks t) (rest : List UInt8) :
    (s ++ (t ++ rest)).takeWhile (!isBlank ·) = s ∧ (s ++ (t ++ rest)).dropWhile (!isBlank ·) = t ++ rest := by
  obtain ⟨b, t, rfl⟩ := List.exists_cons_of_ne_nil ht.1
  have hb := ht.2 b List.mem_cons_self
  have hall : ∀ a ∈ s, (!isBlank a) = true := fun a ha => by rw [hs a ha]; rfl
  rw [List.takeWhile_append_of_pos hall, List.dropWhile_append_of_pos hall, List.cons_append,
    List.takeWhile_cons_of_neg (by simp [hb]), List.dropWhile_cons_of_neg (by simp [hb]), List.append_nil]
  exact ⟨rfl, rfl⟩

theorem dropWhile_blanks (ht : IsBlanks t) (hs : ∀ b ∈ s.head?, isBlank b = false) :
    (t ++ s).dropWhile isBlank = s := by
  rw [List.dropWhile_append_of_pos ht.2]
  cases s with
  | nil => rfl
  | cons b s => exact List.dropWhile_cons_of_neg (by simp [hs b rfl])

theorem version_head (h : strcaseEq version (bytes "HTTP/1.1") = true) : ∀ b ∈ version.head?, isBlank b = false := by
  intro b hb
  obtain ⟨rest, rfl⟩ := List.head?_eq_some_iff.mp hb
  simp only [strcaseEq, decide_eq_true_eq] at h
  have hlower : toLower b = 104 := (List.cons.inj h).1
  by_contra hblank
  rw [Bool.not_eq_false] at hblank
  simp only [isBlank, Bool.or_eq_true, decide_eq_true_eq] at hblank
  rcases hblank with rfl | rfl <;> exact absurd hlower (by decide)

theorem lineText_words (hm : IsWord method) (hb : IsBlanks blanks) (hu : IsWord url) (hne : url ≠ [])
    (hb' : IsBlanks blanks') (hv : strcaseEq version (bytes "HTTP/1.1") = true) :
    firstWord (lineText method blanks url blanks' version) = method ∧
      firstWord (pastWord (lineText method blanks url blanks' version)) = url ∧
      pastWord (pastWord (lineText method blanks url blanks' version)) = version := by
  obtain ⟨hfirst, hdrop⟩ := takeWhile_word hm hb (url ++ (blanks' ++ version))
  obtain ⟨hword, hdrop'⟩ := takeWhile_word hu hb' version
  have hpast : pastWord (lineText method blanks url blanks' version) = url ++ (blanks' ++ version) := by
    unfold pastWord lineText
    rw [hdrop]
    refine dropWhile_blanks hb fun b hhead => hu b ?_
    rw [List.head?_append_of_ne_nil _ hne] at hhead
    exact List.mem_of_mem_head? hhead
  refine ⟨hfirst, ?_, ?_⟩
  · rw [hpast]
    exact hword
  · rw [hpast]
    unfold pastWord
    rw [hdrop']
    exact dropWhile_blanks hb' (version_head hv)

/-- The string m_url points at. -/
def HttpConn.urlText (c : HttpConn) : Option (List UInt8) :=
  match c.url with
  | .into off => c.readBuf.cstr off
  | _ => none

/-- What a request line leaves behind. -/
structure LineEnd where
  url : Option (List UInt8)
  method : Method
  cgi : Int
  checkState : CheckState
  code : HttpCode
deriving DecidableEq

def HttpConn.lineEnd (c : HttpConn) (text : Nat) : Option LineEnd :=
  (c.parseRequestLine text).map fun r => ⟨r.1.urlText, r.1.method, r.1.cgi, r.1.checkState, r.2⟩

/-- With an unknown method m_url stays at the text behind the method. -/
theorem HttpConn.lineEnd_unknown {c : HttpConn} {text : Nat} (hm : IsWord method) (hb : IsBlanks blanks)
    (hmethod : spelledMethod method = none)
    (h : c.readBuf.cstr text = some (lineText method blanks url blanks' version)) :
    ∃ e, c.lineEnd text = some e ∧ e.url = some (blanks.tail ++ (url ++ (blanks' ++ version))) := by
  obtain ⟨b, blanks, rfl⟩ := List.exists_cons_of_ne_nil hb.1
  have hfind : strpbrk (lineText method (b :: blanks) url blanks' version) = some method.length := by
    refine List.findIdx?_eq_some_iff_getElem.mpr ⟨by simp [lineText], ?_, fun j hj => ?_⟩
    · simp [lineText, hb.2 b List.mem_cons_self]
    · simp only [lineText]
      rw [List.getElem_append_left hj]
      simp [hm _ (List.getElem_mem hj)]
  rcases HttpConn.parseRequestLine_cstr h with ⟨hnone, _⟩ | ⟨i, buf, hi, _, _, hrest, hline⟩
  · cases hnone.symm.trans hfind
  cases hi.symm.trans hfind
  have hname : (lineText method (b :: blanks) url blanks' version).take method.length = method := by
    simp [lineText]
  have htext : (lineText method (b :: blanks) url blanks' version).drop (method.length + 1) =
      blanks ++ (url ++ (blanks' ++ version)) := by
    rw [← List.drop_drop, lineText, List.drop_left]
    rfl
  rw [hname] at hline
  rw [htext] at hrest
  unfold spelledMethod at hmethod
  split at hmethod
  next => cases hmethod
  next hget =>
    split at hmethod
    next => cases hmethod
    next hpose =>
      have hparse : c.parseRequestLine text =
          some ({ c with readBuf := buf, url := .into (text + method.length + 1) }, .badRequest) := by
        simp only [hline, hget, hpose, if_false, Bool.false_eq_true]
      refine ⟨⟨buf.cstr (text + method.length + 1), c.method, c.cgi, c.checkState, .badRequest⟩, ?_, hrest⟩
      rw [HttpConn.lineEnd, hparse]
      rfl

/-- An absolute resource is refused, as the prefix that it has is not the one the code looks for. -/
theorem HttpConn.parseRequestLine_absolute {c : HttpConn} {text : Nat} (hm : IsWord method) (hb : IsBlanks blanks)
    (hu : IsWord url) (habs : isAbsolute url = true) (hb' : IsBlanks blanks')
    (hv : strcaseEq version (bytes "HTTP/1.1") = true)
    (h : c.readBuf.cstr text = some (lineText method blanks url blanks' version)) :
    ∃ c', c.parseRequestLine text = some (c', .badRequest) := by
  have hne : url ≠ [] := by
    rintro rfl
    exact absurd habs (by decide)
  obtain ⟨hfirst, hword, hversion⟩ := lineText_words hm hb hu hne hb' hv
  cases hs : spelledMethod method with
  | none =>
    obtain ⟨c', hbad, _⟩ := (HttpConn.parseRequestLine_words h).1 (Or.inl (by rw [hfirst]; exact hs))
    exact ⟨c', hbad⟩
  | some m =>
    have hmis : isMisspelt url = false := by
      by_contra hmis
      rw [Bool.not_eq_false] at hmis
      rw [isMisspelt_not_absolute hmis] at habs
      cases habs
    obtain ⟨h1, h2⟩ := Bool.or_eq_false_iff.mp hmis
    have hrefuse := HttpConn.refuses_iff h (by rw [hfirst]; exact hs) (by rw [hversion]; exact hv)
    rw [hword] at hrefuse
    obtain ⟨c', hbad, _⟩ := hrefuse.mpr ⟨isAbsolute_head habs, h1, by simp [h2]⟩
    exact ⟨c', hbad⟩

theorem HttpConn.parseRequestLine_relative {c : HttpConn} {text : Nat} {m : Method} (hm : IsWord method)
    (hb : IsBlanks blanks) (hu : IsWord url) (hslash : url.head? = some 47) (hb' : IsBlanks blanks')
    (hv : strcaseEq version (bytes "HTTP/1.1") = true) (hs : spelledMethod method = some m)
    (h : c.readBuf.cstr text = some (lineText method blanks url blanks' version)) :
    ∀ c', c.parseRequestLine text ≠ some (c', .badRequest) := by
  intro c' hbad
  have hne : url ≠ [] := by
    rintro rfl
    cases hslash
  obtain ⟨hfirst, hword, hversion⟩ := lineText_words hm hb hu hne hb' hv
  obtain ⟨buf, v, hcut, hparse⟩ := (HttpConn.parseRequestLine_words h).2 m (by rw [hfirst]; exact hs)
    (by rw [hversion]; exact hv)
  rw [hword] at hcut
  have hmis : isMisspelt url = false := not_misspelt_of_slash hslash
  generalize hc1 : ({ c with
    readBuf := buf
    url := .into (resourceAt text (lineText method blanks url blanks' version))
    version := v }.withMethod m) = c1 at hparse
  have hbuf : c1.readBuf.cstr (resourceAt text (lineText method blanks url blanks' version)) = some url := by
    rw [← hc1, HttpConn.withMethod_readBuf]
    exact hcut
  rw [hparse, (HttpConn.parseUrl_word hbuf).1 hmis] at hbad
  exact HttpConn.parsePath_slash hbuf hslash c' hbad

theorem isWord_of_all {s : List UInt8} (h : s.all (!isBlank ·) = true) : IsWord s := fun b hb => by
  simpa using List.all_eq_true.mp h b hb

theorem isBlanks_space : IsBlanks (bytes " ") := ⟨by decide, List.all_eq_true.mp rfl⟩

/-- The two spellings of the prefix that browsers send. -/
def IsScheme (scheme : List UInt8) : Prop := scheme = bytes "http://" ∨ scheme = bytes "https://"

theorem IsScheme.absolute (h : IsScheme scheme) (rest : List UInt8) : isAbsolute (scheme ++ rest) = true := by
  rcases h with rfl | rfl <;> rfl

theorem IsScheme.word (h : IsScheme scheme) : IsWord scheme := by
  rcases h with rfl | rfl <;> exact isWord_of_all rfl

theorem HttpConn.lineEnd_ne {c c' : HttpConn} {text : Nat} (hm : IsWord method) (hb : IsBlanks blanks)
    (hs : IsScheme scheme) (hhost : IsWord host) (hpath : IsWord path) (hb' : IsBlanks blanks')
    (hv : strcaseEq version (bytes "HTTP/1.1") = true)
    (habs : c.readBuf.cstr text = some (lineText method blanks (scheme ++ (host ++ 47 :: path)) blanks' version))
    (hrel : c'.readBuf.cstr text = some (lineText method blanks (47 :: path) blanks' version)) :
    c.lineEnd text ≠ c'.lineEnd text := by
  have hword : IsWord (47 :: path) := by
    intro b hmem
    rcases List.mem_cons.mp hmem with rfl | hmem
    · rfl
    · exact hpath b hmem
  have hfull : IsWord (scheme ++ (host ++ 47 :: path)) := by
    intro b hmem
    rcases List.mem_append.mp hmem with hmem | hmem
    · exact hs.word b hmem
    · exact (List.mem_append.mp hmem).elim (hhost b) (hword b)
  intro heq
  cases hknown : spelledMethod method with
  | none =>
    obtain ⟨e, he, hurl⟩ := HttpConn.lineEnd_unknown hm hb hknown habs
    obtain ⟨e', he', hurl'⟩ := HttpConn.lineEnd_unknown hm hb hknown hrel
    rw [he, he'] at heq
    cases Option.some.inj heq
    have hlen := congrArg List.length (Option.some.inj (hurl.symm.trans hurl'))
    have hpos : 0 < scheme.length := by
      rcases hs with rfl | rfl <;> decide
    simp only [List.length_append, List.length_cons] at hlen
    omega
  | some m =>
    obtain ⟨c1, hbad⟩ := HttpConn.parseRequestLine_absolute hm hb hfull (hs.absolute _) hb' hv habs
    have hne := HttpConn.parseRequestLine_relative hm hb hword rfl hb' hv hknown hrel
    simp only [HttpConn.lineEnd, hbad, Option.map_some] at heq
    obtain ⟨⟨c2, code⟩, hparse, he⟩ := Option.map_eq_some_iff.mp heq.symm
    have hcode : code = .badRequest := congrArg LineEnd.code he
    rw [hcode] at hparse
    exact hne c2 hparse

/-- An absolute resource never ends like its path; without a slash behind the host it is
refused as it should be. -/
theorem absoluteUrl_never_same (c : HttpConn) (text : Nat) (method blanks scheme host path blanks' version : List UInt8)
    (hm : IsWord method) (hb : IsBlanks blanks) (hs : IsScheme scheme) (hhost : IsWord host) (hpath : IsWord path)
    (hb' : IsBlanks blanks') (hv : strcaseEq version (bytes "HTTP/1.1") = true) :
    (∀ buf buf' : Buffer readBufferSize,
      buf.cstr text = some (lineText method blanks (scheme ++ (host ++ 47 :: path)) blanks' version) →
      buf'.cstr text = some (lineText method blanks (47 :: path) blanks' version) →
      HttpConn.lineEnd { c with readBuf := buf } text ≠ HttpConn.lineEnd { c with readBuf := buf' } text) ∧
    ∀ buf : Buffer readBufferSize, buf.cstr text = some (lineText method blanks (scheme ++ host) blanks' version) →
      ∃ c', HttpConn.parseRequestLine { c with readBuf := buf } text = some (c', .badRequest) := by
  refine ⟨fun buf buf' habs hrel => HttpConn.lineEnd_ne hm hb hs hhost hpath hb' hv habs hrel, fun buf hbuf => ?_⟩
  have hword : IsWord (scheme ++ host) := fun b hmem => (List.mem_append.mp hmem).elim (hs.word b) (hhost b)
  exact HttpConn.parseRequestLine_absolute hm hb hword (hs.absolute host) hb' hv hbuf

theorem absoluteUrl_never_same_sample :
    (HttpConn.holding (bytes "GET http://h/a HTTP/1.1") (by decide)).lineEnd 0 ≠
      (HttpConn.holding (bytes "GET /a HTTP/1.1") (by decide)).lineEnd 0 :=
  (absoluteUrl_never_same HttpConn.zero 0 (bytes "GET") (bytes " ") (bytes "http://") (bytes "h") (bytes "a")
    (bytes " ") (bytes "HTTP/1.1") (isWord_of_all rfl) isBlanks_space (Or.inl rfl) (isWord_of_all rfl)
    (isWord_of_all rfl) isBlanks_space rfl).1 _ _
    (@HttpConn.holding_cstr (bytes "GET http://h/a HTTP/1.1") (by decide) (by decide))
    (@HttpConn.holding_cstr (bytes "GET /a HTTP/1.1") (by decide) (by decide))

/-- An absolute resource is refused where its path is taken. -/
theorem absoluteUrl_not_always_same :
    ¬ ∀ (c : HttpConn) (text : Nat) (method blanks scheme host path blanks' version : List UInt8),
      IsWord method → IsBlanks blanks → IsScheme scheme → host ≠ [] ∧ IsWord host ∧ 47 ∉ host → IsWord path →
      IsBlanks blanks' → strcaseEq version (bytes "HTTP/1.1") = true →
      (∀ buf buf' : Buffer readBufferSize,
        buf.cstr text = some (lineText method blanks (scheme ++ (host ++ 47 :: path)) blanks' version) →
        buf'.cstr text = some (lineText method blanks (47 :: path) blanks' version) →
        HttpConn.lineEnd { c with readBuf := buf } text = HttpConn.lineEnd { c with readBuf := buf' } text) ∧
      ∀ buf : Buffer readBufferSize, buf.cstr text = some (lineText method blanks (scheme ++ host) blanks' version) →
        ∃ c', HttpConn.parseRequestLine { c with readBuf := buf } text = some (c', .badRequest) := by
  intro h
  have hget : IsWord (bytes "GET") := isWord_of_all rfl
  have hhost : IsWord (bytes "h") := isWord_of_all rfl
  have hpath : IsWord (bytes "a") := isWord_of_all rfl
  have habs := @HttpConn.holding_cstr (bytes "GET http://h/a HTTP/1.1") (by decide) (by decide)
  have hrel := @HttpConn.holding_cstr (bytes "GET /a HTTP/1.1") (by decide) (by decide)
  have hsame := (h HttpConn.zero 0 (bytes "GET") (bytes " ") (bytes "http://") (bytes "h") (bytes "a") (bytes " ")
    (bytes "HTTP/1.1") hget isBlanks_space (Or.inl rfl) ⟨by decide, hhost, by decide⟩ hpath isBlanks_space rfl).1 _ _ habs hrel
  exact HttpConn.lineEnd_ne hget isBlanks_space (Or.inl rfl) hhost hpath isBlanks_space rfl habs hrel hsame

end CppInAction
