import CppInAction.HttpAbsolute
import CppInAction.HttpHeaders
import CppInAction.HttpRequest
import Mathlib.Data.List.DropRight

namespace CppInAction

/-- The m_root that the constructor of the server builds: getcwd leaves an array of 200
unwritten when the path and its terminator do not fit. -/
def serverRoot (cwd : List UInt8) : Option (List UInt8) :=
  if cwd.length < 200 then some (cwd ++ bytes "/root") else none

/-- A connection in do_request: parse_request_line has taken the resource, and m_real_file is
as init has left it. -/
structure HttpConn.Accepted (c : HttpConn) (off : Nat) (url : List UInt8) : Prop where
  url_eq : c.url = .into off
  text : c.readBuf.cstr off = some url
  slash : url.head? = some 47
  file : c.realFile = Buffer.zero _

/-- The character after the last slash of a resource. -/
def routeDigit (url : List UInt8) : UInt8 := (url.rtakeWhile (· ≠ 47)).headD 0

/-- The request is a login or a registration, by its method and its resource. -/
def HttpConn.FormRoute (c : HttpConn) (url : List UInt8) : Prop :=
  c.cgi = 1 ∧ (routeDigit url = 50 ∨ routeDigit url = 51)

instance (c : HttpConn) (url : List UInt8) : Decidable (c.FormRoute url) :=
  inferInstanceAs (Decidable (_ ∧ _))

/-- What the request is for: the page that answers the form, the page of the digit, or the
resource itself. -/
def HttpConn.wants (c : HttpConn) (w : World) (url : List UInt8) : Option (List UInt8) :=
  if c.FormRoute url then do
    let form ← readForm c.readBuf c.string
    let answer ← w.answer (routeDigit url) form
    some answer.2
  else some ((staticPage (routeDigit url)).getD url)

/-- Whatever files there are, do_request returns and serves none of them. -/
def HttpConn.Refused (c : HttpConn) (w : World) : Prop :=
  ∀ files, ∃ r, c.doRequest { w with files := files } = some r ∧ r.code ≠ .fileRequest

/-- m_real_file ends up as the document root with the whole page behind it, or the request is refused. -/
def HttpConn.NamesWhole (c : HttpConn) (w : World) (page : List UInt8) : Prop :=
  (∃ c' w' form, c.locate w = some (c', w', form) ∧ c'.realFile.cstr 0 = some (c.docRoot ++ page)) ∨ c.Refused w

theorem routeDigit_append {front name : List UInt8} (h : 47 ∉ name) : routeDigit (front ++ 47 :: name) = name.headD 0 := by
  have hlast : (name.reverse ++ 47 :: front.reverse).takeWhile (· ≠ 47) = name.reverse := by
    rw [List.takeWhile_append_of_pos]
    · simp
    · intro b hb
      have hne : b ≠ 47 := fun heq => h (heq ▸ List.mem_reverse.mp hb)
      simpa using hne
  have hreverse : (front ++ 47 :: name).reverse = name.reverse ++ 47 :: front.reverse := by simp
  rw [routeDigit, List.rtakeWhile, hreverse, hlast, List.reverse_reverse]

section Routes

variable {c c' : HttpConn} {w w' : World} {off q : Nat} {url page mid path : List UInt8} {digit : UInt8}

/-- Where do_request looks for the character after the last slash. -/
theorem HttpConn.Accepted.mark (h : c.Accepted off url) :
    ∃ q, c.urlMark = some (off, q) ∧ off ≤ q ∧ c.readBuf.bytes[q]? = some (routeDigit url) ∧
      (routeDigit url ≠ 0 → 2 ≤ url.length) := by
  obtain ⟨front, name, rfl, hname⟩ := exists_last (List.mem_of_mem_head? h.slash)
  obtain ⟨tail, htext, _⟩ := Buffer.cstr_eq_some_iff.mp h.text
  rw [routeDigit_append hname]
  refine ⟨off + front.length + 1, ?_, by omega, ?_, fun hdigit => ?_⟩
  · simp only [HttpConn.urlMark, h.url_eq, h.text, Option.bind_eq_bind, Option.bind_some, strrchr_append hname]
  · rw [Nat.add_assoc, ← List.getElem?_drop, htext, List.append_assoc, List.getElem?_append_right (by omega),
      Nat.add_sub_cancel_left]
    cases name with
    | nil => rfl
    | cons b name => rfl
  · cases name with
    | nil => exact absurd rfl hdigit
    | cons b name =>
      simp only [List.length_append, List.length_cons]
      omega

/-- The copy of the document root into the zeroed m_real_file. -/
theorem HttpConn.Accepted.rooted (h : c.Accepted off url) (hroot : c.docRoot.length < fileNameLen) :
    ∃ file, c.realFile.blit 0 (c.docRoot ++ [0]) = some file ∧
      file.bytes = c.docRoot ++ List.replicate (fileNameLen - c.docRoot.length) 0 := by
  obtain ⟨k, hk⟩ : ∃ k, fileNameLen = c.docRoot.length + 1 + k := ⟨fileNameLen - c.docRoot.length - 1, by omega⟩
  have hzero : c.realFile.bytes = [] ++ List.replicate (c.docRoot.length + 1) 0 ++ List.replicate k 0 := by
    rw [h.file, List.nil_append, List.replicate_append_replicate, ← hk]
    rfl
  obtain ⟨file, hblit, hbytes⟩ : ∃ file, c.realFile.blit 0 (c.docRoot ++ [0]) = some file ∧
      file.bytes = [] ++ (c.docRoot ++ [0]) ++ List.replicate k 0 := Buffer.blit_between hzero (by simp)
  refine ⟨file, hblit, ?_⟩
  have hrest : fileNameLen - c.docRoot.length = 1 + k := by omega
  rw [hbytes, hrest, List.replicate_add]
  simp

/-- m_url copied behind the root: as much of it as there is room for, with a terminator. -/
theorem HttpConn.route_direct (hfile : c.realFile.bytes = c.docRoot ++ mid ++ [0])
    (hdigit : c.readBuf.bytes[q]? = some digit) (hstatic : staticPage digit = none) (hroot : 0 ∉ c.docRoot)
    (htext : c.readBuf.cstr off = some page) :
    ∃ file, c.route off q = some { c with realFile := file } ∧
      file.cstr 0 = some (c.docRoot ++ page.take (fileNameLen - c.docRoot.length - 1)) := by
  have hlen := c.realFile.length_eq
  rw [hfile] at hlen
  simp only [List.length_append, List.length_singleton] at hlen
  have hmid : mid.length = (strncpy page (fileNameLen - c.docRoot.length - 1)).length := by
    rw [strncpy_length]
    omega
  obtain ⟨file, hblit, hbytes⟩ := Buffer.blit_between hfile hmid
  obtain ⟨_, _, hpage⟩ := Buffer.cstr_eq_some_iff.mp htext
  refine ⟨file, ?_, Buffer.cstr_eq_some_iff.mpr
    ⟨List.replicate (fileNameLen - c.docRoot.length - 1 - page.length) 0, ?_, ?_⟩⟩
  · simp only [HttpConn.route, HttpConn.routeText, hdigit, hstatic, htext, Option.bind_eq_bind, Option.bind_some,
      Option.map_some, hblit]
  · rw [hbytes, List.append_assoc, strncpy_zero, List.drop_zero, List.append_assoc]
  · simp only [List.mem_append, not_or]
    exact ⟨hroot, fun hmem => hpage (List.mem_of_mem_take hmem)⟩

/-- The page of a digit is copied without a terminator, so that a zero of init must follow it. -/
theorem HttpConn.route_static (hfile : c.realFile.bytes = c.docRoot ++ List.replicate (fileNameLen - c.docRoot.length) 0)
    (hdigit : c.readBuf.bytes[q]? = some digit) (hstatic : staticPage digit = some page) (hroot : 0 ∉ c.docRoot)
    (hpage : 0 ∉ page) (hroom : c.docRoot.length + page.length < fileNameLen) :
    ∃ file, c.route off q = some { c with realFile := file } ∧ file.cstr 0 = some (c.docRoot ++ page) := by
  obtain ⟨k, hk⟩ : ∃ k, fileNameLen - c.docRoot.length = page.length + (1 + k) :=
    ⟨fileNameLen - c.docRoot.length - page.length - 1, by omega⟩
  rw [hk, List.replicate_add, ← List.append_assoc] at hfile
  obtain ⟨file, hblit, hbytes⟩ : ∃ file, c.realFile.blit c.docRoot.length page = some file ∧
      file.bytes = c.docRoot ++ page ++ List.replicate (1 + k) 0 := Buffer.blit_between hfile (by simp)
  refine ⟨file, ?_, Buffer.cstr_eq_some_iff.mpr ⟨List.replicate k 0, ?_, ?_⟩⟩
  · simp only [HttpConn.route, HttpConn.routeText, hdigit, hstatic, Option.bind_eq_bind, Option.bind_some, hblit]
  · rw [hbytes, List.replicate_add]
    rfl
  · simp only [List.mem_append, not_or]
    exact ⟨hroot, hpage⟩

/-- No character of an answering page, nor its terminator, nor the digit of a form stands for a page. -/
theorem staticPage_answer (hpage : page ∈ answerPages)
    (h : digit ∈ page ++ [0] ∨ digit = 50 ∨ digit = 51) : staticPage digit = none := by
  have hall : answerPages.all (fun page => (page ++ [0]).all fun b => staticPage b = none) = true := by decide
  rcases h with hmem | rfl | rfl
  · have hone := List.all_eq_true.mp (List.all_eq_true.mp hall page hpage) digit hmem
    simpa using hone
  · rfl
  · rfl

theorem HttpConn.doForm_copies {rest : List UInt8} {form : Form} {buf : Buffer readBufferSize}
    (hfile : c.realFile.bytes = c.docRoot ++ List.replicate (fileNameLen - c.docRoot.length) 0)
    (hroot : c.docRoot.length < fileNameLen) (hrest : c.readBuf.cstr (off + 2) = some rest) (hlen : rest.length < 199)
    (hform : readForm c.readBuf c.string = some form) (hanswer : w.answer digit form = some (w', page))
    (hblit : c.readBuf.blit off (page ++ [0]) = some buf) :
    ∃ file mid, c.doForm w off digit = some ({ c with realFile := file, readBuf := buf }, w', form) ∧
      file.bytes = c.docRoot ++ mid ++ [0] := by
  obtain ⟨k, hk⟩ : ∃ k, fileNameLen - c.docRoot.length = k + 1 := ⟨fileNameLen - c.docRoot.length - 1, by omega⟩
  rw [hk, List.replicate_add, ← List.append_assoc] at hfile
  obtain ⟨file, hcopy, hbytes⟩ : ∃ file, c.realFile.blit c.docRoot.length (strncpy (47 :: rest) k) = some file ∧
      file.bytes = c.docRoot ++ strncpy (47 :: rest) k ++ [0] := by
    refine Buffer.blit_between hfile ?_
    rw [strncpy_length, List.length_replicate]
  refine ⟨file, strncpy (47 :: rest) k, ?_, hbytes⟩
  have hcount : fileNameLen - c.docRoot.length - 1 = k := by omega
  simp only [HttpConn.doForm, hrest, Option.bind_eq_bind, Option.bind_some, if_neg (Nat.not_le.mpr hlen), hcount, hcopy,
    hform, hanswer, hblit]

theorem HttpConn.locate_root {r : HttpConn × World × Option Form} (h : c.locate w = some r) :
    c.docRoot.length < fileNameLen := by
  obtain ⟨file, hblit, _⟩ := Option.bind_eq_some_iff.mp h
  obtain ⟨hfits, _⟩ := Buffer.blit_eq_some_iff.mp hblit
  rw [List.length_append, List.length_singleton] at hfits
  omega

/-- do_request up to the routing, with m_real_file holding the root: the routing alone, or the
form before it. -/
theorem HttpConn.Accepted.locate_cases (h : c.Accepted off url) (hroot : c.docRoot.length < fileNameLen) :
    ∃ file q, file.bytes = c.docRoot ++ List.replicate (fileNameLen - c.docRoot.length) 0 ∧ off ≤ q ∧
      c.readBuf.bytes[q]? = some (routeDigit url) ∧ ∀ w,
      (c.FormRoute url → c.locate w = ({ c with realFile := file }.doForm w off (routeDigit url)).bind fun r =>
        (r.1.route off q).map (·, r.2.1, some r.2.2)) ∧
      (¬ c.FormRoute url → c.locate w = ({ c with realFile := file }.route off q).map (·, w, none)) := by
  obtain ⟨file, hblit, hbytes⟩ := h.rooted hroot
  obtain ⟨q, hmark, hq, hdigit, _⟩ := h.mark
  refine ⟨file, q, hbytes, hq, hdigit, fun w => ⟨fun hform => ?_, fun hform => ?_⟩⟩
  · unfold HttpConn.FormRoute at hform
    simp only [HttpConn.locate, hblit, hmark, hdigit, Option.bind_eq_bind, Option.bind_some, if_pos hform]
    congr 1
    funext r
    cases r.1.route off q <;> rfl
  · unfold HttpConn.FormRoute at hform
    simp only [HttpConn.locate, hblit, hmark, hdigit, Option.bind_eq_bind, Option.bind_some, if_neg hform]
    cases HttpConn.route { c with realFile := file } off q <;> rfl

theorem HttpConn.Accepted.direct_names (h : c.Accepted off url) (hzero : 0 ∉ c.docRoot)
    (hroot : c.docRoot.length < fileNameLen) (hform : ¬ c.FormRoute url) (hstatic : staticPage (routeDigit url) = none) :
    ∃ c', c.locate w = some (c', w, none) ∧
      c'.realFile.cstr 0 = some (c.docRoot ++ url.take (fileNameLen - c.docRoot.length - 1)) := by
  obtain ⟨file, q, hfile, _, hdigit, hlocate⟩ := h.locate_cases hroot
  obtain ⟨k, hk⟩ : ∃ k, fileNameLen - c.docRoot.length = k + 1 := ⟨fileNameLen - c.docRoot.length - 1, by omega⟩
  rw [hk, List.replicate_add, ← List.append_assoc] at hfile
  obtain ⟨file', hroute, hcstr⟩ := @HttpConn.route_direct { c with realFile := file } off q url _ _ hfile hdigit
    hstatic hzero h.text
  refine ⟨{ c with realFile := file' }, ?_, hcstr⟩
  rw [(hlocate w).2 hform, hroute]
  rfl

theorem HttpConn.Accepted.static_names (h : c.Accepted off url) (hzero : 0 ∉ c.docRoot) (hform : ¬ c.FormRoute url)
    (hstatic : staticPage (routeDigit url) = some page) (hpage : 0 ∉ page)
    (hroom : c.docRoot.length + page.length < fileNameLen) :
    ∃ c', c.locate w = some (c', w, none) ∧ c'.realFile.cstr 0 = some (c.docRoot ++ page) := by
  obtain ⟨file, q, hfile, _, hdigit, hlocate⟩ := h.locate_cases (by omega)
  obtain ⟨file', hroute, hcstr⟩ := @HttpConn.route_static { c with realFile := file } off q page _ hfile hdigit
    hstatic hzero hpage hroom
  refine ⟨{ c with realFile := file' }, ?_, hcstr⟩
  rw [(hlocate w).2 hform, hroute]
  rfl

theorem answerPages_free (h : page ∈ answerPages) : 0 ∉ page := by
  have hall : answerPages.all (fun page => !page.contains 0) = true := by decide
  simpa using List.all_eq_true.mp hall page h

theorem HttpConn.Accepted.form_rest (h : c.Accepted off url) (hform : c.FormRoute url) :
    2 ≤ url.length ∧ c.readBuf.cstr (off + 2) = some (url.drop 2) := by
  obtain ⟨_, _, _, _, hlong⟩ := h.mark
  have htwo : 2 ≤ url.length := by
    apply hlong
    rcases hform.2 with hdigit | hdigit <;> rw [hdigit] <;> decide
  exact ⟨htwo, Buffer.cstr_drop h.text htwo⟩

theorem HttpConn.Accepted.form_names {form : Form} (h : c.Accepted off url) (hzero : 0 ∉ c.docRoot)
    (hroot : c.docRoot.length < fileNameLen) (hform : c.FormRoute url) (hread : readForm c.readBuf c.string = some form)
    (hanswer : w.answer (routeDigit url) form = some (w', page)) (hlen : url.length ≤ 200)
    (hroom : off + page.length < readBufferSize) :
    ∃ c', c.locate w = some (c', w', some form) ∧
      c'.realFile.cstr 0 = some (c.docRoot ++ page.take (fileNameLen - c.docRoot.length - 1)) := by
  obtain ⟨file, q, hfile, hq, hdigit, hlocate⟩ := h.locate_cases hroot
  have hpage := (World.answer_spec hanswer).2
  obtain ⟨htwo, hrest⟩ := h.form_rest hform
  have hfits : off + (page ++ [0]).length ≤ readBufferSize := by
    rw [List.length_append, List.length_singleton]
    omega
  obtain ⟨buf, hblit, _⟩ := Buffer.take_blit (b := c.readBuf) hfits
  obtain ⟨file', mid, hdo, hfile'⟩ := @HttpConn.doForm_copies { c with realFile := file } w w' off page
    (routeDigit url) (url.drop 2) form buf hfile hroot hrest (by rw [List.length_drop]; omega) hread hanswer hblit
  -- the character behind the slash is now one of the page, or still the digit of the form
  obtain ⟨digit, hagain⟩ : ∃ digit, buf.bytes[q]? = some digit := by
    obtain ⟨hlt, _⟩ := List.getElem?_eq_some_iff.mp hdigit
    rw [c.readBuf.length_eq, ← buf.length_eq] at hlt
    exact ⟨_, List.getElem?_eq_getElem hlt⟩
  have hstatic : staticPage digit = none := by
    apply staticPage_answer hpage
    rcases Buffer.getElem?_blit hblit hq hagain with hmem | hsame
    · exact Or.inl hmem
    · right
      rw [hdigit] at hsame
      rw [← Option.some.inj hsame]
      exact hform.2
  obtain ⟨file2, hroute, hcstr⟩ := @HttpConn.route_direct { c with realFile := file', readBuf := buf } off q page mid
    digit hfile' hagain hstatic hzero (Buffer.cstr_blit hblit (answerPages_free hpage))
  refine ⟨{ c with realFile := file2, readBuf := buf }, ?_, hcstr⟩
  rw [(hlocate w).1 hform, hdo, Option.bind_some]
  simp only
  rw [hroute]
  rfl

theorem HttpConn.Accepted.form_inv {f : Option Form} (h : c.Accepted off url) (hform : c.FormRoute url)
    (hlocated : c.locate w = some (c', w', f)) :
    ∃ form page, readForm c.readBuf c.string = some form ∧ w.answer (routeDigit url) form = some (w', page) ∧
      url.length ≤ 200 ∧ off + page.length < readBufferSize := by
  obtain ⟨file, q, _, _, _, hlocate⟩ := h.locate_cases (HttpConn.locate_root hlocated)
  rw [(hlocate w).1 hform] at hlocated
  obtain ⟨⟨c1, w1, form⟩, hdo, hroute⟩ := Option.bind_eq_some_iff.mp hlocated
  obtain ⟨_, _, hsame⟩ := Option.map_eq_some_iff.mp hroute
  obtain ⟨_, hsame⟩ := Prod.mk.inj hsame
  obtain ⟨rfl, _⟩ := Prod.mk.inj hsame
  obtain ⟨rest, page, _, buf, hrest, hlen, hread, hanswer, hblit, _⟩ := HttpConn.doForm_split hdo
  refine ⟨form, page, hread, hanswer, ?_, ?_⟩
  · obtain ⟨htwo, hskip⟩ := h.form_rest hform
    have hdrop := Option.some.inj (hskip.symm.trans hrest)
    rw [← hdrop, List.length_drop] at hlen
    omega
  · obtain ⟨hfits, _⟩ := Buffer.blit_eq_some_iff.mp hblit
    rw [List.length_append, List.length_singleton] at hfits
    omega

/-- With a readable file at every path a request that is routed is served. -/
theorem HttpConn.Accepted.not_refused (h : c.Accepted off url) : ¬ c.Refused w := by
  intro hrefused
  obtain ⟨r, hr, hcode⟩ := hrefused fun _ => some ⟨true, false, true, []⟩
  obtain ⟨⟨c1, w1, f⟩, hlocate, hr⟩ := Option.bind_eq_some_iff.mp hr
  obtain ⟨⟨c2, code⟩, hserve, hr⟩ := Option.bind_eq_some_iff.mp hr
  have hfiles : w1.files = fun _ => some ⟨true, false, true, []⟩ := by
    by_cases hform : c.FormRoute url
    · obtain ⟨form, page, _, hanswer, _⟩ := h.form_inv hform hlocate
      exact (World.answer_spec hanswer).1
    · obtain ⟨file, q, _, _, _, hcases⟩ := h.locate_cases (HttpConn.locate_root hlocate)
      rw [(hcases _).2 hform] at hlocate
      obtain ⟨_, _, hsame⟩ := Option.map_eq_some_iff.mp hlocate
      rw [← (Prod.mk.inj (Prod.mk.inj hsame).2).1]
  obtain ⟨path, _, hserve⟩ := Option.bind_eq_some_iff.mp hserve
  simp only [hfiles, Bool.true_eq_false, if_false, Bool.false_eq_true, Option.some.injEq, Prod.mk.injEq] at hserve
  cases Option.some.inj hr
  exact hcode hserve.2.symm

theorem HttpConn.wants_form (hform : c.FormRoute url) (h : c.wants w url = some page) :
    ∃ form w', readForm c.readBuf c.string = some form ∧ w.answer (routeDigit url) form = some (w', page) := by
  rw [HttpConn.wants, if_pos hform] at h
  obtain ⟨form, hread, h⟩ := Option.bind_eq_some_iff.mp h
  obtain ⟨⟨w', page'⟩, hanswer, h⟩ := Option.bind_eq_some_iff.mp h
  cases Option.some.inj h
  exact ⟨form, w', hread, hanswer⟩

theorem staticPage_free (h : staticPage digit = some page) : 0 ∉ page := by
  unfold staticPage at h
  split_ifs at h
  all_goals
    cases Option.some.inj h
    decide

theorem HttpConn.Accepted.names (h : c.Accepted off url) (hzero : 0 ∉ c.docRoot) (hpage : c.wants w url = some page)
    (hroom : c.docRoot.length + page.length < fileNameLen)
    (hlen : c.FormRoute url → url.length ≤ 200 ∧ off + page.length < readBufferSize) :
    ∃ c' w' form, c.locate w = some (c', w', form) ∧ c'.realFile.cstr 0 = some (c.docRoot ++ page) := by
  have hwhole : page.take (fileNameLen - c.docRoot.length - 1) = page := List.take_of_length_le (by omega)
  by_cases hform : c.FormRoute url
  · obtain ⟨form, w', hread, hanswer⟩ := HttpConn.wants_form hform hpage
    obtain ⟨hurl, hbuf⟩ := hlen hform
    obtain ⟨c', hlocate, hcstr⟩ := h.form_names hzero (by omega) hform hread hanswer hurl hbuf
    rw [hwhole] at hcstr
    exact ⟨c', w', some form, hlocate, hcstr⟩
  · rw [HttpConn.wants, if_neg hform] at hpage
    cases hstatic : staticPage (routeDigit url) with
    | some text =>
      rw [hstatic] at hpage
      cases Option.some.inj hpage
      obtain ⟨c', hlocate, hcstr⟩ := @HttpConn.Accepted.static_names c w off url text h hzero hform hstatic
        (staticPage_free hstatic) hroom
      exact ⟨c', w, none, hlocate, hcstr⟩
    | none =>
      rw [hstatic] at hpage
      cases Option.some.inj hpage
      obtain ⟨c', hlocate, hcstr⟩ := @HttpConn.Accepted.direct_names c w off url h hzero (by omega) hform hstatic
      rw [Option.getD_none] at hwhole
      rw [hwhole] at hcstr
      exact ⟨c', w, none, hlocate, hcstr⟩

end Routes

section Accepting

variable {c c' : HttpConn} {text : Nat}

theorem HttpConn.parsePath_accepted {off : Nat} (h : c.parsePath off = some (c', .noRequest))
    (hfile : c.realFile = Buffer.zero _) : c'.docRoot = c.docRoot ∧ ∃ url, c'.Accepted off url := by
  obtain ⟨url, htext, _⟩ := Option.bind_eq_some_iff.mp h
  obtain ⟨hno, hfits, hfull, hother⟩ := HttpConn.parsePath_word htext
  by_cases hslash : url.head? = some 47
  · by_cases hone : url = [47]
    · by_cases hroom : off + 12 ≤ readBufferSize
      · obtain ⟨buf, hcstr, hparse⟩ := hfits hone hroom
        cases Option.some.inj (hparse.symm.trans h)
        exact ⟨rfl, _, rfl, hcstr, rfl, hfile⟩
      · cases (hfull hone hroom).symm.trans h
    · cases Option.some.inj ((hother hslash hone).symm.trans h)
      exact ⟨rfl, url, rfl, htext, hslash, hfile⟩
  · cases (hno hslash).symm.trans h

theorem HttpConn.parseUrl_accepted {off : Nat} (h : c.parseUrl off = some (c', .noRequest))
    (hfile : c.realFile = Buffer.zero _) : c'.docRoot = c.docRoot ∧ ∃ off url, c'.Accepted off url := by
  obtain ⟨s, _, h⟩ := Option.bind_eq_some_iff.mp h
  obtain ⟨k, _, h⟩ := Option.bind_eq_some_iff.mp h
  obtain ⟨s', _, h⟩ := Option.bind_eq_some_iff.mp h
  split at h
  · cases h
  · obtain ⟨hroot, url, haccepted⟩ := HttpConn.parsePath_accepted h hfile
    exact ⟨hroot, _, url, haccepted⟩

theorem HttpConn.parseVersion_accepted (h : c.parseVersion text = some (c', .noRequest))
    (hfile : c.realFile = Buffer.zero _) : c'.docRoot = c.docRoot ∧ ∃ off url, c'.Accepted off url := by
  obtain ⟨blanks, _, h⟩ := Option.bind_eq_some_iff.mp h
  obtain ⟨stop, _, h⟩ := Option.bind_eq_some_iff.mp h
  split at h
  · cases h
  · obtain ⟨buf, _, h⟩ := Option.bind_eq_some_iff.mp h
    obtain ⟨blanks', _, h⟩ := Option.bind_eq_some_iff.mp h
    obtain ⟨known, _, h⟩ := Option.bind_eq_some_iff.mp h
    split at h
    · have hurl := HttpConn.parseUrl_accepted h hfile
      exact hurl
    · cases h

/-- What parse_request_line takes on a connection fresh from init is what do_request expects. -/
theorem HttpConn.parseRequestLine_accepted (h : c.parseRequestLine text = some (c', .noRequest))
    (hfile : c.realFile = Buffer.zero _) : c'.docRoot = c.docRoot ∧ ∃ off url, c'.Accepted off url := by
  obtain ⟨s, _, h⟩ := Option.bind_eq_some_iff.mp h
  split at h
  · cases h
  · obtain ⟨buf, _, h⟩ := Option.bind_eq_some_iff.mp h
    obtain ⟨method, _, h⟩ := Option.bind_eq_some_iff.mp h
    split at h
    · have hget := HttpConn.parseVersion_accepted h hfile
      exact hget
    · split at h
      · have hpost := HttpConn.parseVersion_accepted h hfile
        exact hpost
      · cases h

/-- A GET of a resource on a fresh connection. -/
theorem HttpConn.exists_accepted {url : List UInt8} (root : List UInt8) (hword : IsWord url) (hslash : url.head? = some 47)
    (hne : url ≠ [47]) (hfree : 0 ∉ url) (hlen : url.length < 2000) :
    ∃ (c c' : HttpConn) (off : Nat), c.realFile = Buffer.zero _ ∧ c.parseRequestLine 0 = some (c', .noRequest) ∧
      c'.docRoot = root ∧ c'.cgi = 0 ∧ c'.Accepted off url := by
  generalize hline : lineText (bytes "GET") (bytes " ") url (bytes " ") (bytes "HTTP/1.1") = line
  have hzero : 0 ∉ line := by
    rw [← hline]
    simp only [lineText, List.mem_append, not_or]
    exact ⟨by decide, by decide, hfree, by decide, by decide⟩
  have hfits : line.length < readBufferSize := by
    have hsize : (bytes "GET").length = 3 ∧ (bytes " ").length = 1 ∧ (bytes "HTTP/1.1").length = 8 := ⟨rfl, rfl, rfl⟩
    have hmax : readBufferSize = 2048 := rfl
    rw [← hline]
    simp only [lineText, List.length_append]
    omega
  have hempty : url ≠ [] := by
    rintro rfl
    cases hslash
  have hget : IsWord (bytes "GET") := isWord_of_all rfl
  have hone : strcaseEq (bytes "HTTP/1.1") (bytes "HTTP/1.1") = true := rfl
  obtain ⟨hfirst, hurl, hversion⟩ := lineText_words hget isBlanks_space hword hempty isBlanks_space hone
  rw [hline] at hfirst hurl hversion
  obtain ⟨buf, hcstr⟩ := exists_line hzero hfits
  have hwords := (@HttpConn.parseRequestLine_words { HttpConn.zero with readBuf := buf, docRoot := root } 0 line hcstr).2
    .get (by rw [hfirst]; rfl) (by rw [hversion]; rfl)
  obtain ⟨buf', version, htext, hparse⟩ := hwords
  rw [hurl] at htext
  have hmis : isMisspelt url = false := not_misspelt_of_slash hslash
  generalize hconn : ({ HttpConn.zero with
    readBuf := buf'
    docRoot := root
    url := .into (resourceAt 0 line)
    version := version }.withMethod .get) = c1 at hparse
  have htext' : c1.readBuf.cstr (resourceAt 0 line) = some url := by
    rw [← hconn]
    exact htext
  rw [(HttpConn.parseUrl_word htext').1 hmis, (HttpConn.parsePath_word htext').2.2.2 hslash hne] at hparse
  refine ⟨_, _, resourceAt 0 line, ?_, hparse, ?_, ?_, rfl, htext', hslash, ?_⟩
  · rfl
  all_goals
    rw [← hconn]
    rfl

end Accepting

theorem serverRoot_free {cwd root : List UInt8} (h : serverRoot cwd = some root) (hcwd : 0 ∉ cwd) : 0 ∉ root := by
  unfold serverRoot at h
  split at h
  · cases Option.some.inj h
    simp only [List.mem_append, not_or]
    exact ⟨hcwd, by decide⟩
  · cases h

/-- m_real_file names the whole page behind the root if and only if there is room for both, and for
a form also room for its resource in an allocation of 200 and for the page where m_url points. -/
theorem locate_namesWhole_iff (c : HttpConn) (w : World) (cwd url page : List UInt8) (off : Nat)
    (hroot : serverRoot cwd = some c.docRoot) (hcwd : 0 ∉ cwd) (h : c.Accepted off url)
    (hpage : c.wants w url = some page) :
    c.NamesWhole w page ↔ c.docRoot.length + page.length < fileNameLen ∧
      (c.FormRoute url → url.length ≤ 200 ∧ off + page.length < readBufferSize) := by
  constructor
  · rintro (⟨c', w', form, hlocate, hcstr⟩ | hrefused)
    · have hend := Buffer.cstr_end_lt hcstr
      rw [List.length_append] at hend
      refine ⟨by omega, fun hform => ?_⟩
      obtain ⟨form1, w1, hread1, hanswer1⟩ := HttpConn.wants_form hform hpage
      obtain ⟨form2, page2, hread2, hanswer2, hlen, hbuf⟩ := h.form_inv hform hlocate
      cases Option.some.inj (hread1.symm.trans hread2)
      cases Option.some.inj (hanswer1.symm.trans hanswer2)
      exact ⟨hlen, hbuf⟩
    · exact absurd hrefused h.not_refused
  · rintro ⟨hroom, hlen⟩
    exact Or.inl (h.names (serverRoot_free hroot hcwd) hpage hroom hlen)

/-- A GET of /index in the root of a server started in /srv. -/
theorem locate_namesWhole_iff_index : ∃ c : HttpConn, c.NamesWhole ⟨[], fun _ => true, fun _ => none⟩ (bytes "/index") := by
  have hfree : 0 ∉ bytes "/index" := by decide
  obtain ⟨_, c, off, _, _, hroot, hcgi, haccepted⟩ := HttpConn.exists_accepted (bytes "/srv/root")
    (isWord_of_all rfl) rfl (by decide) hfree (by decide)
  have hform : ¬ c.FormRoute (bytes "/index") := by simp [HttpConn.FormRoute, hcgi]
  have hwants : c.wants ⟨[], fun _ => true, fun _ => none⟩ (bytes "/index") = some (bytes "/index") := by
    rw [HttpConn.wants, if_neg hform]
    rfl
  have hcwd : serverRoot (bytes "/srv") = some c.docRoot := hroot ▸ rfl
  have hiff := locate_namesWhole_iff c ⟨[], fun _ => true, fun _ => none⟩ (bytes "/srv") (bytes "/index")
    (bytes "/index") off hcwd (by decide) haccepted hwants
  refine ⟨c, hiff.mpr ⟨?_, fun h => absurd h hform⟩⟩
  rw [hroot]
  decide

/-- Behind a root of 195 characters the page of the digit 0 runs past m_real_file. -/
theorem locate_not_always_namesWhole :
    ¬ ∀ (c c' : HttpConn) (text : Nat) (w : World) (cwd url page : List UInt8), c.realFile = Buffer.zero _ →
      c.parseRequestLine text = some (c', .noRequest) → serverRoot cwd = some c'.docRoot → 0 ∉ cwd →
      c'.urlText = some url → c'.wants w url = some page → c'.NamesWhole w page := by
  intro h
  generalize hcwd : (47 :: List.replicate 189 97 : List UInt8) = cwd
  have hlen : cwd.length = 190 := by
    rw [← hcwd]
    rfl
  have hzero : 0 ∉ cwd := by
    intro hmem
    rw [← hcwd] at hmem
    rcases List.mem_cons.mp hmem with h0 | h0
    · cases h0
    · exact absurd (List.eq_of_mem_replicate h0) (by decide)
  have hfree : 0 ∉ bytes "/0" := by decide
  obtain ⟨c, c', off, hfile, hparse, hroot, hcgi, haccepted⟩ := HttpConn.exists_accepted (cwd ++ bytes "/root")
    (isWord_of_all rfl) rfl (by decide) hfree (by decide)
  have hform : ¬ c'.FormRoute (bytes "/0") := by simp [HttpConn.FormRoute, hcgi]
  have hwants : c'.wants ⟨[], fun _ => true, fun _ => none⟩ (bytes "/0") = some (bytes "/register.html") := by
    rw [HttpConn.wants, if_neg hform]
    rfl
  have htext : c'.urlText = some (bytes "/0") := by
    rw [HttpConn.urlText, haccepted.url_eq]
    exact haccepted.text
  have hserver : serverRoot cwd = some c'.docRoot := by
    rw [serverRoot, if_pos (by omega), hroot]
  rcases h c c' 0 ⟨[], fun _ => true, fun _ => none⟩ cwd (bytes "/0") (bytes "/register.html") hfile hparse hserver hzero
    htext hwants with ⟨c1, _, _, _, hcstr⟩ | hrefused
  · have hend := Buffer.cstr_end_lt hcstr
    have hsizes : fileNameLen = 200 ∧ (bytes "/root").length = 5 ∧ (bytes "/register.html").length = 14 := ⟨rfl, rfl, rfl⟩
    rw [hroot, List.length_append, List.length_append] at hend
    omega
  · exact haccepted.not_refused hrefused

end CppInAction
