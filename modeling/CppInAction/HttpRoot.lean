import CppInAction.HttpFile
import CppInAction.LexicalPath

namespace CppInAction

def resolvePath (path : List UInt8) : Location (List UInt8) := resolve (path.head? = some 47) (components 47 46 path)

/-- The path stays in the directory after dots and dot-dots are resolved. -/
def Inside (root path : List UInt8) : Prop := (resolvePath (root ++ [47])).Contains (resolvePath path)

/-- Whatever path do_request hands to stat and open is inside the document root. -/
def HttpConn.StaysInside (c : HttpConn) (w : World) : Prop :=
  ∀ c' w' form path, c.locate w = some (c', w', form) → c'.realFile.cstr 0 = some path → Inside c.docRoot path

/-- The request goes to m_url itself, not to the page of a digit or of a form. -/
def HttpConn.GoesDirect (c : HttpConn) (url : List UInt8) : Prop :=
  ¬ c.FormRoute url ∧ staticPage (routeDigit url) = none

/-- A text that climbs some levels above its start goes down again through as many of the last names
of the root. -/
def Returns (root text : List UInt8) : Prop :=
  ((root ++ [47]).head? = some 47 ∨ (walk (components 47 46 text)).above ≤ (walk (components 47 46 root)).names.length) ∧
    (walk (components 47 46 root)).names.drop
      ((walk (components 47 46 root)).names.length - (walk (components 47 46 text)).above) <+:
        (walk (components 47 46 text)).names

instance (root text : List UInt8) : Decidable (Returns root text) := inferInstanceAs (Decidable (_ ∧ _))

example : Returns (bytes "/srv/root") (bytes "/../root/x") ∧ ¬ Returns (bytes "/srv/root") (bytes "/../roots/x") := by
  decide

/-- A page of one name. -/
def PlainPage (page : List UInt8) : Prop := ∃ name, page = 47 :: name ∧ 47 ∉ name ∧ name.head? ≠ some 46

section Inside

variable {root page name : List UInt8}

theorem resolvePath_slash (root text : List UInt8) : resolvePath (root ++ 47 :: text) =
    resolve ((root ++ [47]).head? = some 47) (components 47 46 root ++ components 47 46 text) := by
  have hhead : (root ++ 47 :: text).head? = (root ++ [47]).head? := by cases root <;> rfl
  rw [resolvePath, components_append, hhead]

theorem resolvePath_root (root : List UInt8) : resolvePath (root ++ [47]) =
    resolve ((root ++ [47]).head? = some 47) (components 47 46 root) := by
  have hwalk : walk (components 47 46 root ++ [.here]) = walk (components 47 46 root) := walk_concat _ _
  rw [resolvePath_slash, components_nil, resolve, resolve, hwalk]

theorem inside_slash (root text : List UInt8) : Inside root (root ++ 47 :: text) ↔ Returns root (47 :: text) := by
  rw [Inside, resolvePath_root, resolvePath_slash, contains_append_iff, Returns, walk_slash, decide_eq_true_eq]

theorem inside_self (h : root ≠ []) : Inside root root := by
  have hhead : (root ++ [47]).head? = root.head? := List.head?_append_of_ne_nil _ h
  refine ⟨[], ?_⟩
  rw [resolvePath_root, hhead, ← resolvePath]
  cases resolvePath root <;> simp [Location.below]

theorem returns_nil (root : List UInt8) : Returns root [] := by
  rw [Returns, components_nil]
  simp [walk, Walk.step]

theorem PlainPage.inside (h : PlainPage page) (root : List UInt8) : Inside root (root ++ page) := by
  obtain ⟨name, rfl, hslash, hdot⟩ := h
  rw [Inside, resolvePath_root, resolvePath_slash]
  exact contains_append_of_down _ _ (walk_entry hslash hdot)

/-- A page that is cut anywhere is still inside. -/
theorem PlainPage.inside_take (h : PlainPage page) {n : Nat} (hroot : root.length + n + 1 = fileNameLen) :
    Inside root (root ++ page.take n) := by
  obtain ⟨name, rfl, hslash, hdot⟩ := h
  cases n with
  | zero =>
    rw [List.take_zero, List.append_nil]
    apply inside_self
    rintro rfl
    cases hroot
  | succ n =>
    apply PlainPage.inside
    refine ⟨name.take n, rfl, fun hmem => hslash (List.mem_of_mem_take hmem), ?_⟩
    rw [List.head?_take]
    split
    · simp
    · exact hdot

theorem plainPage_of_all (h : (page.head? = some 47 && !page.tail.contains 47 && page.tail.head? != some 46) = true) :
    PlainPage page := by
  simp only [Bool.and_eq_true, decide_eq_true_eq, Bool.not_eq_true', bne_iff_ne, List.contains_eq_mem,
    decide_eq_false_iff_not] at h
  obtain ⟨⟨hhead, hslash⟩, hdot⟩ := h
  obtain ⟨name, rfl⟩ := List.head?_eq_some_iff.mp hhead
  exact ⟨name, rfl, hslash, hdot⟩

theorem answerPages_plain (h : page ∈ answerPages) : PlainPage page := by
  simp only [answerPages, List.mem_cons, List.not_mem_nil, or_false] at h
  rcases h with rfl | rfl | rfl | rfl
  all_goals exact plainPage_of_all (by decide)

theorem staticPage_plain {digit : UInt8} (h : staticPage digit = some page) : PlainPage page := by
  unfold staticPage at h
  split_ifs at h
  all_goals
    cases Option.some.inj h
    exact plainPage_of_all (by decide)

end Inside

section Routes

variable {c c' : HttpConn} {w w' : World} {off : Nat} {url page path : List UInt8} {f : Option Form}

/-- A path that ends inside m_real_file has room for the page of its digit. -/
theorem HttpConn.Accepted.static_fits (h : c.Accepted off url) (hzero : 0 ∉ c.docRoot) (hform : ¬ c.FormRoute url)
    (hstatic : staticPage (routeDigit url) = some page) (hlocated : c.locate w = some (c', w', f))
    (hpath : c'.realFile.cstr 0 = some path) : c.docRoot.length + page.length < fileNameLen := by
  obtain ⟨file, q, hfile, _, hdigit, hlocate⟩ := h.locate_cases (HttpConn.locate_root hlocated)
  rw [(hlocate w).2 hform] at hlocated
  obtain ⟨c1, hroute, hsame⟩ := Option.map_eq_some_iff.mp hlocated
  obtain ⟨rfl, _⟩ := Prod.mk.inj hsame
  obtain ⟨digit, text, file', hagain, htext, hblit, rfl⟩ := HttpConn.route_split hroute
  cases Option.some.inj (hdigit.symm.trans hagain)
  rw [HttpConn.routeText, hstatic] at htext
  cases Option.some.inj htext
  change file.blit c.docRoot.length page = some file' at hblit
  obtain ⟨hfits, hbytes⟩ := Buffer.blit_eq_some_iff.mp hblit
  by_contra hfull
  have hend : c.docRoot.length + page.length = fileNameLen := by omega
  rw [hend, List.drop_of_length_le (by rw [file.length_eq]), hfile, List.take_left, List.append_nil] at hbytes
  obtain ⟨tail, htext, _⟩ := Buffer.cstr_eq_some_iff.mp hpath
  have hmem : 0 ∈ file'.bytes := by
    rw [← List.drop_zero (l := file'.bytes), htext]
    simp
  rw [hbytes, List.mem_append] at hmem
  exact hmem.elim hzero (staticPage_free hstatic)

/-- The path that do_request hands on: the root with a page that may be cut, or with as much of
m_url as there is room for. -/
theorem HttpConn.Accepted.path_cases (h : c.Accepted off url) (hzero : 0 ∉ c.docRoot)
    (hlocated : c.locate w = some (c', w', f)) (hpath : c'.realFile.cstr 0 = some path) :
    (¬ c.GoesDirect url ∧ Inside c.docRoot path) ∨
      (c.GoesDirect url ∧ path = c.docRoot ++ url.take (fileNameLen - c.docRoot.length - 1)) := by
  have hroot := HttpConn.locate_root hlocated
  by_cases hform : c.FormRoute url
  · obtain ⟨form, page, hread, hanswer, hlen, hbuf⟩ := h.form_inv hform hlocated
    obtain ⟨c1, hagain, hcstr⟩ := h.form_names hzero hroot hform hread hanswer hlen hbuf
    cases Option.some.inj (hlocated.symm.trans hagain)
    cases Option.some.inj (hpath.symm.trans hcstr)
    exact Or.inl ⟨fun hdirect => hdirect.1 hform, (answerPages_plain (World.answer_spec hanswer).2).inside_take (by omega)⟩
  · cases hstatic : staticPage (routeDigit url) with
    | some page =>
      have hroom := h.static_fits hzero hform hstatic hlocated hpath
      obtain ⟨c1, hagain, hcstr⟩ := @HttpConn.Accepted.static_names c w off url page h hzero hform hstatic
        (staticPage_free hstatic) hroom
      cases Option.some.inj (hlocated.symm.trans hagain)
      cases Option.some.inj (hpath.symm.trans hcstr)
      refine Or.inl ⟨fun hdirect => ?_, (staticPage_plain hstatic).inside c.docRoot⟩
      cases hstatic.symm.trans hdirect.2
    | none =>
      obtain ⟨c1, hagain, hcstr⟩ := @HttpConn.Accepted.direct_names c w off url h hzero hroot hform hstatic
      cases Option.some.inj (hlocated.symm.trans hagain)
      cases Option.some.inj (hpath.symm.trans hcstr)
      exact Or.inr ⟨⟨hform, hstatic⟩, rfl⟩

theorem HttpConn.Accepted.inside_cut (h : c.Accepted off url) :
    Inside c.docRoot (c.docRoot ++ url.take (fileNameLen - c.docRoot.length - 1)) ↔
      Returns c.docRoot (url.take (fileNameLen - c.docRoot.length - 1)) := by
  obtain ⟨text, rfl⟩ := List.head?_eq_some_iff.mp h.slash
  cases hn : fileNameLen - c.docRoot.length - 1 with
  | zero =>
    rw [List.take_zero, List.append_nil]
    refine iff_of_true (inside_self ?_) (returns_nil _)
    intro hnil
    rw [hnil] at hn
    cases hn
  | succ n =>
    rw [List.take_succ_cons]
    exact inside_slash _ _

end Routes

/-- The path stays inside the document root if and only if the request is for a page, or the part
of m_url that fits returns to the root wherever it climbs above it. -/
theorem locate_staysInside_iff (c : HttpConn) (w : World) (off : Nat) (url : List UInt8) (hzero : 0 ∉ c.docRoot)
    (h : c.Accepted off url) :
    c.StaysInside w ↔ (c.GoesDirect url → c.docRoot.length < fileNameLen →
      Returns c.docRoot (url.take (fileNameLen - c.docRoot.length - 1))) := by
  constructor
  · intro hinside hdirect hroot
    obtain ⟨c', hlocate, hcstr⟩ := @HttpConn.Accepted.direct_names c w off url h hzero hroot hdirect.1 hdirect.2
    exact h.inside_cut.mp (hinside c' w none _ hlocate hcstr)
  · intro hreturns c' w' form path hlocate hpath
    rcases h.path_cases hzero hlocate hpath with ⟨_, hinside⟩ | ⟨hdirect, rfl⟩
    · exact hinside
    · exact h.inside_cut.mpr (hreturns hdirect (HttpConn.locate_root hlocate))

/-- A GET of /a/../b in /srv/root. -/
theorem locate_staysInside_iff_dots : ∃ c : HttpConn, c.StaysInside ⟨[], fun _ => true, fun _ => none⟩ := by
  have hfree : 0 ∉ bytes "/a/../b" := by decide
  obtain ⟨_, c, off, _, _, hroot, _, haccepted⟩ := HttpConn.exists_accepted (bytes "/srv/root")
    (isWord_of_all rfl) rfl (by decide) hfree (by decide)
  have hzero : 0 ∉ c.docRoot := by
    rw [hroot]
    decide
  refine ⟨c, (locate_staysInside_iff c ⟨[], fun _ => true, fun _ => none⟩ off (bytes "/a/../b") hzero haccepted).mpr ?_⟩
  rw [hroot]
  intro _ _
  decide

/-- A GET of /../x. -/
theorem locate_not_always_staysInside :
    ¬ ∀ (c c' : HttpConn) (text : Nat) (w : World), c.realFile = Buffer.zero _ →
      c.parseRequestLine text = some (c', .noRequest) → 0 ∉ c'.docRoot → c'.StaysInside w := by
  intro h
  have hfree : 0 ∉ bytes "/../x" := by decide
  obtain ⟨c, c', off, hfile, hparse, hroot, hcgi, haccepted⟩ := HttpConn.exists_accepted (bytes "/srv/root")
    (isWord_of_all rfl) rfl (by decide) hfree (by decide)
  have hzero : 0 ∉ c'.docRoot := by
    rw [hroot]
    decide
  have hform : ¬ c'.FormRoute (bytes "/../x") := by simp [HttpConn.FormRoute, hcgi]
  have hfits : c'.docRoot.length < fileNameLen := by
    rw [hroot]
    decide
  obtain ⟨c1, hlocate, hcstr⟩ := @HttpConn.Accepted.direct_names c' ⟨[], fun _ => true, fun _ => none⟩ off
    (bytes "/../x") haccepted hzero hfits hform rfl
  have hinside := h c c' 0 _ hfile hparse hzero c1 _ none _ hlocate hcstr
  rw [haccepted.inside_cut, hroot] at hinside
  exact absurd hinside (by decide)

end CppInAction
