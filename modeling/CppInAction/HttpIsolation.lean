import CppInAction.HttpReuse

namespace CppInAction

theorem HttpConn.route_withStale (c s : HttpConn) (off q : Nat) :
    (c.withStale s).route off q = (c.route off q).map (·.withStale s) := by
  have hb : (c.withStale s).readBuf = c.readBuf := rfl
  have hr : (c.withStale s).docRoot = c.docRoot := rfl
  have hf : (c.withStale s).realFile = c.realFile := rfl
  unfold HttpConn.route
  rw [hb, hr, hf]
  cases c.readBuf.bytes[q]? with
  | none => rfl
  | some digit =>
    simp only [Option.bind_eq_bind, Option.bind_some]
    have ht : (c.withStale s).routeText off digit = c.routeText off digit := rfl
    rw [ht]
    cases c.routeText off digit with
    | none => rfl
    | some text =>
      simp only [Option.bind_some]
      cases c.realFile.blit c.docRoot.length text <;> rfl

theorem HttpConn.doForm_withStale {c s : HttpConn} (w : World) (off : Nat) (digit : UInt8)
    (h : readForm c.readBuf s.string = readForm c.readBuf c.string) :
    (c.withStale s).doForm w off digit = (c.doForm w off digit).map fun r => (r.1.withStale s, r.2) := by
  have hb : (c.withStale s).readBuf = c.readBuf := rfl
  have hr : (c.withStale s).docRoot = c.docRoot := rfl
  have hf : (c.withStale s).realFile = c.realFile := rfl
  have hs : (c.withStale s).string = s.string := rfl
  unfold HttpConn.doForm
  rw [hb, hr, hf, hs, h]
  cases c.readBuf.cstr (off + 2) with
  | none => rfl
  | some rest =>
    simp only [Option.bind_eq_bind, Option.bind_some]
    split
    next => rfl
    next =>
      cases c.realFile.blit c.docRoot.length
          (strncpy (47 :: rest) (fileNameLen - c.docRoot.length - 1)) with
      | none => rfl
      | some file =>
        simp only [Option.bind_some]
        cases readForm c.readBuf c.string with
        | none => rfl
        | some form =>
          simp only [Option.bind_some]
          cases w.answer digit form with
          | none => rfl
          | some r =>
            simp only [Option.bind_some]
            cases c.readBuf.blit off (r.2 ++ [0]) <;> rfl

/-- Up to the routing, do_request depends on the stale members only through the form it reads. -/
theorem HttpConn.locate_withStale {c s : HttpConn} (w : World)
    (h : c.isForm = true → readForm c.readBuf s.string = readForm c.readBuf c.string) :
    (c.withStale s).locate w = (c.locate w).map fun r => (r.1.withStale s, r.2) := by
  have hb : (c.withStale s).readBuf = c.readBuf := rfl
  have hr : (c.withStale s).docRoot = c.docRoot := rfl
  have hf : (c.withStale s).realFile = c.realFile := rfl
  have hu : (c.withStale s).urlMark = c.urlMark := rfl
  unfold HttpConn.locate
  rw [hb, hr, hf, hu]
  cases c.realFile.blit 0 (c.docRoot ++ [0]) with
  | none => rfl
  | some file =>
    simp only [Option.bind_eq_bind, Option.bind_some]
    cases hm : c.urlMark with
    | none => rfl
    | some mark =>
      obtain ⟨off, q⟩ := mark
      simp only [Option.bind_some]
      cases hq : c.readBuf.bytes[q]? with
      | none => rfl
      | some digit =>
        simp only [Option.bind_some]
        by_cases hform : c.cgi = 1 ∧ (digit = 50 ∨ digit = 51)
        · have hread := h (by simpa [HttpConn.isForm, hm, hq] using hform)
          have hd := HttpConn.doForm_withStale (c := { c with realFile := file }) w off digit hread
          have hform' : (c.withStale s).cgi = 1 ∧ (digit = 50 ∨ digit = 51) := hform
          rw [if_pos hform, if_pos hform']
          change ((HttpConn.withStale { c with realFile := file } s).doForm w off digit).bind _ = _
          rw [hd]
          cases HttpConn.doForm { c with realFile := file } w off digit with
          | none => rfl
          | some r =>
            simp only [Option.map_some, Option.bind_some, HttpConn.route_withStale]
            cases r.1.route off q <;> rfl
        · have hform' : ¬ ((c.withStale s).cgi = 1 ∧ (digit = 50 ∨ digit = 51)) := hform
          rw [if_neg hform, if_neg hform']
          change ((HttpConn.withStale { c with realFile := file } s).route off q).bind _ = _
          rw [HttpConn.route_withStale]
          cases HttpConn.route { c with realFile := file } off q <;> rfl

/-- What a call of process() shows outside the object. -/
structure Seen where
  code : HttpCode
  form : Option Form
  response : Option (Option (List UInt8))
  calls : List EpollCall
deriving DecidableEq

def Handled.seen (h : Handled) : Seen :=
  ⟨h.code, h.form, if h.written then some h.conn.described else none, h.calls⟩

theorem HttpConn.seen_errorPage {c : HttpConn} {w : World} {form : Option Form} {code : HttpCode}
    (status : Int) (title page : List UInt8) (empty : c.writeIdx = 0)
    (room : (statusLine status title).length + page.length ≤ 500) (hne : code ≠ .noRequest)
    (hp : c.processWrite code = c.errorPage status title page) :
    (c.finish w form code).seen =
      ⟨code, form, some (some (httpMessage status title c.linger page)), [c.rearm .epollout]⟩ := by
  obtain ⟨buf, hold, fits, he⟩ := HttpConn.errorPage_spec empty room
  have hd := (HttpConn.errorPage_describes status title page empty room).2.1
  rw [he] at hd
  simp only [HttpConn.finish, HttpConn.respond, hp, he, hne, if_false, if_true, Handled.seen]
  rw [hd]
  rfl

/-- The epoll calls of a connection that is closed instead of answered. -/
def HttpConn.closeCalls (c : HttpConn) : List EpollCall :=
  c.closeConn.2 ++ [c.closeConn.1.rearm .epollout]

theorem HttpConn.closeCalls_congr {c c' : HttpConn} (hf : c'.sockfd = c.sockfd)
    (hm : c'.trigMode = c.trigMode) : c'.closeCalls = c.closeCalls := by
  simp only [HttpConn.closeCalls, HttpConn.closeConn, HttpConn.rearm, hf]
  split <;> simp [hm, hf]

theorem HttpConn.seen_failed {c : HttpConn} {w : World} {form : Option Form} {code : HttpCode}
    (hne : code ≠ .noRequest) (hp : (c.processWrite code).2 = false)
    (hf : (c.processWrite code).1.sockfd = c.sockfd) (hm : (c.processWrite code).1.trigMode = c.trigMode) :
    (c.finish w form code).seen = ⟨code, form, none, c.closeCalls⟩ := by
  have hcalls := HttpConn.closeCalls_congr hf hm
  simp only [HttpConn.finish, HttpConn.respond, hne, hp, if_false, Handled.seen, Bool.false_eq_true]
  rw [← hcalls]
  rfl

/-- The helpers of process_write touch the write buffer only. -/
def HttpConn.Writes (c c' : HttpConn) : Prop := ∃ buf idx, c' = { c with writeBuf := buf, writeIdx := idx }

theorem HttpConn.Writes.trans {c c' c'' : HttpConn} (h : c.Writes c') (h' : c'.Writes c'') : c.Writes c'' := by
  obtain ⟨_, _, rfl⟩ := h
  obtain ⟨buf, idx, rfl⟩ := h'
  exact ⟨buf, idx, rfl⟩

theorem HttpConn.addResponse_writes (c : HttpConn) (text : List UInt8) : c.Writes (c.addResponse text).1 := by
  unfold HttpConn.addResponse
  split
  next => exact ⟨_, _, rfl⟩
  next =>
    simp only
    split <;> exact ⟨_, _, rfl⟩

theorem HttpConn.addHeaders_writes (c : HttpConn) (contentLen : Int) : c.Writes (c.addHeaders contentLen).1 := by
  have h1 := c.addResponse_writes (contentLengthLine contentLen)
  have h2 := h1.trans (HttpConn.addResponse_writes _ (lingerLine (c.addContentLength contentLen).1.linger))
  have h3 := h2.trans (HttpConn.addResponse_writes _ crlf)
  unfold HttpConn.addHeaders
  simp only
  split
  next =>
    split
    next => exact h3
    next => exact h2
  next => exact h1

/-- An empty file is answered by closing the connection. -/
theorem HttpConn.seen_emptyFile {c : HttpConn} {w : World} {form : Option Form} (h : c.fileStat.size = 0) :
    (c.finish w form .fileRequest).seen = ⟨.fileRequest, form, none, c.closeCalls⟩ := by
  have hsize : (c.addStatusLine 200 ok200Title).1.fileStat.size = 0 := by
    rw [HttpConn.addStatusLine, HttpConn.addResponse_fileStat, h]
  have hpage : c.filePage =
      ((((c.addStatusLine 200 ok200Title).1.addHeaders okString.length).1.addContent okString).1, false) := by
    simp [HttpConn.filePage, hsize]
  have hw := ((c.addResponse_writes (statusLine 200 ok200Title)).trans
    (HttpConn.addHeaders_writes _ okString.length)).trans (HttpConn.addResponse_writes _ okString)
  obtain ⟨buf, idx, he⟩ := hw
  have hpage' : c.filePage = ({ c with writeBuf := buf, writeIdx := idx }, false) := by
    rw [hpage, ← he]
    rfl
  refine HttpConn.seen_failed (by simp) ?_ ?_ ?_ <;> simp [HttpConn.processWrite, hpage']

/-- What a file response describes, by the number of entries that is in force. -/
def shownFile (header : List UInt8) (e : FileEntry) (count : Int) : Option (List UInt8) :=
  if count = 0 then some []
  else if count = 1 then some header
  else if count = 2 ∧ e.openable = true then some (header ++ e.content)
  else none

/-- The entries that m_iovec_count selects in a file response. -/
def entriesSeen (e : FileEntry) (count : Int) : Option Int :=
  if count = 0 ∨ count = 1 ∨ (count = 2 ∧ e.openable = true) then some count else none

theorem shownFile_eq_iff {header : List UInt8} {e : FileEntry} {m n : Int} (hh : header ≠ [])
    (hc : e.content ≠ []) : shownFile header e m = shownFile header e n ↔ entriesSeen e m = entriesSeen e n := by
  have hlen : ∀ n, shownFile header e n = (entriesSeen e n).map fun k =>
      if k = 0 then [] else if k = 1 then header else header ++ e.content := by
    intro n
    unfold shownFile entriesSeen
    by_cases h0 : n = 0
    · simp [h0]
    · by_cases h1 : n = 1
      · simp [h1]
      · by_cases h2 : n = 2 ∧ e.openable = true
        · simp [h2]
        · simp [h0, h1, h2]
  have hrange : ∀ n k, entriesSeen e n = some k → k = 0 ∨ k = 1 ∨ k = 2 := by
    intro n k hk
    unfold entriesSeen at hk
    split at hk
    next h => cases Option.some.inj hk; tauto
    next => cases hk
  rw [hlen, hlen]
  refine ⟨fun h => ?_, fun h => by rw [h]⟩
  cases hm : entriesSeen e m with
  | none => cases hn : entriesSeen e n <;> simp_all
  | some k =>
    cases hn : entriesSeen e n with
    | none => simp_all
    | some k' =>
      rcases hrange m k hm with rfl | rfl | rfl <;> rcases hrange n k' hn with rfl | rfl | rfl <;>
        simp_all

theorem HttpConn.ServesFile.described_eq {c c' : HttpConn} {e : FileEntry} (h : c.ServesFile c')
    (hs : c.fileStat = e.stat) (ha : c.fileAddress = e.mmap) (hc : e.content ≠ []) :
    c'.described = shownFile (fileHeader c.linger e.content.length) e c.iovecCount := by
  have hsize : c.fileStat.size = e.content.length := by rw [hs]; rfl
  have hfits := fileHeader_length_le c.linger c.fileStat.size
  have hroom : (fileHeader c.linger c.fileStat.size).length ≤ writeBufferSize := by
    simp only [writeBufferSize]
    omega
  have hcount := h.count
  rw [← hsize]
  unfold shownFile
  by_cases h0 : c.iovecCount = 0
  · simp [HttpConn.described, HttpConn.iovecs, hcount, h0]
  by_cases h1 : c.iovecCount = 1
  · rw [HttpConn.described_single (hcount.trans h1) h.entry0 hroom h.holds]
    simp [h1]
  by_cases h2 : c.iovecCount = 2
  · by_cases hopen : e.openable = true
    · have hmap : c'.fileAddress = .mapped e.content := by
        rw [h.address, ha, FileEntry.mmap, if_pos ⟨hopen, hc⟩]
      rw [HttpConn.described_pair (hcount.trans h2) h.entry0 hroom h.holds (hsize ▸ h.entry1) hmap]
      simp [h2, hopen]
    · have hmap : c'.fileAddress = .failed := by
        rw [h.address, ha, FileEntry.mmap, if_neg (by simp [hopen])]
      have hnone : c'.entryBytes c'.iovec1 = none := by
        rw [h.entry1]
        simp [HttpConn.entryBytes, hmap]
      simp only [HttpConn.described, HttpConn.iovecs, hcount, h2, hopen]
      cases hb : c'.entryBytes c'.iovec0 <;> simp [hb, hnone]
  · have hrange : ¬ (0 ≤ c'.iovecCount ∧ c'.iovecCount ≤ 2) := by omega
    simp [HttpConn.described, hrange, h0, h1, h2]

/-- A non-empty file is answered with the entries the stale count selects. -/
theorem HttpConn.seen_file {c : HttpConn} {w : World} {form : Option Form} {e : FileEntry}
    (empty : c.writeIdx = 0) (hs : c.fileStat = e.stat) (ha : c.fileAddress = e.mmap) (hc : e.content ≠ []) :
    (c.finish w form .fileRequest).seen = ⟨.fileRequest, form,
      some (shownFile (fileHeader c.linger e.content.length) e c.iovecCount), [c.rearm .epollout]⟩ := by
  have hsize : c.fileStat.size ≠ 0 := by
    rw [hs]
    exact fun h => hc (List.eq_nil_of_length_eq_zero h)
  obtain ⟨ok, serves⟩ := HttpConn.filePage_servesFile empty hsize
  have hne : HttpCode.fileRequest ≠ .noRequest := by simp
  simp only [HttpConn.finish, HttpConn.respond, HttpConn.processWrite, ok, hne, if_true, if_false,
    Handled.seen, serves.described_eq hs ha hc, serves.epoll]

/-- The readable file at m_real_file, if there is one. -/
def HttpConn.fileAt (c : HttpConn) (w : World) : Option FileEntry := do
  let path ← c.realFile.cstr 0
  let e ← w.files path
  if e.othersRead ∧ e.isDir = false then some e else none

def HttpConn.serveSeen (c : HttpConn) (w : World) (form : Option Form) : Option Seen :=
  (c.serve w).map fun r => (r.1.finish w form r.2).seen

/-- What the end of do_request shows for what is at the path. -/
def HttpConn.reply (c : HttpConn) (form : Option Form) : Option FileEntry → Seen
  | none => ⟨.noResource, form, none, c.closeCalls⟩
  | some e =>
    if e.othersRead = false then
      ⟨.forbiddenRequest, form, some (some (httpMessage 403 error403Title c.linger error403Form)),
        [c.rearm .epollout]⟩
    else if e.isDir then
      ⟨.badRequest, form, some (some (httpMessage 404 error404Title c.linger error404Form)),
        [c.rearm .epollout]⟩
    else if e.content = [] then ⟨.fileRequest, form, none, c.closeCalls⟩
    else ⟨.fileRequest, form, some (shownFile (fileHeader c.linger e.content.length) e c.iovecCount),
      [c.rearm .epollout]⟩

theorem HttpConn.serveSeen_eq {c : HttpConn} {w : World} {form : Option Form} (empty : c.writeIdx = 0) :
    c.serveSeen w form = (c.realFile.cstr 0).map fun path => c.reply form (w.files path) := by
  unfold HttpConn.serveSeen HttpConn.serve
  cases c.realFile.cstr 0 with
  | none => rfl
  | some path =>
    simp only [Option.bind_eq_bind, Option.bind_some, Option.map_some]
    cases w.files path with
    | none => exact congrArg some (HttpConn.seen_failed (by simp) rfl rfl rfl)
    | some e =>
      simp only [HttpConn.reply]
      by_cases hread : e.othersRead = false
      · simp only [if_pos hread, Option.map_some, Option.some.injEq]
        exact HttpConn.seen_errorPage (c := { c with fileStat := e.stat }) _ _ _ empty (by decide) (by simp) rfl
      by_cases hdir : e.isDir = true
      · simp only [if_neg hread, if_pos hdir, Option.map_some, Option.some.injEq]
        exact HttpConn.seen_errorPage (c := { c with fileStat := e.stat }) _ _ _ empty (by decide) (by simp) rfl
      simp only [if_neg hread, if_neg hdir, Option.map_some, Option.some.injEq]
      by_cases hc : e.content = []
      · rw [if_pos hc, HttpConn.seen_emptyFile (by simp [FileEntry.stat, hc])]
        exact congrArg (Seen.mk .fileRequest form none) (HttpConn.closeCalls_congr rfl rfl)
      · rw [if_neg hc]
        exact HttpConn.seen_file (c := { c with fileStat := e.stat, fileAddress := e.mmap })
          empty rfl rfl hc

theorem HttpConn.reply_withStale {c s t : HttpConn} {form : Option Form} {entry : Option FileEntry} :
    (c.withStale s).reply form entry = (c.withStale t).reply form entry ↔
      ∀ e, entry = some e → e.othersRead = true → e.isDir = false → e.content ≠ [] →
        entriesSeen e s.iovecCount = entriesSeen e t.iovecCount := by
  have hclose : (c.withStale s).closeCalls = (c.withStale t).closeCalls :=
    HttpConn.closeCalls_congr rfl rfl
  cases entry with
  | none => exact iff_of_true (congrArg (Seen.mk .noResource form none) hclose) (by simp)
  | some e =>
    by_cases hread : e.othersRead = false
    · refine iff_of_true ?_ (by simp [hread])
      simp only [HttpConn.reply, if_pos hread]
      rfl
    by_cases hdir : e.isDir = true
    · refine iff_of_true ?_ (by simp [hdir])
      simp only [HttpConn.reply, if_neg hread, if_pos hdir]
      rfl
    by_cases hc : e.content = []
    · refine iff_of_true ?_ (by simp [hc])
      simp only [HttpConn.reply, if_neg hread, if_neg hdir, if_pos hc, hclose]
    have hheader : fileHeader c.linger e.content.length ≠ [] := by
      intro hnil
      have hlen := fileHeader_length c.linger e.content.length
      rw [hnil, List.length_nil] at hlen
      omega
    have hshown : (c.withStale s).reply form (some e) = (c.withStale t).reply form (some e) ↔
        shownFile (fileHeader c.linger e.content.length) e s.iovecCount =
          shownFile (fileHeader c.linger e.content.length) e t.iovecCount := by
      simp only [HttpConn.reply, if_neg hread, if_neg hdir, if_neg hc]
      refine ⟨fun h => Option.some.inj (congrArg Seen.response h), fun h => ?_⟩
      exact congrArg (fun r => Seen.mk .fileRequest form (some r) [c.rearm .epollout]) h
    rw [hshown, shownFile_eq_iff hheader hc]
    refine ⟨?_, fun h => h e rfl (by simpa using hread) (by simpa using hdir) hc⟩
    rintro h e' he _ _ _
    cases Option.some.inj he
    exact h

/-- What is shown at the end of do_request depends on the stale members exactly
through the number of entries of a non-empty file. -/
theorem HttpConn.serveSeen_withStale {c s t : HttpConn} {w : World} (form : Option Form)
    (empty : c.writeIdx = 0) :
    (c.withStale s).serveSeen w form = (c.withStale t).serveSeen w form ↔
      ∀ e, c.fileAt w = some e → e.content ≠ [] →
        entriesSeen e s.iovecCount = entriesSeen e t.iovecCount := by
  rw [HttpConn.serveSeen_eq (c := c.withStale s) empty, HttpConn.serveSeen_eq (c := c.withStale t) empty]
  have hf : ∀ x, (c.withStale x).realFile = c.realFile := fun _ => rfl
  rw [hf, hf]
  unfold HttpConn.fileAt
  cases c.realFile.cstr 0 with
  | none => simp
  | some path =>
    simp only [Option.map_some, Option.some.injEq, HttpConn.reply_withStale, Option.bind_eq_bind,
      Option.bind_some]
    constructor
    · intro h e he hc
      obtain ⟨e', hfile, he⟩ := Option.bind_eq_some_iff.mp he
      split at he
      next hok =>
        cases Option.some.inj he
        exact h _ hfile hok.1 hok.2 hc
      next => cases he
    · intro h e hfile hread hdir hc
      exact h e (by simp [hfile, hread, hdir]) hc

end CppInAction
