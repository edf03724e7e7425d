import CppInAction.HttpIsolation

namespace CppInAction

theorem HttpConn.dispatch_returns_code {c c' : HttpConn} {text : Nat} {lineStatus : LineStatus}
    {code : HttpCode} (h : c.dispatch text lineStatus = .exit (.returns c' code)) : code = .badRequest := by
  unfold HttpConn.dispatch at h
  split at h
  next =>
    split at h
    next => cases h
    next =>
      split at h
      next => cases h; rfl
      next => cases h
  next =>
    split at h
    next => cases h
    next =>
      split at h
      next => cases h; rfl
      next =>
        split at h
        next => cases h
        next => cases h
  next =>
    split at h
    next => cases h
    next =>
      split at h
      next => cases h
      next => cases h

/-- The only code process_read returns by itself is BAD_REQUEST. -/
theorem HttpConn.readLoop_returns_code {c c' : HttpConn} {fuel : Nat} {lineStatus : LineStatus}
    {code : HttpCode} (h : c.readLoop fuel lineStatus = some (.returns c' code)) : code = .badRequest := by
  induction fuel generalizing c lineStatus with
  | zero => cases h
  | succ fuel ih =>
    cases hi : c.readIter lineStatus with
    | next c1 st => exact ih ((HttpConn.readLoop_next hi).symm.trans h)
    | exit e =>
      cases Option.some.inj ((HttpConn.readLoop_exit hi).symm.trans h)
      unfold HttpConn.readIter at hi
      split at hi
      next => exact HttpConn.dispatch_returns_code hi
      next =>
        split at hi
        next => cases hi
        next =>
          split at hi
          next => exact HttpConn.dispatch_returns_code hi
          next => cases hi

/-- The object an end of process_read carries. -/
def ReadExit.conn? : ReadExit → Option HttpConn
  | .returns c _ => some c
  | .doRequest c => some c
  | .flowsOff c => some c
  | .undefined => none

theorem HttpConn.processRead_writeIdx {c d : HttpConn} {fuel : Nat} {e : ReadExit}
    (h : c.processRead fuel = some e) (hd : e.conn? = some d) : d.writeIdx = c.writeIdx := by
  have hself := HttpConn.processRead_self h
  cases e with
  | returns c' code => cases Option.some.inj hd; rw [← (ReadExit.returns.inj hself).1]; rfl
  | flowsOff c' => cases Option.some.inj hd; rw [← ReadExit.flowsOff.inj hself]; rfl
  | undefined => cases hd
  | doRequest c' =>
    cases Option.some.inj hd
    rw [← ReadExit.doRequest.inj hself, HttpConn.reuse]
    split <;> rfl

/-- While a request is read the write buffer stays empty, and a code that is
returned is BAD_REQUEST. -/
theorem HttpConn.reads_spec {c : HttpConn} {chunks : List (List UInt8)} {e : ReadExit}
    (h : c.Reads chunks e) : (∀ d, e.conn? = some d → d.writeIdx = c.writeIdx) ∧
      ∀ d code, e = .returns d code → code = .badRequest := by
  induction chunks generalizing c with
  | nil => exact h.elim
  | cons p rest ih =>
    obtain ⟨fuel, c1, e1, hd, hr, hcase⟩ := h
    have hidx : c1.writeIdx = c.writeIdx := by
      obtain ⟨buf, _, hd⟩ := Option.bind_eq_some_iff.mp hd
      cases Option.some.inj hd
      rfl
    rcases hcase with rfl | ⟨c2, rfl, hrest⟩
    · refine ⟨fun d hc => (HttpConn.processRead_writeIdx hr hc).trans hidx, ?_⟩
      rintro d code rfl
      exact HttpConn.readLoop_returns_code hr
    · obtain ⟨h1, h2⟩ := ih hrest
      have hc2 := (HttpConn.processRead_writeIdx hr rfl).trans hidx
      exact ⟨fun d hc => (h1 d hc).trans hc2, h2⟩

theorem HttpConn.route_frame {c c' : HttpConn} {off q : Nat} (h : c.route off q = some c') :
    c'.writeIdx = c.writeIdx := by
  obtain ⟨_, _, _, _, _, _, rfl⟩ := HttpConn.route_split h
  rfl

theorem HttpConn.doForm_frame {c c' : HttpConn} {w w' : World} {off : Nat} {digit : UInt8} {form : Form}
    (h : c.doForm w off digit = some (c', w', form)) : c'.writeIdx = c.writeIdx := by
  obtain ⟨_, _, _, _, _, _, _, _, _, rfl⟩ := HttpConn.doForm_split h
  rfl

theorem HttpConn.locate_frame {c c' : HttpConn} {w w' : World} {form : Option Form}
    (h : c.locate w = some (c', w', form)) : c'.writeIdx = c.writeIdx := by
  obtain ⟨file, _, h⟩ := Option.bind_eq_some_iff.mp h
  obtain ⟨⟨off, q⟩, _, h⟩ := Option.bind_eq_some_iff.mp h
  obtain ⟨digit, _, h⟩ := Option.bind_eq_some_iff.mp h
  simp only at h
  split at h
  next =>
    obtain ⟨⟨c1, w1, form1⟩, hf, h⟩ := Option.bind_eq_some_iff.mp h
    obtain ⟨c2, hr, h⟩ := Option.bind_eq_some_iff.mp h
    cases Option.some.inj h
    have hroute := HttpConn.route_frame hr
    have hform := HttpConn.doForm_frame hf
    exact hroute.trans hform
  next =>
    obtain ⟨c2, hr, h⟩ := Option.bind_eq_some_iff.mp h
    cases Option.some.inj h
    have hroute := HttpConn.route_frame hr
    exact hroute

/-- What the handling of a request shows when do_request is reached. -/
def HttpConn.requestSeen (d : HttpConn) (w : World) : Option Seen :=
  (d.locate w).bind fun r => r.1.serveSeen r.2.1 r.2.2

theorem HttpConn.answer_doRequest (d : HttpConn) (w : World) :
    ((ReadExit.doRequest d).answer w).map Handled.seen = d.requestSeen w := by
  simp only [ReadExit.answer, HttpConn.doRequest, HttpConn.requestSeen]
  cases d.locate w with
  | none => rfl
  | some r =>
    obtain ⟨c, w', form⟩ := r
    simp only [Option.bind_eq_bind, Option.bind_some, HttpConn.serveSeen]
    cases c.serve w' <;> rfl

/-- The file a request asks for. -/
def HttpConn.fileAsked (d : HttpConn) (w : World) : Option FileEntry :=
  (d.locate w).bind fun r => r.1.fileAt r.2.1

theorem HttpConn.requestSeen_withStale {d s : HttpConn} {w : World} (empty : d.writeIdx = 0)
    (hform : d.isForm = true → readForm d.readBuf s.string = readForm d.readBuf d.string) :
    d.requestSeen w = (d.withStale s).requestSeen w ↔ ∀ e, d.fileAsked w = some e → e.content ≠ [] →
      entriesSeen e d.iovecCount = entriesSeen e s.iovecCount := by
  unfold HttpConn.requestSeen HttpConn.fileAsked
  rw [HttpConn.locate_withStale w hform]
  have hself := HttpConn.locate_withStale (c := d) (s := d) w (fun _ => rfl)
  have hd : d.withStale d = d := rfl
  rw [hd] at hself
  cases hl : d.locate w with
  | none => simp
  | some r =>
    obtain ⟨c, w', form⟩ := r
    rw [hl, Option.map_some, Option.some.injEq, Prod.mk.injEq] at hself
    simp only [Option.map_some, Option.bind_some]
    have hidx := (HttpConn.locate_frame hl).trans empty
    have hserve := HttpConn.serveSeen_withStale (s := d) (t := s) (w := w') form hidx
    rw [← hself.1] at hserve
    exact hserve

/-- Some call of process() made while the chunks arrive shows this. -/
def HttpConn.Shows (c : HttpConn) (w : World) (chunks : List (List UInt8)) (seen : Seen) : Prop :=
  ∃ e h, c.Reads chunks e ∧ e.answer w = some h ∧ h.seen = seen

/-- The form data that do_request reads for the request. -/
def HttpConn.ReadsForm (c : HttpConn) (chunks : List (List UInt8)) (form : Form) : Prop :=
  ∃ d, c.Reads chunks (.doRequest d) ∧ d.isForm = true ∧ readForm d.readBuf d.string = some form

/-- After init for the same connection, two objects register alike, read the same
form data, and show the same codes, responses and epoll calls. -/
def Isolated (c1 c2 : HttpConn) (fd : Int) (root : List UInt8) (trigMode : Int)
    (chunks : List (List UInt8)) (w : World) : Prop :=
  (c1.init fd root trigMode).2 = (c2.init fd root trigMode).2 ∧
  (∀ form, (c1.init fd root trigMode).1.ReadsForm chunks form ↔
    (c2.init fd root trigMode).1.ReadsForm chunks form) ∧
  ∀ seen, (c1.init fd root trigMode).1.Shows w chunks seen ↔
    (c2.init fd root trigMode).1.Shows w chunks seen

/-- The object do_request is reached with on a slot that held s before. -/
def HttpConn.onSlot (d s : HttpConn) : HttpConn := d.withStale (staleOf d s)

/-- What the two objects must have in common: the trigger mode as far as addfd
looks at it; the form m_string points at, for a form request that brought no body;
and the selected entries, for a request that asks for a non-empty file. -/
def SameLeftovers (c1 c2 : HttpConn) (fd : Int) (root : List UInt8) (trigMode : Int)
    (chunks : List (List UInt8)) (w : World) : Prop :=
  (c1.trigMode = 1 ↔ c2.trigMode = 1) ∧
  ∀ d, (HttpConn.zero.init fd root trigMode).1.Reads chunks (.doRequest d) →
    (d.isForm = true → d.checkState ≠ .content →
      readForm d.readBuf c1.string = readForm d.readBuf c2.string) ∧
    ∀ e, (d.onSlot c1).fileAsked w = some e → e.content ≠ [] →
      entriesSeen e c1.iovecCount = entriesSeen e c2.iovecCount

section

variable {c1 c2 d : HttpConn} {chunks : List (List UInt8)} {w : World}

theorem onSlot_form (h : d.checkState ≠ .content → readForm d.readBuf c1.string = readForm d.readBuf c2.string) :
    readForm d.readBuf (d.onSlot c1).string = readForm d.readBuf (d.onSlot c2).string := by
  unfold HttpConn.onSlot staleOf
  split
  next => rfl
  next hs => exact h hs

theorem form_of_onSlot (hs : d.checkState ≠ .content)
    (h : readForm d.readBuf (d.onSlot c1).string = readForm d.readBuf (d.onSlot c2).string) :
    readForm d.readBuf c1.string = readForm d.readBuf c2.string := by
  simp only [HttpConn.onSlot, staleOf, if_neg hs] at h
  exact h

theorem onSlot_count (d s : HttpConn) : (d.onSlot s).iovecCount = s.iovecCount := by
  unfold HttpConn.onSlot staleOf
  split <;> rfl

/-- With the same form data, two slots answer alike exactly when a non-empty file
is sent with the same entries. -/
theorem onSlot_requestSeen (empty : d.writeIdx = 0)
    (hform : d.isForm = true →
      readForm d.readBuf (d.onSlot c1).string = readForm d.readBuf (d.onSlot c2).string) :
    (d.onSlot c1).requestSeen w = (d.onSlot c2).requestSeen w ↔
      ∀ e, (d.onSlot c1).fileAsked w = some e → e.content ≠ [] →
        entriesSeen e c1.iovecCount = entriesSeen e c2.iovecCount := by
  have hs := HttpConn.requestSeen_withStale (d := d.onSlot c1) (s := staleOf d c2) (w := w) empty
    (fun hf => (hform hf).symm)
  have hcount : (staleOf d c2).iovecCount = c2.iovecCount := onSlot_count d c2
  rw [onSlot_count, hcount] at hs
  exact hs

theorem reads_onSlot {b : HttpConn} (c : HttpConn) (h : b.Reads chunks (.doRequest d)) :
    (b.withStale c).Reads chunks (.doRequest (d.onSlot c)) := HttpConn.reads_withStale c h

theorem of_reads_onSlot {b c d' : HttpConn} (h : (b.withStale c).Reads chunks (.doRequest d')) :
    ∃ d, b.Reads chunks (.doRequest d) ∧ d' = d.onSlot c := by
  obtain ⟨e, he, heq⟩ := HttpConn.reads_of_withStale h
  cases e with
  | doRequest d => exact ⟨d, he, ReadExit.doRequest.inj heq⟩
  | returns _ _ => cases heq
  | flowsOff _ => cases heq
  | undefined => cases heq

/-- A refused request is answered alike by every slot. -/
theorem refused_seen {c : HttpConn} (empty : c.writeIdx = 0) (s t : HttpConn) :
    ((c.withStale s).finish w none .badRequest).seen = ((c.withStale t).finish w none .badRequest).seen := by
  rw [HttpConn.seen_errorPage (c := c.withStale s) 404 error404Title error404Form empty (by decide) (by simp) rfl,
    HttpConn.seen_errorPage (c := c.withStale t) 404 error404Title error404Form empty (by decide) (by simp) rfl]
  rfl

/-- One slot shows what the other shows, if the answers of do_request agree. -/
theorem shows_of_shows {b : HttpConn} (empty : b.writeIdx = 0)
    (hseen : ∀ d, b.Reads chunks (.doRequest d) → (d.onSlot c1).requestSeen w = (d.onSlot c2).requestSeen w)
    {seen : Seen} (h : (b.withStale c1).Shows w chunks seen) : (b.withStale c2).Shows w chunks seen := by
  obtain ⟨e1, h1, hreads, hans, rfl⟩ := h
  obtain ⟨e, he, rfl⟩ := HttpConn.reads_of_withStale hreads
  obtain ⟨hidx, hcode⟩ := HttpConn.reads_spec he
  have hreads2 := HttpConn.reads_withStale c2 he
  cases e with
  | returns c code =>
    cases hcode c code rfl
    cases Option.some.inj hans
    exact ⟨_, _, hreads2, rfl, refused_seen ((hidx c rfl).trans empty) c2 c1⟩
  | doRequest d =>
    have hmap : ((ReadExit.doRequest (d.onSlot c1)).answer w).map Handled.seen = some h1.seen :=
      congrArg (Option.map Handled.seen) hans
    rw [HttpConn.answer_doRequest, hseen d he, ← HttpConn.answer_doRequest] at hmap
    obtain ⟨h2, hans2, hseen2⟩ := Option.map_eq_some_iff.mp hmap
    exact ⟨_, h2, hreads2, hans2, hseen2⟩
  | flowsOff c => cases hans
  | undefined => cases hans

/-- The answer of do_request is read off what a slot shows, unless it is BAD_REQUEST. -/
theorem requestSeen_of_shows {b : HttpConn} (hd : b.Reads chunks (.doRequest d)) {seen : Seen}
    (h : (b.withStale c1).Shows w chunks seen) (hcode : seen.code ≠ .badRequest) :
    (d.onSlot c1).requestSeen w = some seen := by
  obtain ⟨e1, h1, hreads, hans, rfl⟩ := h
  obtain ⟨e, he, rfl⟩ := HttpConn.reads_of_withStale hreads
  cases e with
  | returns c code =>
    cases (HttpConn.reads_spec he).2 c code rfl
    cases Option.some.inj hans
    exact absurd rfl hcode
  | doRequest d' =>
    cases HttpConn.reads_doRequest_unique hd he
    have hmap : ((ReadExit.doRequest (d.onSlot c1)).answer w).map Handled.seen = some h1.seen :=
      congrArg (Option.map Handled.seen) hans
    rwa [HttpConn.answer_doRequest] at hmap
  | flowsOff c => cases hans
  | undefined => cases hans

theorem requestSeen_of_fileAsked {e : FileEntry} (empty : d.writeIdx = 0) (h : d.fileAsked w = some e) :
    ∃ seen, d.requestSeen w = some seen ∧ seen.code = .fileRequest := by
  obtain ⟨⟨c, w', form⟩, hl, hat⟩ := Option.bind_eq_some_iff.mp h
  have hidx := (HttpConn.locate_frame hl).trans empty
  obtain ⟨path, hp, hat⟩ := Option.bind_eq_some_iff.mp hat
  obtain ⟨e', hfile, hat⟩ := Option.bind_eq_some_iff.mp hat
  split at hat
  next hok =>
    refine ⟨c.reply form (w'.files path), ?_, ?_⟩
    · simp only [HttpConn.requestSeen, hl, Option.bind_some, HttpConn.serveSeen_eq hidx]
      simp only at hp
      rw [hp, Option.map_some]
    · simp only at hfile
      rw [hfile]
      simp only [HttpConn.reply, hok.1, hok.2, Bool.true_eq_false, Bool.false_eq_true, if_false]
      split <;> rfl
  next => cases hat

/-- The form data read on two slots tells whether m_string points at the same form. -/
theorem onSlot_form_of_readsForm {b : HttpConn} (hd : b.Reads chunks (.doRequest d))
    (hforms : ∀ form, (b.withStale c1).ReadsForm chunks form → (b.withStale c2).ReadsForm chunks form)
    (hf : d.isForm = true) {form : Form} (h : readForm d.readBuf (d.onSlot c1).string = some form) :
    readForm d.readBuf (d.onSlot c2).string = some form := by
  obtain ⟨d', hd', _, h2⟩ := hforms form ⟨_, reads_onSlot c1 hd, hf, h⟩
  obtain ⟨d0, hd0, rfl⟩ := of_reads_onSlot hd'
  cases HttpConn.reads_doRequest_unique hd hd0
  exact h2

theorem shows_requestSeen {b : HttpConn} (hd : b.Reads chunks (.doRequest d)) {seen : Seen}
    (h : (d.onSlot c1).requestSeen w = some seen) : (b.withStale c1).Shows w chunks seen := by
  rw [← HttpConn.answer_doRequest] at h
  obtain ⟨h1, hans, hseen⟩ := Option.map_eq_some_iff.mp h
  exact ⟨_, h1, reads_onSlot c1 hd, hans, hseen⟩

/-- Reuse of a slot is isolated exactly when the leftovers agree where they are looked at. -/
theorem isolated_iff_sameLeftovers (c1 c2 : HttpConn) (fd : Int) (root : List UInt8) (trigMode : Int)
    (chunks : List (List UInt8)) (w : World) :
    Isolated c1 c2 fd root trigMode chunks w ↔ SameLeftovers c1 c2 fd root trigMode chunks w := by
  have empty : (HttpConn.zero.init fd root trigMode).1.writeIdx = 0 := rfl
  unfold Isolated SameLeftovers
  rw [HttpConn.init_withStale HttpConn.zero c1, HttpConn.init_withStale HttpConn.zero c2]
  generalize (HttpConn.zero.init fd root trigMode).1 = b at empty
  refine and_congr (by simp [HttpConn.init]) ⟨?_, ?_⟩
  · rintro ⟨hforms, hshows⟩ d hd
    have hidx := ((HttpConn.reads_spec hd).1 d rfl).trans empty
    have hform : d.isForm = true →
        readForm d.readBuf (d.onSlot c1).string = readForm d.readBuf (d.onSlot c2).string :=
      fun hf => Option.ext fun _ =>
        ⟨onSlot_form_of_readsForm hd (fun f => (hforms f).mp) hf,
          onSlot_form_of_readsForm hd (fun f => (hforms f).mpr) hf⟩
    refine ⟨fun hf hs => form_of_onSlot hs (hform hf), fun e he => ?_⟩
    obtain ⟨seen, hseen, hcode⟩ := requestSeen_of_fileAsked (d := d.onSlot c1) hidx he
    have hseen2 := requestSeen_of_shows hd ((hshows seen).mp (shows_requestSeen hd hseen)) (by simp [hcode])
    exact (onSlot_requestSeen hidx hform).mp (hseen.trans hseen2.symm) e he
  · intro hcond
    have hform : ∀ d, b.Reads chunks (.doRequest d) → d.isForm = true →
        readForm d.readBuf (d.onSlot c1).string = readForm d.readBuf (d.onSlot c2).string :=
      fun d hd hf => onSlot_form ((hcond d hd).1 hf)
    have hseen : ∀ d, b.Reads chunks (.doRequest d) →
        (d.onSlot c1).requestSeen w = (d.onSlot c2).requestSeen w := fun d hd =>
      (onSlot_requestSeen (((HttpConn.reads_spec hd).1 d rfl).trans empty) (hform d hd)).mpr (hcond d hd).2
    refine ⟨fun form => ⟨?_, ?_⟩, fun seen => ⟨?_, ?_⟩⟩
    · rintro ⟨d', hd', hf, hr⟩
      obtain ⟨d, hd, rfl⟩ := of_reads_onSlot hd'
      exact ⟨_, reads_onSlot c2 hd, hf, (hform d hd hf).symm.trans hr⟩
    · rintro ⟨d', hd', hf, hr⟩
      obtain ⟨d, hd, rfl⟩ := of_reads_onSlot hd'
      exact ⟨_, reads_onSlot c1 hd, hf, (hform d hd hf).trans hr⟩
    · exact shows_of_shows empty hseen
    · exact shows_of_shows empty fun d hd => (hseen d hd).symm

/-- A fresh slot and one that has served edge-triggered connections are registered differently. -/
theorem isolated_not_always : ¬ ∀ (c1 c2 : HttpConn) (fd : Int) (root : List UInt8) (trigMode : Int)
    (chunks : List (List UInt8)) (w : World), Isolated c1 c2 fd root trigMode chunks w := by
  intro h
  have hfresh := h HttpConn.zero (HttpConn.zero.init 7 (bytes "/root") 1).1 8 (bytes "/root") 1 []
    ⟨[], fun _ => true, fun _ => none⟩
  exact absurd hfresh.1 (by decide)

end

end CppInAction
