import CppInAction.HttpParse

namespace CppInAction

/-- What recv returns: bytes, 0, or -1, with an errno that says to try again or another one. -/
inductive Recv
  | bytes (chunk : List UInt8)
  | zero
  | failed (again : Bool)
deriving DecidableEq, Repr

/-- recv writes at m_read_buf + m_read_idx, which must be inside the buffer. -/
def HttpConn.receive (c : HttpConn) (chunk : List UInt8) : Option HttpConn :=
  if c.readIdx < 0 then none else c.deliver chunk

/-- The one recv of level-triggered mode; its result is added to m_read_idx before it is tested. -/
def HttpConn.readLevel (c : HttpConn) : List Recv → Option (HttpConn × Bool)
  | [] => none
  | .bytes chunk :: _ => (c.receive chunk).map (·, true)
  | .zero :: _ => some (c, false)
  | .failed _ :: _ => some ({ c with readIdx := c.readIdx - 1 }, false)

/-- The loop of edge-triggered mode over the results of recv; none when it would go on. -/
def HttpConn.readEdge (c : HttpConn) : List Recv → Option (HttpConn × Bool)
  | [] => none
  | .bytes chunk :: results => (c.receive chunk).bind fun c => c.readEdge results
  | .zero :: _ => some (c, false)
  | .failed again :: _ => some (c, again)

def HttpConn.readOnce (c : HttpConn) (results : List Recv) : Option (HttpConn × Bool) :=
  if readBufferSize ≤ c.readIdx then some (c, false)
  else if c.trigMode = 0 then c.readLevel results
  else c.readEdge results

/-- Results that recv can give when there is this much room: a chunk is not empty and fits the
room that is left, and something else comes in the end. -/
def Possible : Nat → List Recv → Prop
  | _, [] => False
  | room, .bytes chunk :: results => chunk ≠ [] ∧ chunk.length ≤ room ∧ Possible (room - chunk.length) results
  | _, _ :: _ => True

/-- The bytes of the leading chunks. -/
def chunks : List Recv → List UInt8
  | .bytes chunk :: results => chunk ++ chunks results
  | _ => []

/-- The bytes that a call of read_once is given. -/
def HttpConn.given (c : HttpConn) (results : List Recv) : List UInt8 :=
  if readBufferSize ≤ c.readIdx then []
  else if c.trigMode = 0 then chunks (results.take 1)
  else chunks results

/-- read_once returns, has stored what it was given behind the old bytes, and has changed nothing else. -/
def HttpConn.Appends (c : HttpConn) (results : List Recv) : Prop :=
  ∃ (buf : Buffer readBufferSize) (ok : Bool),
    c.readOnce results = some ({ c with readBuf := buf, readIdx := c.readIdx + (c.given results).length }, ok) ∧
    c.readIdx + (c.given results).length ≤ readBufferSize ∧
    buf.bytes = c.readBuf.bytes.take c.readIdx.toNat ++ c.given results ++
      c.readBuf.bytes.drop (c.readIdx.toNat + (c.given results).length)

section Reading

variable {c : HttpConn} {results : List Recv}

theorem HttpConn.receive_fits (chunk : List UInt8) (h0 : 0 ≤ c.readIdx)
    (hfits : c.readIdx + chunk.length ≤ readBufferSize) :
    ∃ buf, c.readBuf.blit c.readIdx.toNat chunk = some buf ∧
      c.receive chunk = some { c with readBuf := buf, readIdx := c.readIdx + chunk.length } := by
  have hroom : c.readIdx.toNat + chunk.length ≤ readBufferSize := by omega
  obtain ⟨buf, hblit, _⟩ := Buffer.take_blit (b := c.readBuf) hroom
  refine ⟨buf, hblit, ?_⟩
  simp [HttpConn.receive, Int.not_lt.mpr h0, HttpConn.deliver, hblit]

/-- The loop stores every chunk behind those before it. -/
theorem HttpConn.readEdge_stores (h0 : 0 ≤ c.readIdx) (hle : c.readIdx ≤ readBufferSize)
    (hp : Possible (readBufferSize - c.readIdx).toNat results) :
    ∃ buf ok, c.readBuf.blit c.readIdx.toNat (chunks results) = some buf ∧
      c.readEdge results = some ({ c with readBuf := buf, readIdx := c.readIdx + (chunks results).length }, ok) ∧
      c.readIdx + (chunks results).length ≤ readBufferSize := by
  induction results generalizing c with
  | nil => exact hp.elim
  | cons r results ih =>
    cases r with
    | bytes chunk =>
      obtain ⟨_, hlen, hrest⟩ := hp
      obtain ⟨buf1, hblit1, hreceive⟩ := HttpConn.receive_fits chunk h0 (by omega)
      have hroom : (readBufferSize - (c.readIdx + chunk.length)).toNat =
          (readBufferSize - c.readIdx).toNat - chunk.length := by omega
      obtain ⟨buf, ok, hblit, hread, hend⟩ := @ih { c with readBuf := buf1, readIdx := c.readIdx + chunk.length }
        (by simp only; omega) (by simp only; omega) (by rw [hroom]; exact hrest)
      have hidx : (c.readIdx + chunk.length).toNat = c.readIdx.toNat + chunk.length := by omega
      have htotal : c.readIdx + chunk.length + (chunks results).length =
          c.readIdx + (chunks (.bytes chunk :: results)).length := by
        rw [chunks, List.length_append]
        omega
      simp only [hidx, htotal] at hblit hread hend
      refine ⟨buf, ok, Buffer.blit_blit hblit1 hblit, ?_, hend⟩
      rw [HttpConn.readEdge, hreceive]
      exact hread
    | zero => exact ⟨c.readBuf, false, Buffer.blit_nil (by omega), by simp [HttpConn.readEdge, chunks], by simpa [chunks]⟩
    | failed again =>
      exact ⟨c.readBuf, again, Buffer.blit_nil (by omega), by simp [HttpConn.readEdge, chunks], by simpa [chunks]⟩

theorem HttpConn.readLevel_stores (h0 : 0 ≤ c.readIdx) (hle : c.readIdx ≤ readBufferSize)
    (hp : Possible (readBufferSize - c.readIdx).toNat results) :
    (∃ again, results.head? = some (.failed again) ∧
      c.readLevel results = some ({ c with readIdx := c.readIdx - 1 }, false)) ∨
    (∀ again, results.head? ≠ some (.failed again)) ∧
    ∃ buf ok, c.readBuf.blit c.readIdx.toNat (chunks (results.take 1)) = some buf ∧
      c.readLevel results =
        some ({ c with readBuf := buf, readIdx := c.readIdx + (chunks (results.take 1)).length }, ok) ∧
      c.readIdx + (chunks (results.take 1)).length ≤ readBufferSize := by
  cases results with
  | nil => exact hp.elim
  | cons r results =>
    cases r with
    | bytes chunk =>
      obtain ⟨_, hlen, _⟩ := hp
      obtain ⟨buf, hblit, hreceive⟩ := HttpConn.receive_fits chunk h0 (by omega)
      refine Or.inr ⟨by simp, buf, true, ?_⟩
      rw [List.take_succ_cons, List.take_zero, show chunks [Recv.bytes chunk] = chunk from List.append_nil chunk]
      exact ⟨hblit, by rw [HttpConn.readLevel, hreceive]; rfl, by omega⟩
    | zero =>
      exact Or.inr ⟨by simp, c.readBuf, false, Buffer.blit_nil (by omega), by simp [HttpConn.readLevel, chunks],
        by simpa [chunks]⟩
    | failed again => exact Or.inl ⟨again, rfl, rfl⟩

theorem HttpConn.appends_of_blit {buf : Buffer readBufferSize} {ok : Bool} {xs : List UInt8} (hgiven : c.given results = xs)
    (hblit : c.readBuf.blit c.readIdx.toNat xs = some buf)
    (hread : c.readOnce results = some ({ c with readBuf := buf, readIdx := c.readIdx + xs.length }, ok))
    (hend : c.readIdx + xs.length ≤ readBufferSize) : c.Appends results := by
  subst hgiven
  exact ⟨buf, ok, hread, hend, (Buffer.blit_eq_some_iff.mp hblit).2⟩

theorem HttpConn.not_appends_of_lower {ok : Bool}
    (h : c.readOnce results = some ({ c with readIdx := c.readIdx - 1 }, ok)) : ¬ c.Appends results := by
  rintro ⟨buf, ok', hread, _⟩
  have hidx := congrArg (fun r => r.1.readIdx) (Option.some.inj (h.symm.trans hread))
  simp only at hidx
  omega

end Reading

/-- read_once only appends, unless it is the recv of level-triggered mode that fails. -/
theorem readOnce_appends_iff (c : HttpConn) (results : List Recv) (h0 : 0 ≤ c.readIdx) (hle : c.readIdx ≤ readBufferSize)
    (hp : Possible (readBufferSize - c.readIdx).toNat results) :
    c.Appends results ↔
      ¬ (c.trigMode = 0 ∧ c.readIdx < readBufferSize ∧ ∃ again, results.head? = some (.failed again)) := by
  by_cases hfull : readBufferSize ≤ c.readIdx
  · have honce : c.readOnce results = some (c, false) := if_pos hfull
    have happends : c.Appends results :=
      HttpConn.appends_of_blit (if_pos hfull) (Buffer.blit_nil (by omega)) (by simpa using honce) (by simpa using hle)
    simp [happends, Int.not_lt.mpr hfull]
  · have hroom : c.readIdx < readBufferSize := by omega
    by_cases hmode : c.trigMode = 0
    · have hgiven : c.given results = chunks (results.take 1) := by rw [HttpConn.given, if_neg hfull, if_pos hmode]
      have honce : c.readOnce results = c.readLevel results := by rw [HttpConn.readOnce, if_neg hfull, if_pos hmode]
      rcases HttpConn.readLevel_stores h0 hle hp with ⟨again, hhead, hread⟩ | ⟨hno, buf, ok, hblit, hread, hend⟩
      · have hnot : ¬ c.Appends results := HttpConn.not_appends_of_lower (honce.trans hread)
        simp [hnot, hmode, hroom, hhead]
      · have happends : c.Appends results := HttpConn.appends_of_blit hgiven hblit (honce.trans hread) hend
        simp [happends, hno]
    · have hgiven : c.given results = chunks results := by rw [HttpConn.given, if_neg hfull, if_neg hmode]
      have honce : c.readOnce results = c.readEdge results := by rw [HttpConn.readOnce, if_neg hfull, if_neg hmode]
      obtain ⟨buf, ok, hblit, hread, hend⟩ := HttpConn.readEdge_stores h0 hle hp
      have happends : c.Appends results := HttpConn.appends_of_blit hgiven hblit (honce.trans hread) hend
      simp [happends, hmode]

/-- In level-triggered mode two bytes arrive at the end of an empty buffer. -/
theorem readOnce_appends_iff_two : HttpConn.zero.Appends [.bytes [71, 69], .zero] :=
  (readOnce_appends_iff HttpConn.zero [.bytes [71, 69], .zero] (by decide) (by decide)
    ⟨by decide, by decide, trivial⟩).mpr (by simp)

/-- A recv that fails in level-triggered mode takes one off m_read_idx. -/
theorem readOnce_not_always_appends :
    ¬ ∀ (c : HttpConn) (results : List Recv), 0 ≤ c.readIdx → c.readIdx ≤ readBufferSize →
      Possible (readBufferSize - c.readIdx).toNat results → c.Appends results := by
  intro h
  have happends := h HttpConn.zero [.failed true] (by decide) (by decide) trivial
  exact HttpConn.not_appends_of_lower rfl happends

/-- The other end of the socket. -/
inductive Peer
  | connected | closed | failed
deriving DecidableEq, Repr

/-- What recv returns when no bytes are left. -/
def Peer.reply : Peer → Recv
  | .connected => .failed true
  | .closed => .zero
  | .failed => .failed false

/-- What the calls of recv with this much room return on a socket with these bytes: the bytes in
any cut into chunks, then what the peer says; 0 if there is no room left. -/
inductive Gives (peer : Peer) : List UInt8 → Nat → List Recv → Prop
  | full (avail : List UInt8) : Gives peer avail 0 [.zero]
  | drained {room : Nat} : 0 < room → Gives peer [] room [peer.reply]
  | chunk {chunk avail : List UInt8} {room : Nat} {results : List Recv} : chunk ≠ [] → chunk.length ≤ room →
      Gives peer avail (room - chunk.length) results → Gives peer (chunk ++ avail) room (.bytes chunk :: results)

/-- read_once returns, and false only for a peer that has closed or failed or for more bytes than fit. -/
def HttpConn.ReadsAll (c : HttpConn) (peer : Peer) (avail : List UInt8) (results : List Recv) : Prop :=
  ∃ c' ok, c.readOnce results = some (c', ok) ∧
    (ok = false → peer ≠ .connected ∨ readBufferSize - c.readIdx < avail.length)

theorem Peer.readEdge_reply (peer : Peer) (c : HttpConn) :
    c.readEdge [peer.reply] = some (c, decide (peer = .connected)) := by
  cases peer <;> rfl

/-- The loop ends with true exactly when the peer is connected and a byte of the buffer stays free. -/
theorem Gives.readEdge {peer : Peer} {avail : List UInt8} {room : Nat} {results : List Recv} {c : HttpConn}
    (h : Gives peer avail room results) (h0 : 0 ≤ c.readIdx) (hroom : c.readIdx + room = readBufferSize) :
    ∃ c', c.readEdge results = some (c', decide (peer = .connected ∧ avail.length < room)) := by
  induction h generalizing c with
  | full avail => exact ⟨c, by simp [HttpConn.readEdge]⟩
  | drained hpos => exact ⟨c, by simp [Peer.readEdge_reply, hpos]⟩
  | @chunk chunk avail room results hne hlen _ ih =>
    obtain ⟨buf, _, hreceive⟩ := HttpConn.receive_fits chunk h0 (by omega)
    obtain ⟨c', hread⟩ := @ih { c with readBuf := buf, readIdx := c.readIdx + chunk.length }
      (by simp only; omega) (by simp only; omega)
    refine ⟨c', ?_⟩
    rw [HttpConn.readEdge, hreceive, Option.bind_some, hread, List.length_append]
    have hiff : avail.length < room - chunk.length ↔ chunk.length + avail.length < room := by omega
    simp only [hiff]

/-- In edge-triggered mode read_once does not take a connected peer for a closed one, unless the
bytes fill the buffer exactly. -/
theorem readOnce_readsAll_iff (c : HttpConn) (peer : Peer) (avail : List UInt8) (results : List Recv)
    (hmode : c.trigMode = 1) (h0 : 0 ≤ c.readIdx) (hlt : c.readIdx < readBufferSize)
    (h : Gives peer avail (readBufferSize - c.readIdx).toNat results) :
    c.ReadsAll peer avail results ↔ (peer = .connected → c.readIdx + avail.length ≠ readBufferSize) := by
  obtain ⟨c', hread⟩ := h.readEdge h0 (by omega)
  have honce : c.readOnce results = c.readEdge results := by
    rw [HttpConn.readOnce, if_neg (by omega), if_neg (by omega)]
  have hlen : avail.length < (readBufferSize - c.readIdx).toNat ↔ c.readIdx + avail.length < readBufferSize := by omega
  simp only [HttpConn.ReadsAll, honce, hread, Option.some.injEq, Prod.mk.injEq]
  constructor
  · rintro ⟨_, _, ⟨rfl, rfl⟩, hfalse⟩ hpeer hexact
    rcases hfalse (by simp only [decide_eq_false_iff_not]; omega) with hno | hmore
    · exact hno hpeer
    · omega
  · intro hne
    refine ⟨_, _, ⟨rfl, rfl⟩, fun hfalse => ?_⟩
    by_cases hpeer : peer = .connected
    · right
      have := hne hpeer
      simp only [hpeer, true_and, decide_eq_false_iff_not, hlen] at hfalse
      omega
    · exact Or.inl hpeer

theorem readOnce_readsAll_iff_two :
    HttpConn.ReadsAll { HttpConn.zero with trigMode := 1 } .connected [71, 69] [.bytes [71, 69], .failed true] :=
  (readOnce_readsAll_iff { HttpConn.zero with trigMode := 1 } .connected [71, 69] [.bytes [71, 69], .failed true]
    rfl (by decide) (by decide) (@Gives.chunk .connected [71, 69] [] _ _ (by decide) (by decide)
      (.drained (by decide)))).mpr fun _ => by decide

/-- The last free byte of the buffer arrives. -/
theorem readOnce_not_always_readsAll :
    ¬ ∀ (c : HttpConn) (peer : Peer) (avail : List UInt8) (results : List Recv), c.trigMode = 1 → 0 ≤ c.readIdx →
      c.readIdx < readBufferSize → Gives peer avail (readBufferSize - c.readIdx).toNat results →
      c.ReadsAll peer avail results := by
  intro h
  have hgives : Gives .connected [65] 1 [.bytes [65], .zero] :=
    @Gives.chunk .connected [65] [] 1 _ (by decide) (by decide) (.full [])
  obtain ⟨c', ok, hread, hfalse⟩ := h { HttpConn.zero with trigMode := 1, readIdx := 2047 } .connected [65]
    [.bytes [65], .zero] rfl (by decide) (by decide) hgives
  obtain ⟨c1, hedge⟩ := hgives.readEdge (c := { HttpConn.zero with trigMode := 1, readIdx := 2047 }) (by decide) rfl
  have hok : ok = false := (congrArg Prod.snd (Option.some.inj (hedge.symm.trans hread))).symm
  rcases hfalse hok with hne | hmore
  · exact hne rfl
  · exact absurd hmore (by decide)

end CppInAction
