import CppInAction.HttpResponse

namespace CppInAction

/-- vsnprintf with the size as the int that its caller computes; a store outside of the array is undefined. -/
def vsnprintfChecked {n : Nat} (b : Buffer n) (off : Nat) (size : Int) (text : List UInt8) : Option (Buffer n) :=
  if toSizeT size = 0 then some b else b.blit off (text.take (toSizeT size - 1) ++ [0])

/-- The size that add_response passes on. -/
def HttpConn.writeRoom (c : HttpConn) : Int := (writeBufferSize : Int) - c.writeIdx - 1

/-- add_response with every store checked against the array. As in C99, vsnprintf returns the length
of the text; one beyond INT_MAX, which has no such length, is left out. -/
def HttpConn.addResponseChecked (c : HttpConn) (text : List UInt8) : Option (HttpConn × Bool) :=
  if writeBufferSize ≤ c.writeIdx then some (c, false)
  else do
    let buf ← vsnprintfChecked c.writeBuf c.writeIdx c.writeRoom text
    if c.writeRoom ≤ text.length then return ({ c with writeBuf := buf }, false)
    else return ({ c with writeBuf := buf, writeIdx := c.writeIdx + text.length }, true)

/-- The calls one after the other, with the texts of those that returned true. -/
def HttpConn.addResponses (c : HttpConn) : List (List UInt8) → Option (HttpConn × List (List UInt8))
  | [] => some (c, [])
  | text :: texts => do
    let (c, ok) ← c.addResponseChecked text
    let (c, accepted) ← c.addResponses texts
    return (c, if ok then text :: accepted else accepted)

/-- After calls that began with an empty buffer the text of the accepted ones fills its front, and nothing
but the buffer and its index has changed; a further call has a size that is not negative, stores inside of the array,
and leaves the index alone where it fails. -/
structure HttpConn.Collects (c c' : HttpConn) (accepted : List (List UInt8)) : Prop where
  wrote : c.Wrote c' accepted.flatten
  idx_le : c'.writeIdx ≤ writeBufferSize - 2
  room : 0 ≤ c'.writeRoom
  inside : ∀ text, ∃ d ok, c'.addResponseChecked text = some (d, ok)
  refused : ∀ text d, c'.addResponseChecked text = some (d, false) → d.writeIdx = c'.writeIdx

variable {n : Nat} {c c' : HttpConn} {text : List UInt8} {accepted : List (List UInt8)}

theorem vsnprintfChecked_eq (b : Buffer n) {off size : Nat} (fits : off + size ≤ n) (hsize : size < 2 ^ 64)
    (text : List UInt8) : vsnprintfChecked b off size text = some (vsnprintf b off size fits text) := by
  have hroom : toSizeT size = size := by
    rw [toSizeT_of_nonneg (Int.natCast_nonneg size) (by exact_mod_cast hsize), Int.toNat_natCast]
  unfold vsnprintfChecked vsnprintf
  rw [hroom]
  split
  next => rfl
  next hz =>
    have hlen : (text.take (size - 1) ++ [0]).length = min (size - 1) text.length + 1 := by
      rw [List.length_append, List.length_take, List.length_singleton]
    rw [Buffer.blit_eq_some_iff, hlen]
    exact ⟨by omega, rfl⟩

/-- No call stores outside of the array, from any index. -/
theorem HttpConn.addResponseChecked_eq (c : HttpConn) (text : List UInt8) :
    c.addResponseChecked text = some (c.addResponse text) := by
  unfold HttpConn.addResponseChecked HttpConn.addResponse
  split
  next => rfl
  next hopen =>
    have hroom : c.writeRoom = ((writeBufferSize - c.writeIdx - 1 : Nat) : Int) := by
      unfold HttpConn.writeRoom
      omega
    have hsize : writeBufferSize - c.writeIdx - 1 < 2 ^ 64 := by
      unfold writeBufferSize
      omega
    rw [hroom, vsnprintfChecked_eq c.writeBuf (by omega) hsize text]
    simp only [Option.bind_eq_bind, Option.bind_some, Int.ofNat_le]
    by_cases hfull : writeBufferSize - c.writeIdx - 1 ≤ text.length
    · simp only [hfull, if_true]
      rfl
    · simp only [hfull, if_false]
      rfl

theorem vsnprintf_take_front (b : Buffer n) {off size : Nat} (fits : off + size ≤ n) (text : List UInt8) :
    (vsnprintf b off size fits text).bytes.take off = b.bytes.take off := by
  unfold vsnprintf
  split
  next => rfl
  next =>
    simp only [List.append_assoc]
    exact List.take_left' (Buffer.length_take (by omega))

/-- A text without room for its terminator is cut behind the index, which stays. -/
theorem HttpConn.Wrote.refused (h : c.Wrote c' text) (more : List UInt8)
    (full : writeBufferSize ≤ text.length + more.length + 1) :
    (c'.addResponse more).2 = false ∧ c.Wrote (c'.addResponse more).1 text := by
  obtain ⟨⟨buf, idx, rfl⟩, rfl, hold⟩ := h
  unfold HttpConn.addResponse
  split
  next => exact ⟨rfl, ⟨_, _, rfl⟩, rfl, hold⟩
  next hclosed =>
    have hopen : ¬ writeBufferSize ≤ text.length := hclosed
    have hfull : writeBufferSize - text.length - 1 ≤ more.length := by omega
    simp only [hfull, if_true]
    exact ⟨trivial, ⟨_, _, rfl⟩, rfl, (vsnprintf_take_front buf (by omega) more).trans hold⟩

theorem HttpConn.Wrote.collects (h : c.Wrote c' accepted.flatten) (hidx : c'.writeIdx ≤ writeBufferSize - 2) :
    c.Collects c' accepted where
  wrote := h
  idx_le := hidx
  room := by
    unfold HttpConn.writeRoom writeBufferSize at *
    omega
  inside text := ⟨_, _, c'.addResponseChecked_eq text⟩
  refused text d hcall := by
    rw [HttpConn.addResponseChecked_eq] at hcall
    have hd : (c'.addResponse text).1 = d := congrArg Prod.fst (Option.some.inj hcall)
    have hok : (c'.addResponse text).2 = false := congrArg Prod.snd (Option.some.inj hcall)
    by_cases full : writeBufferSize ≤ accepted.flatten.length + text.length + 1
    · rw [← hd, (h.refused text full).2.idx, h.idx]
    · rw [(h.addResponse text (by omega)).1] at hok
      cases hok

/-- A text that fits with its terminator, one byte to spare, is taken. -/
theorem HttpConn.Collects.takes (h : c.Collects c' accepted)
    (fits : accepted.flatten.length + text.length + 1 < writeBufferSize) :
    ∃ d, c'.addResponseChecked text = some (d, true) ∧ c.Collects d (accepted ++ [text]) := by
  obtain ⟨hok, hwrote⟩ := h.wrote.addResponse text fits
  have hflat : accepted.flatten ++ text = (accepted ++ [text]).flatten := by simp
  rw [hflat] at hwrote
  refine ⟨_, ?_, hwrote.collects (by rw [hwrote.idx, ← hflat, List.length_append]; omega)⟩
  rw [HttpConn.addResponseChecked_eq, ← hok]

/-- Any other text is refused and leaves the accepted ones as they are. -/
theorem HttpConn.Collects.refuses (h : c.Collects c' accepted)
    (full : writeBufferSize ≤ accepted.flatten.length + text.length + 1) :
    ∃ d, c'.addResponseChecked text = some (d, false) ∧ c.Collects d accepted := by
  obtain ⟨hok, hwrote⟩ := h.wrote.refused text full
  refine ⟨_, ?_, hwrote.collects (by rw [hwrote.idx, ← h.wrote.idx]; exact h.idx_le)⟩
  rw [HttpConn.addResponseChecked_eq, ← hok]

theorem HttpConn.Collects.step (h : c.Collects c' accepted) (text : List UInt8) :
    ∃ d ok, c'.addResponseChecked text = some (d, ok) ∧
      c.Collects d (accepted ++ if ok then [text] else []) := by
  by_cases full : writeBufferSize ≤ accepted.flatten.length + text.length + 1
  · obtain ⟨d, hcall, hd⟩ := h.refuses full
    exact ⟨d, false, hcall, by rwa [if_neg Bool.false_ne_true, List.append_nil]⟩
  · obtain ⟨d, hcall, hd⟩ := h.takes (Nat.lt_of_not_le full)
    exact ⟨d, true, hcall, hd⟩

theorem HttpConn.Collects.run (h : c.Collects c' accepted) (texts : List (List UInt8)) :
    ∃ d more, c'.addResponses texts = some (d, more) ∧ c.Collects d (accepted ++ more) := by
  induction texts generalizing c' accepted with
  | nil => exact ⟨c', [], rfl, by rwa [List.append_nil]⟩
  | cons text texts ih =>
    obtain ⟨d, ok, hcall, hd⟩ := h.step text
    obtain ⟨e, more, hrun, he⟩ := ih hd
    refine ⟨e, if ok then text :: more else more, ?_, ?_⟩
    · simp only [HttpConn.addResponses, hcall, hrun, Option.bind_eq_bind, Option.bind_some]
      rfl
    · rw [List.append_assoc] at he
      cases ok
      next => exact he
      next => exact he

/-- Whatever texts the calls format, what the buffer holds is the text of the accepted ones. -/
theorem HttpConn.addResponses_collects (c : HttpConn) (texts : List (List UInt8)) :
    ∃ c' accepted, ({ c with writeIdx := 0 } : HttpConn).addResponses texts = some (c', accepted) ∧
      ({ c with writeIdx := 0 } : HttpConn).Collects c' accepted := by
  have hstart : ({ c with writeIdx := 0 } : HttpConn).Collects { c with writeIdx := 0 } [] :=
    (HttpConn.wrote_nil rfl).collects (Nat.zero_le _)
  obtain ⟨d, more, hrun, hd⟩ := hstart.run texts
  exact ⟨d, more, hrun, hd⟩

end CppInAction
