import CppInAction.CMemory
import Mathlib.Data.List.Induction

namespace CppInAction

namespace EchoClient

def bufSize : Nat := 1024

/-- The characters fgets takes: up to the newline, and no more than the array has room for. -/
def firstLine (input : List UInt8) : List UInt8 :=
  (input.takeWhile (· ≠ 10) ++ if 10 ∈ input then [10] else []).take (bufSize - 1)

/-- fgets(message, BUF_SIZE, stdin) before the end of the input, and the write of the string to
the socket; none is the message that ends the client. -/
def send (message : Buffer bufSize) (input : List UInt8) : Option (Buffer bufSize × List UInt8) := do
  let message ← message.blit 0 (firstLine input ++ [0])
  let line ← message.cstr 0
  if line = bytes "q\n" ∨ line = bytes "Q\n" then none else some (message, line)

/-- echo_server writes back what each read gives it, up to the end of the stream. -/
def echoServer (reads : List (List UInt8)) : List UInt8 := (reads.takeWhile (· ≠ [])).flatten

/-- The receive loop: each read stores at the start of message. Without another read the client waits. -/
def collect (strLen : Nat) : List (List UInt8) → Buffer bufSize → Nat → Option (Buffer bufSize × Nat)
  | [], message, receiveLen => if receiveLen < strLen then none else some (message, receiveLen)
  | got :: reads, message, receiveLen =>
    if receiveLen < strLen then do
      let message ← message.blit 0 got
      collect strLen reads message (receiveLen + got.length)
    else some (message, receiveLen)

/-- The string that is printed when the reply has come in. -/
def reply (message : Buffer bufSize) (strLen : Nat) (reads : List (List UInt8)) : Option (List UInt8) := do
  let (message, receiveLen) ← collect strLen reads message 0
  let message ← message.put receiveLen 0
  message.cstr 0

/-- A stream in reads of at least one byte. -/
def Pieces (reads : List (List UInt8)) (stream : List UInt8) : Prop :=
  (∀ got ∈ reads, got ≠ []) ∧ reads.flatten = stream

/-- The bytes at the start of message when each piece has been stored over the ones before it. -/
def overlay (data : List UInt8) (reads : List (List UInt8)) : List UInt8 :=
  reads.foldl (fun data got => got ++ data.drop got.length) data

variable {message message' : Buffer bufSize} {input sent data : List UInt8} {reads there back : List (List UInt8)}

theorem send_cstr (h : send message input = some (message', sent)) : message'.cstr 0 = some sent := by
  obtain ⟨b, _, h⟩ := Option.bind_eq_some_iff.mp h
  obtain ⟨line, hline, h⟩ := Option.bind_eq_some_iff.mp h
  split at h
  next => cases h
  next =>
    cases h
    exact hline

theorem echoServer_eq (h : Pieces reads sent) : echoServer reads = sent := by
  rw [echoServer, List.takeWhile_eq_self_iff.mpr (by simpa using h.1), h.2]

/-- The client takes the whole reply, however it is cut. -/
theorem collect_eq {strLen receiveLen : Nat} (hreads : ∀ got ∈ reads, got ≠ []) (hlen : strLen ≤ bufSize)
    (hall : receiveLen + reads.flatten.length = strLen) (message : Buffer bufSize) :
    ∃ b, collect strLen reads message receiveLen = some (b, strLen) ∧
      b.bytes.take strLen = overlay (message.bytes.take strLen) reads := by
  induction reads generalizing message receiveLen with
  | nil =>
    rw [List.flatten_nil, List.length_nil, Nat.add_zero] at hall
    exact ⟨message, by rw [collect, if_neg (by omega), hall], rfl⟩
  | cons got reads ih =>
    have hpos := List.length_pos_iff.mpr (hreads got List.mem_cons_self)
    rw [List.flatten_cons, List.length_append] at hall
    have hroom : 0 + got.length ≤ bufSize := by omega
    obtain ⟨b, hblit, hbytes⟩ := Buffer.exists_blit (b := message) hroom
    rw [List.take_zero, List.nil_append, Nat.zero_add] at hbytes
    have hstart : b.bytes.take strLen = got ++ (message.bytes.take strLen).drop got.length := by
      rw [hbytes, List.take_append, List.take_of_length_le (by omega), List.drop_take]
    have hrest : receiveLen + got.length + reads.flatten.length = strLen := by omega
    obtain ⟨b', hcollect, htake⟩ := ih (fun g hg => hreads g (List.mem_cons_of_mem got hg)) hrest b
    refine ⟨b', ?_, ?_⟩
    · rw [collect, if_pos (by omega), hblit]
      exact hcollect
    · rw [htake, hstart]
      rfl

theorem overlay_concat (data : List UInt8) (reads : List (List UInt8)) (got : List UInt8) :
    overlay data (reads ++ [got]) = got ++ (overlay data reads).drop got.length := by
  rw [overlay, List.foldl_append]
  rfl

/-- At each place stands what the last piece that reaches so far has there. -/
theorem overlay_getElem?_iff (data : List UInt8) (reads : List (List UInt8)) (j : Nat) :
    (overlay data reads)[j]? = data[j]? ↔
      ∀ before got after, reads = before ++ got :: after → j < got.length →
        (∀ later ∈ after, later.length ≤ j) →
        got[j]? = data[j]? := by
  induction reads using List.reverseRecOn with
  | nil =>
    refine iff_of_true rfl ?_
    intro before got after hsplit
    simp at hsplit
  | append_singleton reads last ih =>
    rw [overlay_concat]
    by_cases hj : j < last.length
    · rw [List.getElem?_append_left hj]
      constructor
      · intro h before got after hsplit _ hlater
        rcases concat_eq_cut hsplit with ⟨rfl, _⟩ | ⟨after', rfl, _⟩
        · exact h
        · have := hlater last (by simp)
          omega
      · intro h
        exact h reads last [] rfl hj (by simp)
    · rw [List.getElem?_append_right (by omega), List.getElem?_drop, Nat.add_sub_cancel' (by omega), ih]
      constructor
      · intro h before got after hsplit hgot hlater
        rcases concat_eq_cut hsplit with ⟨rfl, _⟩ | ⟨after', rfl, hreads⟩
        · exact absurd hgot hj
        · exact h before got after' hreads hgot fun later hmem => hlater later (by simp [hmem])
      · intro h before got after hsplit hgot hlater
        refine h before got (after ++ [last]) (by simp [hsplit]) hgot fun later hmem => ?_
        rcases List.mem_append.mp hmem with hmem | hmem
        · exact hlater later hmem
        · rw [List.mem_singleton.mp hmem]
          omega

theorem overlay_length (hreads : ∀ got ∈ reads, got.length ≤ data.length) :
    (overlay data reads).length = data.length := by
  induction reads generalizing data with
  | nil => rfl
  | cons got reads ih =>
    have hgot := hreads got List.mem_cons_self
    have hlen : (got ++ data.drop got.length).length = data.length := by
      rw [List.length_append, List.length_drop]
      omega
    have hrest : ∀ g ∈ reads, g.length ≤ (got ++ data.drop got.length).length := fun g hg =>
      hlen.symm ▸ hreads g (List.mem_cons_of_mem got hg)
    exact (ih hrest).trans hlen

/-- The string that is sent is the line up to its first NUL. -/
theorem exists_send (message : Buffer bufSize) {line : List UInt8}
    (hline : (firstLine input).takeWhile (· ≠ 0) = line) (hquit : ¬(line = bytes "q\n" ∨ line = bytes "Q\n")) :
    ∃ message', send message input = some (message', line) := by
  have hlen : (firstLine input).length ≤ bufSize - 1 := List.length_take_le _ _
  have hroom : 0 + (firstLine input ++ [0]).length ≤ bufSize := by
    rw [List.length_append, List.length_singleton]
    simp only [bufSize] at hlen ⊢
    omega
  obtain ⟨b, hblit, hbytes⟩ := Buffer.exists_blit (b := message) hroom
  rw [List.take_zero, List.nil_append, List.append_assoc] at hbytes
  have hmem : 0 ∈ b.bytes := by simp [hbytes]
  have hcstr : b.cstr 0 = some line := by
    rw [Buffer.cstr, List.drop_zero, if_pos hmem, hbytes, List.takeWhile_append, ← hline]
    split
    next hwhole =>
      have hself := (List.takeWhile_prefix _).eq_of_length hwhole
      rw [hself]
      simp
    next => rfl
  refine ⟨b, ?_⟩
  simp only [send, hblit, hcstr, Option.bind_eq_bind, Option.bind_some, if_neg hquit]

/-- The client prints what it sent exactly when the pieces, one stored over the other, leave it. -/
theorem reply_eq_iff_overlay (h : send message input = some (message', sent)) (hback : Pieces back sent) :
    reply message' sent.length back = some sent ↔ overlay sent back = sent := by
  obtain ⟨tail, hbytes, hzero⟩ := Buffer.cstr_eq_some_iff.mp (send_cstr h)
  rw [List.drop_zero] at hbytes
  have hsize := message'.length_eq
  rw [hbytes, List.length_append, List.length_cons] at hsize
  have hall : 0 + back.flatten.length = sent.length := by rw [hback.2, Nat.zero_add]
  obtain ⟨b, hcollect, htake⟩ := collect_eq hback.1 (by omega) hall message'
  rw [hbytes, List.take_left] at htake
  have hlen : (overlay sent back).length = sent.length := by
    refine overlay_length fun got hgot => ?_
    rw [← hback.2]
    exact (List.sublist_flatten_of_mem hgot).length_le
  obtain ⟨b', hput, hend⟩ := Buffer.take_put (b := b) (v := 0) (i := sent.length) (by omega)
  have hprinted : b'.bytes = overlay sent back ++ 0 :: b'.bytes.drop (sent.length + 1) := by
    conv_lhs => rw [← List.take_append_drop (sent.length + 1) b'.bytes]
    rw [hend, htake, List.append_assoc]
    rfl
  have hreply : reply message' sent.length back = b'.cstr 0 := by
    simp only [reply, hcollect, hput, Option.bind_eq_bind, Option.bind_some]
  rw [hreply, Buffer.cstr_eq_some_iff, List.drop_zero]
  constructor
  · rintro ⟨rest, hrest, _⟩
    rw [hprinted] at hrest
    exact (List.append_inj hrest hlen).1
  · intro heq
    rw [heq] at hprinted
    exact ⟨_, hprinted, hzero⟩

/-- The client prints what it sent exactly when each byte of a piece that no later piece covers
is the byte of the message at the place where the client stores it. -/
theorem reply_iff (h : send message input = some (message', sent)) (hthere : Pieces there sent)
    (hback : Pieces back (echoServer there)) :
    reply message' sent.length back = some sent ↔
      ∀ before got after, back = before ++ got :: after →
        ∀ j < got.length, (∀ later ∈ after, later.length ≤ j) →
        got[j]? = sent[j]? := by
  rw [echoServer_eq hthere] at hback
  rw [reply_eq_iff_overlay h hback, List.ext_getElem?_iff]
  simp only [overlay_getElem?_iff]
  constructor
  · intro h before got after hsplit j
    exact h j before got after hsplit
  · intro h j before got after hsplit
    exact h before got after hsplit j

/-- A line without a newline, echoed in two halves: abab comes out as it was sent, abcd does not. -/
theorem reply_two_halves :
    (∃ message', send (Buffer.zero _) (bytes "abab") = some (message', bytes "abab") ∧
      reply message' 4 [bytes "ab", bytes "ab"] = some (bytes "abab")) ∧
    ∃ message', send (Buffer.zero _) (bytes "abcd") = some (message', bytes "abcd") ∧
      reply message' 4 [bytes "ab", bytes "cd"] ≠ some (bytes "abcd") := by
  constructor
  · have hline : (firstLine (bytes "abab")).takeWhile (· ≠ 0) = bytes "abab" := by decide
    obtain ⟨message', hsend⟩ := exists_send (Buffer.zero _) hline (by decide)
    have hpieces : Pieces [bytes "ab", bytes "ab"] (bytes "abab") := ⟨by decide, by decide⟩
    refine ⟨message', hsend, (reply_iff hsend hpieces (by rwa [echoServer_eq hpieces])).mpr ?_⟩
    intro before got after hsplit j hj hlater
    rcases before with _ | ⟨first, before⟩
    · obtain ⟨rfl, rfl⟩ := List.cons.inj hsplit
      exact absurd (hlater (bytes "ab") List.mem_cons_self) (Nat.not_le_of_lt hj)
    · obtain ⟨_, hrest⟩ := List.cons.inj hsplit
      obtain ⟨rfl, rfl, rfl⟩ : before = [] ∧ got = bytes "ab" ∧ after = [] := by
        rcases before with _ | ⟨second, before⟩
        · obtain ⟨hgot, hafter⟩ := List.cons.inj hrest
          exact ⟨rfl, hgot.symm, hafter.symm⟩
        · simp at hrest
      revert j
      decide
  · have hline : (firstLine (bytes "abcd")).takeWhile (· ≠ 0) = bytes "abcd" := by decide
    obtain ⟨message', hsend⟩ := exists_send (Buffer.zero _) hline (by decide)
    have hpieces : Pieces [bytes "ab", bytes "cd"] (bytes "abcd") := ⟨by decide, by decide⟩
    refine ⟨message', hsend, fun hreply => ?_⟩
    have hall := (reply_iff hsend hpieces (by rwa [echoServer_eq hpieces])).mp hreply
    exact absurd (hall [bytes "ab"] (bytes "cd") [] rfl 0 (by decide) (by simp)) (by decide)

/-- The reply to ab in the pieces a and b is stored over its own start. -/
theorem reply_two_pieces :
    ¬∀ message input message' sent there back, send message input = some (message', sent) → Pieces there sent →
      Pieces back (echoServer there) → reply message' sent.length back = some sent := by
  intro h
  have hline : (firstLine (bytes "ab\n")).takeWhile (· ≠ 0) = bytes "ab\n" := by decide
  obtain ⟨message', hsend⟩ := exists_send (Buffer.zero _) hline (by decide)
  have hthere : Pieces [bytes "ab\n"] (bytes "ab\n") := ⟨by decide, by decide⟩
  have hback : Pieces [bytes "a", bytes "b\n"] (bytes "ab\n") := ⟨by decide, by decide⟩
  have hreply := h _ _ _ _ _ _ hsend hthere (by rwa [echoServer_eq hthere])
  rw [reply_eq_iff_overlay hsend hback] at hreply
  revert hreply
  decide

end EchoClient

end CppInAction
