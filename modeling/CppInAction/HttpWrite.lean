import CppInAction.HttpConn
import CppInAction.Run
import Mathlib.Data.List.Range

namespace CppInAction

def IoBase.add : IoBase → Nat → IoBase
  | .wild, _ => .wild
  | .writeBuf off, k => .writeBuf (off + k)
  | .file off, k => .file (off + k)

/-- The addresses of n consecutive bytes. -/
def span (base : IoBase) (n : Nat) : List IoBase := (List.range n).map base.add

/-- The addresses a writev takes when it accepts n bytes. -/
def accepted : List IoVec → Nat → List IoBase
  | [], _ => []
  | v :: vs, n => span v.base (min n v.len) ++ accepted vs (n - v.len)

/-- The entries passed to writev. -/
def HttpConn.iovecs (c : HttpConn) : List IoVec := [c.iovec0, c.iovec1].take c.iovecCount.toNat

def HttpConn.offered (c : HttpConn) : Nat := (c.iovecs.map IoVec.len).sum

inductive WritevResult
  | sent (n : Nat) | again | error
deriving DecidableEq, Repr

/-- The cursor update of write() after writev returned temp. -/
def HttpConn.afterWritev (c : HttpConn) (temp : Nat) : HttpConn :=
  let haveSend := toInt32 (c.bytesHaveSend + temp)
  let toSend := toInt32 (c.bytesToSend - temp)
  if c.iovec0.len ≤ toSizeT toSend then
    { c with
      bytesHaveSend := haveSend
      bytesToSend := toSend
      iovec0 := { c.iovec0 with len := 0 }
      iovec1 := ⟨.file (haveSend - c.writeIdx), toSizeT haveSend⟩ }
  else
    { c with
      bytesHaveSend := haveSend
      bytesToSend := toSend
      iovec0 := ⟨.writeBuf haveSend, toSizeT (c.iovec0.len - haveSend)⟩ }

/-- The subtraction on m_iovec[0].iov_len in that update goes below zero. -/
def HttpConn.lenUnderflows (c : HttpConn) (temp : Nat) : Bool :=
  toSizeT (toInt32 (c.bytesToSend - temp)) < c.iovec0.len &&
    (c.iovec0.len : Int) < toInt32 (c.bytesHaveSend + temp)

inductive WriteIter
  | next (c : HttpConn)
  | ret (value : Bool) (c : HttpConn) (calls : List EpollCall)

/-- One pass of the loop in write(). -/
def HttpConn.writeIter (c : HttpConn) : WritevResult → WriteIter
  | .error => .ret false c.unmap []
  | .again => .ret true c [c.rearm .epollout]
  | .sent n =>
    let c := c.afterWritev n
    if c.bytesToSend ≤ 0 then
      let c := c.unmap
      if c.linger then .ret true c.initRequest [c.rearm .epollin]
      else .ret false c [c.rearm .epollin]
    else .next c

def HttpConn.handedBy (c : HttpConn) : WritevResult → List IoBase
  | .sent n => accepted c.iovecs n
  | _ => []

/-- A call of write(): no value while it still waits for the next writev result. -/
structure WriteOutcome where
  value : Option Bool
  conn : HttpConn
  calls : List EpollCall
  handed : List IoBase
  rest : List WritevResult

def HttpConn.writeLoop (c : HttpConn) : List WritevResult → List IoBase → WriteOutcome
  | [], out => ⟨none, c, [], out, []⟩
  | r :: rs, out => match c.writeIter r with
    | .next c' => c'.writeLoop rs (out ++ c.handedBy r)
    | .ret value c' calls => ⟨some value, c', calls, out ++ c.handedBy r, rs⟩

def HttpConn.write (c : HttpConn) (results : List WritevResult) : WriteOutcome :=
  if c.bytesToSend = 0 then ⟨some true, c.initRequest, [c.rearm .epollin], [], results⟩
  else c.writeLoop results []

/-- A response on its way to the socket, over all the calls of write() it needs. -/
structure Sending where
  conn : HttpConn
  handed : List IoBase
  ended : Bool
  underflow : Bool

/-- One writev result: a count between 1 and the bytes offered, or EAGAIN, after
which a later call of write() comes back to the same writev. -/
def Sending.step (s : Sending) : WritevResult → Option Sending
  | .error => none
  | .again => if s.ended then none else some s
  | .sent n =>
    if s.ended ∨ n < 1 ∨ s.conn.offered < n then none
    else
      let c := s.conn.afterWritev n
      some ⟨c, s.handed ++ accepted s.conn.iovecs n, decide (c.bytesToSend ≤ 0),
        s.underflow || s.conn.lenUnderflows n⟩

def Sending.start (c : HttpConn) : Sending := ⟨c, [], decide (c.bytesToSend ≤ 0), false⟩

/-- A response as process_write sets it up: the header entry, the file entry if
there is one, and the counters. -/
structure HttpConn.Ready (c : HttpConn) (file : Option Nat) : Prop where
  header : c.iovec0 = ⟨.writeBuf 0, c.writeIdx⟩
  body : ∀ size, file = some size → c.iovec1 = ⟨.file 0, size⟩
  count : c.iovecCount = if file.isSome then 2 else 1
  toSend : c.bytesToSend = c.writeIdx + file.getD 0
  haveSend : c.bytesHaveSend = 0
  isInt : c.bytesToSend < 2 ^ 31

/-- The addresses of the whole response in order. -/
def response (headerLen fileLen : Nat) : List IoBase :=
  span (.writeBuf 0) headerLen ++ span (.file 0) fileLen

/-- What has been handed over is a prefix of the response, with nothing left out
once no byte remains, and no length went below zero on the way. -/
def Sending.Delivers (resp : List IoBase) (s : Sending) : Prop :=
  s.handed <+: resp ∧ s.underflow = false ∧ (s.conn.bytesToSend = 0 → s.handed = resp)

/-- A count that stays in the header entry, or for which that entry still ends
where the header ends; and that either leaves at least iov_len bytes or keeps
the total sent within iov_len. -/
def Sending.CountOk (s : Sending) : WritevResult → Prop
  | .sent n =>
    (n ≤ s.conn.iovec0.len ∨
      (s.conn.writeIdx : Int) ≤ s.conn.bytesHaveSend + s.conn.iovec0.len ∧
        (n : Int) ≤ s.conn.bytesToSend) ∧
    (s.conn.bytesToSend < n + s.conn.iovec0.len →
      s.conn.bytesHaveSend + n ≤ s.conn.iovec0.len)
  | _ => True

theorem span_length (base : IoBase) (n : Nat) : (span base n).length = n := by
  simp [span]

theorem IoBase.add_add (base : IoBase) (m n : Nat) : (base.add m).add n = base.add (m + n) := by
  cases base with
  | wild => rfl
  | writeBuf off => simp [IoBase.add, Int.add_assoc]
  | file off => simp [IoBase.add, Int.add_assoc]

theorem span_add (base : IoBase) (m n : Nat) :
    span base (m + n) = span base m ++ span (base.add m) n := by
  simp only [span, List.range_add, List.map_append, List.map_map]
  congr 1
  apply List.map_congr_left
  intro k _
  simp [IoBase.add_add]

theorem span_take {base : IoBase} {m n : Nat} (h : m ≤ n) : (span base n).take m = span base m := by
  obtain ⟨k, rfl⟩ := Nat.exists_eq_add_of_le h
  rw [span_add, List.take_left' (span_length base m)]

theorem span_drop {base : IoBase} {m n : Nat} (h : m ≤ n) :
    (span base n).drop m = span (base.add m) (n - m) := by
  obtain ⟨k, rfl⟩ := Nat.exists_eq_add_of_le h
  rw [span_add, List.drop_left' (span_length base m), Nat.add_sub_cancel_left]

theorem response_length (h f : Nat) : (response h f).length = h + f := by
  simp [response, span_length]

theorem response_drop {h f k : Nat} (hk : k ≤ h + f) :
    (response h f).drop k =
      span (.writeBuf k) (h - k) ++ span (.file (k - h : Nat)) (f - (k - h)) := by
  rw [response, List.drop_append, span_length]
  by_cases hh : k ≤ h
  · rw [span_drop hh, Nat.sub_eq_zero_of_le hh]
    simp [IoBase.add]
  · rw [List.drop_eq_nil_of_le (by rw [span_length]; omega), span_drop (by omega)]
    simp [IoBase.add, span, show h - k = 0 by omega]

theorem accepted_length {vs : List IoVec} {n : Nat} (h : n ≤ (vs.map IoVec.len).sum) :
    (accepted vs n).length = n := by
  induction vs generalizing n with
  | nil => simp_all [accepted]
  | cons v vs ih =>
    simp only [List.map_cons, List.sum_cons] at h
    simp only [accepted, List.length_append, span_length]
    rw [ih (by omega)]
    omega

/-- The state after k bytes went out in order. Either the header entry still
starts at the next byte and the file entry is untouched, or the header entry is
empty and the file entry starts k - headerLen bytes into the file. -/
structure Sending.InOrder (h : Nat) (file : Option Nat) (s : Sending) (k : Nat) : Prop where
  bound : k ≤ h + file.getD 0
  isInt : h + file.getD 0 < 2 ^ 31
  writeIdx : s.conn.writeIdx = h
  haveSend : s.conn.bytesHaveSend = k
  toSend : s.conn.bytesToSend = (h + file.getD 0 : Nat) - k
  handed_eq : s.handed = (response h (file.getD 0)).take k
  noUnderflow : s.underflow = false
  count : s.conn.iovecCount = if file.isSome then 2 else 1
  cursor : (s.conn.iovec0.base = .writeBuf k ∧ k + s.conn.iovec0.len ≤ h ∧
      ∀ size, file = some size → s.conn.iovec1 = ⟨.file 0, size⟩) ∨
    (s.conn.iovec0.len = 0 ∧ (file.isSome → s.conn.iovec1.base = .file ((k : Int) - h)))

theorem Sending.start_inOrder {c : HttpConn} {file : Option Nat} (hc : c.Ready file) :
    (Sending.start c).InOrder c.writeIdx file 0 := by
  have hi := hc.isInt
  have ht := hc.toSend
  refine ⟨Nat.zero_le _, by omega, rfl, hc.haveSend, by simp [Sending.start, ht], by simp [Sending.start],
    rfl, hc.count, Or.inl ⟨?_, ?_, hc.body⟩⟩
  · simp [Sending.start, hc.header]
  · simp [Sending.start, hc.header]

theorem HttpConn.iovecs_of_count {c : HttpConn} {file : Option Nat}
    (h : c.iovecCount = if file.isSome then 2 else 1) :
    c.iovecs = if file.isSome then [c.iovec0, c.iovec1] else [c.iovec0] := by
  cases file with
  | none => simp [HttpConn.iovecs, h]
  | some size => simp [HttpConn.iovecs, h]

/-- What the next n accepted bytes are, entry by entry. -/
theorem HttpConn.accepted_entries {c : HttpConn} {file : Option Nat} {n : Nat}
    (h : c.iovecCount = if file.isSome then 2 else 1) (hn : n ≤ c.offered) :
    (n ≤ c.iovec0.len ∧ accepted c.iovecs n = span c.iovec0.base n) ∨
    (c.iovec0.len < n ∧ file.isSome ∧ n - c.iovec0.len ≤ c.iovec1.len ∧
      accepted c.iovecs n = span c.iovec0.base c.iovec0.len ++ span c.iovec1.base (n - c.iovec0.len)) := by
  have hv := HttpConn.iovecs_of_count h
  unfold HttpConn.offered at hn
  rw [hv] at hn ⊢
  by_cases hl : n ≤ c.iovec0.len
  · left
    cases file with
    | none => simp [accepted, hl]
    | some size => simp [accepted, hl, span, Nat.sub_eq_zero_of_le hl]
  · right
    cases file with
    | none => simp at hn; omega
    | some size =>
      simp only [Option.isSome_some, if_true, List.map_cons, List.map_nil, List.sum_cons,
        List.sum_nil] at hn
      refine ⟨by omega, rfl, by omega, ?_⟩
      simp [accepted, Nat.min_eq_right (Nat.le_of_not_le hl),
        Nat.min_eq_left (show n - c.iovec0.len ≤ c.iovec1.len by omega)]

/-- Under the count condition the accepted bytes are the next n of the response. -/
theorem Sending.accepted_next {h : Nat} {file : Option Nat} {s : Sending} {k n : Nat}
    (inv : s.InOrder h file k) (hn : n ≤ s.conn.offered) (pos : 1 ≤ n)
    (ok : n ≤ s.conn.iovec0.len ∨
      (h : Int) ≤ k + s.conn.iovec0.len ∧ (n : Int) ≤ s.conn.bytesToSend) :
    accepted s.conn.iovecs n = ((response h (file.getD 0)).drop k).take n := by
  have ht := inv.toSend
  have hb := inv.bound
  rw [response_drop inv.bound]
  rcases HttpConn.accepted_entries inv.count hn with ⟨hl, he⟩ | ⟨hl, hf, _, he⟩
  · rcases inv.cursor with ⟨hbase, hroom, _⟩ | ⟨hzero, _⟩
    · rw [he, hbase, List.take_append_of_le_length (by rw [span_length]; omega),
        span_take (by omega)]
    · omega
  · obtain ⟨hend, hleft⟩ := ok.resolve_left (by omega)
    obtain ⟨size, rfl⟩ := Option.isSome_iff_exists.mp hf
    rw [he]
    rcases inv.cursor with ⟨hbase, hroom, hfile⟩ | ⟨hzero, hfile⟩
    · have hk : h - k = s.conn.iovec0.len := by omega
      have hkh : k - h = 0 := by omega
      simp only [Option.getD_some] at ht
      rw [hfile size rfl, hbase, hk, hkh, List.take_append, span_length,
        List.take_of_length_le (by rw [span_length]; omega), span_take (by simp; omega)]
      rfl
    · have hk : h - k = 0 := by omega
      simp only [Option.getD_some] at ht
      rw [hfile rfl, hzero, hk, Nat.sub_zero]
      simp only [span, List.range_zero, List.map_nil, List.nil_append]
      rw [show (k : Int) - h = ((k - h : Nat) : Int) by omega]
      exact (span_take (by simp; omega)).symm

theorem Sending.step_sent {s t : Sending} {n : Nat} (hs : s.step (.sent n) = some t) :
    1 ≤ n ∧ n ≤ s.conn.offered ∧
      t = ⟨s.conn.afterWritev n, s.handed ++ accepted s.conn.iovecs n,
        decide ((s.conn.afterWritev n).bytesToSend ≤ 0), s.underflow || s.conn.lenUnderflows n⟩ := by
  simp only [Sending.step] at hs
  split at hs
  next => simp at hs
  next hen =>
    simp only [not_or, Nat.not_lt] at hen
    exact ⟨hen.2.1, hen.2.2, (Option.some.inj hs).symm⟩

/-- As long as no more goes out than is left, the counters do not wrap. -/
theorem Sending.InOrder.counters_next {h : Nat} {file : Option Nat} {s : Sending} {k n : Nat}
    (inv : s.InOrder h file k) (hle : (n : Int) ≤ s.conn.bytesToSend) :
    toInt32 (s.conn.bytesHaveSend + n) = (k + n : Nat) ∧
      toInt32 (s.conn.bytesToSend - n) = (h + file.getD 0 : Nat) - (k + n : Nat) ∧
      toSizeT (((h + file.getD 0 : Nat) : Int) - (k + n : Nat)) = h + file.getD 0 - (k + n) := by
  have ht := inv.toSend
  have hint := inv.isInt
  have hbound := inv.bound
  refine ⟨?_, ?_, ?_⟩
  · rw [inv.haveSend]
    exact toInt32_of_nonneg (by omega) (by omega)
  · rw [toInt32_of_nonneg (by omega) (by omega)]
    omega
  · rw [toSizeT_of_nonneg (by omega) (by omega)]
    omega

theorem Sending.inOrder_step {h : Nat} {file : Option Nat} {s t : Sending} {k n : Nat}
    (inv : s.InOrder h file k) (ok : s.CountOk (.sent n)) (hs : s.step (.sent n) = some t) :
    t.InOrder h file (k + n) := by
  obtain ⟨pos, hn, rfl⟩ := Sending.step_sent hs
  obtain ⟨okBytes, okLen⟩ := ok
  rw [inv.writeIdx, inv.haveSend] at okBytes
  rw [inv.haveSend] at okLen
  have hnext := Sending.accepted_next inv hn pos okBytes
  have ht := inv.toSend
  have hint := inv.isInt
  have hle : (n : Int) ≤ s.conn.bytesToSend := by
    rcases okBytes with hl | ⟨_, hl⟩
    · rcases inv.cursor with ⟨_, hroom, _⟩ | ⟨hzero, _⟩ <;> omega
    · exact hl
  obtain ⟨hhave, hto, hsize⟩ := inv.counters_next hle
  have hhanded : s.handed ++ accepted s.conn.iovecs n = (response h (file.getD 0)).take (k + n) := by
    rw [inv.handed_eq, hnext, List.take_add]
  by_cases hbranch : s.conn.iovec0.len ≤ h + file.getD 0 - (k + n)
  · have hc : s.conn.afterWritev n = { s.conn with
        bytesHaveSend := (k + n : Nat)
        bytesToSend := (h + file.getD 0 : Nat) - (k + n : Nat)
        iovec0 := { s.conn.iovec0 with len := 0 }
        iovec1 := ⟨.file ((k + n : Nat) - h), toSizeT (k + n : Nat)⟩ } := by
      simp only [HttpConn.afterWritev, hhave, hto, hsize, hbranch, if_true, inv.writeIdx]
    rw [hc]
    refine ⟨by omega, hint, inv.writeIdx, rfl, rfl, hhanded, ?_, inv.count, Or.inr ⟨rfl, fun _ => rfl⟩⟩
    simp only [inv.noUnderflow, HttpConn.lenUnderflows, hto, hsize, Bool.false_or,
      decide_eq_false (Nat.not_lt.mpr hbranch), Bool.false_and]
  · have hwithin : (k : Int) + n ≤ s.conn.iovec0.len := okLen (by omega)
    have hdiff : toSizeT ((s.conn.iovec0.len : Int) - (k + n : Nat)) = s.conn.iovec0.len - (k + n) := by
      rcases inv.cursor with ⟨_, hroom, _⟩ | ⟨hzero, _⟩
      · rw [toSizeT_of_nonneg (by omega) (by omega)]
        omega
      · omega
    have hc : s.conn.afterWritev n = { s.conn with
        bytesHaveSend := (k + n : Nat)
        bytesToSend := (h + file.getD 0 : Nat) - (k + n : Nat)
        iovec0 := ⟨.writeBuf (k + n : Nat), s.conn.iovec0.len - (k + n)⟩ } := by
      simp only [HttpConn.afterWritev, hhave, hto, hsize, hbranch, if_false, hdiff]
    rw [hc]
    rcases inv.cursor with ⟨_, hroom, hfile⟩ | ⟨hzero, _⟩
    · refine ⟨by omega, hint, inv.writeIdx, rfl, rfl, hhanded, ?_, inv.count,
        Or.inl ⟨rfl, by simp only; omega, hfile⟩⟩
      simp only [inv.noUnderflow, HttpConn.lenUnderflows, hhave, Bool.false_or, Bool.and_eq_false_imp,
        decide_eq_true_eq, decide_eq_false_iff_not]
      omega
    · omega

theorem Sending.InOrder.delivers {h : Nat} {file : Option Nat} {s : Sending} {k : Nat}
    (inv : s.InOrder h file k) : s.Delivers (response h (file.getD 0)) := by
  refine ⟨?_, inv.noUnderflow, ?_⟩
  · rw [inv.handed_eq]
    exact List.take_prefix _ _
  · intro hz
    have ht := inv.toSend
    rw [inv.handed_eq, List.take_of_length_le]
    rw [response_length]
    omega

/-- A file byte sent while header bytes are still to come is out of order. -/
theorem Sending.file_byte_early {h : Nat} {file : Option Nat} {s : Sending} {k n : Nat}
    (inv : s.InOrder h file k) (hl : s.conn.iovec0.len < n) (hshort : k + s.conn.iovec0.len < h)
    (hf : file.isSome) :
    ¬ span s.conn.iovec0.base s.conn.iovec0.len ++ span s.conn.iovec1.base (n - s.conn.iovec0.len)
      <+: (response h (file.getD 0)).drop k := by
  intro hp
  obtain ⟨m, hm⟩ : ∃ m, n - s.conn.iovec0.len = m + 1 := ⟨n - s.conn.iovec0.len - 1, by omega⟩
  have hat := hp.getElem (i := s.conn.iovec0.len) (by simp [span_length, hm])
  have hfile : ∃ off, s.conn.iovec1.base = .file off := by
    rcases inv.cursor with ⟨_, _, hfile⟩ | ⟨_, hfile⟩
    · obtain ⟨size, rfl⟩ := Option.isSome_iff_exists.mp hf
      exact ⟨0, by rw [hfile size rfl]⟩
    · exact ⟨_, hfile hf⟩
  obtain ⟨off, hoff⟩ := hfile
  simp only [response_drop inv.bound] at hat
  rw [List.getElem_append_right (by rw [span_length]), List.getElem_append_left (by rw [span_length]; omega)] at hat
  simp [span, hoff, IoBase.add] at hat

/-- A count outside the condition shows at once: a wrong or extra byte went out,
or a length went below zero. -/
theorem Sending.not_delivers_of_count {h : Nat} {file : Option Nat} {s t : Sending} {k n : Nat}
    (inv : s.InOrder h file k) (bad : ¬ s.CountOk (.sent n)) (hs : s.step (.sent n) = some t) :
    ¬ t.Delivers (response h (file.getD 0)) := by
  obtain ⟨pos, hn, rfl⟩ := Sending.step_sent hs
  rintro ⟨hpre, hunder, _⟩
  simp only [Sending.CountOk, inv.writeIdx, inv.haveSend] at bad
  have ht := inv.toSend
  have hlen : (accepted s.conn.iovecs n).length = n := accepted_length hn
  have hsplit : accepted s.conn.iovecs n <+: (response h (file.getD 0)).drop k := by
    simp only [inv.handed_eq] at hpre
    nth_rewrite 2 [← List.take_append_drop k (response h (file.getD 0))] at hpre
    exact (List.prefix_append_right_inj _).mp hpre
  have hroom : (n : Int) ≤ s.conn.bytesToSend := by
    have := hsplit.length_le
    rw [hlen, List.length_drop, response_length] at this
    omega
  have hbytes : n ≤ s.conn.iovec0.len ∨ (h : Int) ≤ k + s.conn.iovec0.len := by
    by_contra hnot
    simp only [not_or] at hnot
    rcases HttpConn.accepted_entries inv.count hn with ⟨hl, _⟩ | ⟨hl, hf, _, he⟩
    · exact hnot.1 hl
    · exact Sending.file_byte_early inv hl (by omega) hf (he ▸ hsplit)
  obtain ⟨hhave, hto, hsize⟩ := inv.counters_next hroom
  simp only [HttpConn.lenUnderflows, hto, hsize, hhave, Bool.or_eq_false_iff, Bool.and_eq_false_imp,
    decide_eq_true_eq, decide_eq_false_iff_not] at hunder
  omega

/-- Along every sequence of writev results the response is delivered in order
exactly when every count meets the condition on the cursors before it. -/
theorem write_delivers_iff_counts {c : HttpConn} {file : Option Nat} (hc : c.Ready file)
    (results : List WritevResult) :
    Along Sending.step (Sending.Delivers (response c.writeIdx (file.getD 0))) (Sending.start c) results ↔
      StepsMeet Sending.step Sending.CountOk (Sending.start c) results := by
  apply along_iff_stepsMeet (fun s => ∃ k, s.InOrder c.writeIdx file k)
  · rintro s r t ⟨k, inv⟩ ok hs
    cases r with
    | error => simp [Sending.step] at hs
    | again =>
      simp only [Sending.step] at hs
      split at hs
      next => simp at hs
      next => cases Option.some.inj hs; exact ⟨k, inv⟩
    | sent n => exact ⟨k + n, Sending.inOrder_step inv ok hs⟩
  · rintro s ⟨k, inv⟩
    exact inv.delivers
  · rintro s r t ⟨k, inv⟩ bad hs
    cases r with
    | error => exact absurd trivial bad
    | again => exact absurd trivial bad
    | sent n => exact Sending.not_delivers_of_count inv bad hs
  · exact ⟨0, Sending.start_inOrder hc⟩

/-- A 57-byte header and a 100-byte file, ready to be sent. -/
def sampleResponse : HttpConn :=
  { HttpConn.zero with
    writeIdx := 57
    iovec0 := ⟨.writeBuf 0, 57⟩
    iovec1 := ⟨.file 0, 100⟩
    iovecCount := 2
    bytesToSend := 157 }

theorem sampleResponse_ready : sampleResponse.Ready (some 100) :=
  ⟨rfl, by rintro size ⟨⟩; rfl, rfl, rfl, rfl, by decide⟩

instance (resp : List IoBase) : DecidablePred (Sending.Delivers resp) := fun s =>
  inferInstanceAs (Decidable (s.handed <+: resp ∧ s.underflow = false ∧
    (s.conn.bytesToSend = 0 → s.handed = resp)))

theorem write_delivers_iff_counts_sample : sampleResponse.Ready (some 100) ∧
    (Along Sending.step (Sending.Delivers (response 57 100)) (Sending.start sampleResponse)
        [.sent 57, .again, .sent 43, .sent 57] ↔
      StepsMeet Sending.step Sending.CountOk (Sending.start sampleResponse)
        [.sent 57, .again, .sent 43, .sent 57]) :=
  ⟨sampleResponse_ready, write_delivers_iff_counts sampleResponse_ready _⟩

/-- After ten header bytes the next byte is taken from 47 bytes before the file. -/
theorem write_not_always_delivers : ¬ ∀ (c : HttpConn) (file : Option Nat), c.Ready file →
    ∀ results, Along Sending.step (Sending.Delivers (response c.writeIdx (file.getD 0)))
      (Sending.start c) results := by
  intro h
  exact absurd (h sampleResponse (some 100) sampleResponse_ready [.sent 10, .sent 1]) (by decide)

/-- The loop of write() hands over what the sending steps hand over, and is still
waiting exactly when bytes remain. -/
theorem HttpConn.writeLoop_of_run {s t : Sending} {ns : List Nat}
    (h : runSteps Sending.step s (ns.map .sent) = some t) (hs : s.ended = false) :
    (s.conn.writeLoop (ns.map .sent) s.handed).handed = t.handed ∧
      (t.ended = false → s.conn.writeLoop (ns.map .sent) s.handed = ⟨none, t.conn, [], t.handed, []⟩) := by
  induction ns generalizing s with
  | nil =>
    cases Option.some.inj h
    exact ⟨rfl, fun _ => rfl⟩
  | cons n ns ih =>
    rw [List.map_cons, runSteps_cons] at h
    obtain ⟨u, hu, h⟩ := Option.bind_eq_some_iff.mp h
    simp only [Sending.step] at hu
    split at hu
    next => simp at hu
    next =>
      cases Option.some.inj hu
      by_cases hz : (s.conn.afterWritev n).bytesToSend ≤ 0
      · have hns : ns = [] := by
          cases ns with
          | nil => rfl
          | cons m ms =>
            rw [List.map_cons, runSteps_cons] at h
            simp [Sending.step, hz] at h
        subst hns
        cases Option.some.inj h
        by_cases hl : (s.conn.afterWritev n).unmap.linger
        · simp [HttpConn.writeLoop, HttpConn.writeIter, HttpConn.handedBy, hz, hl]
        · simp [HttpConn.writeLoop, HttpConn.writeIter, HttpConn.handedBy, hz, hl]
      · have hnext := ih h (by simp [hz])
        simpa [HttpConn.writeLoop, HttpConn.writeIter, HttpConn.handedBy, hz] using hnext

end CppInAction
