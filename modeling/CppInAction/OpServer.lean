import CppInAction.Operation

namespace CppInAction

namespace Operation

/-- What the receive loop comes to: it stores outside op_info, it wants another read, or it ends. -/
inductive Received where
  | fault
  | waiting
  | done (opInfo : Buffer bufSize) (receiveLen : Int)

/-- The byte that read(client_socket, &opnd_cnt, 1) puts into an opnd_cnt of 0; none is a read
that returns -1, and a read of no bytes is the end of the stream. -/
def readCount (got : Option (List UInt8)) : Nat := ((got.getD []).head?.getD 0).toNat

/-- The receive loop as it adds up whatever read returns. -/
def receiveReads (opndCnt : Nat) : List (Option (List UInt8)) → Buffer bufSize → Int → Received
  | [], opInfo, receiveLen =>
    if receiveLen < (opndCnt * opsz + 1 : Nat) then .waiting else .done opInfo receiveLen
  | got :: reads, opInfo, receiveLen =>
    if receiveLen < (opndCnt * opsz + 1 : Nat) then
      if receiveLen < 0 then .fault
      else match got with
        | none => receiveReads opndCnt reads opInfo (receiveLen - 1)
        | some bytes => match opInfo.blit receiveLen.toNat bytes with
          | some opInfo => receiveReads opndCnt reads opInfo (receiveLen + bytes.length)
          | none => .fault
    else .done opInfo receiveLen

/-- The operands that calculate reads: result starts with the first, whatever opnum is. -/
def ReadsOpnd (opnum : Nat) (op : UInt8) (i : Nat) : Prop := i = 0 ∨ ((opStep op).isSome ∧ 1 ≤ i ∧ i < opnum)

/-- calculate comes to a divisor that is 0. -/
def DividesByZero (opnum : Nat) (opnds : List (BitVec 32)) (op : UInt8) : Prop :=
  op = 47 ∧ ∃ i, 1 ≤ i ∧ i < opnum ∧ opnds[i]? = some 0 ∧ calculate i opnds op ≠ none

/-- For these results of read the loop ends, it stores within op_info, and calculate divides by
no zero and reads no operand but those that were received. -/
def Serves (opInfo : Buffer bufSize) (count : Option (List UInt8)) (reads : Nat → Option (List UInt8)) : Prop :=
  ∃ k opInfo' receiveLen op,
    receiveReads (readCount count) ((List.range k).map reads) opInfo 0 = .done opInfo' receiveLen ∧
    1 ≤ receiveLen ∧ opInfo'.bytes[(receiveLen - 1).toNat]? = some op ∧
    (∀ i, ReadsOpnd (readCount count) op i → ((i + 1) * opsz : Nat) ≤ receiveLen) ∧
    ¬DividesByZero (readCount count) (intsOf opInfo'.bytes) op

/-- The bytes that are kept: a read that fails takes the last one back. -/
def keep (data : List UInt8) (got : Option (List UInt8)) : List UInt8 :=
  match got with
  | none => data.dropLast
  | some bytes => data ++ bytes

def kept (reads : List (Option (List UInt8))) : List UInt8 := reads.foldl keep []

/-- Before each of the reads bytes are missing, and before one that fails a byte is kept. -/
structure Reading (opndCnt : Nat) (reads : List (Option (List UInt8))) : Prop where
  short : ∀ j < reads.length, (kept (reads.take j)).length < opndCnt * opsz + 1
  backed : ∀ j, reads[j]? = some none → kept (reads.take j) ≠ []

/-- Behind the last of the reads no byte is missing, and all fit into op_info. -/
structure Completes (opndCnt : Nat) (reads : List (Option (List UInt8))) : Prop extends Reading opndCnt reads where
  enough : opndCnt * opsz + 1 ≤ (kept reads).length
  fits : (kept reads).length ≤ bufSize

/-- op_info begins with these bytes. -/
def Holds (opInfo : Buffer bufSize) (data : List UInt8) : Prop := opInfo.bytes.take data.length = data

variable {opndCnt receiveLen k : Nat} {opInfo opInfo' : Buffer bufSize} {data bytes : List UInt8}
  {got : Option (List UInt8)} {past reads : List (Option (List UInt8))}

/-- Where no read fails, this is the loop over the bytes alone. -/
theorem receiveReads_some (opndCnt : Nat) (reads : List (List UInt8)) (opInfo opInfo' : Buffer bufSize)
    (receiveLen n : Nat) :
    receiveReads opndCnt (reads.map some) opInfo receiveLen = .done opInfo' n ↔
      receiveLoop opndCnt reads opInfo receiveLen = some (opInfo', n) := by
  induction reads generalizing opInfo receiveLen with
  | nil =>
    simp only [List.map_nil, receiveReads, receiveLoop, Int.ofNat_lt]
    by_cases hlt : receiveLen < opndCnt * opsz + 1 <;> simp [hlt]
  | cons bytes reads ih =>
    simp only [List.map_cons, receiveReads, receiveLoop, Int.ofNat_lt]
    by_cases hlt : receiveLen < opndCnt * opsz + 1
    · have hpos : ¬(receiveLen : Int) < 0 := by omega
      simp only [hlt, if_true, hpos, if_false, Int.toNat_natCast]
      cases hblit : opInfo.blit receiveLen bytes with
      | none => simp
      | some b => exact ih b (receiveLen + bytes.length)
    · simp [hlt]

theorem kept_concat (past : List (Option (List UInt8))) (got : Option (List UInt8)) :
    kept (past ++ [got]) = keep (kept past) got := by
  rw [kept, List.foldl_append]
  rfl

theorem Holds.length_le (h : Holds opInfo data) : data.length ≤ bufSize := by
  have hlen := congrArg List.length h
  rw [List.length_take, opInfo.length_eq] at hlen
  omega

theorem Holds.dropLast (h : Holds opInfo data) : Holds opInfo data.dropLast := by
  have h' : opInfo.bytes.take data.length = data := h
  have hle : data.length - 1 ≤ data.length := Nat.sub_le _ _
  calc
    opInfo.bytes.take data.dropLast.length = (opInfo.bytes.take data.length).take (data.length - 1) := by
      rw [List.take_take, Nat.min_eq_left hle, List.length_dropLast]
    _ = data.dropLast := by rw [h', List.dropLast_eq_take]

theorem Holds.append (h : Holds opInfo data) (hblit : opInfo.blit data.length bytes = some opInfo') :
    Holds opInfo' (data ++ bytes) := by
  obtain ⟨hfits, _⟩ := Buffer.blit_eq_some_iff.mp hblit
  obtain ⟨b, hb, htake⟩ := Buffer.take_blit (b := opInfo) hfits
  obtain rfl := Option.some.inj (hblit.symm.trans hb)
  rw [Holds, List.length_append, htake, h]

theorem Holds.getElem? (h : Holds opInfo data) {i : Nat} (hi : i < data.length) : opInfo.bytes[i]? = data[i]? := by
  have htake := congrArg (·[i]?) (show opInfo.bytes.take data.length = data from h)
  rwa [List.getElem?_take_of_lt hi] at htake

theorem Holds.last (h : Holds opInfo data) (hpos : 1 ≤ data.length) :
    opInfo.bytes[((data.length : Int) - 1).toNat]? = data.getLast? := by
  have hindex : ((data.length : Int) - 1).toNat = data.length - 1 := by omega
  rw [hindex, h.getElem? (by omega), List.getLast?_eq_getElem?]

theorem Reading.concat (h : Reading opndCnt past) (hlt : (kept past).length < opndCnt * opsz + 1)
    (hback : got = none → kept past ≠ []) : Reading opndCnt (past ++ [got]) where
  short := by
    intro j hj
    rw [List.length_append, List.length_singleton] at hj
    rw [List.take_append_of_le_length (by omega)]
    rcases Nat.lt_or_eq_of_le (Nat.lt_succ_iff.mp hj) with hj | rfl
    · exact h.short j hj
    · rwa [List.take_length]
  backed := by
    intro j hj
    obtain ⟨hlen, _⟩ := List.getElem?_eq_some_iff.mp hj
    rw [List.length_append, List.length_singleton] at hlen
    rw [List.take_append_of_le_length (by omega)]
    rcases Nat.lt_or_eq_of_le (Nat.lt_succ_iff.mp hlen) with hlen | rfl
    · rw [List.getElem?_append_left hlen] at hj
      exact h.backed j hj
    · rw [List.take_length]
      refine hback ?_
      simpa using hj

theorem Reading.next (h : Reading opndCnt (past ++ got :: reads)) :
    (kept past).length < opndCnt * opsz + 1 ∧ (got = none → kept past ≠ []) := by
  have hshort := h.short past.length (by simp)
  have hback := h.backed past.length
  rw [List.take_left] at hshort hback
  refine ⟨hshort, ?_⟩
  rintro rfl
  exact hback (by simp)

/-- The loop ends behind the reads that complete the message. -/
theorem Completes.receive (hcnt : opndCnt ≤ 255) (h : Completes opndCnt (past ++ reads))
    (hold : Holds opInfo (kept past)) :
    ∃ b, receiveReads opndCnt reads opInfo (kept past).length = .done b (kept (past ++ reads)).length ∧
      Holds b (kept (past ++ reads)) := by
  induction reads generalizing past opInfo with
  | nil =>
    rw [List.append_nil] at h ⊢
    have henough := h.enough
    exact ⟨opInfo, if_neg (by omega), hold⟩
  | cons got reads ih =>
    obtain ⟨hlt, hback⟩ := h.next
    have hsplit : past ++ got :: reads = (past ++ [got]) ++ reads := by simp
    have hfits : (kept (past ++ [got])).length ≤ bufSize := by
      cases reads with
      | nil => exact h.fits
      | cons g reads =>
        rw [hsplit] at h
        have hshort := h.next.1
        simp only [bufSize, opsz] at hshort ⊢
        omega
    rw [hsplit] at h ⊢
    cases got with
    | none =>
      rw [receiveReads, if_pos (by omega), if_neg (by omega)]
      have hdrop : kept (past ++ [none]) = (kept past).dropLast := kept_concat past none
      have hpos := List.length_pos_iff.mpr (hback rfl)
      have hlen : ((kept past).length : Int) - 1 = (kept (past ++ [none])).length := by
        rw [hdrop, List.length_dropLast]
        omega
      rw [hlen]
      exact ih h (hdrop ▸ hold.dropLast)
    | some bytes =>
      have happend : kept (past ++ [some bytes]) = kept past ++ bytes := kept_concat past (some bytes)
      rw [happend, List.length_append] at hfits
      obtain ⟨b, hblit, _⟩ := Buffer.exists_blit (b := opInfo) hfits
      have hlen : ((kept past).length : Int) + bytes.length = (kept (past ++ [some bytes])).length := by
        rw [happend, List.length_append]
        omega
      rw [receiveReads, if_pos (by omega), if_neg (by omega)]
      simp only [Int.toNat_natCast, hblit, hlen]
      exact ih h (happend ▸ hold.append hblit)

/-- Behind a read that failed at the start of op_info the loop never ends. -/
theorem receiveReads_negative {n : Int} (reads : List (Option (List UInt8))) :
    receiveReads opndCnt reads opInfo (-1) ≠ .done opInfo' n := by
  have hlt : (-1 : Int) < (opndCnt * opsz + 1 : Nat) := by omega
  cases reads with
  | nil =>
    rw [receiveReads, if_pos hlt]
    simp
  | cons got reads =>
    rw [receiveReads.eq_def]
    simp only [if_pos hlt]
    simp

/-- Behind a read the loop goes on with the bytes that are then kept. -/
theorem Holds.afterRead {n : Int} (hold : Holds opInfo (kept past)) (hlt : (kept past).length < opndCnt * opsz + 1)
    (hdone : receiveReads opndCnt (got :: reads) opInfo (kept past).length = .done opInfo' n) :
    (got = none → kept past ≠ []) ∧ ∃ b, Holds b (kept (past ++ [got])) ∧
      receiveReads opndCnt reads b (kept (past ++ [got])).length = .done opInfo' n := by
  rw [receiveReads.eq_def] at hdone
  simp only at hdone
  rw [if_pos (by omega), if_neg (by omega)] at hdone
  rw [kept_concat]
  cases got with
  | none =>
    have hne : kept past ≠ [] := by
      intro hnil
      rw [hnil] at hdone
      exact receiveReads_negative reads hdone
    have hpos := List.length_pos_iff.mpr hne
    have hlen : ((kept past).length : Int) - 1 = (kept past).dropLast.length := by
      rw [List.length_dropLast]
      omega
    simp only [hlen] at hdone
    exact ⟨fun _ => hne, opInfo, hold.dropLast, hdone⟩
  | some bytes =>
    simp only [Int.toNat_natCast] at hdone
    cases hblit : opInfo.blit (kept past).length bytes with
    | none =>
      rw [hblit] at hdone
      cases hdone
    | some b =>
      have hlen : ((kept past).length : Int) + bytes.length = (kept past ++ bytes).length := by
        rw [List.length_append]
        omega
      simp only [hblit, hlen] at hdone
      exact ⟨by simp, b, hold.append hblit, hdone⟩

/-- Where the loop ends, the first reads complete the message. -/
theorem Reading.completes {n : Int} (h : Reading opndCnt past) (hold : Holds opInfo (kept past))
    (hdone : receiveReads opndCnt reads opInfo (kept past).length = .done opInfo' n) :
    ∃ m, Completes opndCnt (past ++ reads.take m) ∧ n = (kept (past ++ reads.take m)).length ∧
      Holds opInfo' (kept (past ++ reads.take m)) := by
  induction reads generalizing past opInfo with
  | nil =>
    unfold receiveReads at hdone
    split at hdone
    next => cases hdone
    next hge =>
      cases hdone
      refine ⟨0, ?_⟩
      rw [List.take_nil, List.append_nil]
      exact ⟨⟨h, by omega, hold.length_le⟩, rfl, hold⟩
  | cons got reads ih =>
    by_cases hlt : (kept past).length < opndCnt * opsz + 1
    · obtain ⟨hback, b, hold', hdone'⟩ := hold.afterRead hlt hdone
      obtain ⟨m, hm⟩ := ih (h.concat hlt hback) hold' hdone'
      refine ⟨m + 1, ?_⟩
      rwa [List.take_succ_cons, ← List.singleton_append, ← List.append_assoc]
    · rw [receiveReads.eq_def] at hdone
      simp only at hdone
      rw [if_neg (by omega)] at hdone
      cases hdone
      refine ⟨0, ?_⟩
      rw [List.take_zero, List.append_nil]
      exact ⟨⟨h, by omega, hold.length_le⟩, rfl, hold⟩

theorem intsOf_append_take (rest : List UInt8) {i : Nat} (h : i * opsz ≤ data.length) :
    (intsOf (data ++ rest)).take i = (intsOf data).take i := by
  induction i generalizing data with
  | zero => rfl
  | succ i ih =>
    have hopsz : opsz = 4 := rfl
    rw [Nat.succ_mul, hopsz] at h
    rcases data with _ | ⟨a, _ | ⟨b, _ | ⟨c, _ | ⟨d, tail⟩⟩⟩⟩
    · simp at h
    · simp at h
    · simp at h
    · simp at h
    · simp only [List.length_cons] at h
      simp only [List.cons_append, intsOf, List.take_succ_cons]
      rw [ih (by rw [hopsz]; omega)]

theorem Holds.opnds (h : Holds opInfo data) {i : Nat} (hi : i * opsz ≤ data.length) :
    (intsOf opInfo.bytes).take i = (intsOf data).take i := by
  have hbytes : opInfo.bytes = data ++ opInfo.bytes.drop data.length := by
    conv_rhs => rw [← show opInfo.bytes.take data.length = data from h]
    rw [List.length_take, opInfo.length_eq, Nat.min_eq_left h.length_le, List.take_append_drop]
  rw [hbytes, intsOf_append_take _ hi]

theorem calculate_divide {opnds : List (BitVec 32)} {i : Nat} (hi : 1 ≤ i) (hlen : i ≤ opnds.length) :
    ∃ x xs, opnds.take i = x :: xs ∧ calculate i opnds 47 = xs.foldlM divide x := by
  obtain ⟨x, rest, rfl⟩ := List.exists_cons_of_length_pos (l := opnds) (by omega)
  obtain ⟨j, rfl⟩ : ∃ j, i = j + 1 := ⟨i - 1, by omega⟩
  rw [List.length_cons] at hlen
  refine ⟨x, rest.take j, by rw [List.take_succ_cons], ?_⟩
  have heq := calculate_eq x (rest.take j) (rest.drop j) 47
  rw [List.length_cons, List.length_take, Nat.min_eq_left (by omega), List.cons_append, List.take_append_drop] at heq
  exact heq

theorem Overflows.take_mono {opnds : List (BitVec 32)} {i j : Nat} (h : Overflows 47 (opnds.take i)) (hij : i ≤ j) :
    Overflows 47 (opnds.take j) := by
  obtain ⟨_, hhead, hfind⟩ := h
  obtain ⟨rest, hrest⟩ := List.take_prefix_take_left (l := opnds) hij
  cases htake : opnds.take i with
  | nil =>
    rw [htake] at hhead
    cases hhead
  | cons x xs =>
    rw [htake] at hhead hfind hrest
    rw [← hrest]
    refine ⟨rfl, hhead, ?_⟩
    rw [List.cons_append, List.tail_cons, List.find?_append]
    rw [List.tail_cons] at hfind
    rw [hfind]
    rfl

/-- calculate comes to no zero divisor exactly when the least int was divided by -1 before each
operand that is 0: that division traps first. -/
theorem not_dividesByZero_iff (n : Nat) (opnds : List (BitVec 32)) :
    ¬DividesByZero n opnds 47 ↔ ∀ i, 1 ≤ i → i < n → opnds[i]? = some 0 → Overflows 47 (opnds.take i) := by
  constructor
  · intro hno i
    induction i using Nat.strongRecOn with
    | ind i ih =>
      intro hpos hlt hzero
      by_contra hfits
      obtain ⟨hi, _⟩ := List.getElem?_eq_some_iff.mp hzero
      obtain ⟨x, xs, htake, hcalc⟩ := calculate_divide hpos hi.le
      refine hno ⟨rfl, i, hpos, hlt, hzero, ?_⟩
      rw [hcalc]
      have hfree : 0 ∉ xs := by
        intro hmem
        obtain ⟨j, hj, hjzero⟩ := List.getElem_of_mem hmem
        have hlen := congrArg List.length htake
        rw [List.length_take, Nat.min_eq_left hi.le, List.length_cons] at hlen
        have hearlier : opnds[j + 1]? = some 0 := by
          rw [← List.getElem?_take_of_lt (show j + 1 < i by omega), htake, List.getElem?_cons_succ,
            List.getElem?_eq_getElem hj, hjzero]
        exact hfits ((ih (j + 1) (by omega) (by omega) (by omega) hearlier).take_mono (by omega))
      have hdivide : ¬(x = BitVec.intMin 32 ∧ xs.find? (· ≠ 1) = some (-1)) := by
        rintro ⟨hx, hfind⟩
        rw [htake] at hfits
        exact hfits ⟨rfl, congrArg some hx, hfind⟩
      obtain ⟨r, hr, _⟩ := foldlM_divide hfree hdivide
      rw [hr]
      simp
  · rintro h ⟨_, i, hpos, hlt, hzero, hcalc⟩
    obtain ⟨hi, _⟩ := List.getElem?_eq_some_iff.mp hzero
    obtain ⟨x, xs, htake, heq⟩ := calculate_divide hpos hi.le
    have hover := h i hpos hlt hzero
    rw [htake] at hover
    rw [heq, Option.some.inj hover.2.1] at hcalc
    exact hcalc (foldlM_divide_overflow hover.2.2)

theorem not_dividesByZero_congr {n : Nat} {opnds opnds' : List (BitVec 32)} (h : opnds.take n = opnds'.take n) :
    ¬DividesByZero n opnds 47 ↔ ¬DividesByZero n opnds' 47 := by
  rw [not_dividesByZero_iff, not_dividesByZero_iff]
  refine forall_congr' fun i => forall₂_congr fun _ hlt => ?_
  have hat := congrArg (·[i]?) h
  have hbefore := congrArg (List.take i) h
  simp only [List.getElem?_take_of_lt hlt] at hat
  rw [List.take_take, List.take_take, Nat.min_eq_left hlt.le] at hbefore
  rw [hat, hbefore]

theorem readCount_le (count : Option (List UInt8)) : readCount count ≤ 255 := by
  have := ((count.getD []).head?.getD 0).toNat_lt
  rw [readCount]
  omega

/-- The receive loop and calculate are safe exactly when some first reads complete the message,
at least four bytes are kept, and no reached divisor among the operands is 0. -/
theorem serves_iff (opInfo : Buffer bufSize) (count : Option (List UInt8)) (reads : Nat → Option (List UInt8)) :
    Serves opInfo count reads ↔
      ∃ k, Completes (readCount count) ((List.range k).map reads) ∧
        opsz ≤ (kept ((List.range k).map reads)).length ∧
        ((kept ((List.range k).map reads)).getLast? = some 47 →
          ∀ i, 1 ≤ i → i < readCount count → (intsOf (kept ((List.range k).map reads)))[i]? = some 0 →
            Overflows 47 ((intsOf (kept ((List.range k).map reads))).take i)) := by
  have hcnt := readCount_le count
  have hopsz : opsz = 4 := rfl
  have hempty : Holds opInfo (kept []) := rfl
  constructor
  · rintro ⟨k, b, n, op, hdone, hpos, hop, hreceived, hdivides⟩
    have hstart : Reading (readCount count) [] := ⟨by simp, by simp⟩
    obtain ⟨m, hcomplete, rfl, hold⟩ := hstart.completes hempty hdone
    rw [List.nil_append, ← List.map_take, List.take_range] at hcomplete hold hop hreceived hpos
    refine ⟨min m k, hcomplete, ?_, ?_⟩
    · have hfirst := hreceived 0 (Or.inl rfl)
      omega
    · rw [← hold.last (by omega), hop]
      intro hdiv
      obtain rfl := Option.some.inj hdiv
      have henough := hcomplete.enough
      rw [not_dividesByZero_congr (hold.opnds (by omega))] at hdivides
      exact (not_dividesByZero_iff _ _).mp hdivides
  · rintro ⟨k, hcomplete, hfour, hdivides⟩
    have hreads : Completes (readCount count) ([] ++ (List.range k).map reads) := hcomplete
    obtain ⟨b, hdone, hold⟩ := hreads.receive hcnt hempty
    rw [List.nil_append] at hdone hold
    have henough := hcomplete.enough
    obtain ⟨op, hop⟩ : ∃ op, (kept ((List.range k).map reads)).getLast? = some op := by
      rw [← Option.isSome_iff_exists, List.getLast?_isSome, ← List.length_pos_iff]
      omega
    refine ⟨k, b, _, op, hdone, by omega, by rw [hold.last (by omega), hop], ?_, ?_⟩
    · rintro i (rfl | ⟨_, _, hlt⟩)
      · omega
      · rw [hopsz] at henough ⊢
        omega
    · intro hzero
      obtain rfl := hzero.1
      refine (not_dividesByZero_congr (hold.opnds (by omega))).mpr ?_ hzero
      exact (not_dividesByZero_iff _ _).mpr (hdivides hop)

/-- A client that announces two operands and closes: every read returns 0, and the loop goes on. -/
theorem closed_client_not_served : ¬Serves (Buffer.zero _) (some [2]) fun _ => some [] := by
  rintro ⟨k, b, n, op, hdone, _⟩
  have hwaits : ∀ k, receiveReads 2 (List.replicate k (some [])) (Buffer.zero _) 0 = .waiting := by
    intro k
    induction k with
    | zero => rfl
    | succ k ih =>
      have hblit : (Buffer.zero bufSize).blit 0 [] = some (Buffer.zero bufSize) := Buffer.blit_nil (Nat.zero_le _)
      rw [List.replicate_succ, receiveReads, if_pos (by decide), if_neg (by decide)]
      simp only [Int.toNat_zero, hblit, List.length_nil]
      exact ih
  rw [List.map_const', List.length_range] at hdone
  cases (hwaits k).symm.trans hdone

end Operation

end CppInAction
