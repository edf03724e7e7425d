import CppInAction.CMemory

namespace CppInAction

namespace Operation

def bufSize : Nat := 1024
def opsz : Nat := 4

/-- The bytes of an int in memory, the lowest first. -/
def intBytes (x : BitVec 32) : List UInt8 :=
  [UInt8.ofNat x.toNat, UInt8.ofNat (x.toNat / 2 ^ 8), UInt8.ofNat (x.toNat / 2 ^ 16), UInt8.ofNat (x.toNat / 2 ^ 24)]

/-- Memory read as an array of ints. -/
def intsOf : List UInt8 → List (BitVec 32)
  | a :: b :: c :: d :: rest =>
    BitVec.ofNat 32 (a.toNat + 2 ^ 8 * b.toNat + 2 ^ 16 * c.toNat + 2 ^ 24 * d.toNat) :: intsOf rest
  | _ => []

/-- The loop of op_client over the operands, from operand i on. -/
def storeOpnds (opMsg : Buffer bufSize) : Nat → List (BitVec 32) → Option (Buffer bufSize)
  | _, [] => some opMsg
  | i, opnd :: opnds => do
    let opMsg ← opMsg.blit (i * opsz + 1) (intBytes opnd)
    storeOpnds opMsg (i + 1) opnds

/-- The bytes op_client writes to its socket, from the operands and the operator it was given;
op_msg has no initial value. -/
def clientMessage (opMsg : Buffer bufSize) (opnds : List (BitVec 32)) (op : UInt8) : Option (List UInt8) := do
  let opMsg ← opMsg.put 0 (UInt8.ofNat opnds.length)
  let opMsg ← storeOpnds opMsg 0 opnds
  let opMsg ← opMsg.put (opnds.length * opsz + 1) op
  some (opMsg.bytes.take (opnds.length * opsz + 2))

/-- The receive loop of op_server: each read stores what it gets behind the bytes there are;
without another read the server waits. -/
def receiveLoop (opndCnt : Nat) : List (List UInt8) → Buffer bufSize → Nat → Option (Buffer bufSize × Nat)
  | [], opInfo, receiveLen =>
    if receiveLen < opndCnt * opsz + 1 then none else some (opInfo, receiveLen)
  | got :: reads, opInfo, receiveLen =>
    if receiveLen < opndCnt * opsz + 1 then do
      let opInfo ← opInfo.blit receiveLen got
      receiveLoop opndCnt reads opInfo (receiveLen + got.length)
    else some (opInfo, receiveLen)

/-- The arguments of a call of calculate; the operands are the whole array behind op_info. -/
structure Call where
  opnum : Nat
  opnds : List (BitVec 32)
  op : UInt8
deriving DecidableEq

/-- What op_server calls calculate with: the first read asks for one byte, the operand count. -/
def serve (opInfo : Buffer bufSize) : List (List UInt8) → Option Call
  | [cnt] :: reads => do
    let (opInfo, receiveLen) ← receiveLoop cnt.toNat reads opInfo 0
    let op ← opInfo.bytes[receiveLen - 1]?
    some ⟨cnt.toNat, intsOf opInfo.bytes, op⟩
  | _ => none

/-- Division of ints traps on a zero divisor and on a quotient that does not fit. -/
def divide (result opnd : BitVec 32) : Option (BitVec 32) :=
  if opnd = 0 ∨ (result = BitVec.intMin 32 ∧ opnd = -1) then none else some (result.sdiv opnd)

/-- The switch on the operator. -/
def opStep (op : UInt8) : Option (BitVec 32 → BitVec 32 → Option (BitVec 32)) :=
  if op = 43 then some fun result opnd => some (result + opnd)
  else if op = 45 then some fun result opnd => some (result - opnd)
  else if op = 42 then some fun result opnd => some (result * opnd)
  else if op = 47 then some divide
  else none

def calculate (opnum : Nat) (opnds : List (BitVec 32)) (op : UInt8) : Option (BitVec 32) := do
  let result ← opnds[0]?
  match opStep op with
  | some f => (List.range' 1 (opnum - 1)).foldlM (fun result i => do f result (← opnds[i]?)) result
  | none => some result

/-- The operators as operations on integers. -/
def exactOp (op : UInt8) (a b : Int) : Int :=
  if op = 43 then a + b else if op = 45 then a - b else if op = 42 then a * b else a.tdiv b

/-- The operator folded over the operands from left to right. -/
def exactFold (op : UInt8) : List (BitVec 32) → Int
  | [] => 0
  | opnd :: opnds => opnds.foldl (fun result opnd => exactOp op result opnd.toInt) opnd.toInt

theorem intBytes_value (x : BitVec 32) (rest : List UInt8) : intsOf (intBytes x ++ rest) = x :: intsOf rest := by
  have hx := x.isLt
  simp only [intBytes, List.cons_append, List.nil_append, intsOf, UInt8.toNat_ofNat']
  congr 1
  refine BitVec.eq_of_toNat_eq ?_
  rw [BitVec.toNat_ofNat]
  omega

theorem intsOf_flatMap (opnds : List (BitVec 32)) (rest : List UInt8) :
    intsOf (opnds.flatMap intBytes ++ rest) = opnds ++ intsOf rest := by
  induction opnds with
  | nil => rfl
  | cons x opnds ih => rw [List.flatMap_cons, List.append_assoc, intBytes_value, ih, List.cons_append]

theorem flatMap_length (opnds : List (BitVec 32)) : (opnds.flatMap intBytes).length = opnds.length * opsz := by
  induction opnds with
  | nil => rfl
  | cons x opnds ih =>
    rw [List.flatMap_cons, List.length_append, ih, List.length_cons]
    simp only [intBytes, List.length_cons, List.length_nil, opsz]
    omega

/-- The operands stand one behind the other after the count. -/
theorem storeOpnds_take {opMsg : Buffer bufSize} {i : Nat} {opnds : List (BitVec 32)}
    (hfits : (i + opnds.length) * opsz + 1 ≤ bufSize) :
    ∃ opMsg', storeOpnds opMsg i opnds = some opMsg' ∧
      opMsg'.bytes.take ((i + opnds.length) * opsz + 1) =
        opMsg.bytes.take (i * opsz + 1) ++ opnds.flatMap intBytes := by
  induction opnds generalizing opMsg i with
  | nil => exact ⟨opMsg, rfl, by simp⟩
  | cons x opnds ih =>
    have hcount : i + (x :: opnds).length = i + 1 + opnds.length := by
      rw [List.length_cons]
      omega
    have hnext : i * opsz + 1 + (intBytes x).length = (i + 1) * opsz + 1 := by
      simp only [intBytes, List.length_cons, List.length_nil, opsz]
      omega
    rw [hcount] at hfits ⊢
    have hroom : i * opsz + 1 + (intBytes x).length ≤ bufSize := by
      rw [hnext]
      simp only [opsz] at hfits ⊢
      omega
    obtain ⟨b, hblit, htake⟩ := Buffer.take_blit (b := opMsg) hroom
    obtain ⟨opMsg', hstore, htake'⟩ := @ih b (i + 1) hfits
    refine ⟨opMsg', ?_, ?_⟩
    · simp only [storeOpnds, hblit, Option.bind_eq_bind, Option.bind_some, hstore]
    · rw [htake', ← hnext, htake, List.append_assoc, List.flatMap_cons]

/-- op_client writes the count, the operands and the operator. -/
theorem clientMessage_eq (opMsg : Buffer bufSize) (opnds : List (BitVec 32)) (op : UInt8) (hle : opnds.length ≤ 255) :
    clientMessage opMsg opnds op =
      some (UInt8.ofNat opnds.length :: (opnds.flatMap intBytes ++ [op])) := by
  have hsize : bufSize = 1024 := rfl
  have hopsz : opsz = 4 := rfl
  obtain ⟨b, hput, htake⟩ := Buffer.take_put (b := opMsg) (v := UInt8.ofNat opnds.length) (i := 0) (by omega)
  have hroom : (0 + opnds.length) * opsz + 1 ≤ bufSize := by
    rw [hopsz]
    omega
  obtain ⟨b1, hstore, htake1⟩ := @storeOpnds_take b 0 opnds hroom
  obtain ⟨b2, hput2, htake2⟩ := Buffer.take_put (b := b1) (v := op) (i := opnds.length * opsz + 1) (by rw [hopsz]; omega)
  simp only [clientMessage, hput, hstore, hput2, Option.bind_eq_bind, Option.bind_some]
  rw [Nat.zero_add] at htake1
  rw [show opnds.length * opsz + 2 = opnds.length * opsz + 1 + 1 from rfl, htake2, htake1, Nat.zero_mul, htake]
  simp

/-- The receive loop takes the whole message, however it was cut. -/
theorem receiveLoop_all {opndCnt : Nat} {reads : List (List UInt8)} {opInfo : Buffer bufSize} {receiveLen : Nat}
    {data : List UInt8} (hdata : data.length = opndCnt * opsz + 1) (hfits : data.length ≤ bufSize)
    (hreads : ∀ got ∈ reads, got ≠ []) (hlen : receiveLen ≤ data.length)
    (htake : opInfo.bytes.take receiveLen ++ reads.flatten = data) :
    ∃ opInfo', receiveLoop opndCnt reads opInfo receiveLen = some (opInfo', data.length) ∧
      opInfo'.bytes.take data.length = data := by
  induction reads generalizing opInfo receiveLen with
  | nil =>
    rw [List.flatten_nil, List.append_nil] at htake
    have hall := congrArg List.length htake
    rw [List.length_take, opInfo.length_eq] at hall
    have hdone : receiveLen = data.length := by omega
    refine ⟨opInfo, ?_, hdone ▸ htake⟩
    rw [receiveLoop, if_neg (by omega), hdone]
  | cons got reads ih =>
    have hpos := List.length_pos_iff.mpr (hreads got List.mem_cons_self)
    have hall := congrArg List.length htake
    rw [List.length_append, List.length_take, opInfo.length_eq, List.flatten_cons, List.length_append] at hall
    rw [receiveLoop, if_pos (by omega)]
    have hroom : receiveLen + got.length ≤ bufSize := by omega
    obtain ⟨b, hblit, htake'⟩ := Buffer.take_blit (b := opInfo) hroom
    rw [List.flatten_cons, ← List.append_assoc, ← htake'] at htake
    rw [hblit]
    exact ih (fun g hg => hreads g (List.mem_cons_of_mem got hg)) (by omega) htake

/-- The server gets the message in reads of at least one byte, the first of one byte only. -/
def Cuts (reads : List (List UInt8)) (message : List UInt8) : Prop :=
  (∃ cnt rest, reads = [cnt] :: rest) ∧ (∀ got ∈ reads, got ≠ []) ∧ reads.flatten = message

/-- The call is made with the operands and the operator that were encoded. -/
theorem serve_eq (opInfo : Buffer bufSize) {opnds : List (BitVec 32)} {op : UInt8} {reads : List (List UInt8)}
    (hle : opnds.length ≤ 255) (hcuts : Cuts reads (UInt8.ofNat opnds.length :: (opnds.flatMap intBytes ++ [op]))) :
    ∃ junk, serve opInfo reads = some ⟨opnds.length, opnds ++ junk, op⟩ := by
  obtain ⟨⟨cnt, rest, rfl⟩, hne, hflat⟩ := hcuts
  obtain ⟨rfl, hrest⟩ := List.cons.inj hflat
  have hcount : (UInt8.ofNat opnds.length).toNat = opnds.length := by
    rw [UInt8.toNat_ofNat']
    omega
  have hlength : (opnds.flatMap intBytes ++ [op]).length = opnds.length * opsz + 1 := by
    rw [List.length_append, flatMap_length, List.length_singleton]
  have hsize : bufSize = 1024 := rfl
  have hopsz : opsz = 4 := rfl
  have hstart : opInfo.bytes.take 0 ++ rest.flatten = opnds.flatMap intBytes ++ [op] := hrest
  obtain ⟨opInfo', hloop, htake⟩ := receiveLoop_all hlength (by rw [hlength, hopsz]; omega)
    (fun got hg => hne got (List.mem_cons_of_mem _ hg)) (Nat.zero_le _) hstart
  have hbytes : opInfo'.bytes = opnds.flatMap intBytes ++ ([op] ++ opInfo'.bytes.drop (opnds.length * opsz + 1)) := by
    rw [hlength] at htake
    rw [← List.append_assoc, ← htake, List.take_append_drop]
  have hop : opInfo'.bytes[opnds.length * opsz]? = some op := by
    rw [hbytes, ← flatMap_length, List.getElem?_append_right (Nat.le_refl _), Nat.sub_self]
    rfl
  refine ⟨intsOf ([op] ++ opInfo'.bytes.drop (opnds.length * opsz + 1)), ?_⟩
  have hints := congrArg intsOf hbytes
  rw [intsOf_flatMap] at hints
  simp only [serve, hcount, hloop, hlength, Nat.add_sub_cancel, hop, hints, Option.bind_eq_bind, Option.bind_some]

/-- The loop over the array is a fold over the operands behind the first. -/
theorem loop_eq {f : BitVec 32 → BitVec 32 → Option (BitVec 32)} {xs junk opnds : List (BitVec 32)} {k : Nat}
    {result : BitVec 32} (h : opnds.drop k = xs ++ junk) :
    (List.range' k xs.length).foldlM (fun result i => do f result (← opnds[i]?)) result = xs.foldlM f result := by
  induction xs generalizing k result with
  | nil => rfl
  | cons x xs ih =>
    have hx : opnds[k]? = some x := by
      have := congrArg (·[0]?) h
      simpa [List.getElem?_drop] using this
    have hrest : opnds.drop (k + 1) = xs ++ junk := by
      rw [← List.drop_drop, h]
      rfl
    rw [List.length_cons, List.range'_succ, List.foldlM_cons, List.foldlM_cons, hx]
    simp only [Option.bind_eq_bind, Option.bind_some]
    congr 1
    funext r
    exact ih hrest

theorem calculate_eq (x : BitVec 32) (xs junk : List (BitVec 32)) (op : UInt8) :
    calculate (x :: xs).length (x :: xs ++ junk) op = match opStep op with
      | some f => xs.foldlM f x
      | none => some x := by
  have hloop : ∀ f : BitVec 32 → BitVec 32 → Option (BitVec 32), (List.range' 1 xs.length).foldlM
      (fun result i => do f result (← (x :: xs ++ junk)[i]?)) x = xs.foldlM f x := by
    intro f
    have hdrop : (x :: xs ++ junk).drop 1 = xs ++ junk := rfl
    exact loop_eq hdrop
  simp only [calculate, List.length_cons, Nat.add_sub_cancel, List.cons_append, List.getElem?_cons_zero,
    Option.bind_eq_bind, Option.bind_some]
  cases hop : opStep op with
  | none => rfl
  | some f => exact hloop f

/-- An operator that is computed modulo 2^32 in every step is folded modulo 2^32. -/
theorem foldlM_wraps (op : UInt8) {f : BitVec 32 → BitVec 32 → Option (BitVec 32)} (xs : List (BitVec 32)) (r : Int)
    (hf : ∀ (a : Int) (b : BitVec 32), f (BitVec.ofInt 32 a) b = some (BitVec.ofInt 32 (exactOp op a b.toInt))) :
    xs.foldlM f (BitVec.ofInt 32 r) =
      some (BitVec.ofInt 32 (xs.foldl (fun result opnd => exactOp op result opnd.toInt) r)) := by
  induction xs generalizing r with
  | nil => rfl
  | cons x xs ih =>
    rw [List.foldlM_cons, hf]
    exact ih (exactOp op r x.toInt)

theorem toInt_intMin : (BitVec.intMin 32).toInt = -2 ^ 31 := by decide

/-- Behind a divisor other than 1 the quotient is never the least int. -/
theorem sdiv_ne_intMin {result opnd : BitVec 32} (hzero : opnd ≠ 0) (hone : opnd ≠ 1)
    (hfits : ¬ (result = BitVec.intMin 32 ∧ opnd = -1)) : result.sdiv opnd ≠ BitVec.intMin 32 := by
  have hquot := BitVec.toInt_sdiv_of_ne_or_ne result opnd (not_and_or.mp hfits)
  have hlow := BitVec.le_toInt result
  have hhigh := BitVec.toInt_lt (x := result)
  intro he
  rw [he, toInt_intMin] at hquot
  have habs : 2 ^ 31 = result.toInt.natAbs / opnd.toInt.natAbs := by
    have hnat := congrArg Int.natAbs hquot
    rw [Int.natAbs_tdiv] at hnat
    exact hnat
  have hone' : opnd.toInt ≠ 1 := fun h1 => hone (BitVec.toInt_inj.mp h1)
  have hneg' : opnd.toInt = -1 → opnd = -1 := fun h1 => BitVec.toInt_inj.mp h1
  have hzero' : opnd.toInt ≠ 0 := fun h0 => hzero (BitVec.toInt_inj.mp h0)
  have hle : result.toInt.natAbs / opnd.toInt.natAbs ≤ result.toInt.natAbs := Nat.div_le_self _ _
  have hbig : result.toInt.natAbs = 2 ^ 31 := by omega
  have hmin : result = BitVec.intMin 32 := BitVec.toInt_inj.mp (by rw [toInt_intMin]; omega)
  have htwo : 2 ≤ opnd.toInt.natAbs := by
    have hneg : opnd.toInt ≠ -1 := fun h1 => hfits ⟨hmin, hneg' h1⟩
    omega
  have hhalf : result.toInt.natAbs / opnd.toInt.natAbs ≤ result.toInt.natAbs / 2 := Nat.div_le_div_left htwo (by decide)
  omega

/-- The least int is divided by -1 before it is divided by any other divisor than 1. -/
def Overflows (op : UInt8) (opnds : List (BitVec 32)) : Prop :=
  op = 47 ∧ opnds.head? = some (BitVec.intMin 32) ∧ opnds.tail.find? (· ≠ 1) = some (-1)

instance (op : UInt8) (opnds : List (BitVec 32)) : Decidable (Overflows op opnds) :=
  inferInstanceAs (Decidable (_ ∧ _ ∧ _))

theorem divide_one (result : BitVec 32) : divide result 1 = some result := by
  have hone : ¬ ((1 : BitVec 32) = 0 ∨ (result = BitVec.intMin 32 ∧ (1 : BitVec 32) = -1)) := by
    rintro (h | ⟨_, h⟩)
    · exact absurd h (by decide)
    · exact absurd h (by decide)
  exact (if_neg hone).trans (congrArg some BitVec.sdiv_one)

theorem foldlM_divide_overflow {xs : List (BitVec 32)} (h : xs.find? (· ≠ 1) = some (-1)) :
    xs.foldlM divide (BitVec.intMin 32) = none := by
  induction xs with
  | nil => cases h
  | cons x xs ih =>
    rw [List.foldlM_cons]
    by_cases hone : x = 1
    · rw [hone, List.find?_cons_of_neg (by simp)] at h
      rw [hone, divide_one]
      exact ih h
    · rw [List.find?_cons_of_pos (by simpa using hone)] at h
      rw [Option.some.inj h]
      rfl

theorem foldlM_divide {xs : List (BitVec 32)} {result : BitVec 32} (hzero : 0 ∉ xs)
    (h : ¬ (result = BitVec.intMin 32 ∧ xs.find? (· ≠ 1) = some (-1))) :
    ∃ r, xs.foldlM divide result = some r ∧ r.toInt = xs.foldl (fun result opnd => result.tdiv opnd.toInt) result.toInt := by
  induction xs generalizing result with
  | nil => exact ⟨result, rfl, rfl⟩
  | cons x xs ih =>
    have hx : x ≠ 0 := fun he => hzero (he ▸ List.mem_cons_self)
    have hxs : 0 ∉ xs := fun hm => hzero (List.mem_cons_of_mem x hm)
    rw [List.foldlM_cons, List.foldl_cons]
    by_cases hone : x = 1
    · rw [hone, List.find?_cons_of_neg (by simp)] at h
      rw [hone, divide_one]
      have htdiv : result.toInt.tdiv (1 : BitVec 32).toInt = result.toInt := Int.tdiv_one _
      rw [htdiv]
      exact ih hxs h
    · rw [List.find?_cons_of_pos (by simpa using hone), Option.some.injEq] at h
      have hdivide : divide result x = some (result.sdiv x) := if_neg (by tauto)
      have hnext : ¬ (result.sdiv x = BitVec.intMin 32 ∧ xs.find? (· ≠ 1) = some (-1)) := fun hmin =>
        sdiv_ne_intMin hx hone h hmin.1
      obtain ⟨r, hr, hvalue⟩ := ih hxs hnext
      rw [BitVec.toInt_sdiv_of_ne_or_ne result x (not_and_or.mp h)] at hvalue
      rw [hdivide]
      exact ⟨r, hr, hvalue⟩

/-- calculate returns the fold modulo 2^32, but for a quotient that does not fit. -/
theorem calculate_iff {opnds junk : List (BitVec 32)} {op : UInt8} (hne : opnds ≠ [])
    (hop : op = 43 ∨ op = 45 ∨ op = 42 ∨ op = 47) (hzero : op = 47 → 0 ∉ opnds.tail) :
    calculate opnds.length (opnds ++ junk) op = some (BitVec.ofInt 32 (exactFold op opnds)) ↔ ¬ Overflows op opnds := by
  cases opnds with
  | nil => exact absurd rfl hne
  | cons x xs =>
    rw [calculate_eq, exactFold]
    have hstart : BitVec.ofInt 32 x.toInt = x := BitVec.ofInt_toInt
    rcases hop with rfl | rfl | rfl | rfl
    · refine iff_of_true ?_ (fun ho => absurd ho.1 (by decide))
      have hwraps := foldlM_wraps 43 (f := fun result opnd => some (result + opnd)) xs x.toInt fun a b => by
        simp [exactOp, BitVec.ofInt_add]
      rw [hstart] at hwraps
      exact hwraps
    · refine iff_of_true ?_ (fun ho => absurd ho.1 (by decide))
      have hwraps := foldlM_wraps 45 (f := fun result opnd => some (result - opnd)) xs x.toInt fun a b => by
        simp [exactOp, Int.sub_eq_add_neg, BitVec.ofInt_add, BitVec.ofInt_neg, BitVec.sub_eq_add_neg]
      rw [hstart] at hwraps
      exact hwraps
    · refine iff_of_true ?_ (fun ho => absurd ho.1 (by decide))
      have hwraps := foldlM_wraps 42 (f := fun result opnd => some (result * opnd)) xs x.toInt fun a b => by
        simp [exactOp, BitVec.ofInt_mul]
      rw [hstart] at hwraps
      exact hwraps
    · change xs.foldlM divide x = some (BitVec.ofInt 32 (xs.foldl (fun result opnd => result.tdiv opnd.toInt) x.toInt)) ↔ _
      constructor
      · rintro hsome ⟨_, hmin, hfind⟩
        rw [Option.some.inj hmin] at hsome
        cases (foldlM_divide_overflow hfind).symm.trans hsome
      · intro hno
        have hfits : ¬ (x = BitVec.intMin 32 ∧ xs.find? (· ≠ 1) = some (-1)) := fun ho =>
          hno ⟨rfl, congrArg some ho.1, ho.2⟩
        have hxs : 0 ∉ xs := hzero rfl
        obtain ⟨r, hr, hvalue⟩ := foldlM_divide hxs hfits
        rw [hr, ← hvalue, BitVec.ofInt_toInt]

/-- However the message of op_client is cut into reads, op_server calls calculate with the
operands and the operator that were encoded, and gets the fold of the operator over them modulo
2^32, exactly when no quotient fails to fit. -/
theorem operation_calculates (opnds : List (BitVec 32)) (op : UInt8) (opMsg opInfo : Buffer bufSize) (hne : opnds ≠ [])
    (hle : opnds.length ≤ 255) (hop : op = 43 ∨ op = 45 ∨ op = 42 ∨ op = 47) (hzero : op = 47 → 0 ∉ opnds.tail) :
    ∃ message, clientMessage opMsg opnds op = some message ∧
      message = UInt8.ofNat opnds.length :: (opnds.flatMap intBytes ++ [op]) ∧
      ∀ reads, Cuts reads message → ∃ call, serve opInfo reads = some call ∧ call.opnum = opnds.length ∧
        call.opnds.take call.opnum = opnds ∧ call.op = op ∧
        (calculate call.opnum call.opnds call.op = some (BitVec.ofInt 32 (exactFold op opnds)) ↔
          ¬ Overflows op opnds) := by
  refine ⟨_, clientMessage_eq opMsg opnds op hle, rfl, fun reads hcuts => ?_⟩
  obtain ⟨junk, hserve⟩ := serve_eq opInfo hle hcuts
  exact ⟨_, hserve, rfl, List.take_left, rfl, calculate_iff hne hop hzero⟩

/-- The message of 7 - 2 in three reads. -/
theorem operation_calculates_sample :
    ∃ call, serve (Buffer.zero _) [[2], [7, 0, 0, 0, 2], [0, 0, 0, 45]] = some call ∧
      calculate call.opnum call.opnds call.op = some 5 := by
  obtain ⟨message, _, rfl, hserve⟩ := operation_calculates [7, 2] 45 (Buffer.zero _) (Buffer.zero _) (by decide)
    (by decide) (by decide) (by decide)
  obtain ⟨call, hcall, _, _, _, hresult⟩ := hserve [[2], [7, 0, 0, 0, 2], [0, 0, 0, 45]]
    ⟨⟨2, _, rfl⟩, by decide, by decide⟩
  exact ⟨call, hcall, hresult.mpr (by decide)⟩

/-- The least int divided by -1. -/
theorem operation_not_always_calculates :
    ¬ ∀ (opnds : List (BitVec 32)) (op : UInt8) (opMsg opInfo : Buffer bufSize), opnds ≠ [] → opnds.length ≤ 255 →
      (op = 43 ∨ op = 45 ∨ op = 42 ∨ op = 47) → (op = 47 → 0 ∉ opnds.tail) →
      ∃ message, clientMessage opMsg opnds op = some message ∧
        ∀ reads, Cuts reads message → ∃ call, serve opInfo reads = some call ∧ call.opnum = opnds.length ∧
          call.opnds.take call.opnum = opnds ∧ call.op = op ∧
          calculate call.opnum call.opnds call.op = some (BitVec.ofInt 32 (exactFold op opnds)) := by
  intro h
  obtain ⟨message, hmessage, hserve⟩ := h [BitVec.intMin 32, -1] 47 (Buffer.zero _) (Buffer.zero _) (by decide)
    (by decide) (by decide) (by decide)
  rw [clientMessage_eq _ _ _ (by decide)] at hmessage
  cases Option.some.inj hmessage
  have hcuts : Cuts [[2], [0, 0, 0, 128, 255, 255, 255, 255, 47]] [2, 0, 0, 0, 128, 255, 255, 255, 255, 47] :=
    ⟨⟨2, _, rfl⟩, by decide, rfl⟩
  obtain ⟨call, hcall, _, _, _, hresult⟩ := hserve _ hcuts
  obtain ⟨junk, hjunk⟩ := @serve_eq (Buffer.zero _) [BitVec.intMin 32, -1] 47 _ (by decide) hcuts
  cases Option.some.inj (hjunk.symm.trans hcall)
  have hiff := @calculate_iff [BitVec.intMin 32, -1] junk 47 (by decide) (by decide) (by decide)
  exact hiff.mp hresult (by decide)

end Operation

end CppInAction
