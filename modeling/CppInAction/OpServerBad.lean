import CppInAction.CMemory
import Mathlib.Data.Nat.Digits.Lemmas

namespace CppInAction

namespace OperationBad

def numSize : Nat := 100
def bufSize : Nat := 1024

/-- The value of an int expression; none where it overflows. -/
def toInt (x : Int) : Option Int := if -2 ^ 31 ≤ x ∧ x < 2 ^ 31 then some x else none

/-- The value of a char, which has a sign. -/
def charVal (c : UInt8) : Int := if c.toNat < 128 then c.toNat else c.toNat - 256

/-- int2string of op_client_bad: the digits from the lowest on, and a blank. -/
def int2string (num : Int) : List UInt8 :=
  if num ≤ 0 then [32] else UInt8.ofNat (num % 10 + 48).toNat :: int2string (num / 10)
termination_by num.toNat
decreasing_by omega

/-- int2string of op_server_bad, which ends at 0 and puts no blank. -/
def int2stringReply (num : Int) : List UInt8 :=
  if num = 0 then [] else UInt8.ofNat (num.tmod 10 + 48).toNat :: int2stringReply (num.tdiv 10)
termination_by num.natAbs
decreasing_by
  rw [Int.natAbs_tdiv]
  exact Nat.div_lt_self (by omega) (by decide)

/-- The message that op_client_bad puts together; none where it does not fit into the array. -/
def request (nums : List Int) (op : UInt8) : Option (List UInt8) :=
  let message := int2string nums.length ++ (nums.map int2string).flatten ++ [op]
  if message.length < bufSize then some message else none

/-- get_num, with what it has put into num so far; the pointer stands behind the blank. -/
def getNum (num : Int) : List UInt8 → Option (Int × List UInt8)
  | [] => none
  | c :: str =>
    if c ≠ 32 then do
      let num ← toInt (num * 10)
      let num ← toInt (num + (charVal c - 48))
      getNum num str
    else some (num, str)

/-- The loop of op_server_bad over its numbers. -/
def getNums : Nat → List UInt8 → Option (List Int × List UInt8)
  | 0, ptr => some ([], ptr)
  | n + 1, ptr => do
    let (num, ptr) ← getNum 0 ptr
    let (numbers, ptr) ← getNums n ptr
    some (num :: numbers, ptr)

/-- What op_server_bad takes out of its array: the operands and the operator; none where it
leaves one of its arrays. -/
def parse (message : List UInt8) : Option (List Int × UInt8) := do
  let (cnt, ptr) ← getNum 0 message
  if numSize < cnt then none
  else do
    let (numbers, ptr) ← getNums cnt.toNat ptr
    let op ← ptr.head?
    some (numbers, op)

def calculate (a b : Int) (op : UInt8) : Option Int :=
  if op = 43 then toInt (a + b)
  else if op = 45 then toInt (a - b)
  else if op = 42 then toInt (a * b)
  else if op = 47 then if b = 0 then none else toInt (a.tdiv b)
  else some a

/-- The result over the operands; without one numbers[0] has no value. -/
def result (numbers : List Int) (op : UInt8) : Option Int :=
  match numbers with
  | [] => none
  | first :: numbers => numbers.foldlM (fun result num => calculate result num op) first

/-- What op_server_bad writes back. -/
def serve (message : List UInt8) : Option (List UInt8) := do
  let (numbers, op) ← parse message
  let result ← result numbers op
  some (int2stringReply result)

/-- What op_client_bad prints: the string in its array, over the start of which the reply has
come in; none where the reply has taken the end of the string. -/
def shown (message reply : List UInt8) : Option (List UInt8) :=
  if reply.length ≤ message.length then some (reply ++ message.drop reply.length) else none

/-- The number with the decimal digits of n in the other order. -/
def turned (n : Nat) : Nat := Nat.ofDigits 10 (Nat.digits 10 n).reverse

def digitChars (ds : List Nat) : List UInt8 := ds.map fun d => UInt8.ofNat (d + 48)

variable {n : Nat} {ds : List Nat} {nums : List Nat} {op : UInt8} {message rest : List UInt8}

theorem digitChars_cons (d : Nat) (ds : List Nat) : digitChars (d :: ds) = UInt8.ofNat (d + 48) :: digitChars ds := rfl

theorem int2string_eq (n : Nat) : int2string n = digitChars (Nat.digits 10 n) ++ [32] := by
  induction n using Nat.strong_induction_on with
  | _ n ih =>
    rw [int2string]
    by_cases hn : n = 0
    · subst hn
      rfl
    · have hdigit : ((n : Int) % 10 + 48).toNat = n % 10 + 48 := by omega
      have htail : (n : Int) / 10 = (n / 10 : Nat) := by omega
      rw [if_neg (by omega), hdigit, htail, ih (n / 10) (by omega), Nat.digits_def' (by decide) (by omega : 0 < n)]
      rfl

theorem int2stringReply_eq (n : Nat) : int2stringReply n = digitChars (Nat.digits 10 n) := by
  induction n using Nat.strong_induction_on with
  | _ n ih =>
    rw [int2stringReply]
    by_cases hn : n = 0
    · subst hn
      rfl
    · have hdigit : ((n : Int).tmod 10 + 48).toNat = n % 10 + 48 := by
        rw [Int.tmod_eq_emod_of_nonneg (by omega)]
        omega
      have htail : (n : Int).tdiv 10 = (n / 10 : Nat) := by
        rw [Int.tdiv_eq_ediv_of_nonneg (by omega)]
        omega
      rw [if_neg (by omega), hdigit, htail, ih (n / 10) (by omega), Nat.digits_def' (by decide) (by omega : 0 < n)]
      rfl

theorem toInt_natCast (n : Nat) : toInt n = if n < 2 ^ 31 then some (n : Int) else none := by
  unfold toInt
  by_cases hn : n < 2 ^ 31
  · rw [if_pos (by omega), if_pos hn]
  · rw [if_neg (by omega), if_neg hn]

theorem digitChar_ne_blank {d : Nat} (hd : d < 10) : UInt8.ofNat (d + 48) ≠ 32 := by
  intro h
  have hval := congrArg UInt8.toNat h
  rw [UInt8.toNat_ofNat', Nat.mod_eq_of_lt (by omega), show (32 : UInt8).toNat = 32 from rfl] at hval
  omega

theorem charVal_digitChar {d : Nat} (hd : d < 10) : charVal (UInt8.ofNat (d + 48)) - 48 = d := by
  have hval : (UInt8.ofNat (d + 48)).toNat = d + 48 := by
    rw [UInt8.toNat_ofNat', Nat.mod_eq_of_lt (by omega)]
  rw [charVal, hval, if_pos (by omega)]
  omega

theorem getNum_digitChars (hds : ∀ d ∈ ds, d < 10) (num : Nat) (hnum : num < 2 ^ 31) (rest : List UInt8) :
    getNum num (digitChars ds ++ 32 :: rest) =
      if num * 10 ^ ds.length + Nat.ofDigits 10 ds.reverse < 2 ^ 31 then
        some (((num * 10 ^ ds.length + Nat.ofDigits 10 ds.reverse : Nat) : Int), rest)
      else none := by
  induction ds generalizing num with
  | nil =>
    have hzero : num * 10 ^ ([] : List Nat).length + Nat.ofDigits 10 [].reverse = num := by simp
    rw [hzero, if_pos hnum]
    exact if_neg (by simp)
  | cons d ds ih =>
    obtain ⟨hd, hds⟩ := List.forall_mem_cons.mp hds
    have hall : num * 10 ^ (d :: ds).length + Nat.ofDigits 10 (d :: ds).reverse =
        (num * 10 + d) * 10 ^ ds.length + Nat.ofDigits 10 ds.reverse := by
      rw [Nat.ofDigits_reverse_cons, List.length_cons, Nat.pow_succ]
      ring
    have hgrow : num * 10 + d ≤ (num * 10 + d) * 10 ^ ds.length := Nat.le_mul_of_pos_right _ (by positivity)
    have hten : ((num : Int) * 10) = (num * 10 : Nat) := by omega
    have hsum : ((num * 10 : Nat) : Int) + (d : Int) = (num * 10 + d : Nat) := by omega
    rw [hall, digitChars_cons, List.cons_append, getNum, if_pos (digitChar_ne_blank hd), charVal_digitChar hd]
    rw [hten, toInt_natCast]
    by_cases hten : num * 10 < 2 ^ 31
    · rw [if_pos hten, Option.bind_eq_bind, Option.bind_some, hsum, toInt_natCast]
      by_cases hnext : num * 10 + d < 2 ^ 31
      · rw [if_pos hnext, Option.bind_some]
        exact ih hds (num * 10 + d) hnext
      · rw [if_neg hnext, if_neg (by omega)]
        rfl
    · rw [if_neg hten, if_neg (by omega)]
      rfl

/-- The server reads a number that is sent with its digits turned round. -/
theorem getNum_int2string (n : Nat) (rest : List UInt8) :
    getNum 0 (int2string n ++ rest) = if turned n < 2 ^ 31 then some ((turned n : Int), rest) else none := by
  have hlt : ∀ d ∈ Nat.digits 10 n, d < 10 := fun d hd => Nat.digits_lt_base (by decide) hd
  have hread := getNum_digitChars hlt 0 (by decide) rest
  rw [int2string_eq, List.append_assoc]
  rw [Nat.zero_mul, Nat.zero_add] at hread
  exact hread

theorem turned_eq_iff (n : Nat) : turned n = n ↔ (Nat.digits 10 n).reverse = Nat.digits 10 n := by
  constructor
  · intro h
    have hlt : ∀ d ∈ Nat.digits 10 n, d < 10 := fun d hd => Nat.digits_lt_base (by decide) hd
    have hrev : ∀ d ∈ (Nat.digits 10 n).reverse, d < 10 := fun d hd => hlt d (List.mem_reverse.mp hd)
    refine Nat.ofDigits_inj_of_len_eq (by decide) List.length_reverse hrev hlt ?_
    rw [Nat.ofDigits_digits]
    exact h
  · intro h
    rw [turned, h, Nat.ofDigits_digits]

theorem getNums_append (hint : ∀ n ∈ nums, turned n < 2 ^ 31) (rest : List UInt8) :
    getNums nums.length ((nums.map fun n : Nat => int2string n).flatten ++ rest) =
      some (nums.map fun n => (turned n : Int), rest) := by
  induction nums with
  | nil => rfl
  | cons n nums ih =>
    obtain ⟨hn, hnums⟩ := List.forall_mem_cons.mp hint
    rw [List.length_cons, List.map_cons, List.flatten_cons, List.append_assoc, getNums, getNum_int2string, if_pos hn]
    rw [Option.bind_eq_bind, Option.bind_some]
    dsimp only
    rw [ih hnums]
    rfl

theorem getNums_overflow (h : ∃ n ∈ nums, ¬turned n < 2 ^ 31) (rest : List UInt8) :
    getNums nums.length ((nums.map fun n : Nat => int2string n).flatten ++ rest) = none := by
  induction nums with
  | nil =>
    obtain ⟨n, hn, -⟩ := h
    cases hn
  | cons n nums ih =>
    rw [List.length_cons, List.map_cons, List.flatten_cons, List.append_assoc, getNums, getNum_int2string]
    by_cases hn : turned n < 2 ^ 31
    · have hrest : ∃ n ∈ nums, ¬turned n < 2 ^ 31 := by
        obtain ⟨m, hm, hbig⟩ := h
        rcases List.mem_cons.mp hm with rfl | hm
        · exact absurd hn hbig
        · exact ⟨m, hm, hbig⟩
      rw [if_pos hn, Option.bind_eq_bind, Option.bind_some]
      dsimp only
      rw [ih hrest]
      rfl
    · rw [if_neg hn]
      rfl

/-- The array of the server once the request is in it, whatever was in it before. -/
theorem request_eq (h : request (nums.map Nat.cast) op = some message) (old : List UInt8) :
    message ++ old =
      int2string (nums.length : Nat) ++ ((nums.map fun n : Nat => int2string n).flatten ++ op :: old) := by
  dsimp only [request] at h
  split at h
  next =>
    obtain rfl := Option.some.inj h
    rw [List.length_map, List.map_map, List.append_assoc, List.append_assoc]
    rfl
  next => cases h

theorem parse_request (h : request (nums.map Nat.cast) op = some message) (hcnt : turned nums.length = nums.length)
    (hsize : nums.length ≤ numSize) (old : List UInt8) :
    parse (message ++ old) =
      if ∀ n ∈ nums, turned n < 2 ^ 31 then some (nums.map fun n => (turned n : Int), op) else none := by
  have hbound : nums.length < 2 ^ 31 := Nat.lt_of_le_of_lt hsize (by decide)
  have hsize' : ¬(numSize : Int) < (nums.length : Int) := by omega
  rw [request_eq h, parse, getNum_int2string, hcnt, if_pos hbound, Option.bind_eq_bind, Option.bind_some]
  dsimp only
  rw [if_neg hsize', Int.toNat_natCast]
  by_cases hint : ∀ n ∈ nums, turned n < 2 ^ 31
  · rw [if_pos hint, getNums_append hint]
    rfl
  · rw [if_neg hint, getNums_overflow (by simpa using hint)]
    rfl

theorem getNums_length {k : Nat} {ptr ptr' : List UInt8} {numbers : List Int}
    (h : getNums k ptr = some (numbers, ptr')) :
    numbers.length = k := by
  induction k generalizing ptr numbers with
  | zero =>
    obtain ⟨rfl, -⟩ := Prod.mk.inj (Option.some.inj h)
    rfl
  | succ k ih =>
    obtain ⟨⟨num, str⟩, -, h⟩ := Option.bind_eq_some_iff.mp h
    obtain ⟨⟨tail, str'⟩, htail, h⟩ := Option.bind_eq_some_iff.mp h
    obtain ⟨rfl, rfl⟩ := Prod.mk.inj (Option.some.inj h)
    rw [List.length_cons, ih htail]

/-- The server takes as many operands as the number it has read for the count says. -/
theorem parse_length (h : request (nums.map Nat.cast) op = some message) {old : List UInt8} {numbers : List Int}
    {op' : UInt8} (hparse : parse (message ++ old) = some (numbers, op')) :
    numbers.length = turned nums.length := by
  rw [request_eq h, parse, getNum_int2string] at hparse
  split at hparse
  next =>
    rw [Option.bind_eq_bind, Option.bind_some] at hparse
    dsimp only at hparse
    split at hparse
    next => cases hparse
    next =>
      obtain ⟨⟨tail, ptr⟩, htail, hparse⟩ := Option.bind_eq_some_iff.mp hparse
      obtain ⟨c, -, hparse⟩ := Option.bind_eq_some_iff.mp hparse
      obtain ⟨rfl, -⟩ := Prod.mk.inj (Option.some.inj hparse)
      rw [getNums_length htail, Int.toNat_natCast]
  next => cases hparse

theorem parse_both_ways (h : request (nums.map Nat.cast) op = some message) (hint : ∀ n ∈ nums, n < 2 ^ 31)
    (hsize : nums.length ≤ numSize) (hcnt : turned nums.length = nums.length) (hnums : ∀ n ∈ nums, turned n = n)
    (old : List UInt8) : parse (message ++ old) = some (nums.map Nat.cast, op) := by
  rw [parse_request h hcnt hsize, if_pos fun n hn => (hnums n hn).symm ▸ hint n hn]
  congr 2
  exact List.map_inj_left.mpr fun n hn => congrArg Nat.cast (hnums n hn)

/-- The server reads the operands and the operator that were sent if and only if the count and
every operand read the same in both directions. -/
theorem request_arrives_iff (h : request (nums.map Nat.cast) op = some message) (hint : ∀ n ∈ nums, n < 2 ^ 31)
    (hsize : nums.length ≤ numSize) (old : List UInt8) :
    parse (message ++ old) = some (nums.map Nat.cast, op) ↔
      ∀ n ∈ nums.length :: nums, (Nat.digits 10 n).reverse = Nat.digits 10 n := by
  simp only [← turned_eq_iff, List.forall_mem_cons]
  constructor
  · intro hparse
    have hcnt : turned nums.length = nums.length := by
      rw [← parse_length h hparse, List.length_map]
    rw [parse_request h hcnt hsize] at hparse
    split at hparse
    next =>
      have hnums := congrArg Prod.fst (Option.some.inj hparse)
      refine ⟨hcnt, fun n hn => ?_⟩
      exact Int.ofNat.inj (List.map_inj_left.mp hnums n hn)
    next => cases hparse
  · rintro ⟨hcnt, hnums⟩
    exact parse_both_ways h hint hsize hcnt hnums old

theorem request_arrives_iff_sum :
    parse ([50, 32, 49, 49, 32, 55, 32, 43] ++ [0]) = some ([11, 7].map Nat.cast, 43) ↔
      ∀ n ∈ [11, 7].length :: [11, 7], (Nat.digits 10 n).reverse = Nat.digits 10 n :=
  request_arrives_iff (by simp [request, int2string, bufSize]) (by decide) (by decide) [0]

/-- Where the request arrives, the client shows the digits of the result from the lowest on, and
behind them what the reply has left of the request. -/
theorem shown_turned (h : request (nums.map Nat.cast) op = some message) (hint : ∀ n ∈ nums, n < 2 ^ 31)
    (hsize : nums.length ≤ numSize) (hboth : ∀ n ∈ nums.length :: nums, turned n = n)
    (hresult : result (nums.map Nat.cast) op = some (n : Int)) (hroom : (Nat.digits 10 n).length ≤ message.length)
    (old : List UInt8) :
    (serve (message ++ old)).bind (shown message) =
      some (digitChars (Nat.digits 10 n) ++ message.drop (Nat.digits 10 n).length) := by
  obtain ⟨hcnt, hnums⟩ := List.forall_mem_cons.mp hboth
  have hserve : serve (message ++ old) = some (int2stringReply n) := by
    rw [serve, parse_both_ways h hint hsize hcnt hnums old, Option.bind_eq_bind, Option.bind_some]
    dsimp only
    rw [hresult]
    rfl
  have hlen : (digitChars (Nat.digits 10 n)).length = (Nat.digits 10 n).length := List.length_map _
  rw [hserve, Option.bind_some, int2stringReply_eq, shown, hlen, if_pos hroom]

end OperationBad

end CppInAction
