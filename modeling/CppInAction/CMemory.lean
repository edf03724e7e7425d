import Mathlib.Algebra.Ring.Int.Defs
import Mathlib.Algebra.Ring.Nat
import Mathlib.Data.List.Basic
import Mathlib.Data.List.TakeWhile
import Mathlib.Data.List.TakeDrop

namespace CppInAction

/-- The value a 32-bit int holds after a conversion from a wider one. -/
def toInt32 (x : Int) : Int := Int.bmod x (2 ^ 32)

/-- The value of an int or long converted to size_t. -/
def toSizeT (x : Int) : Nat := (x % 2 ^ 64).toNat

/-- The value a 64-bit long holds. -/
def toLong (x : Int) : Int := Int.bmod x (2 ^ 64)

theorem toInt32_of_nonneg {x : Int} (h0 : 0 ≤ x) (h : x < 2 ^ 31) : toInt32 x = x := by
  unfold toInt32
  rw [Int.bmod_eq_of_le (by omega) (by omega)]

theorem toInt32_lt (x : Int) : toInt32 x < 2 ^ 31 := by
  have h := Int.bmod_lt (x := x) (m := 2 ^ 32) (by decide)
  unfold toInt32
  omega

theorem toInt32_emod (x : Int) : toInt32 x % 2 ^ 32 = x % 2 ^ 32 :=
  Int.bmod_emod (x := x) (m := 2 ^ 32)

theorem toSizeT_of_nonneg {x : Int} (h0 : 0 ≤ x) (h : x < 2 ^ 64) : toSizeT x = x.toNat := by
  unfold toSizeT
  rw [Int.emod_eq_of_lt h0 h]

/-- Where a list with one more element is cut in front of an element, this is the new one or one before it. -/
theorem concat_eq_cut {α : Type} {xs before after : List α} {x y : α} (h : xs ++ [x] = before ++ y :: after) :
    (y = x ∧ after = []) ∨ ∃ after', after = after' ++ [x] ∧ xs = before ++ y :: after' := by
  rcases List.eq_nil_or_concat after with rfl | ⟨after', last, rfl⟩
  · obtain ⟨_, hx⟩ := List.append_inj' h rfl
    exact Or.inl ⟨(List.head_eq_of_cons_eq hx).symm, rfl⟩
  · rw [List.concat_eq_append] at h ⊢
    rw [← List.cons_append, ← List.append_assoc] at h
    obtain ⟨hxs, hlast⟩ := List.append_inj' h rfl
    exact Or.inr ⟨after', by rw [List.head_eq_of_cons_eq hlast], hxs⟩

/-- The characters of a C string literal, without its terminator. -/
def bytes (s : String) : List UInt8 := s.toList.map fun ch => UInt8.ofNat ch.toNat

/-- A char array of fixed size. -/
structure Buffer (n : Nat) where
  bytes : List UInt8
  length_eq : bytes.length = n
deriving DecidableEq

namespace Buffer

variable {n : Nat}

/-- The array after memset to zero. -/
def zero (n : Nat) : Buffer n := ⟨List.replicate n 0, List.length_replicate⟩

/-- Store one byte; an index outside the array is undefined. -/
def put (b : Buffer n) (i : Nat) (v : UInt8) : Option (Buffer n) :=
  if i < n then some ⟨b.bytes.set i v, by simpa using b.length_eq⟩ else none

/-- Store consecutive bytes; running past the array is undefined. -/
def blit (b : Buffer n) (i : Nat) (xs : List UInt8) : Option (Buffer n) :=
  if h : i + xs.length ≤ n then
    some ⟨b.bytes.take i ++ xs ++ b.bytes.drop (i + xs.length), by
      have := b.length_eq
      simp only [List.length_append, List.length_take, List.length_drop]
      omega⟩
  else none

/-- The C string that starts at an index; undefined when no terminator
follows inside the array. -/
def cstr (b : Buffer n) (i : Nat) : Option (List UInt8) :=
  if 0 ∈ b.bytes.drop i then some ((b.bytes.drop i).takeWhile (· ≠ 0)) else none

theorem cstr_eq_some_iff {b : Buffer n} {i : Nat} {s : List UInt8} :
    b.cstr i = some s ↔ ∃ tail, b.bytes.drop i = s ++ 0 :: tail ∧ 0 ∉ s := by
  unfold cstr
  constructor
  · intro h
    split at h
    next hm =>
      cases Option.some.inj h
      obtain ⟨x, hx⟩ : ∃ x, (b.bytes.drop i).dropWhile (· ≠ 0) = 0 :: x := by
        cases hd : (b.bytes.drop i).dropWhile (· ≠ 0) with
        | nil =>
          have hall := List.dropWhile_eq_nil_iff.mp hd 0 hm
          simp at hall
        | cons y ys =>
          have hy := List.head_dropWhile_not (· ≠ (0 : UInt8)) (l := b.bytes.drop i) (hd ▸ List.cons_ne_nil y ys)
          simp only [hd, List.head_cons, decide_eq_false_iff_not, ne_eq, not_not] at hy
          exact ⟨ys, by rw [hy]⟩
      refine ⟨x, ?_, ?_⟩
      · rw [← hx, List.takeWhile_append_dropWhile]
      · intro hz
        have := List.mem_takeWhile_imp hz
        simp at this
    next => simp at h
  · rintro ⟨tail, he, hz⟩
    have hmem : (0 : UInt8) ∈ b.bytes.drop i := by simp [he]
    rw [if_pos hmem, he, List.takeWhile_append_of_pos]
    · simp
    · intro a ha
      have : a ≠ 0 := fun h => hz (h ▸ ha)
      simpa using this

/-- A string read from inside a string is the rest of it. -/
theorem cstr_drop {b : Buffer n} {i k : Nat} {s : List UInt8} (h : b.cstr i = some s)
    (hk : k ≤ s.length) : b.cstr (i + k) = some (s.drop k) := by
  obtain ⟨tail, he, hz⟩ := cstr_eq_some_iff.mp h
  refine cstr_eq_some_iff.mpr ⟨tail, ?_, fun hm => hz (List.mem_of_mem_drop hm)⟩
  rw [← List.drop_drop, he, List.drop_append_of_le_length hk]

/-- The array from the start of a string on. -/
theorem drop_of_cstr {b : Buffer n} {i : Nat} {s : List UInt8} (h : b.cstr i = some s) :
    ∃ tail, b.bytes.drop i = s ++ 0 :: tail ∧ 0 ∉ s ∧ b.bytes[i]? = some ((s ++ [0]).headD 0) := by
  obtain ⟨tail, he, hz⟩ := cstr_eq_some_iff.mp h
  refine ⟨tail, he, hz, ?_⟩
  have hfirst := congrArg List.head? he
  rw [List.head?_drop] at hfirst
  rw [hfirst]
  cases s <;> rfl

theorem cstr_end_lt {b : Buffer n} {i : Nat} {s : List UInt8} (h : b.cstr i = some s) :
    i + s.length < n := by
  obtain ⟨tail, he, _⟩ := cstr_eq_some_iff.mp h
  have hl := congrArg List.length he
  have := b.length_eq
  simp only [List.length_drop, List.length_append, List.length_cons] at hl
  omega

theorem put_eq_some {b b' : Buffer n} {j : Nat} {v : UInt8} (h : b.put j v = some b') :
    j < n ∧ b'.bytes = b.bytes.set j v := by
  unfold put at h
  split at h
  next hj => cases Option.some.inj h; exact ⟨hj, rfl⟩
  next => simp at h

/-- Storing a terminator inside a string cuts it there. -/
theorem cstr_put_cut {b b' : Buffer n} {i k : Nat} {s : List UInt8} (h : b.cstr i = some s)
    (hk : k < s.length) (hp : b.put (i + k) 0 = some b') : b'.cstr i = some (s.take k) := by
  obtain ⟨tail, he, hz⟩ := cstr_eq_some_iff.mp h
  obtain ⟨_, hb⟩ := put_eq_some hp
  refine cstr_eq_some_iff.mpr ⟨s.drop (k + 1) ++ 0 :: tail, ?_, fun hm => hz (List.mem_of_mem_take hm)⟩
  rw [hb, List.drop_set, if_neg (by omega), he, Nat.add_sub_cancel_left, List.set_append_left _ _ hk,
    List.set_eq_take_append_cons_drop, if_pos hk]
  simp

/-- A string after the stored byte does not change. -/
theorem cstr_put_after {b b' : Buffer n} {i j : Nat} {v : UInt8} (hj : j < i)
    (hp : b.put j v = some b') : b'.cstr i = b.cstr i := by
  obtain ⟨_, hb⟩ := put_eq_some hp
  unfold cstr
  rw [hb, List.drop_set_of_lt hj]

/-- A string ends at a zero byte or before it. -/
theorem exists_cstr {b : Buffer n} {i k : Nat} (hzero : b.bytes[k]? = some 0) (hi : i ≤ k) :
    ∃ s, b.cstr i = some s ∧ i + s.length ≤ k := by
  have hat : (b.bytes.drop i)[k - i]? = some 0 := by rw [List.getElem?_drop, Nat.add_sub_cancel' hi, hzero]
  obtain ⟨s, hs⟩ : ∃ s, b.cstr i = some s := ⟨_, if_pos (List.mem_of_getElem? hat)⟩
  obtain ⟨tail, he, hfree⟩ := cstr_eq_some_iff.mp hs
  refine ⟨s, hs, ?_⟩
  by_contra hlt
  rw [he, List.getElem?_append_left (by omega)] at hat
  exact hfree (List.mem_of_getElem? hat)

theorem length_take {b : Buffer n} {i : Nat} (hi : i ≤ n) : (b.bytes.take i).length = i := by
  rw [List.length_take, b.length_eq, Nat.min_eq_left hi]

theorem blit_eq_some_iff {b b' : Buffer n} {i : Nat} {xs : List UInt8} :
    b.blit i xs = some b' ↔
      i + xs.length ≤ n ∧ b'.bytes = b.bytes.take i ++ xs ++ b.bytes.drop (i + xs.length) := by
  unfold Buffer.blit
  split
  next hfits =>
    constructor
    · intro h
      cases Option.some.inj h
      exact ⟨hfits, rfl⟩
    · rintro ⟨_, hbytes⟩
      obtain ⟨bytes', _⟩ := b'
      cases hbytes
      rfl
  next hfits =>
    constructor
    · intro h
      cases h
    · rintro ⟨h, _⟩
      exact absurd h hfits

theorem exists_blit {b : Buffer n} {i : Nat} {xs : List UInt8} (hfits : i + xs.length ≤ n) :
    ∃ b', b.blit i xs = some b' ∧ b'.bytes = b.bytes.take i ++ xs ++ b.bytes.drop (i + xs.length) :=
  ⟨_, dif_pos hfits, rfl⟩

theorem blit_nil {b : Buffer n} {i : Nat} (hi : i ≤ n) : b.blit i [] = some b :=
  blit_eq_some_iff.mpr ⟨hi, by simp⟩

/-- Two stores one behind the other are one store. -/
theorem blit_blit {b b1 b2 : Buffer n} {i : Nat} {xs ys : List UInt8} (h1 : b.blit i xs = some b1)
    (h2 : b1.blit (i + xs.length) ys = some b2) : b.blit i (xs ++ ys) = some b2 := by
  obtain ⟨hfits, hb1⟩ := blit_eq_some_iff.mp h1
  obtain ⟨hfits2, hb2⟩ := blit_eq_some_iff.mp h2
  have hfront : (b.bytes.take i ++ xs).length = i + xs.length := by rw [List.length_append, length_take (by omega)]
  have hlen := b.length_eq
  have hskip : i + xs.length + (i + xs.length + ys.length - (i + xs.length)) = i + (xs.length + ys.length) := by omega
  rw [hb1, List.take_left' hfront, List.drop_append, hfront, List.drop_of_length_le (by omega), List.nil_append,
    List.drop_drop, hskip] at hb2
  apply blit_eq_some_iff.mpr
  rw [List.length_append]
  refine ⟨by omega, ?_⟩
  rw [hb2, List.append_assoc (b.bytes.take i)]

/-- A store over a part of the same length. -/
theorem blit_between {b : Buffer n} {front old rest xs : List UInt8} (hb : b.bytes = front ++ old ++ rest)
    (hlen : old.length = xs.length) : ∃ b', b.blit front.length xs = some b' ∧ b'.bytes = front ++ xs ++ rest := by
  have hn := b.length_eq
  rw [hb] at hn
  simp only [List.length_append] at hn
  obtain ⟨b', hblit, hbytes⟩ := @exists_blit n b front.length xs (by omega)
  refine ⟨b', hblit, ?_⟩
  have hskip : (front ++ old).length = front.length + xs.length := by rw [List.length_append, hlen]
  rw [hbytes, hb, List.drop_left' hskip, List.append_assoc front, List.take_left]

/-- A byte after a store is one of those stored or was there before. -/
theorem getElem?_blit {b b' : Buffer n} {i j : Nat} {xs : List UInt8} {v : UInt8} (h : b.blit i xs = some b')
    (hj : i ≤ j) (hv : b'.bytes[j]? = some v) : v ∈ xs ∨ b.bytes[j]? = some v := by
  obtain ⟨hfits, hb⟩ := blit_eq_some_iff.mp h
  have htake := length_take (b := b) (i := i) (by omega)
  rw [hb, List.append_assoc, List.getElem?_append_right (by omega), htake] at hv
  by_cases hin : j - i < xs.length
  · rw [List.getElem?_append_left hin] at hv
    exact Or.inl (List.mem_of_getElem? hv)
  · rw [List.getElem?_append_right (by omega), List.getElem?_drop] at hv
    have hidx : i + xs.length + (j - i - xs.length) = j := by omega
    rw [hidx] at hv
    exact Or.inr hv

theorem cstr_blit {b b' : Buffer n} {i : Nat} {s : List UInt8} (h : b.blit i (s ++ [0]) = some b') (hs : 0 ∉ s) :
    b'.cstr i = some s := by
  obtain ⟨hfits, hb⟩ := blit_eq_some_iff.mp h
  have htake := length_take (b := b) (i := i) (by omega)
  refine cstr_eq_some_iff.mpr ⟨b.bytes.drop (i + (s ++ [0]).length), ?_, hs⟩
  rw [hb, List.append_assoc, List.drop_left' htake]
  simp

/-- Storing a second string over the terminator of the first, as strcat does. -/
theorem cstr_blit_append {b : Buffer n} {i : Nat} {s xs : List UInt8} (h : b.cstr i = some s) (hx : 0 ∉ xs)
    (hfits : i + s.length + xs.length + 1 ≤ n) :
    ∃ b', b.blit (i + s.length) (xs ++ [0]) = some b' ∧ b'.cstr i = some (s ++ xs) := by
  obtain ⟨tail, he, hz⟩ := cstr_eq_some_iff.mp h
  have hlen := b.length_eq
  have hroom : i + s.length + (xs ++ [0]).length ≤ n := by
    rw [List.length_append, List.length_singleton]
    omega
  have hfront : (b.bytes.take (i + s.length)).drop i = s := by
    rw [List.drop_take, he, Nat.add_sub_cancel_left]
    exact List.take_left
  obtain ⟨b', hblit, hbytes⟩ := exists_blit hroom
  refine ⟨b', hblit, cstr_eq_some_iff.mpr ⟨b.bytes.drop (i + s.length + (xs ++ [0]).length), ?_, by simp [hz, hx]⟩⟩
  rw [hbytes, List.append_assoc, List.drop_append_of_le_length, hfront]
  · simp
  · rw [length_take (by omega)]
    omega

/-- Bytes stored behind a part of the array extend it. -/
theorem take_blit {b : Buffer n} {i : Nat} {xs : List UInt8} (hfits : i + xs.length ≤ n) :
    ∃ b', b.blit i xs = some b' ∧ b'.bytes.take (i + xs.length) = b.bytes.take i ++ xs := by
  obtain ⟨b', hblit, hbytes⟩ := exists_blit hfits
  refine ⟨b', hblit, ?_⟩
  rw [hbytes]
  apply List.take_left'
  rw [List.length_append, length_take (by omega)]

theorem take_put {b : Buffer n} {i : Nat} {v : UInt8} (hfits : i < n) :
    ∃ b', b.put i v = some b' ∧ b'.bytes.take (i + 1) = b.bytes.take i ++ [v] := by
  have hlen := b.length_eq
  refine ⟨_, if_pos hfits, ?_⟩
  change (b.bytes.set i v).take (i + 1) = _
  rw [List.take_add_one, List.take_set_of_le (Nat.le_refl i), List.getElem?_set_self (by omega)]
  rfl

end Buffer

/-- The blanks that separate the parts of a request line or header. -/
def isBlank (b : UInt8) : Bool := b = 32 || b = 9

/-- Index of the first blank, as strpbrk finds it. -/
def strpbrk (s : List UInt8) : Option Nat := s.findIdx? isBlank

/-- Number of leading blanks. -/
def strspn (s : List UInt8) : Nat := (s.takeWhile isBlank).length

/-- Index of the first occurrence of a character. -/
def strchr (s : List UInt8) (ch : UInt8) : Option Nat := s.findIdx? (· = ch)

/-- Index of the last occurrence of a character. -/
def strrchr (s : List UInt8) (ch : UInt8) : Option Nat :=
  (s.reverse.findIdx? (· = ch)).map fun i => s.length - 1 - i

section Last

variable {ch : UInt8} {s front rest : List UInt8}

theorem exists_last (h : ch ∈ s) : ∃ front rest, s = front ++ ch :: rest ∧ ch ∉ rest := by
  obtain ⟨as, bs, hsplit, hfree⟩ := List.eq_append_cons_of_mem (List.mem_reverse.mpr h)
  refine ⟨bs.reverse, as.reverse, ?_, by simpa using hfree⟩
  rw [← List.reverse_reverse s, hsplit]
  simp

theorem strrchr_append (h : ch ∉ rest) : strrchr (front ++ ch :: rest) ch = some front.length := by
  have hfind : (front ++ ch :: rest).reverse.findIdx? (· = ch) = some rest.length := by
    rw [List.reverse_append, List.reverse_cons, List.append_assoc]
    apply List.findIdx?_eq_some_iff_getElem.mpr
    refine ⟨by simp, by simp, fun j hj => ?_⟩
    have hlt : j < rest.reverse.length := by simpa using hj
    have hmem := List.mem_reverse.mp (List.getElem_mem hlt)
    rw [List.getElem_append_left hlt, decide_eq_true_eq]
    intro heq
    rw [heq] at hmem
    exact h hmem
  rw [strrchr, hfind, Option.map_some, List.length_append, List.length_cons]
  congr 1
  omega

end Last

/-- strpbrk for a blank over the array bytes at s: it reads up to the first blank or the terminator, and is
undefined when the array ends before. -/
def strpbrkIn : List UInt8 → Option (Option Nat)
  | [] => none
  | b :: s => if isBlank b then some (some 0) else if b = 0 then some none else (strpbrkIn s).map (·.map (· + 1))

/-- strspn over the array bytes at s: it reads up to the first byte that is no blank. -/
def strspnIn (s : List UInt8) : Option Nat := if strspn s < s.length then some (strspn s) else none

def toLower (b : UInt8) : UInt8 := if 65 ≤ b ∧ b ≤ 90 then b + 32 else b

/-- Equality ignoring case, the zero result of strcasecmp. -/
def strcaseEq (s t : List UInt8) : Bool := s.map toLower = t.map toLower

/-- Equality of at most n characters ignoring case, the zero result of strncasecmp. -/
def strncaseEq (s t : List UInt8) (n : Nat) : Bool := strcaseEq (s.take n) (t.take n)

/-- strncasecmp compares the array bytes at s with the string t and finds no difference: it reads up to
the first difference, the terminator or the n-th byte, and is undefined when the array ends before. -/
def strncasecmpEq : List UInt8 → List UInt8 → Nat → Option Bool
  | _, _, 0 => some true
  | [], _, _ + 1 => none
  | a :: _, [], _ + 1 => some (a = 0)
  | a :: s, b :: t, n + 1 => if toLower a = toLower b then strncasecmpEq s t n else some false

theorem toLower_eq_zero {b : UInt8} (h : toLower b = 0) : b = 0 := by
  unfold toLower at h
  split at h
  next hupper =>
    have hle : b.toNat ≤ 90 := UInt8.le_iff_toNat_le.mp hupper.2
    have hsum := congrArg UInt8.toNat h
    rw [UInt8.toNat_add] at hsum
    have hmod : (b.toNat + 32) % 256 = 0 := hsum
    omega
  next => exact h

/-- In front of a terminator strncasecmp compares the strings. -/
theorem strncasecmpEq_string {s t : List UInt8} (tail : List UInt8) (n : Nat) (hs : 0 ∉ s) (ht : 0 ∉ t) :
    strncasecmpEq (s ++ 0 :: tail) t n = some (strncaseEq s t n) := by
  induction n generalizing s t with
  | zero => simp [strncasecmpEq, strncaseEq, strcaseEq]
  | succ n ih =>
    cases s with
    | nil =>
      cases t with
      | nil => simp [strncasecmpEq, strncaseEq, strcaseEq]
      | cons b t =>
        have hne : toLower 0 ≠ toLower b := fun heq => ht (toLower_eq_zero heq.symm ▸ List.mem_cons_self)
        simp [strncasecmpEq, strncaseEq, strcaseEq, hne]
    | cons a s =>
      cases t with
      | nil =>
        have hne : a ≠ 0 := fun heq => hs (heq ▸ List.mem_cons_self)
        simp [strncasecmpEq, strncaseEq, strcaseEq, hne]
      | cons b t =>
        by_cases heq : toLower a = toLower b
        · have hrest := ih (fun hm => hs (List.mem_cons_of_mem a hm)) (fun hm => ht (List.mem_cons_of_mem b hm))
          simp [strncasecmpEq, heq, hrest, strncaseEq, strcaseEq]
        · simp [strncasecmpEq, heq, strncaseEq, strcaseEq]

/-- strcasecmp of the array bytes at s with the string t finds no difference. -/
def strcasecmpEq (s t : List UInt8) : Option Bool := strncasecmpEq s t (t.length + 1)

def isSpace (b : UInt8) : Bool := b = 32 || (9 ≤ b && b ≤ 13)

def isDigit (b : UInt8) : Bool := 48 ≤ b && b ≤ 57

/-- The number written by leading decimal digits. -/
def digitsValue (s : List UInt8) : Nat :=
  (s.takeWhile isDigit).foldl (fun acc d => acc * 10 + (d.toNat - 48)) 0

/-- The value atol reads, held to the range of long. -/
def atol (s : List UInt8) : Int :=
  let s := s.dropWhile isSpace
  let value : Int := match s with
    | 45 :: rest => -(digitsValue rest : Int)
    | 43 :: rest => digitsValue rest
    | _ => digitsValue s
  max (-(2 ^ 63)) (min value (2 ^ 63 - 1))

/-- atol over the array bytes at s: it reads up to the first byte behind the digits. -/
def atolIn (s : List UInt8) : Option Int :=
  let digits := match s.dropWhile isSpace with
    | 45 :: rest => rest
    | 43 :: rest => rest
    | rest => rest
  if digits.all isDigit then none else some (atol s)

theorem strncaseEq_whole {s t : List UInt8} {n : Nat} (h : t.length < n) : strncaseEq s t n = strcaseEq s t := by
  unfold strncaseEq
  rw [List.take_of_length_le h.le]
  by_cases hs : s.length ≤ n
  · rw [List.take_of_length_le hs]
  · have hlen : ∀ u : List UInt8, strcaseEq u t = true → u.length = t.length := by
      intro u hu
      simpa using congrArg List.length (of_decide_eq_true hu)
    have hcut : strcaseEq (s.take n) t = false := by
      apply Bool.eq_false_iff.mpr
      intro hu
      have := hlen _ hu
      rw [List.length_take] at this
      omega
    have hall : strcaseEq s t = false := by
      apply Bool.eq_false_iff.mpr
      intro hu
      have := hlen _ hu
      omega
    rw [hcut, hall]

section Terminated

variable {s : List UInt8} {p : UInt8 → Bool}

theorem takeWhile_string (hp : p 0 = false) (tail : List UInt8) : (s ++ 0 :: tail).takeWhile p = s.takeWhile p := by
  induction s with
  | nil => simp [hp]
  | cons b s ih => simp [List.takeWhile_cons, ih]

theorem dropWhile_string (hp : p 0 = false) (tail : List UInt8) :
    (s ++ 0 :: tail).dropWhile p = s.dropWhile p ++ 0 :: tail := by
  induction s with
  | nil => simp [hp]
  | cons b s ih =>
    by_cases hb : p b = true
    · simp [hb, ih]
    · simp [hb]

theorem strspn_string (tail : List UInt8) : strspn (s ++ 0 :: tail) = strspn s := by
  rw [strspn, takeWhile_string rfl, strspn]

theorem digitsValue_string (tail : List UInt8) : digitsValue (s ++ 0 :: tail) = digitsValue s := by
  rw [digitsValue, takeWhile_string rfl, digitsValue]

theorem atol_string (tail : List UInt8) : atol (s ++ 0 :: tail) = atol s := by
  unfold atol
  rw [dropWhile_string rfl]
  cases s.dropWhile isSpace with
  | nil => simp [digitsValue, isDigit]
  | cons b rest =>
    by_cases hminus : b = 45
    · simp [hminus, digitsValue_string]
    · by_cases hplus : b = 43
      · simp [hplus, digitsValue_string]
      · have hvalue : digitsValue (b :: (rest ++ 0 :: tail)) = digitsValue (b :: rest) :=
          @digitsValue_string (b :: rest) tail
        simp [hminus, hplus, hvalue]

/-- In front of a terminator these functions go by the string. -/
theorem strpbrkIn_string (hs : 0 ∉ s) (tail : List UInt8) : strpbrkIn (s ++ 0 :: tail) = some (strpbrk s) := by
  induction s with
  | nil => rfl
  | cons b s ih =>
    have hrest := ih fun hm => hs (List.mem_cons_of_mem b hm)
    have hne : b ≠ 0 := fun he => hs (he ▸ List.mem_cons_self)
    by_cases hb : isBlank b
    · simp [strpbrkIn, strpbrk, List.findIdx?_cons, hb]
    · simp [strpbrkIn, strpbrk, List.findIdx?_cons, hb, hne, hrest]

theorem strspnIn_string (tail : List UInt8) : strspnIn (s ++ 0 :: tail) = some (strspn s) := by
  have hle : strspn s ≤ s.length := (List.takeWhile_sublist _).length_le
  rw [strspnIn, strspn_string, if_pos (by rw [List.length_append, List.length_cons]; omega)]

theorem strcasecmpEq_string {t : List UInt8} (hs : 0 ∉ s) (ht : 0 ∉ t) (tail : List UInt8) :
    strcasecmpEq (s ++ 0 :: tail) t = some (strcaseEq s t) := by
  rw [strcasecmpEq, strncasecmpEq_string tail _ hs ht, strncaseEq_whole (Nat.lt_succ_self _)]

theorem atolIn_string (tail : List UInt8) : atolIn (s ++ 0 :: tail) = some (atol s) := by
  have hzero : ∀ {digits : List UInt8}, 0 ∈ digits → digits.all isDigit = false := fun hm =>
    List.all_eq_false.mpr ⟨0, hm, by decide⟩
  rw [atolIn, atol_string, dropWhile_string rfl]
  refine if_neg (Bool.eq_false_iff.mp (hzero ?_))
  cases s.dropWhile isSpace with
  | nil => exact List.mem_cons_self
  | cons b rest =>
    have hmem : 0 ∈ rest ++ 0 :: tail := List.mem_append_right rest List.mem_cons_self
    split
    next heq => exact (List.cons.inj heq).2 ▸ hmem
    next heq => exact (List.cons.inj heq).2 ▸ hmem
    next => exact List.mem_cons_of_mem b hmem

end Terminated

namespace Buffer

variable {n i : Nat} {b : Buffer n} {s t : List UInt8}

theorem strpbrkIn_cstr (h : b.cstr i = some s) : strpbrkIn (b.bytes.drop i) = some (strpbrk s) := by
  obtain ⟨tail, he, hz⟩ := cstr_eq_some_iff.mp h
  rw [he, strpbrkIn_string hz]

theorem strspnIn_cstr (h : b.cstr i = some s) : strspnIn (b.bytes.drop i) = some (strspn s) := by
  obtain ⟨tail, he, _⟩ := cstr_eq_some_iff.mp h
  rw [he, strspnIn_string]

theorem strcasecmpEq_cstr (h : b.cstr i = some s) (ht : 0 ∉ t) :
    strcasecmpEq (b.bytes.drop i) t = some (strcaseEq s t) := by
  obtain ⟨tail, he, hz⟩ := cstr_eq_some_iff.mp h
  rw [he, strcasecmpEq_string hz ht]

theorem atolIn_cstr (h : b.cstr i = some s) : atolIn (b.bytes.drop i) = some (atol s) := by
  obtain ⟨tail, he, _⟩ := cstr_eq_some_iff.mp h
  rw [he, atolIn_string]

end Buffer

/-- Decimal text of an int, as %d prints it. -/
def decimal (x : Int) : List UInt8 :=
  if x < 0 then 45 :: bytes (Nat.repr x.natAbs) else bytes (Nat.repr x.toNat)

end CppInAction
