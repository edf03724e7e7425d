import CppInAction.CMemory

namespace CppInAction

/-- The decimal digits of a number. -/
def digits (x : Nat) : List UInt8 := bytes x.repr

/-- The digits with zeros in front, as %02d and the like print them. -/
def padded (width x : Nat) : List UInt8 := List.replicate (width - (digits x).length) 48 ++ digits x

theorem digits_eq (x : Nat) : digits x = (Nat.toDigits 10 x).map fun ch => UInt8.ofNat ch.toNat := by
  rw [digits, bytes, Nat.toList_repr]

theorem decimal_ofNat (x : Nat) : decimal x = digits x := by
  unfold decimal
  rw [if_neg (by omega), Int.toNat_natCast]
  rfl

theorem digits_length_le {x k : Nat} (hk : 0 < k) (h : x < 10 ^ k) : (digits x).length ≤ k := by
  rw [digits_eq, List.length_map]
  exact (Nat.length_toDigits_le_iff (by decide) hk).mpr h

theorem padded_length {width x : Nat} (hw : 0 < width) (h : x < 10 ^ width) : (padded width x).length = width := by
  have hlen := digits_length_le hw h
  rw [padded, List.length_append, List.length_replicate]
  omega

theorem isDigit_of_char {ch : Char} (h : ch.isDigit = true) :
    (UInt8.ofNat ch.toNat).toNat = ch.toNat ∧ isDigit (UInt8.ofNat ch.toNat) = true := by
  obtain ⟨hlow, hhigh⟩ := Char.isDigit_iff_toNat.mp h
  have h9 : '9'.toNat = 57 := rfl
  have hsize : UInt8.size = 256 := rfl
  have hval : (UInt8.ofNat ch.toNat).toNat = ch.toNat := UInt8.toNat_ofNat_of_lt' (by omega)
  refine ⟨hval, ?_⟩
  simp only [isDigit, Bool.and_eq_true, decide_eq_true_eq, UInt8.le_iff_toNat_le, hval]
  exact ⟨hlow, hhigh⟩

theorem isDigit_digits (x : Nat) : ∀ b ∈ digits x, isDigit b = true := by
  intro b hb
  rw [digits_eq] at hb
  obtain ⟨ch, hch, rfl⟩ := List.mem_map.mp hb
  exact (isDigit_of_char (Nat.isDigit_of_mem_toDigits (by decide) (by decide) hch)).2

theorem isDigit_padded (width x : Nat) : ∀ b ∈ padded width x, isDigit b = true := by
  intro b hb
  rcases List.mem_append.mp hb with hb | hb
  · rw [List.eq_of_mem_replicate hb]
    rfl
  · exact isDigit_digits x b hb

/-- The number that a text of digits stands for. -/
def digitsNumber (s : List UInt8) : Nat := s.foldl (fun acc d => acc * 10 + (d.toNat - 48)) 0

theorem foldl_digits {chars : List Char} (h : ∀ ch ∈ chars, ch.isDigit = true) (acc : Nat) :
    (chars.map fun ch => UInt8.ofNat ch.toNat).foldl (fun acc d => acc * 10 + (d.toNat - 48)) acc =
      Nat.ofDigitChars 10 chars acc := by
  induction chars generalizing acc with
  | nil => rw [Nat.ofDigitChars_nil]; rfl
  | cons ch chars ih =>
    have h0 : '0'.toNat = 48 := rfl
    rw [List.map_cons, List.foldl_cons, ih fun x hx => h x (List.mem_cons_of_mem _ hx), Nat.ofDigitChars_cons,
      (isDigit_of_char (h ch List.mem_cons_self)).1, Nat.mul_comm acc, h0]

theorem digitsNumber_padded (width x : Nat) : digitsNumber (padded width x) = x := by
  have hzeros : ∀ k : Nat, (List.replicate k (48 : UInt8)).foldl (fun acc d => acc * 10 + (d.toNat - 48)) 0 = 0 := by
    intro k
    induction k with
    | zero => rfl
    | succ k ih => exact ih
  rw [digitsNumber, padded, List.foldl_append, hzeros, digits_eq,
    foldl_digits fun ch hch => Nat.isDigit_of_mem_toDigits (by decide) (by decide) hch]
  exact Nat.ofDigitChars_toDigits (by decide) (by decide)

theorem padded_injective {width x y : Nat} (h : padded width x = padded width y) : x = y := by
  have hnumber := congrArg digitsNumber h
  rwa [digitsNumber_padded, digitsNumber_padded] at hnumber

theorem digits_injective {x y : Nat} (h : digits x = digits y) : x = y := by
  apply @padded_injective 0 x y
  simpa [padded] using h

/-- Two texts of digits up to the same other byte are the same. -/
theorem digits_append_inj {xs ys as bs : List UInt8} {b : UInt8} (hx : ∀ x ∈ xs, isDigit x = true)
    (hy : ∀ y ∈ ys, isDigit y = true) (hb : isDigit b = false) (h : xs ++ b :: as = ys ++ b :: bs) :
    xs = ys ∧ as = bs := by
  have hxs : (xs ++ b :: as).takeWhile isDigit = xs := by
    rw [List.takeWhile_append_of_pos hx, List.takeWhile_cons_of_neg (by rw [hb]; exact Bool.false_ne_true), List.append_nil]
  have hys : (ys ++ b :: bs).takeWhile isDigit = ys := by
    rw [List.takeWhile_append_of_pos hy, List.takeWhile_cons_of_neg (by rw [hb]; exact Bool.false_ne_true), List.append_nil]
  have heq : xs = ys := by rw [← hxs, h, hys]
  subst heq
  exact ⟨rfl, (List.cons.inj (List.append_cancel_left h)).2⟩

end CppInAction
