import Mathlib.Data.List.Basic

namespace CppInAction

/-- What a backslash and the byte behind it stand for in a literal; the two wildcards keep
their backslash. -/
def escaped (b : UInt8) : List UInt8 :=
  if b = 48 then [0]
  else if b = 98 then [8]
  else if b = 110 then [10]
  else if b = 114 then [13]
  else if b = 116 then [9]
  else if b = 90 then [26]
  else if b = 37 ∨ b = 95 then [92, b]
  else [b]

/-- A single-quoted literal, read behind its opening quote: its value, and what follows the
closing quote. Two quotes stand for one, and a backslash escapes unless the server is told otherwise. -/
def readLiteral (escapes : Bool) : List UInt8 → Option (List UInt8 × List UInt8)
  | [] => none
  | [b] => if b = 39 then some ([], []) else none
  | b :: c :: rest =>
    if b = 39 then
      if c = 39 then (readLiteral escapes rest).map fun r => (39 :: r.1, r.2) else some ([], c :: rest)
    else if escapes = true ∧ b = 92 then (readLiteral escapes rest).map fun r => (escaped c ++ r.1, r.2)
    else (readLiteral escapes (c :: rest)).map fun r => (b :: r.1, r.2)

/-- The bytes that do not stand for themselves. -/
def isSpecial (escapes : Bool) (b : UInt8) : Prop := b = 39 ∨ escapes = true ∧ b = 92

/-- A text that can stand between quotes as it is. -/
def plainText (escapes : Bool) : List UInt8 → Prop
  | [] => True
  | [b] => ¬ isSpecial escapes b
  | b :: c :: rest =>
    if escapes = true ∧ b = 92 then (c = 37 ∨ c = 95) ∧ plainText escapes rest
    else b ≠ 39 ∧ plainText escapes (c :: rest)

instance (escapes : Bool) (b : UInt8) : Decidable (isSpecial escapes b) := inferInstanceAs (Decidable (_ ∨ _))

instance plainText.decide (escapes : Bool) : (s : List UInt8) → Decidable (plainText escapes s)
  | [] => inferInstanceAs (Decidable True)
  | [b] => inferInstanceAs (Decidable (¬ isSpecial escapes b))
  | b :: c :: rest =>
    have := plainText.decide escapes rest
    have := plainText.decide escapes (c :: rest)
    inferInstanceAs (Decidable (if escapes = true ∧ b = 92 then _ ∧ _ else _ ∧ _))

section Literal

variable {escapes : Bool} {a b c x : UInt8} {s t v w z rest : List UInt8}

/-- The value of an escape begins with a special byte only if that byte is escaped or the
escape is a wildcard. -/
theorem escaped_cases (escapes : Bool) (b : UInt8) :
    (∃ y, escaped b = [y] ∧ (isSpecial escapes y → y = b)) ∨ ((b = 37 ∨ b = 95) ∧ escaped b = [92, b]) := by
  unfold escaped
  by_cases hwild : b = 37 ∨ b = 95
  · right
    refine ⟨hwild, ?_⟩
    rcases hwild with rfl | rfl <;> rfl
  · left
    have hno : ∀ y : UInt8, y ≠ 39 → y ≠ 92 → isSpecial escapes y → y = b := by
      rintro y h39 h92 (rfl | ⟨_, rfl⟩)
      · exact absurd rfl h39
      · exact absurd rfl h92
    split_ifs
    · exact ⟨0, rfl, hno 0 (by decide) (by decide)⟩
    · exact ⟨8, rfl, hno 8 (by decide) (by decide)⟩
    · exact ⟨10, rfl, hno 10 (by decide) (by decide)⟩
    · exact ⟨13, rfl, hno 13 (by decide) (by decide)⟩
    · exact ⟨9, rfl, hno 9 (by decide) (by decide)⟩
    · exact ⟨26, rfl, hno 26 (by decide) (by decide)⟩
    · exact ⟨b, rfl, fun _ => rfl⟩

/-- The first step of a literal. -/
theorem readLiteral_cases (h : readLiteral escapes (b :: c :: t) = some (v, rest)) :
    (b = 39 ∧ c = 39 ∧ ∃ v', v = 39 :: v' ∧ readLiteral escapes t = some (v', rest)) ∨
    (b = 39 ∧ c ≠ 39 ∧ v = [] ∧ rest = c :: t) ∨
    ((escapes = true ∧ b = 92) ∧ ∃ v', v = escaped c ++ v' ∧ readLiteral escapes t = some (v', rest)) ∨
    (¬ isSpecial escapes b ∧ ∃ v', v = b :: v' ∧ readLiteral escapes (c :: t) = some (v', rest)) := by
  rw [readLiteral] at h
  split at h
  next hb =>
    split at h
    next hc =>
      obtain ⟨r, hr, heq⟩ := Option.map_eq_some_iff.mp h
      cases heq
      exact Or.inl ⟨hb, hc, r.1, rfl, hr⟩
    next hc =>
      cases Option.some.inj h
      exact Or.inr (Or.inl ⟨hb, hc, rfl, rfl⟩)
  next hb =>
    split at h
    next hesc =>
      obtain ⟨r, hr, heq⟩ := Option.map_eq_some_iff.mp h
      cases heq
      exact Or.inr (Or.inr (Or.inl ⟨hesc, r.1, rfl, hr⟩))
    next hesc =>
      obtain ⟨r, hr, heq⟩ := Option.map_eq_some_iff.mp h
      cases heq
      exact Or.inr (Or.inr (Or.inr ⟨fun hs => hs.elim hb hesc, r.1, rfl, hr⟩))

/-- A literal that begins with a byte that stands for itself is not empty. -/
theorem readLiteral_ne_nil (hx : ¬ isSpecial escapes x) : readLiteral escapes (x :: z) ≠ some ([], rest) := by
  intro h
  cases z with
  | nil =>
    rw [readLiteral, if_neg fun h39 => hx (Or.inl h39)] at h
    cases h
  | cons c z =>
    rcases readLiteral_cases h with ⟨h39, _⟩ | ⟨h39, _⟩ | ⟨hesc, _⟩ | ⟨_, v', hv, _⟩
    · exact hx (Or.inl h39)
    · exact hx (Or.inl h39)
    · exact hx (Or.inr hesc)
    · cases hv

theorem not_isSpecial_wildcard (h : c = 37 ∨ c = 95) : ¬ isSpecial escapes c := by
  rcases h with rfl | rfl <;> rintro (h | ⟨_, h⟩) <;> cases h

/-- A reader that is ahead of its value by special bytes only, and has to give these next, stays ahead:
so it does not stop at the quote behind the value. -/
theorem readLiteral_ahead (hw : ∀ y ∈ w, isSpecial escapes y) (hne : w ≠ []) (hx : ¬ isSpecial escapes x)
    (heq : w ++ t = v ++ 39 :: x :: z) : readLiteral escapes t ≠ some (v, rest) := by
  induction v generalizing w t with
  | nil =>
    obtain ⟨y, w, rfl⟩ := List.exists_cons_of_ne_nil hne
    cases w with
    | cons y' w =>
      have hy : y' = x := by simpa using (List.cons.inj (List.cons.inj heq).2).1
      exact absurd (hw y' (by simp)) (hy ▸ hx)
    | nil =>
      have ht : t = x :: z := by simpa using (List.cons.inj heq).2
      subst ht
      exact readLiteral_ne_nil hx
  | cons a v ih =>
    intro h
    obtain ⟨y, w, rfl⟩ := List.exists_cons_of_ne_nil hne
    obtain ⟨rfl, htail⟩ := List.cons.inj heq
    have ha : isSpecial escapes y := hw y (by simp)
    have hw' : ∀ y ∈ w, isSpecial escapes y := fun y hy => hw y (by simp [hy])
    cases t with
    | nil => cases h
    | cons b t =>
      cases t with
      | nil =>
        rw [readLiteral] at h
        split at h <;> cases h
      | cons c t =>
        -- the bytes of the step join those the reader is ahead by
        have hstep : isSpecial escapes b → isSpecial escapes c → readLiteral escapes t ≠ some (v, rest) := by
          intro hb hc
          apply ih (w := w ++ [b, c]) _ (by simp) (by simpa using htail)
          intro y hy
          simp only [List.mem_append, List.mem_cons, List.not_mem_nil, or_false] at hy
          rcases hy with hy | rfl | rfl
          · exact hw' y hy
          · exact hb
          · exact hc
        rcases readLiteral_cases h with ⟨rfl, rfl, v', hv, ht⟩ | ⟨_, _, hv, _⟩ | ⟨hesc, v', hv, ht⟩ | ⟨hb, v', hv, _⟩
        · obtain ⟨_, rfl⟩ := List.cons.inj hv
          exact hstep (Or.inl rfl) (Or.inl rfl) ht
        · cases hv
        · rcases escaped_cases escapes c with ⟨y', hone, hy'⟩ | ⟨hwild, htwo⟩
          · rw [hone] at hv
            obtain ⟨rfl, rfl⟩ := List.cons.inj hv
            exact hstep (Or.inr hesc) (hy' ha ▸ ha) ht
          · -- the wildcard is no byte that the reader is ahead by
            rw [htwo] at hv
            obtain ⟨_, hv⟩ := List.cons.inj hv
            subst hv
            apply not_isSpecial_wildcard hwild
            cases w with
            | nil =>
              have hbc : b = c := (List.cons.inj htail).1
              exact hbc ▸ Or.inr hesc
            | cons y' w =>
              have hyc : y' = c := (List.cons.inj htail).1
              exact hyc ▸ hw' y' (by simp)
        · obtain ⟨rfl, _⟩ := List.cons.inj hv
          exact hb ha

theorem readLiteral_close (hx : x ≠ 39) : readLiteral escapes (39 :: x :: z) = some ([], x :: z) := by
  rw [readLiteral, if_pos rfl, if_neg hx]

theorem readLiteral_plain (h : plainText escapes v) (hx : x ≠ 39) :
    readLiteral escapes (v ++ 39 :: x :: z) = some (v, x :: z) := by
  fun_induction plainText escapes v with
  | case1 => exact readLiteral_close hx
  | case2 b =>
    rw [List.singleton_append, readLiteral, if_neg fun hb => h (Or.inl hb), if_neg fun hb => h (Or.inr hb),
      readLiteral_close hx]
    rfl
  | case3 b c rest hesc ih =>
    obtain ⟨hwild, hrest⟩ := h
    have hkeeps : escaped c = [92, c] := by rcases hwild with rfl | rfl <;> rfl
    have h39 : b ≠ 39 := by
      rw [hesc.2]
      decide
    rw [List.cons_append, List.cons_append, readLiteral, if_neg h39, if_pos hesc, ih hrest, hkeeps, hesc.2]
    rfl
  | case4 b c rest hesc ih =>
    rw [List.cons_append, List.cons_append, readLiteral, if_neg h.1, if_neg hesc, ← List.cons_append, ih h.2]
    rfl

/-- A text that is read back as it is is plain. -/
theorem plainText_of_readLiteral (hx : ¬ isSpecial escapes x)
    (h : readLiteral escapes (v ++ 39 :: x :: z) = some (v, rest)) : plainText escapes v ∧ rest = x :: z := by
  have h39 : x ≠ 39 := fun h => hx (Or.inl h)
  fun_induction plainText escapes v with
  | case1 => exact ⟨trivial, (congrArg Prod.snd (Option.some.inj ((readLiteral_close h39).symm.trans h))).symm⟩
  | case2 b =>
    rcases readLiteral_cases h with ⟨rfl, _, v', hv, ht⟩ | ⟨_, _, hv, _⟩ | ⟨hesc, v', hv, _⟩ | ⟨hb, v', hv, ht⟩
    · obtain ⟨_, rfl⟩ := List.cons.inj hv
      exact absurd ht (readLiteral_ahead (w := [39]) (by simp [isSpecial]) (by simp) hx rfl)
    · cases hv
    · have hquote : b = 39 := (List.cons.inj hv).1
      rw [hquote] at hesc
      exact absurd hesc.2 (by decide)
    · obtain ⟨_, rfl⟩ := List.cons.inj hv
      exact ⟨hb, (congrArg Prod.snd (Option.some.inj ((readLiteral_close h39).symm.trans ht))).symm⟩
  | case3 b c v hesc ih =>
    rcases readLiteral_cases h with ⟨hb, _⟩ | ⟨_, _, hv, _⟩ | ⟨_, v', hv, ht⟩ | ⟨hb, _⟩
    · rw [hesc.2] at hb
      exact absurd hb (by decide)
    · cases hv
    · rcases escaped_cases escapes c with ⟨y, hone, hy⟩ | ⟨hwild, htwo⟩
      · rw [hone] at hv
        obtain ⟨rfl, rfl⟩ := List.cons.inj hv
        have hspecial : isSpecial escapes b := Or.inr hesc
        have hc : isSpecial escapes c := hy hspecial ▸ hspecial
        exact absurd ht (readLiteral_ahead (w := [c]) (by simpa using hc) (by simp) hx rfl)
      · rw [htwo] at hv
        obtain ⟨_, hv⟩ := List.cons.inj hv
        obtain ⟨_, rfl⟩ := List.cons.inj hv
        obtain ⟨hplain, hrest⟩ := ih ht
        exact ⟨⟨hwild, hplain⟩, hrest⟩
    · exact absurd (Or.inr hesc) hb
  | case4 b c v hesc ih =>
    rcases readLiteral_cases h with ⟨_, hc, v', hv, ht⟩ | ⟨_, _, hv, _⟩ | ⟨hesc', _⟩ | ⟨hb, v', hv, ht⟩
    · obtain ⟨_, rfl⟩ := List.cons.inj hv
      exact absurd ht (readLiteral_ahead (w := [c]) (by simp [isSpecial, hc]) (by simp) hx rfl)
    · cases hv
    · exact absurd hesc' hesc
    · obtain ⟨_, rfl⟩ := List.cons.inj hv
      obtain ⟨hplain, hrest⟩ := ih ht
      exact ⟨⟨fun h39 => hb (Or.inl h39), hplain⟩, hrest⟩

/-- A text between quotes is read back as it is if and only if it is plain. -/
theorem readLiteral_eq_iff (hx : ¬ isSpecial escapes x) :
    readLiteral escapes (v ++ 39 :: x :: z) = some (v, rest) ↔ plainText escapes v ∧ rest = x :: z := by
  constructor
  · exact plainText_of_readLiteral hx
  · rintro ⟨hplain, rfl⟩
    exact readLiteral_plain hplain fun h => hx (Or.inl h)

end Literal

end CppInAction
