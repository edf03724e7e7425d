import Mathlib.Data.List.Basic

namespace CppInAction

namespace MyStl

/-- input_iterator_tag, and the other tags. -/
inductive IteratorTag where
  | input
  | output
  | forward
  | bidirectional
  | randomAccess
deriving DecidableEq, Repr

/-- A tag and the tags it is derived from, the nearest first; the bidirectional tag is not derived from the
forward tag. -/
def IteratorTag.bases : IteratorTag → List IteratorTag
  | .input => [.input]
  | .output => [.output]
  | .forward => [.forward, .input]
  | .bidirectional => [.bidirectional, .input]
  | .randomAccess => [.randomAccess, .bidirectional, .input]

/-- The overload that an argument of this tag selects; none is a call that does not compile. -/
def IteratorTag.overload (tag : IteratorTag) (overloads : List IteratorTag) : Option IteratorTag :=
  tag.bases.find? (· ∈ overloads)

def distanceOverloads : List IteratorTag := [.input, .randomAccess]

def advanceOverloads : List IteratorTag := [.input, .bidirectional, .randomAccess]

/-- The operators ++, --, - and += of an iterator type, where they are defined. -/
structure Operators (It : Type) where
  inc : It → Option It
  dec : It → Option It
  minus : It → It → Option Int
  plus : It → Int → Option It

section Loops

variable {It : Type}

/-- while (first != last) { ++first; ++n; }, and none while the fuel is used up. -/
def Operators.distanceLoop [DecidableEq It] (op : Operators It) (last : It) : Nat → It → Int → Option Int
  | 0, _, _ => none
  | fuel + 1, first, n =>
    if first ≠ last then do
      let first ← op.inc first
      op.distanceLoop last fuel first (n + 1)
    else some n

/-- while (n--) ++i; the last test takes n to -1, where nothing reads it. -/
def Operators.incLoop (op : Operators It) : Nat → It → Int → Option It
  | 0, _, _ => none
  | fuel + 1, i, n =>
    if n ≠ 0 then do
      let i ← op.inc i
      op.incLoop fuel i (n - 1)
    else some i

/-- while (n++) --i. -/
def Operators.decLoop (op : Operators It) : Nat → It → Int → Option It
  | 0, _, _ => none
  | fuel + 1, i, n =>
    if n ≠ 0 then do
      let i ← op.dec i
      op.decLoop fuel i (n + 1)
    else some i

/-- The overloads of distance_dispatch. -/
def Operators.distanceDispatch [DecidableEq It] (op : Operators It) (fuel : Nat) (first last : It) :
    IteratorTag → Option Int
  | .input => op.distanceLoop last fuel first 0
  | .randomAccess => op.minus last first
  | _ => none

/-- The overloads of advance_dispatch. -/
def Operators.advanceDispatch (op : Operators It) (fuel : Nat) (i : It) (n : Int) : IteratorTag → Option It
  | .input => op.incLoop fuel i n
  | .bidirectional => if 0 ≤ n then op.incLoop fuel i n else op.decLoop fuel i n
  | .randomAccess => op.plus i n
  | _ => none

def Operators.distance [DecidableEq It] (op : Operators It) (tag : IteratorTag) (fuel : Nat) (first last : It) :
    Option Int := do
  let overload ← tag.overload distanceOverloads
  op.distanceDispatch fuel first last overload

/-- The iterator that advance leaves in i. -/
def Operators.advance (op : Operators It) (tag : IteratorTag) (fuel : Nat) (i : It) (n : Int) : Option It := do
  let overload ← tag.overload advanceOverloads
  op.advanceDispatch fuel i n overload

end Loops

/-- The iterators at the positions of a sequence, the last of them behind its end, with what the operators of
the category do there. -/
structure Sequence (It : Type) (tag : IteratorTag) extends Operators It where
  len : Nat
  pos : Nat → It
  pos_inj : ∀ i ≤ len, ∀ j ≤ len, pos i = pos j → i = j
  inc_pos : ∀ i < len, inc (pos i) = some (pos (i + 1))
  dec_pos : .bidirectional ∈ tag.bases → ∀ i < len, dec (pos (i + 1)) = some (pos i)
  minus_pos : .randomAccess ∈ tag.bases → ∀ i ≤ len, ∀ j ≤ len, minus (pos j) (pos i) = some ((j : Int) - i)
  plus_pos : .randomAccess ∈ tag.bases → ∀ i ≤ len, ∀ n : Int, 0 ≤ i + n → i + n ≤ len →
    plus (pos i) n = some (pos (i + n).toNat)

/-- With enough fuel the run ends with this value. -/
def EndsWith {β : Type} (run : Nat → Option β) (b : β) : Prop := ∃ k, ∀ fuel, k < fuel → run fuel = some b

variable {It : Type} {tag overload : IteratorTag} {overloads : List IteratorTag} {i j k fuel : Nat}

/-- Every overload that a category can be given to counts the same distance, and goes to the same place; and
advance goes as far as distance counts. -/
structure Sequence.Agrees [DecidableEq It] (s : Sequence It tag) : Prop where
  distance : ∀ overload ∈ tag.bases, overload ∈ distanceOverloads → ∀ i ≤ s.len, ∀ j ≤ s.len,
    (overload = .randomAccess ∨ i ≤ j) →
    EndsWith (fun fuel => s.distanceDispatch fuel (s.pos i) (s.pos j) overload) ((j : Int) - i)
  advance : ∀ overload ∈ tag.bases, overload ∈ advanceOverloads → ∀ i ≤ s.len, ∀ n : Int,
    0 ≤ i + n → i + n ≤ s.len → (overload = .input → 0 ≤ n) →
    EndsWith (fun fuel => s.advanceDispatch fuel (s.pos i) n overload) (s.pos (i + n).toNat)
  reaches : .input ∈ tag.bases → ∀ i ≤ s.len, ∀ j ≤ s.len, (tag = .randomAccess ∨ i ≤ j) →
    EndsWith (fun fuel => (s.distance tag fuel (s.pos i) (s.pos j)).bind (s.advance tag fuel (s.pos i))) (s.pos j)

theorem EndsWith.const {β : Type} {run : Nat → Option β} {b : β} (h : ∀ fuel, run fuel = some b) :
    EndsWith run b :=
  ⟨0, fun fuel _ => h fuel⟩

theorem EndsWith.bind {α β : Type} {run : Nat → Option α} {next : Nat → α → Option β} {a : α} {b : β}
    (h : EndsWith run a) (h' : EndsWith (fun fuel => next fuel a) b) :
    EndsWith (fun fuel => (run fuel).bind (next fuel)) b := by
  obtain ⟨k, h⟩ := h
  obtain ⟨k', h'⟩ := h'
  refine ⟨max k k', fun fuel hfuel => ?_⟩
  have hrun := h fuel (by omega)
  have hnext := h' fuel (by omega)
  simp only [hrun, Option.bind_some, hnext]

theorem Sequence.distanceLoop_eq [DecidableEq It] (s : Sequence It tag) (h : i + k ≤ s.len) (hfuel : k < fuel)
    (n : Int) :
    s.distanceLoop (s.pos (i + k)) fuel (s.pos i) n = some (n + k) := by
  induction k generalizing i n fuel with
  | zero =>
    obtain ⟨fuel, rfl⟩ : ∃ f, fuel = f + 1 := ⟨fuel - 1, by omega⟩
    rw [Operators.distanceLoop, if_neg (by simp), Int.natCast_zero, Int.add_zero]
  | succ k ih =>
    obtain ⟨fuel, rfl⟩ : ∃ f, fuel = f + 1 := ⟨fuel - 1, by omega⟩
    have hne : s.pos i ≠ s.pos (i + (k + 1)) := by
      intro heq
      have := s.pos_inj i (by omega) _ h heq
      omega
    have hlast : i + (k + 1) = i + 1 + k := by omega
    have hcount : n + (k + 1 : Nat) = n + 1 + k := by omega
    rw [Operators.distanceLoop, if_pos hne, s.inc_pos i (by omega), hlast, hcount]
    exact ih (by omega) (by omega) (n + 1)

theorem Sequence.incLoop_eq (s : Sequence It tag) (h : i + k ≤ s.len) (hfuel : k < fuel) :
    s.incLoop fuel (s.pos i) k = some (s.pos (i + k)) := by
  induction k generalizing i fuel with
  | zero =>
    obtain ⟨fuel, rfl⟩ : ∃ f, fuel = f + 1 := ⟨fuel - 1, by omega⟩
    rw [Operators.incLoop, if_neg (by simp)]
    rfl
  | succ k ih =>
    obtain ⟨fuel, rfl⟩ : ∃ f, fuel = f + 1 := ⟨fuel - 1, by omega⟩
    have hcount : ((k + 1 : Nat) : Int) - 1 = k := by omega
    have hlast : i + (k + 1) = i + 1 + k := by omega
    rw [Operators.incLoop, if_pos (by omega), s.inc_pos i (by omega), hcount, hlast]
    exact ih (by omega) (by omega)

theorem Sequence.decLoop_eq (s : Sequence It tag) (htag : .bidirectional ∈ tag.bases) (h : i + k ≤ s.len)
    (hfuel : k < fuel) : s.decLoop fuel (s.pos (i + k)) (-k) = some (s.pos i) := by
  induction k generalizing fuel with
  | zero =>
    obtain ⟨fuel, rfl⟩ : ∃ f, fuel = f + 1 := ⟨fuel - 1, by omega⟩
    rw [Operators.decLoop, if_neg (by simp)]
    rfl
  | succ k ih =>
    obtain ⟨fuel, rfl⟩ : ∃ f, fuel = f + 1 := ⟨fuel - 1, by omega⟩
    have hcount : -((k + 1 : Nat) : Int) + 1 = -k := by omega
    rw [Operators.decLoop, if_pos (by omega), ← Nat.add_assoc, s.dec_pos htag (i + k) (by omega), hcount]
    exact ih (by omega) (by omega)

theorem overload_mem (h : tag.overload overloads = some overload) : overload ∈ tag.bases ∧ overload ∈ overloads :=
  ⟨List.mem_of_find?_eq_some h, by simpa using List.find?_some h⟩

theorem exists_overload (htag : .input ∈ tag.bases) (hinput : .input ∈ overloads) :
    ∃ overload, tag.overload overloads = some overload := by
  rw [← Option.isSome_iff_exists, IteratorTag.overload, List.find?_isSome]
  exact ⟨.input, htag, by simpa using hinput⟩

theorem Sequence.distanceDispatch_ends [DecidableEq It] (s : Sequence It tag) (hbase : overload ∈ tag.bases)
    (hoverload : overload ∈ distanceOverloads) (hi : i ≤ s.len) (hj : j ≤ s.len)
    (horder : overload = .randomAccess ∨ i ≤ j) :
    EndsWith (fun fuel => s.distanceDispatch fuel (s.pos i) (s.pos j) overload) ((j : Int) - i) := by
  rcases List.mem_pair.mp hoverload with rfl | rfl
  · have hij := horder.resolve_left (by decide)
    obtain ⟨k, rfl⟩ := Nat.exists_eq_add_of_le hij
    refine ⟨k, fun fuel hfuel => ?_⟩
    have hcount : ((i + k : Nat) : Int) - i = 0 + k := by omega
    rw [hcount]
    exact s.distanceLoop_eq hj hfuel 0
  · exact EndsWith.const fun _ => s.minus_pos hbase i hi j hj

theorem Sequence.advanceDispatch_ends (s : Sequence It tag) (hbase : overload ∈ tag.bases)
    (hoverload : overload ∈ advanceOverloads) (hi : i ≤ s.len) {n : Int} (hlow : 0 ≤ i + n) (hhigh : i + n ≤ s.len)
    (hsign : overload = .input → 0 ≤ n) :
    EndsWith (fun fuel => s.advanceDispatch fuel (s.pos i) n overload) (s.pos (i + n).toNat) := by
  have hforward : 0 ≤ n → EndsWith (fun fuel => s.incLoop fuel (s.pos i) n) (s.pos (i + n).toNat) := by
    intro hn
    obtain ⟨k, rfl⟩ := Int.eq_ofNat_of_zero_le hn
    exact ⟨k, fun fuel hfuel => s.incLoop_eq (by omega) hfuel⟩
  simp only [advanceOverloads, List.mem_cons, List.not_mem_nil, or_false] at hoverload
  rcases hoverload with rfl | rfl | rfl
  · exact hforward (hsign rfl)
  · by_cases hn : 0 ≤ n
    · simpa only [Operators.advanceDispatch, if_pos hn] using hforward hn
    · obtain ⟨k, hk⟩ := Int.eq_ofNat_of_zero_le hlow
      obtain ⟨m, rfl⟩ : ∃ m : Nat, n = -m := ⟨(-n).toNat, by omega⟩
      obtain rfl : i = k + m := by omega
      rw [hk]
      simp only [Operators.advanceDispatch, if_neg hn]
      exact ⟨m, fun fuel hfuel => s.decLoop_eq hbase hi hfuel⟩
  · exact EndsWith.const fun _ => s.plus_pos hbase i hi n hlow hhigh

theorem Sequence.distance_ends [DecidableEq It] (s : Sequence It tag) (htag : .input ∈ tag.bases) (hi : i ≤ s.len)
    (hj : j ≤ s.len) (horder : tag = .randomAccess ∨ i ≤ j) :
    EndsWith (fun fuel => s.distance tag fuel (s.pos i) (s.pos j)) ((j : Int) - i) := by
  obtain ⟨overload, hfound⟩ : ∃ o, tag.overload distanceOverloads = some o := exists_overload htag (by decide)
  obtain ⟨hbase, hoverload⟩ := overload_mem hfound
  have hcount : overload = .randomAccess ∨ i ≤ j := by
    refine horder.imp_left ?_
    rintro rfl
    exact (Option.some.inj hfound).symm
  have hends := s.distanceDispatch_ends hbase hoverload hi hj hcount
  simpa only [Operators.distance, hfound, Option.bind_eq_bind, Option.bind_some] using hends

theorem Sequence.advance_ends (s : Sequence It tag) (htag : .input ∈ tag.bases) (hi : i ≤ s.len) {n : Int}
    (hlow : 0 ≤ i + n) (hhigh : i + n ≤ s.len) (hsign : .bidirectional ∈ tag.bases ∨ 0 ≤ n) :
    EndsWith (fun fuel => s.advance tag fuel (s.pos i) n) (s.pos (i + n).toNat) := by
  obtain ⟨overload, hfound⟩ : ∃ o, tag.overload advanceOverloads = some o := exists_overload htag (by decide)
  obtain ⟨hbase, hoverload⟩ := overload_mem hfound
  have hmoves : overload = .input → 0 ≤ n := by
    rintro rfl
    refine hsign.resolve_left fun hback => ?_
    -- a tag that is a bidirectional one selects another overload
    cases tag with
    | bidirectional | randomAccess => cases hfound
    | input | output | forward => simp [IteratorTag.bases] at hback
  have hends := s.advanceDispatch_ends hbase hoverload hi hlow hhigh hmoves
  simpa only [Operators.advance, hfound, Option.bind_eq_bind, Option.bind_some] using hends

/-- The overloads of distance and of advance agree on every sequence of every category. -/
theorem dispatch_agrees [DecidableEq It] (s : Sequence It tag) : s.Agrees where
  distance := fun _ hbase hoverload _ hi _ hj horder => s.distanceDispatch_ends hbase hoverload hi hj horder
  advance := fun _ hbase hoverload _ hi _ hlow hhigh hsign =>
    s.advanceDispatch_ends hbase hoverload hi hlow hhigh hsign
  reaches := by
    intro htag i hi j hj horder
    have hsign : .bidirectional ∈ tag.bases ∨ 0 ≤ (j : Int) - i := by
      rcases horder with rfl | hij
      · exact Or.inl (by decide)
      · exact Or.inr (by omega)
    have hplace : ((i : Int) + (j - i)).toNat = j := by omega
    have hadvance := s.advance_ends htag hi (by omega) (by omega) hsign
    rw [hplace] at hadvance
    exact (s.distance_ends htag hi hj horder).bind hadvance

/-- The pointers into an array of len objects, as offsets; arithmetic that leaves the array is undefined. -/
def pointers (len : Nat) : Sequence Nat .randomAccess where
  inc := fun p => if p < len then some (p + 1) else none
  dec := fun p => if 0 < p ∧ p ≤ len then some (p - 1) else none
  minus := fun p q => if p ≤ len ∧ q ≤ len then some ((p : Int) - q) else none
  plus := fun p n => if 0 ≤ p + n ∧ p + n ≤ len then some (p + n).toNat else none
  len := len
  pos := id
  pos_inj := fun _ _ _ _ h => h
  inc_pos := fun _ hi => if_pos hi
  dec_pos := fun _ i hi => if_pos (by simp only [id]; omega)
  minus_pos := fun _ i hi j hj => if_pos ⟨hj, hi⟩
  plus_pos := fun _ _ _ _ hlow hhigh => if_pos ⟨hlow, hhigh⟩

example : (pointers 4).advanceDispatch 3 3 (-2) .bidirectional = some 1 := by decide

end MyStl

end CppInAction
