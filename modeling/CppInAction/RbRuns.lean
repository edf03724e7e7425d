import CppInAction.RbRemove

namespace CppInAction

open BinaryTree RbTree

/-- A call of one of the operations of the header on a tree. -/
inductive TreeCall
  | insert (x : Nat)
  | remove (x : Nat)
  | find (x : Nat)
  | nfind (x : Nat)
  | next (x : Nat)
  | prev (x : Nat)
  | min
  | max
deriving DecidableEq, Repr

namespace RbHead

def call (cmp : Nat → Nat → Int) (fuel : Nat) (h : RbHead) : TreeCall → Option (RbHead × Option Nat)
  | .insert x => h.insert cmp fuel x
  | .remove x => h.remove fuel x
  | .find x => (h.find cmp fuel x).map (h, ·)
  | .nfind x => (h.nfind cmp fuel x).map (h, ·)
  | .next x => (h.next fuel x).map (h, ·)
  | .prev x => (h.prev fuel x).map (h, ·)
  | .min => (h.rbMin fuel).map (h, ·)
  | .max => (h.rbMax fuel).map (h, ·)

def run (cmp : Nat → Nat → Int) (fuel : Nat) : RbHead → List TreeCall → Option (RbHead × List (Option Nat))
  | h, [] => some (h, [])
  | h, c :: calls => do
    let (h, r) ← h.call cmp fuel c
    let (h, rs) ← run cmp fuel h calls
    some (h, r :: rs)

end RbHead

namespace TreeCall

variable {cmp : Nat → Nat → Int}

/-- What a call does to the set, and what it returns. -/
def effect (hc : CmpOrder cmp) (S : SortedSet cmp) : TreeCall → SortedSet cmp × Option Nat
  | .insert x => (S.insert hc x, S.find x)
  | .remove x => (S.erase x, some x)
  | .find x => (S, S.find x)
  | .nfind x => (S, S.nfind x)
  | .next x => (S, S.next x)
  | .prev x => (S, S.prev x)
  | .min => (S, S.elems.head?)
  | .max => (S, S.elems.getLast?)

def effects (hc : CmpOrder cmp) : SortedSet cmp → List TreeCall → SortedSet cmp × List (Option Nat)
  | S, [] => (S, [])
  | S, c :: calls => ((effects hc (c.effect hc S).1 calls).1, (c.effect hc S).2 :: (effects hc (c.effect hc S).1 calls).2)

/-- A call for an element of the tree is made for one that is in it. -/
def Allowed (S : SortedSet cmp) : TreeCall → Prop
  | .remove x | .next x | .prev x => x ∈ S.elems
  | _ => True

def AllAllowed (hc : CmpOrder cmp) : SortedSet cmp → List TreeCall → Prop
  | _, [] => True
  | S, c :: calls => c.Allowed S ∧ AllAllowed hc (c.effect hc S).1 calls

instance (S : SortedSet cmp) (c : TreeCall) : Decidable (c.Allowed S) :=
  match c with
  | .remove x | .next x | .prev x => inferInstanceAs (Decidable (x ∈ S.elems))
  | .insert _ | .find _ | .nfind _ | .min | .max => .isTrue trivial

instance decidableAllAllowed (hc : CmpOrder cmp) :
    (S : SortedSet cmp) → (calls : List TreeCall) → Decidable (AllAllowed hc S calls)
  | _, [] => .isTrue trivial
  | S, c :: calls =>
    have := decidableAllAllowed hc (c.effect hc S).1 calls
    inferInstanceAs (Decidable (_ ∧ _))

theorem length_effect_le (hc : CmpOrder cmp) (S : SortedSet cmp) (c : TreeCall) :
    (c.effect hc S).1.elems.length ≤ S.elems.length + 1 := by
  cases c with
  | insert x => exact S.length_insert_le hc x
  | remove x => exact le_trans List.length_erase_le (Nat.le_succ _)
  | _ => exact Nat.le_succ _

theorem mem_effect {hc : CmpOrder cmp} {S : SortedSet cmp} {c : TreeCall} {y : Nat}
    (hy : y ∈ (c.effect hc S).1.elems) : y ∈ S.elems ∨ c = .insert y := by
  cases c with
  | insert x =>
    cases hx : S.find x with
    | none =>
      rw [effect, SortedSet.insert_of_none hc hx, List.mem_orderedInsert] at hy
      rcases hy with rfl | hy
      · exact Or.inr rfl
      · exact Or.inl hy
    | some z =>
      rw [effect, SortedSet.insert_of_some hc hx] at hy
      exact Or.inl hy
  | remove x => exact Or.inl (List.mem_of_mem_erase hy)
  | _ => exact Or.inl hy

end TreeCall

namespace RbHead

variable {h : RbHead} {t : BinaryTree (Nat × RbColor)} {cmp : Nat → Nat → Int} {S : SortedSet cmp} {L : List Nat}
  {x fuel : Nat} {s : Side}

/-- The head has a red-black tree of these elements, in this order. -/
def Represents (h : RbHead) (L : List Nat) : Prop := ∃ t, Holds h t ∧ RedBlack t ∧ addrs t = L

theorem Represents.nodup (hr : h.Represents L) : L.Nodup := by
  obtain ⟨t, ht, _, rfl⟩ := hr
  exact ht.nodup

theorem numNodes_of_addrs (haddrs : addrs t = L) : t.numNodes = L.length := by
  rw [← haddrs, addrs, List.length_map, length_inorder]

theorem Represents.exists_tree (hr : h.Represents L) :
    ∃ t, Holds h t ∧ RedBlack t ∧ addrs t = L ∧ t.height ≤ 2 * Nat.log 2 (L.length + 1) := by
  obtain ⟨t, ht, hrb, haddrs⟩ := hr
  refine ⟨t, ht, hrb, haddrs, ?_⟩
  rw [← numNodes_of_addrs haddrs]
  exact hrb.height_le

theorem represents_init (h : RbHead) : h.init.Represents [] :=
  ⟨nil, ⟨rfl, trivial, List.nodup_nil⟩, ⟨rfl, 0, rfl⟩, rfl⟩

theorem Represents.entry (hr : h.Represents L) (hx : x ∈ L) : h.entries x ≠ none := by
  obtain ⟨t, ht, _, rfl⟩ := hr
  obtain ⟨b, hb, rfl⟩ := List.mem_map.mp hx
  obtain ⟨p, l, r, rfl⟩ := exists_plug hb
  obtain ⟨_, ⟨hentry, _⟩, _⟩ := holds_plug.mp ht
  simp [hentry]

theorem remove_represents (hr : h.Represents L) (hx : x ∈ L) (hfuel : 2 * Nat.log 2 (L.length + 1) ≤ fuel) :
    ∃ h', h.remove fuel x = some (h', some x) ∧ h'.Represents (L.erase x) ∧
      (∀ y, h.entries y ≠ none → h'.entries y ≠ none) ∧ ∀ y ∉ L, h'.entries y = h.entries y := by
  obtain ⟨t, ht, hrb, rfl, hheight⟩ := hr.exists_tree
  obtain ⟨h', t', hset, ht', hrb', haddrs', hkept, hsame⟩ := remove_holds ht hrb hx (show t.height ≤ fuel by omega)
  have hr' : h'.Represents ((addrs t).erase x) := ⟨t', ht', hrb', haddrs'⟩
  refine ⟨h', hset, hr', ?_, hsame⟩
  intro y hy
  by_cases hyx : y = x
  · rwa [hyx]
  · by_cases hmem : y ∈ addrs t
    · exact hr'.entry ((List.mem_erase_of_ne hyx).mpr hmem)
    · rwa [hsame y hmem]

/-- A call on the tree does what it does on the set, in a number of turns that is
logarithmic in the number of elements; the entries of other elements stay. -/
theorem call_represents (hc : CmpOrder cmp) (hr : h.Represents S.elems) {c : TreeCall} (hallow : c.Allowed S)
    (hentry : ∀ x, c = .insert x → h.entries x ≠ none) (hfuel : 2 * Nat.log 2 (S.elems.length + 1) < fuel) :
    ∃ h', h.call cmp fuel c = some (h', (c.effect hc S).2) ∧ h'.Represents (c.effect hc S).1.elems ∧
      (∀ y, h.entries y ≠ none → h'.entries y ≠ none) ∧
      ∀ y ∉ S.elems, c ≠ .insert y → h'.entries y = h.entries y := by
  obtain ⟨t, ht, hrb, haddrs, hheight⟩ := hr.exists_tree
  have hle : t.height ≤ fuel := by omega
  have hprobe : ∀ x, Probes (cmp x) (addrs t) := fun x => haddrs ▸ Probes.of_sorted hc S.sorted x
  have hstay : (∀ y, h.entries y ≠ none → h.entries y ≠ none) ∧
      ∀ y ∉ S.elems, c ≠ .insert y → h.entries y = h.entries y := ⟨fun _ hy => hy, fun _ _ _ => rfl⟩
  cases c with
  | insert x =>
    cases hx : S.find x with
    | some y =>
      have hset := insert_found (y := y) ht (hprobe x) (haddrs ▸ hx) hle
      refine ⟨h, ?_, ?_, hstay⟩
      · rw [call, hset, TreeCall.effect, hx]
      · rwa [TreeCall.effect, SortedSet.insert_of_some hc hx]
    | none =>
      obtain ⟨h', t', hset, ht', hrb', haddrs', hsame⟩ :=
        insert_new hc ht hrb (hprobe x) (haddrs ▸ hx) (hentry x rfl) (show t.height < fuel by omega)
      rw [haddrs] at haddrs' hsame
      have hr' : h'.Represents (S.elems.orderedInsert (cmp · · ≤ 0) x) := ⟨t', ht', hrb', haddrs'⟩
      refine ⟨h', by rw [call, hset, TreeCall.effect, hx], ?_, ?_, ?_⟩
      · rwa [TreeCall.effect, SortedSet.insert_of_none hc hx]
      · intro y hy
        by_cases hmem : y ∈ S.elems.orderedInsert (cmp · · ≤ 0) x
        · exact hr'.entry hmem
        · rw [List.mem_orderedInsert, not_or] at hmem
          rwa [hsame y hmem.2 hmem.1]
      · intro y hy hne
        exact hsame y hy fun heq => hne (by rw [heq])
  | remove x =>
    obtain ⟨h', hset, hr', hkept, hsame⟩ := remove_represents hr hallow hfuel.le
    exact ⟨h', hset, hr', hkept, fun y hy _ => hsame y hy⟩
  | find x =>
    refine ⟨h, ?_, hr, hstay⟩
    rw [call, find_holds ht (hprobe x) hle, haddrs]
    rfl
  | nfind x =>
    refine ⟨h, ?_, hr, hstay⟩
    rw [call, nfind_holds ht (hprobe x) hle, haddrs]
    rfl
  | next x =>
    obtain ⟨A, B, hsplit⟩ := List.append_of_mem hallow
    refine ⟨h, ?_, hr, hstay⟩
    rw [call, (next_prev_holds ht (haddrs.trans hsplit) hle).1, TreeCall.effect,
      (SortedSet.next_prev_of_split hc hsplit).1]
    rfl
  | prev x =>
    obtain ⟨A, B, hsplit⟩ := List.append_of_mem hallow
    refine ⟨h, ?_, hr, hstay⟩
    rw [call, (next_prev_holds ht (haddrs.trans hsplit) hle).2, TreeCall.effect,
      (SortedSet.next_prev_of_split hc hsplit).2]
    rfl
  | min =>
    refine ⟨h, ?_, hr, hstay⟩
    rw [call, rbMin_holds ht hle, haddrs]
    rfl
  | max =>
    refine ⟨h, ?_, hr, hstay⟩
    rw [call, rbMax_holds ht hle, haddrs]
    rfl

/-- A run on the tree does what it does on the set. -/
theorem run_represents (hc : CmpOrder cmp) {calls : List TreeCall} (hr : h.Represents S.elems)
    (hallow : TreeCall.AllAllowed hc S calls) (hentry : ∀ x, .insert x ∈ calls → h.entries x ≠ none)
    (hfuel : 2 * Nat.log 2 (S.elems.length + calls.length + 1) < fuel) :
    ∃ h', h.run cmp fuel calls = some (h', (TreeCall.effects hc S calls).2) ∧
      h'.Represents (TreeCall.effects hc S calls).1.elems ∧
      ∀ y ∉ S.elems, .insert y ∉ calls → h'.entries y = h.entries y := by
  induction calls generalizing h S with
  | nil => exact ⟨h, rfl, hr, fun _ _ _ => rfl⟩
  | cons c calls ih =>
    obtain ⟨hc1, hcalls⟩ := hallow
    rw [List.length_cons] at hfuel
    have hlog : Nat.log 2 (S.elems.length + 1) ≤ Nat.log 2 (S.elems.length + (calls.length + 1) + 1) :=
      Nat.log_mono_right (by omega)
    have hfuel1 : 2 * Nat.log 2 (S.elems.length + 1) < fuel := by omega
    obtain ⟨h1, hcall, hr1, hkept1, hsame1⟩ :=
      call_represents hc hr hc1 (fun x hx => hentry x (hx ▸ List.mem_cons_self)) hfuel1
    have hlen := c.length_effect_le hc S
    have hlog1 : Nat.log 2 ((c.effect hc S).1.elems.length + calls.length + 1) ≤
        Nat.log 2 (S.elems.length + (calls.length + 1) + 1) := Nat.log_mono_right (by omega)
    obtain ⟨h2, hrun, hr2, hsame2⟩ := ih hr1 hcalls
      (fun x hx => hkept1 x (hentry x (List.mem_cons_of_mem _ hx))) (by omega)
    refine ⟨h2, ?_, hr2, ?_⟩
    · simp only [run, hcall, hrun, Option.bind_eq_bind, Option.bind_some]
      rfl
    · intro y hy hins
      rw [List.mem_cons, not_or] at hins
      rw [hsame2 y _ hins.2, hsame1 y hy (Ne.symm hins.1)]
      intro hmem
      rcases TreeCall.mem_effect hmem with hmem | heq
      · exact hy hmem
      · exact hins.1 heq.symm

/-- A tree of one element, in a memory of blank entries. -/
def single (x : Nat) : RbHead := ⟨fun _ => some ⟨none, none, none, .black⟩, some x⟩

theorem single_represents (x : Nat) : (single x).Represents [x] :=
  ⟨node (x, .black) nil nil, ⟨rfl, ⟨rfl, trivial, trivial⟩, by simp⟩, ⟨rfl, 1, Nat.one_pos, rfl, rfl⟩, rfl⟩

/-- The tree after RB_INSERT of 1 to n. -/
def ascending (n : Nat) : Option RbHead :=
  (RbHead.run (fun a b => (a : Int) - b) 7 (single 0).init ((List.range' 1 n).map .insert)).map Prod.fst

theorem ascending_represents {n : Nat}
    (hallow : TreeCall.AllAllowed CmpOrder.sub (.empty _) ((List.range' 1 n).map .insert))
    (hfuel : 2 * Nat.log 2 (n + 1) < 7) :
    ∃ h, ascending n = some h ∧
      h.Represents (TreeCall.effects CmpOrder.sub (.empty _) ((List.range' 1 n).map .insert)).1.elems ∧
      ∀ x, n < x → h.entries x ≠ none := by
  have hturns : 2 * Nat.log 2 (0 + ((List.range' 1 n).map TreeCall.insert).length + 1) < 7 := by simpa using hfuel
  obtain ⟨h, hrun, hr, hsame⟩ := run_represents CmpOrder.sub (represents_init (single 0)) hallow
    (by simp [single, init]) hturns
  refine ⟨h, by rw [ascending, hrun]; rfl, hr, fun x hx => ?_⟩
  rw [hsame x (by simp [SortedSet.empty]) (by simp; omega)]
  simp [single, init]

theorem ascending_seven : ∃ h, ascending 7 = some h ∧ h.Represents [1, 2, 3, 4, 5, 6, 7] ∧ h.entries 8 ≠ none := by
  obtain ⟨h, hset, hr, hentry⟩ := ascending_represents (n := 7) (by decide) (by decide)
  exact ⟨h, hset, hr, hentry 8 (by decide)⟩

theorem ascending_eight : ∃ h, ascending 8 = some h ∧ h.Represents [1, 2, 3, 4, 5, 6, 7, 8] := by
  obtain ⟨h, hset, hr, _⟩ := ascending_represents (n := 8) (by decide) (by decide)
  exact ⟨h, hset, hr⟩

/-- A list from the side where a loop over it starts. -/
def orient (s : Side) (L : List Nat) : List Nat :=
  match s with
  | .left => L
  | .right => L.reverse

theorem neighbor_represents {A B : List Nat} (hr : h.Represents L) (hsplit : orient s L = A ++ x :: B)
    (hfuel : 2 * Nat.log 2 (L.length + 1) ≤ fuel) : h.neighbor s fuel x = some B.head? := by
  obtain ⟨t, ht, _, rfl, hheight⟩ := hr.exists_tree
  cases s with
  | left => exact (next_prev_holds ht hsplit (by omega)).1
  | right =>
    have hrev : addrs t = B.reverse ++ x :: A.reverse := by
      have := congrArg List.reverse hsplit
      simpa [orient] using this
    rw [← List.getLast?_reverse]
    exact (next_prev_holds ht hrev (by omega)).2

theorem foreachLoop_represents {A B : List Nat} {turns : Nat} (hr : h.Represents L) (hsplit : orient s L = A ++ B)
    (hfuel : 2 * Nat.log 2 (L.length + 1) ≤ fuel) (hturns : B.length ≤ turns) :
    h.foreachLoop s fuel turns B.head? = some B := by
  induction B generalizing A turns with
  | nil => simp [foreachLoop]
  | cons x B ih =>
    obtain ⟨turns, rfl⟩ : ∃ k, turns = k + 1 := ⟨turns - 1, by simp only [List.length_cons] at hturns; omega⟩
    have hlen : B.length ≤ turns := by simpa using hturns
    have hloop := ih (A := A ++ [x]) (by simpa using hsplit) hlen
    simp only [List.head?_cons, foreachLoop, neighbor_represents hr hsplit hfuel, hloop, Option.bind_eq_bind,
      Option.bind_some]

/-- The two loops over a tree come to every element once, in order and in reverse. -/
theorem foreach_both_ways {turns : Nat} (hr : h.Represents L) (hfuel : 2 * Nat.log 2 (L.length + 1) ≤ fuel)
    (hturns : L.length ≤ turns) :
    h.foreach turns fuel = some L ∧ h.foreachReverse turns fuel = some L.reverse := by
  obtain ⟨t, ht, _, haddrs, hheight⟩ := hr.exists_tree
  have hmin := rbMin_holds ht (show t.height ≤ fuel by omega)
  have hmax := rbMax_holds ht (show t.height ≤ fuel by omega)
  rw [haddrs] at hmin hmax
  constructor
  · have hloop := foreachLoop_represents (s := .left) (A := []) hr rfl hfuel hturns
    simp only [foreach, hmin, hloop, Option.bind_eq_bind, Option.bind_some]
  · have hloop := foreachLoop_represents (s := .right) (A := []) (B := L.reverse) hr rfl hfuel (by simpa using hturns)
    rw [List.head?_reverse] at hloop
    simp only [foreachReverse, hmax, hloop, Option.bind_eq_bind, Option.bind_some]

/-- The loops go through a tree of four levels. -/
theorem foreach_both_ways_eight :
    ∃ h, ascending 8 = some h ∧ h.foreach 8 6 = some [1, 2, 3, 4, 5, 6, 7, 8] ∧
      h.foreachReverse 8 6 = some [8, 7, 6, 5, 4, 3, 2, 1] := by
  obtain ⟨h, hset, hr⟩ := ascending_eight
  exact ⟨h, hset, foreach_both_ways hr (show 2 * Nat.log 2 9 ≤ 6 by decide) (show 8 ≤ 8 by decide)⟩

theorem orient_orient : orient s (orient s L) = L := by
  cases s <;> simp [orient]

theorem orient_erase {A B : List Nat} (hd : L.Nodup) (hsplit : orient s L = A ++ x :: B) :
    orient s (L.erase x) = A ++ B := by
  obtain rfl : L = orient s (A ++ x :: B) := by rw [← hsplit, orient_orient]
  cases s with
  | left => exact erase_split hd
  | right =>
    have hrev : (A ++ x :: B).reverse = B.reverse ++ x :: A.reverse := by simp
    simp only [orient, hrev] at hd ⊢
    rw [erase_split hd]
    simp

/-- A loop that removes elements comes to all of them all the same. -/
theorem foreachSafeLoop_represents {A B : List Nat} {turns : Nat} {drop : Nat → Bool} (hr : h.Represents L)
    (hsplit : orient s L = A ++ B) (hfuel : 2 * Nat.log 2 (L.length + 1) ≤ fuel) (hturns : B.length ≤ turns) :
    ∃ h', foreachSafeLoop drop s fuel turns h B.head? = some (h', B) ∧
      h'.Represents (orient s (A ++ B.filter (!drop ·))) := by
  induction B generalizing h L A turns with
  | nil => exact ⟨h, by simp [foreachSafeLoop], by simpa [← hsplit, orient_orient] using hr⟩
  | cons x B ih =>
    obtain ⟨turns, rfl⟩ : ∃ k, turns = k + 1 := ⟨turns - 1, by simp only [List.length_cons] at hturns; omega⟩
    have hlen : B.length ≤ turns := by simpa using hturns
    have hnext := neighbor_represents hr hsplit hfuel
    cases hx : drop x with
    | false =>
      obtain ⟨h', hloop, hr'⟩ := ih (A := A ++ [x]) hr (by simpa using hsplit) hfuel hlen
      refine ⟨h', ?_, by simpa [hx] using hr'⟩
      simp only [List.head?_cons, foreachSafeLoop, hnext, hx, hloop, Option.bind_eq_bind, Option.bind_some,
        Bool.false_eq_true, if_false]
    | true =>
      have hmem : x ∈ L := by
        rw [← orient_orient (s := s) (L := L), hsplit]
        cases s <;> simp [orient]
      obtain ⟨h1, hset, hr1, _⟩ := remove_represents hr hmem hfuel
      have hlog : Nat.log 2 ((L.erase x).length + 1) ≤ Nat.log 2 (L.length + 1) :=
        Nat.log_mono_right (Nat.succ_le_succ List.length_erase_le)
      obtain ⟨h', hloop, hr'⟩ := ih hr1 (orient_erase hr.nodup hsplit) (by omega) hlen
      refine ⟨h', ?_, by simpa [hx] using hr'⟩
      simp only [List.head?_cons, foreachSafeLoop, hnext, hx, hset, hloop, Option.bind_eq_bind, Option.bind_some, if_true]

theorem foreachSafe_removes {turns : Nat} {drop : Nat → Bool} (hr : h.Represents L)
    (hfuel : 2 * Nat.log 2 (L.length + 1) ≤ fuel) (hturns : L.length ≤ turns) :
    (∃ h', h.foreachSafe drop turns fuel = some (h', L) ∧ h'.Represents (L.filter (!drop ·))) ∧
      ∃ h', h.foreachReverseSafe drop turns fuel = some (h', L.reverse) ∧ h'.Represents (L.filter (!drop ·)) := by
  obtain ⟨t, ht, _, haddrs, hheight⟩ := hr.exists_tree
  have hmin := rbMin_holds ht (show t.height ≤ fuel by omega)
  have hmax := rbMax_holds ht (show t.height ≤ fuel by omega)
  rw [haddrs] at hmin hmax
  constructor
  · obtain ⟨h', hloop, hr'⟩ := foreachSafeLoop_represents (s := .left) (A := []) hr rfl hfuel hturns
    refine ⟨h', ?_, hr'⟩
    simp only [foreachSafe, hmin, hloop, Option.bind_eq_bind, Option.bind_some]
  · obtain ⟨h', hloop, hr'⟩ :=
      foreachSafeLoop_represents (s := .right) (A := []) (B := L.reverse) hr rfl hfuel (by simpa using hturns)
    rw [List.head?_reverse] at hloop
    refine ⟨h', ?_, by simpa [orient, List.filter_reverse] using hr'⟩
    simp only [foreachReverseSafe, hmax, hloop, Option.bind_eq_bind, Option.bind_some]

/-- The even elements are taken out on the way. -/
theorem foreachSafe_removes_even :
    ∃ h, ascending 8 = some h ∧
      (∃ h', h.foreachSafe (· % 2 = 0) 8 6 = some (h', [1, 2, 3, 4, 5, 6, 7, 8]) ∧ h'.Represents [1, 3, 5, 7]) ∧
      ∃ h', h.foreachReverseSafe (· % 2 = 0) 8 6 = some (h', [8, 7, 6, 5, 4, 3, 2, 1]) ∧ h'.Represents [1, 3, 5, 7] := by
  obtain ⟨h, hset, hr⟩ := ascending_eight
  exact ⟨h, hset, foreachSafe_removes hr (show 2 * Nat.log 2 9 ≤ 6 by decide) (show 8 ≤ 8 by decide)⟩

/-- RB_INSERT on a red-black tree in order: an equal element is returned and nothing
changes, or the tree with the new element is red-black and in order again. -/
theorem insert_red_black (hc : CmpOrder cmp) (ht : Holds h t) (hrb : RedBlack t)
    (hs : (addrs t).Pairwise (cmp · · < 0)) (hx : h.entries x ≠ none)
    (hfuel : 2 * Nat.log 2 (t.numNodes + 1) < fuel) :
    (∃ y ∈ addrs t, cmp x y = 0 ∧ h.insert cmp fuel x = some (h, some y)) ∨
    (∀ y ∈ addrs t, cmp x y ≠ 0) ∧ ∃ h' t', h.insert cmp fuel x = some (h', none) ∧ Holds h' t' ∧ RedBlack t' ∧
      (addrs t').Pairwise (cmp · · < 0) ∧ (addrs t').Perm (x :: addrs t) ∧
      ∀ y ∉ addrs t, y ≠ x → h'.entries y = h.entries y := by
  have hheight := hrb.height_le
  have hprobe := Probes.of_sorted hc hs x
  cases hfind : (addrs t).find? (cmp x · = 0) with
  | some y =>
    have hy := List.find?_some hfind
    exact Or.inl ⟨y, List.mem_of_find?_eq_some hfind, by simpa using hy,
      insert_found ht hprobe hfind (show t.height ≤ fuel by omega)⟩
  | none =>
    obtain ⟨h', t', hset, ht', hrb', haddrs, hsame⟩ :=
      insert_new hc ht hrb hprobe hfind hx (show t.height < fuel by omega)
    refine Or.inr ⟨?_, h', t', hset, ht', hrb', ?_, ?_, hsame⟩
    · intro y hy
      simpa using List.find?_eq_none.mp hfind y hy
    · rw [haddrs]
      exact (SortedSet.insert_of_none hc (S := ⟨addrs t, hs⟩) hfind) ▸ (SortedSet.insert hc ⟨addrs t, hs⟩ x).sorted
    · rw [haddrs]
      exact List.perm_orderedInsert ..

/-- The eighth element recolors its red parent and uncle, and two levels higher the tree is rotated. -/
theorem insert_red_black_eighth :
    ∃ h h' t', ascending 7 = some h ∧ h.root = some 2 ∧ h.insert (fun a b => (a : Int) - b) 7 8 = some (h', none) ∧
      Holds h' t' ∧ RedBlack t' ∧ (addrs t').Perm [8, 1, 2, 3, 4, 5, 6, 7] ∧ h'.root = some 4 := by
  obtain ⟨h, hset, ⟨t, ht, hrb, haddrs⟩, hentry⟩ := ascending_seven
  have hroots : (ascending 7).bind (fun h => (h.insert (fun a b => (a : Int) - b) 7 8).map fun r => (h.root, r.1.root)) =
      some (some 2, some 4) := by decide
  have hnodes : t.numNodes = 7 := numNodes_of_addrs haddrs
  rw [hset, Option.bind_some] at hroots
  rcases insert_red_black (x := 8) CmpOrder.sub ht hrb (by rw [haddrs]; decide) hentry
    (show 2 * Nat.log 2 (t.numNodes + 1) < 7 by rw [hnodes]; decide) with
    ⟨y, hy, hzero, _⟩ | ⟨_, h', t', hins, ht', hrb', _, hperm, _⟩
  · rw [haddrs] at hy
    have hall : ∀ y ∈ [1, 2, 3, 4, 5, 6, 7], ((8 : Nat) : Int) - (y : Nat) ≠ 0 := by decide
    exact absurd hzero (hall y hy)
  · rw [hins, Option.map_some, Option.some.injEq, Prod.mk.injEq] at hroots
    exact ⟨h, h', t', hset, hroots.1, hins, ht', hrb', haddrs ▸ hperm, hroots.2⟩

/-- RB_REMOVE of an element of a red-black tree. -/
theorem remove_red_black (ht : Holds h t) (hrb : RedBlack t) (hx : x ∈ addrs t)
    (hfuel : 2 * Nat.log 2 (t.numNodes + 1) ≤ fuel) :
    ∃ h' t', h.remove fuel x = some (h', some x) ∧ Holds h' t' ∧ RedBlack t' ∧ addrs t' = (addrs t).erase x ∧
      ∀ y ∉ addrs t, h'.entries y = h.entries y := by
  have hheight := hrb.height_le
  obtain ⟨h', t', hset, ht', hrb', haddrs, _, hsame⟩ := remove_holds ht hrb hx (show t.height ≤ fuel by omega)
  exact ⟨h', t', hset, ht', hrb', haddrs, hsame⟩

/-- The root has two children; its successor is a black leaf, so that the loop of RB_REMOVE_COLOR runs. -/
theorem remove_red_black_root :
    ∃ h h' t', ascending 8 = some h ∧ h.root = some 4 ∧ h.remove 6 4 = some (h', some 4) ∧ Holds h' t' ∧ RedBlack t' ∧
      addrs t' = [1, 2, 3, 5, 6, 7, 8] ∧ h'.root = some 5 := by
  obtain ⟨h, hset, t, ht, hrb, haddrs⟩ := ascending_eight
  have hroots : (ascending 8).bind (fun h => (h.remove 6 4).map fun r => (h.root, r.1.root)) = some (some 4, some 5) := by
    decide
  have hnodes : t.numNodes = 8 := numNodes_of_addrs haddrs
  obtain ⟨h', t', hrem, ht', hrb', herase, _⟩ := remove_red_black ht hrb (x := 4) (by rw [haddrs]; decide)
    (show 2 * Nat.log 2 (t.numNodes + 1) ≤ 6 by rw [hnodes]; decide)
  rw [hset, Option.bind_some, hrem, Option.map_some, Option.some.injEq, Prod.mk.injEq] at hroots
  exact ⟨h, h', t', hset, hroots.1, hrem, ht', hrb', by rw [herase, haddrs]; rfl, hroots.2⟩

/-- From RB_INIT on. -/
theorem run_from_init (hc : CmpOrder cmp) {calls : List TreeCall} (hallow : TreeCall.AllAllowed hc (.empty cmp) calls)
    (hentry : ∀ x, .insert x ∈ calls → h.entries x ≠ none) (hfuel : 2 * Nat.log 2 (calls.length + 1) < fuel) :
    ∃ h', h.init.run cmp fuel calls = some (h', (TreeCall.effects hc (.empty cmp) calls).2) ∧
      h'.Represents (TreeCall.effects hc (.empty cmp) calls).1.elems ∧
      ∀ y, .insert y ∉ calls → h'.entries y = h.entries y := by
  have hlen : 2 * Nat.log 2 ((SortedSet.empty cmp).elems.length + calls.length + 1) < fuel := by
    simpa [SortedSet.empty] using hfuel
  obtain ⟨h', hrun, hr, hsame⟩ := run_represents (h := h.init) hc (represents_init h) hallow hentry hlen
  exact ⟨h', hrun, hr, fun y hy => hsame y (by simp [SortedSet.empty]) hy⟩

theorem run_from_init_five :
    ∃ h', RbHead.run (fun a b => (a : Int) - b) 6 (single 0).init [.insert 5, .insert 3, .insert 8, .remove 5, .next 3] =
      some (h', [none, none, none, some 5, some 8]) ∧ h'.Represents [3, 8] := by
  have hallow : TreeCall.AllAllowed CmpOrder.sub (.empty _)
      [.insert 5, .insert 3, .insert 8, .remove 5, .next 3] := by decide
  obtain ⟨h', hrun, hr, _⟩ := run_from_init (h := single 0) CmpOrder.sub hallow (by simp [single])
    (show 2 * Nat.log 2 6 < 6 by decide)
  exact ⟨h', hrun, hr⟩

end RbHead

end CppInAction
