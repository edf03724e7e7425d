import CppInAction.RbRuns
import CppInAction.SplayCalls

namespace CppInAction

open BinaryTree

namespace SplayHead

/-- The calls for a splay tree; the header has no NFIND and no PREV for one. -/
def call (cmp : Nat → Nat → Int) (fuel : Nat) (h : SplayHead) : TreeCall → Option (SplayHead × Option Nat)
  | .insert x => h.insert cmp fuel x
  | .remove x => h.remove cmp fuel x
  | .find x => h.find cmp fuel x
  | .next x => h.next cmp fuel x
  | .min => h.minMax fuel (-1)
  | .max => h.minMax fuel 1
  | .nfind _ | .prev _ => none

def run (cmp : Nat → Nat → Int) (fuel : Nat) : SplayHead → List TreeCall → Option (SplayHead × List (Option Nat))
  | h, [] => some (h, [])
  | h, c :: calls => do
    let (h, r) ← h.call cmp fuel c
    let (h, rs) ← run cmp fuel h calls
    some (h, r :: rs)

end SplayHead

/-- A call that there is for both kinds of trees. -/
def TreeCall.Shared : TreeCall → Prop
  | .nfind _ | .prev _ => False
  | _ => True

namespace SplayHead

variable {h : SplayHead} {cmp : Nat → Nat → Int} {S : SortedSet cmp} {fuel : Nat} {L : List Nat}

theorem kept_of_same {h' : SplayHead} (hr : h'.Represents L) (hsame : ∀ z ∉ L, h'.entries z = h.entries z) :
    ∀ z, h.entries z ≠ none → h'.entries z ≠ none := by
  intro z hz
  by_cases hL : z ∈ L
  · exact hr.entry hL
  · rwa [hsame z hL]

theorem call_represents (hc : CmpOrder cmp) (hr : h.Represents S.elems) {c : TreeCall} (hshared : c.Shared)
    (hallow : c.Allowed S) (hentry : ∀ x, c = .insert x → h.entries x ≠ none) (hfuel : S.elems.length ≤ fuel) :
    ∃ h', h.call cmp fuel c = some (h', (c.effect hc S).2) ∧ h'.Represents (c.effect hc S).1.elems ∧
      (∀ z, h.entries z ≠ none → h'.entries z ≠ none) ∧ ∀ z ∉ S.elems, c ≠ .insert z → h'.entries z = h.entries z := by
  have hread : ∀ {h' : SplayHead}, h'.Represents S.elems → (∀ z ∉ S.elems, h'.entries z = h.entries z) →
      (∀ z, h.entries z ≠ none → h'.entries z ≠ none) ∧ ∀ z ∉ S.elems, c ≠ .insert z → h'.entries z = h.entries z :=
    fun hr' hsame => ⟨kept_of_same hr' hsame, fun z hz _ => hsame z hz⟩
  cases c with
  | insert x =>
    obtain ⟨h', hset, hr', hkept, hsame⟩ := insert_represents hc hr (hentry x rfl) hfuel
    refine ⟨h', hset, hr', ?_, fun z hz hne => hsame z hz fun heq => hne (by rw [heq])⟩
    intro z hz
    by_cases hzx : z = x
    · exact hzx ▸ hkept
    · by_cases hmem : z ∈ S.elems
      · exact hr'.entry (S.mem_insert hc hmem)
      · rwa [hsame z hmem hzx]
  | remove x =>
    obtain ⟨h', hset, hr', hkept, hsame⟩ := remove_represents hc hr hallow hfuel
    refine ⟨h', hset, hr', ?_, fun z hz _ => hsame z hz⟩
    intro z hz
    by_cases hzx : z = x
    · exact hzx ▸ hkept
    · by_cases hmem : z ∈ S.elems
      · exact hr'.entry ((List.mem_erase_of_ne hzx).mpr hmem)
      · rwa [hsame z hmem]
  | find x =>
    obtain ⟨h', hset, hr', hsame⟩ := find_represents hc hr x hfuel
    exact ⟨h', hset, hr', hread hr' hsame⟩
  | next x =>
    obtain ⟨h', hset, hr', hsame⟩ := next_represents hc hr hallow hfuel
    exact ⟨h', hset, hr', hread hr' hsame⟩
  | min =>
    obtain ⟨h', hset, hr', hsame⟩ := (minMax_represents hr hfuel).1
    exact ⟨h', hset, hr', hread hr' hsame⟩
  | max =>
    obtain ⟨h', hset, hr', hsame⟩ := (minMax_represents hr hfuel).2
    exact ⟨h', hset, hr', hread hr' hsame⟩
  | nfind x => cases hshared
  | prev x => cases hshared

/-- A run on a splay tree does what it does on the set. -/
theorem run_represents (hc : CmpOrder cmp) {calls : List TreeCall} (hr : h.Represents S.elems)
    (hshared : ∀ c ∈ calls, c.Shared) (hallow : TreeCall.AllAllowed hc S calls)
    (hentry : ∀ x, .insert x ∈ calls → h.entries x ≠ none) (hfuel : S.elems.length + calls.length ≤ fuel) :
    ∃ h', h.run cmp fuel calls = some (h', (TreeCall.effects hc S calls).2) ∧
      h'.Represents (TreeCall.effects hc S calls).1.elems ∧
      ∀ y ∉ S.elems, .insert y ∉ calls → h'.entries y = h.entries y := by
  induction calls generalizing h S with
  | nil => exact ⟨h, rfl, hr, fun _ _ _ => rfl⟩
  | cons c calls ih =>
    obtain ⟨hc1, hcalls⟩ := hallow
    rw [List.length_cons] at hfuel
    have hfuel1 : S.elems.length ≤ fuel := by omega
    obtain ⟨h1, hcall, hr1, hkept1, hsame1⟩ := call_represents hc hr (hshared c List.mem_cons_self) hc1
      (fun x hx => hentry x (hx ▸ List.mem_cons_self)) hfuel1
    have hlen := c.length_effect_le hc S
    obtain ⟨h2, hrun, hr2, hsame2⟩ := ih hr1 (fun c' hc' => hshared c' (List.mem_cons_of_mem _ hc')) hcalls
      (fun x hx => hkept1 x (hentry x (List.mem_cons_of_mem _ hx))) (by omega)
    refine ⟨h2, ?_, hr2, ?_⟩
    · simp only [run, hcall, hrun, Option.bind_eq_bind, Option.bind_some]
      rfl
    · intro y hy hins
      rw [List.mem_cons, not_or] at hins
      rw [hsame2 y _ hins.2, hsame1 y hy (Ne.symm hins.1)]
      intro hmem
      rcases TreeCall.mem_effect hmem with hmem | heq
      · exact hy hmem
      · exact hins.1 heq.symm

/-- SPLAY_FOREACH, which splays the tree for every element, comes to each once, in order. -/
theorem foreachLoop_represents (hc : CmpOrder cmp) {A B : List Nat} {turns : Nat} (hr : h.Represents S.elems)
    (hsplit : S.elems = A ++ B) (hfuel : S.elems.length ≤ fuel) (hturns : B.length ≤ turns) :
    ∃ h', foreachLoop cmp fuel turns h B.head? = some (h', B) ∧ h'.Represents S.elems := by
  induction B generalizing h A turns with
  | nil => exact ⟨h, by simp [foreachLoop], hr⟩
  | cons x B ih =>
    obtain ⟨turns, rfl⟩ : ∃ k, turns = k + 1 := ⟨turns - 1, by simp only [List.length_cons] at hturns; omega⟩
    have hlen : B.length ≤ turns := by simpa using hturns
    obtain ⟨h1, hnext, hr1, _⟩ := next_represents hc hr (show x ∈ S.elems by simp [hsplit]) hfuel
    rw [(SortedSet.next_prev_of_split hc hsplit).1] at hnext
    obtain ⟨h2, hloop, hr2⟩ := ih (A := A ++ [x]) hr1 (by simpa using hsplit) hlen
    refine ⟨h2, ?_, hr2⟩
    simp only [List.head?_cons, foreachLoop, hnext, hloop, Option.bind_eq_bind, Option.bind_some]

theorem foreach_in_order (hc : CmpOrder cmp) {turns : Nat} (hr : h.Represents S.elems)
    (hfuel : S.elems.length ≤ fuel) (hturns : S.elems.length ≤ turns) :
    ∃ h', h.foreach cmp turns fuel = some (h', S.elems) ∧ h'.Represents S.elems := by
  obtain ⟨h1, hmin, hr1, _⟩ := (minMax_represents hr hfuel).1
  obtain ⟨h2, hloop, hr2⟩ := foreachLoop_represents hc (A := []) hr1 rfl hfuel hturns
  exact ⟨h2, by simp only [foreach, hmin, hloop, Option.bind_eq_bind, Option.bind_some], hr2⟩

/-- A tree of one element, in a memory of blank entries. -/
def single (x : Nat) : SplayHead := ⟨fun _ => some ⟨none, none⟩, some x⟩

theorem single_represents (x : Nat) : (single x).Represents [x] :=
  ⟨node x nil nil, ⟨rfl, ⟨rfl, trivial, trivial⟩, by simp⟩, rfl⟩

/-- The tree after SPLAY_INSERT of the first n even numbers, a chain of left children. -/
def evens (n : Nat) : Option SplayHead :=
  (SplayHead.run (fun a b => (a : Int) - b) n (single 0).init ((List.range n).map fun k => .insert (2 * k))).map Prod.fst

theorem evens_represents : ∃ h, evens 8 = some h ∧ h.Represents [0, 2, 4, 6, 8, 10, 12, 14] := by
  have hallow : TreeCall.AllAllowed CmpOrder.sub (.empty _) ((List.range 8).map fun k => .insert (2 * k)) := by decide
  have hturns : 0 + ((List.range 8).map fun k => TreeCall.insert (2 * k)).length ≤ 8 := Nat.le_refl 8
  obtain ⟨h, hrun, hr, _⟩ := run_represents CmpOrder.sub (represents_init (single 0)) (by simp [TreeCall.Shared]) hallow
    (by simp [single, init]) hturns
  exact ⟨h, by rw [evens, hrun]; rfl, hr⟩

theorem foreach_in_order_evens :
    ∃ h h', evens 8 = some h ∧ h.foreach (fun a b => (a : Int) - b) 8 8 = some (h', [0, 2, 4, 6, 8, 10, 12, 14]) ∧
      h'.Represents [0, 2, 4, 6, 8, 10, 12, 14] := by
  obtain ⟨h, hset, hr⟩ := evens_represents
  obtain ⟨h', hloop, hr'⟩ := foreach_in_order (S := ⟨[0, 2, 4, 6, 8, 10, 12, 14], by decide⟩) CmpOrder.sub hr
    (Nat.le_refl 8) (Nat.le_refl 8)
  exact ⟨h, h', hset, hloop, hr'⟩

/-- SPLAY keeps the elements and their order, and brings an equal element to the root, or
else one that no element parts from the one that is looked for. -/
theorem splay_nearest (hc : CmpOrder cmp) (hr : h.Represents S.elems) (hne : S.elems ≠ []) (x : Nat)
    (hfuel : S.elems.length ≤ fuel) :
    ∃ h', ∃ y ∈ S.elems, h.splay cmp fuel x = some h' ∧ h'.Represents S.elems ∧ h'.root = some y ∧
      (∀ z ∈ S.elems, cmp x z = 0 → z = y) ∧
      ∀ z ∈ S.elems, ¬(cmp x z < 0 ∧ cmp z y < 0) ∧ ¬(cmp y z < 0 ∧ 0 < cmp x z) := by
  obtain ⟨h', y, l, r, hset, ht, horder, hl, hr', _, _⟩ := splay_represents hc hr hne x hfuel
  have hsorted := S.sorted
  rw [← horder] at hsorted ⊢
  obtain ⟨_, hyr, hly⟩ := List.pairwise_append.mp hsorted
  have hyy := hc.refl y
  refine ⟨h', y, by simp, hset, ⟨_, ht, rfl⟩, ht.root, ?_, ?_⟩
  · intro z hz hzero
    rcases List.mem_append.mp hz with hz | hz
    · have := hl z hz
      omega
    · rcases List.mem_cons.mp hz with rfl | hz
      · rfl
      · have := hr' z hz
        omega
  · intro z hz
    rcases List.mem_append.mp hz with hz | hz
    · have := hl z hz
      have := (hc.swap z y).mp (hly z hz y List.mem_cons_self)
      omega
    · rcases List.mem_cons.mp hz with rfl | hz
      · omega
      · have := hr' z hz
        have := (hc.swap y z).mp (List.rel_of_pairwise_cons hyr hz)
        omega

/-- The number 5 is looked for below three double steps; 4 comes up from the depth. -/
theorem splay_nearest_evens :
    ∃ h h', evens 8 = some h ∧ h.root = some 14 ∧ h.splay (fun a b => (a : Int) - b) 8 5 = some h' ∧
      h'.Represents [0, 2, 4, 6, 8, 10, 12, 14] ∧ h'.root = some 4 := by
  obtain ⟨h, hset, hr⟩ := evens_represents
  have hroots : (evens 8).bind (fun h => (h.splay (fun a b => (a : Int) - b) 8 5).map fun h' => (h.root, h'.root)) =
      some (some 14, some 4) := by decide
  obtain ⟨h', y, _, hsplay, hr', _⟩ := splay_nearest (S := ⟨[0, 2, 4, 6, 8, 10, 12, 14], by decide⟩) CmpOrder.sub hr
    (by simp) 5 (Nat.le_refl 8)
  rw [hset, Option.bind_some, hsplay, Option.map_some, Option.some.injEq, Prod.mk.injEq] at hroots
  exact ⟨h, h', hset, hroots.1, hsplay, hr', hroots.2⟩

/-- From SPLAY_INIT on. -/
theorem splay_run_from_init (hc : CmpOrder cmp) {calls : List TreeCall} (hshared : ∀ c ∈ calls, c.Shared)
    (hallow : TreeCall.AllAllowed hc (.empty cmp) calls) (hentry : ∀ x, .insert x ∈ calls → h.entries x ≠ none)
    (hfuel : calls.length ≤ fuel) :
    ∃ h', h.init.run cmp fuel calls = some (h', (TreeCall.effects hc (.empty cmp) calls).2) ∧
      h'.Represents (TreeCall.effects hc (.empty cmp) calls).1.elems ∧
      ∀ y, .insert y ∉ calls → h'.entries y = h.entries y := by
  have hlen : (SortedSet.empty cmp).elems.length + calls.length ≤ fuel := by
    simpa [SortedSet.empty] using hfuel
  obtain ⟨h', hrun, hr, hsame⟩ := run_represents (h := h.init) hc (represents_init h) hshared hallow hentry hlen
  exact ⟨h', hrun, hr, fun y hy => hsame y (by simp [SortedSet.empty]) hy⟩

theorem splay_run_from_init_five :
    ∃ h', SplayHead.run (fun a b => (a : Int) - b) 5 (single 0).init [.insert 5, .insert 3, .insert 8, .remove 5, .next 3] =
      some (h', [none, none, none, some 5, some 8]) ∧ h'.Represents [3, 8] := by
  have hallow : TreeCall.AllAllowed CmpOrder.sub (.empty _)
      [.insert 5, .insert 3, .insert 8, .remove 5, .next 3] := by decide
  obtain ⟨h', hrun, hr, _⟩ := splay_run_from_init (h := single 0) CmpOrder.sub (by simp [TreeCall.Shared]) hallow
    (by simp [single]) (show 5 ≤ 5 by decide)
  exact ⟨h', hrun, hr⟩

/-- A red-black tree and a splay tree of the same elements give the same replies to the
same calls, and have the same elements in the end. -/
theorem replies_of_both_trees {rb : RbHead} {k : Nat} (hc : CmpOrder cmp) {calls : List TreeCall}
    (hrb : rb.Represents S.elems) (hr : h.Represents S.elems) (hshared : ∀ c ∈ calls, c.Shared)
    (hallow : TreeCall.AllAllowed hc S calls)
    (hentry : ∀ x, .insert x ∈ calls → rb.entries x ≠ none ∧ h.entries x ≠ none)
    (hrbfuel : 2 * Nat.log 2 (S.elems.length + calls.length + 1) < k) (hfuel : S.elems.length + calls.length ≤ fuel) :
    ∃ rb' h' replies L, rb.run cmp k calls = some (rb', replies) ∧ h.run cmp fuel calls = some (h', replies) ∧
      rb'.Represents L ∧ h'.Represents L := by
  obtain ⟨rb', hrun1, hr1, _⟩ := RbHead.run_represents hc hrb hallow (fun x hx => (hentry x hx).1) hrbfuel
  obtain ⟨h', hrun2, hr2, _⟩ := run_represents hc hr hshared hallow (fun x hx => (hentry x hx).2) hfuel
  exact ⟨rb', h', _, _, hrun1, hrun2, hr1, hr2⟩

theorem replies_of_both_trees_single :
    ∃ rb h replies L,
      (RbHead.single 4).run (fun a b => (a : Int) - b) 5 [.insert 2, .min, .remove 4] = some (rb, replies) ∧
      (single 4).run (fun a b => (a : Int) - b) 4 [.insert 2, .min, .remove 4] = some (h, replies) ∧
      rb.Represents L ∧ h.Represents L := by
  have hallow : TreeCall.AllAllowed CmpOrder.sub ⟨[4], by simp⟩ [.insert 2, .min, .remove 4] := by decide
  exact replies_of_both_trees CmpOrder.sub (RbHead.single_represents 4) (single_represents 4) (by simp [TreeCall.Shared])
    hallow (by simp [RbHead.single, single]) (show 2 * Nat.log 2 5 < 5 by decide) (show 4 ≤ 4 by decide)

end SplayHead

end CppInAction
