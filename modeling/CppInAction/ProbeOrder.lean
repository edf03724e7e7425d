import CppInAction.TreePath
import Mathlib.Data.List.Sort

/-- A comparison function in the way of strcmp. -/
structure CmpOrder {α : Type} (cmp : α → α → Int) : Prop where
  swap : ∀ a b, cmp a b < 0 ↔ 0 < cmp b a
  trans : ∀ a b c, cmp a b ≤ 0 → cmp b c ≤ 0 → cmp a c ≤ 0

/-- The side to which the result of a comparison leads. -/
def Side.Leads (s : Side) (n : Int) : Prop :=
  match s with
  | .left => n < 0
  | .right => 0 < n

instance (s : Side) (n : Int) : Decidable (s.Leads n) :=
  match s with
  | .left => inferInstanceAs (Decidable (n < 0))
  | .right => inferInstanceAs (Decidable (0 < n))

theorem Side.Leads.branch {γ : Type} {s : Side} {n : Int} (hs : s.Leads n) (x y z : γ) :
    (if n < 0 then x else if 0 < n then y else z) = match s with | .left => x | .right => y := by
  cases s with
  | left => exact if_pos hs
  | right => exact (if_neg (not_lt.mpr (le_of_lt hs))).trans (if_pos hs)

theorem Side.Leads.neg_iff {s : Side} {n : Int} (hs : s.Leads n) : n < 0 ↔ s = .left := by
  cases s with
  | left => exact iff_of_true hs rfl
  | right => exact iff_of_false (not_lt.mpr (le_of_lt hs)) (by simp)

/-- Along the list the results of a comparison fall: first positive ones, then at most one
zero, then negative ones. -/
def Probes {β : Type} (c : β → Int) (L : List β) : Prop := L.Pairwise fun a b => 0 ≤ c b → 0 < c a

section Lists

variable {α β : Type} {cmp : α → α → Int} {c : β → Int} {A B L : List β} {b : β} {K M : List α} {x y : α}

theorem CmpOrder.sub : CmpOrder fun a b : Nat => (a : Int) - b where
  swap := by omega
  trans := by omega

theorem CmpOrder.refl (h : CmpOrder cmp) (x : α) : cmp x x = 0 := by
  have := h.swap x x
  omega

theorem CmpOrder.trans_lt {z : α} (h : CmpOrder cmp) (hxy : cmp x y < 0) (hyz : cmp y z ≤ 0) : cmp x z < 0 := by
  by_contra hxz
  have hzx : cmp z x ≤ 0 := by
    have := h.swap x z
    have := h.swap z x
    omega
  have hyx := h.trans y z x hyz hzx
  have := (h.swap x y).mp hxy
  omega

/-- A list in the order of the comparison is fit for the search of every element. -/
theorem Probes.of_sorted (h : CmpOrder cmp) (hs : M.Pairwise (cmp · · < 0)) (x : α) : Probes (cmp x) M := by
  refine hs.imp ?_
  intro a b hab hb
  have hbx : cmp b x ≤ 0 := by
    have := h.swap b x
    have := h.swap x b
    omega
  exact (h.swap a x).mp (h.trans_lt hab hbx)

theorem Probes.pos (h : Probes c (A ++ b :: B)) (hb : 0 ≤ c b) : ∀ a ∈ A, 0 < c a :=
  fun a ha => (List.pairwise_append.mp h).2.2 a ha b List.mem_cons_self hb

theorem Probes.neg (h : Probes c (A ++ b :: B)) (hb : c b ≤ 0) : ∀ a ∈ B, c a < 0 := by
  intro a ha
  have := List.rel_of_pairwise_cons (List.pairwise_append.mp h).2.1 ha
  omega

theorem find_of_zero (hA : ∀ a ∈ A, 0 < c a) (hb : c b = 0) : (A ++ b :: B).find? (c · = 0) = some b := by
  rw [List.find?_append, List.find?_eq_none.mpr]
  · simp [hb]
  · intro a ha
    have := hA a ha
    simp only [decide_eq_true_eq]
    omega

theorem find_of_gap (hA : ∀ a ∈ A, 0 < c a) (hB : ∀ a ∈ B, c a < 0) : (A ++ B).find? (c · = 0) = none := by
  rw [List.find?_eq_none]
  intro a ha
  simp only [decide_eq_true_eq]
  rcases List.mem_append.mp ha with ha | ha
  · have := hA a ha
    omega
  · have := hB a ha
    omega

/-- The search for the least element that is not below the one that is looked for. -/
theorem nfind_of_gap (hA : ∀ a ∈ A, 0 < c a) (hB : ∀ a ∈ B, c a ≤ 0) : (A ++ B).find? (c · ≤ 0) = B.head? := by
  rw [List.find?_append, List.find?_eq_none.mpr, Option.none_or]
  · cases B with
    | nil => rfl
    | cons b B => simp [hB b List.mem_cons_self]
  · intro a ha
    have := hA a ha
    simp only [decide_eq_true_eq]
    omega

theorem orderedInsert_of_gap (hA : ∀ a ∈ K, 0 < cmp x a) (hB : ∀ a ∈ M, cmp x a < 0) :
    (K ++ M).orderedInsert (cmp · · ≤ 0) x = K ++ x :: M := by
  induction K with
  | nil =>
    cases M with
    | nil => rfl
    | cons b M =>
      have := hB b List.mem_cons_self
      simp only [List.nil_append, List.orderedInsert_cons]
      rw [if_pos (by omega)]
  | cons a K ih =>
    have := hA a List.mem_cons_self
    simp only [List.cons_append, List.orderedInsert_cons]
    rw [if_neg (by omega), ih fun b hb => hA b (List.mem_cons_of_mem _ hb)]

theorem sorted_of_gap (h : CmpOrder cmp) (hs : (K ++ M).Pairwise (cmp · · < 0)) (hA : ∀ a ∈ K, 0 < cmp x a)
    (hB : ∀ a ∈ M, cmp x a < 0) : (K ++ x :: M).Pairwise (cmp · · < 0) := by
  obtain ⟨hK, hM, hKM⟩ := List.pairwise_append.mp hs
  refine List.pairwise_append.mpr ⟨hK, List.pairwise_cons.mpr ⟨hB, hM⟩, ?_⟩
  intro a ha b hb
  rcases List.mem_cons.mp hb with rfl | hb
  · exact (h.swap a b).mpr (hA a ha)
  · exact hKM a ha b hb

/-- No element of a list in order is found for another one. -/
theorem find_self (h : CmpOrder cmp) (hs : M.Pairwise (cmp · · < 0)) (hx : x ∈ M) :
    M.find? (cmp x · = 0) = some x := by
  obtain ⟨A, B, rfl⟩ := List.append_of_mem hx
  exact find_of_zero ((Probes.of_sorted h hs x).pos (h.refl x).ge) (h.refl x)

theorem find_below (hA : ∀ a ∈ A, 0 < c a) (hb : c b = 0) (hB : ∀ a ∈ B, c a < 0) :
    (A ++ b :: B).find? (c · < 0) = B.head? := by
  rw [List.find?_append, List.find?_eq_none.mpr, Option.none_or, List.find?_cons_of_neg (by simp [hb])]
  · cases B with
    | nil => rfl
    | cons d B => simp [hB d List.mem_cons_self]
  · intro a ha
    have := hA a ha
    simp only [decide_eq_true_eq]
    omega

theorem find_above (hA : ∀ a ∈ A, 0 < c a) (hb : c b = 0) (hB : ∀ a ∈ B, c a < 0) :
    (A ++ b :: B).reverse.find? (0 < c ·) = A.getLast? := by
  rw [List.reverse_append, List.reverse_cons, List.append_assoc, List.find?_append, List.find?_eq_none.mpr,
    Option.none_or, List.singleton_append, List.find?_cons_of_neg (by simp [hb]), List.getLast?_eq_head?_reverse]
  · have hA' : ∀ a ∈ A.reverse, 0 < c a := fun a ha => hA a (List.mem_reverse.mp ha)
    cases hrev : A.reverse with
    | nil => rfl
    | cons d K => simp [hA' d (by simp [hrev])]
  · intro a ha
    have := hB a (List.mem_reverse.mp ha)
    simp only [decide_eq_true_eq]
    omega

theorem erase_split [DecidableEq α] (hd : (K ++ x :: M).Nodup) : (K ++ x :: M).erase x = K ++ M := by
  have hx : x ∉ K := fun hmem => (List.nodup_append.mp hd).2.2 x hmem x List.mem_cons_self rfl
  rw [List.erase_append_right _ hx, List.erase_cons_head]

end Lists

/-- A set of elements, no two of them equal for the comparison, in its order. -/
structure SortedSet {α : Type} (cmp : α → α → Int) where
  elems : List α
  sorted : elems.Pairwise (cmp · · < 0)

namespace SortedSet

variable {α : Type} {cmp : α → α → Int}

def empty (cmp : α → α → Int) : SortedSet cmp := ⟨[], List.Pairwise.nil⟩

def find (S : SortedSet cmp) (x : α) : Option α := S.elems.find? (cmp x · = 0)

/-- The least element that is not below x. -/
def nfind (S : SortedSet cmp) (x : α) : Option α := S.elems.find? (cmp x · ≤ 0)

def next (S : SortedSet cmp) (x : α) : Option α := S.elems.find? (cmp x · < 0)

def prev (S : SortedSet cmp) (x : α) : Option α := S.elems.reverse.find? (0 < cmp x ·)

def erase [DecidableEq α] (S : SortedSet cmp) (x : α) : SortedSet cmp :=
  ⟨S.elems.erase x, S.sorted.sublist List.erase_sublist⟩

/-- The place of an element that is not in the set. -/
theorem exists_gap (hc : CmpOrder cmp) (S : SortedSet cmp) {x : α} (hx : S.find x = none) :
    ∃ A B, S.elems = A ++ B ∧ (∀ a ∈ A, 0 < cmp x a) ∧ ∀ b ∈ B, cmp x b < 0 := by
  obtain ⟨L, hs⟩ := S
  replace hx : L.find? (cmp x · = 0) = none := hx
  induction L with
  | nil => exact ⟨[], [], rfl, by simp, by simp⟩
  | cons b L ih =>
    rw [List.find?_eq_none] at hx
    have hprobe : Probes (cmp x) ([] ++ b :: L) := Probes.of_sorted hc hs x
    rcases lt_trichotomy (cmp x b) 0 with hb | hb | hb
    · exact ⟨[], b :: L, rfl, by simp, List.forall_mem_cons.mpr ⟨hb, hprobe.neg hb.le⟩⟩
    · exact absurd (by simpa using hb) (hx b List.mem_cons_self)
    · obtain ⟨A, B, hL, hA, hB⟩ := ih hs.of_cons (List.find?_eq_none.mpr fun a ha => hx a (List.mem_cons_of_mem _ ha))
      exact ⟨b :: A, B, congrArg (b :: ·) hL, List.forall_mem_cons.mpr ⟨hb, hA⟩, hB⟩

/-- A new element is put to its place; for one that is there already nothing happens. -/
def insert (hc : CmpOrder cmp) (S : SortedSet cmp) (x : α) : SortedSet cmp :=
  if hx : S.find x = none then
    ⟨S.elems.orderedInsert (cmp · · ≤ 0) x, by
      obtain ⟨A, B, helems, hA, hB⟩ := S.exists_gap hc hx
      have hs := S.sorted
      rw [helems] at hs ⊢
      rw [orderedInsert_of_gap hA hB]
      exact sorted_of_gap hc hs hA hB⟩
  else S

theorem insert_of_none (hc : CmpOrder cmp) {S : SortedSet cmp} {x : α} (hx : S.find x = none) :
    (S.insert hc x).elems = S.elems.orderedInsert (cmp · · ≤ 0) x := by
  rw [insert, dif_pos hx]

theorem insert_of_some (hc : CmpOrder cmp) {S : SortedSet cmp} {x y : α} (hx : S.find x = some y) :
    S.insert hc x = S := by
  rw [insert, dif_neg (by simp [hx])]

theorem mem_insert (hc : CmpOrder cmp) (S : SortedSet cmp) {x y : α} (hy : y ∈ S.elems) : y ∈ (S.insert hc x).elems := by
  cases hx : S.find x with
  | none =>
    rw [insert_of_none hc hx, List.mem_orderedInsert]
    exact Or.inr hy
  | some z => rwa [insert_of_some hc hx]

theorem length_insert_le (hc : CmpOrder cmp) (S : SortedSet cmp) (x : α) :
    (S.insert hc x).elems.length ≤ S.elems.length + 1 := by
  cases hx : S.find x with
  | none => rw [insert_of_none hc hx, List.orderedInsert_length]
  | some y =>
    rw [insert_of_some hc hx]
    omega

theorem next_prev_of_split (hc : CmpOrder cmp) {S : SortedSet cmp} {A B : List α} {x : α}
    (hsplit : S.elems = A ++ x :: B) : S.next x = B.head? ∧ S.prev x = A.getLast? := by
  have hprobe := Probes.of_sorted hc S.sorted x
  rw [hsplit] at hprobe
  have hA := hprobe.pos (hc.refl x).ge
  have hB := hprobe.neg (hc.refl x).le
  rw [next, prev, hsplit]
  exact ⟨find_below hA (hc.refl x) hB, find_above hA (hc.refl x) hB⟩

end SortedSet

namespace BinaryTree

variable {β : Type} {c : β → Int} {p : List (Frame β)} {t : BinaryTree β}

/-- The way of a search down to the end of the path. -/
def Follows (c : β → Int) (p : List (Frame β)) : Prop := ∀ f ∈ p, f.side.Leads (c f.label)

theorem Follows.nil : Follows c [] := by simp [Follows]

theorem Follows.cons {f : Frame β} (hp : Follows c p) (hf : f.side.Leads (c f.label)) : Follows c (f :: p) :=
  List.forall_mem_cons.mpr ⟨hf, hp⟩

theorem Follows.turn {f : Frame β} (hp : Follows c (f :: p)) : f.side.Leads (c f.label) := hp f List.mem_cons_self

/-- A search in a tree: it ends at an empty place, at a label for which the comparison
gives zero, or goes on in one of the two subtrees. -/
theorem search_induction {motive : (p : List (Frame β)) → BinaryTree β → Follows c p → Prop}
    (empty : ∀ p hp, motive p nil hp) (found : ∀ p b l r hp, c b = 0 → motive p (node b l r) hp)
    (step : ∀ p s b near far hp (hs : s.Leads (c b)), motive (⟨s, b, far⟩ :: p) near (hp.cons hs) →
      motive p (join s b near far) hp)
    (p : List (Frame β)) (t : BinaryTree β) (hp : Follows c p) : motive p t hp := by
  induction t generalizing p with
  | nil => exact empty p hp
  | node b l r ihl ihr =>
    rcases lt_trichotomy (c b) 0 with hb | hb | hb
    · exact step p .left b l r hp hb (ihl (⟨.left, b, r⟩ :: p) (hp.cons hb))
    · exact found p b l r hp hb
    · exact step p .right b r l hp hb (ihr (⟨.right, b, l⟩ :: p) (hp.cons hb))

theorem Follows.sides (hp : Follows c p) (h : Probes c (plug p t).inorder) :
    (∀ a ∈ before p, 0 < c a) ∧ ∀ a ∈ after p, c a < 0 := by
  induction p generalizing t with
  | nil => simp [before, after]
  | cons f p ih =>
    obtain ⟨s, b, u⟩ := f
    obtain ⟨hbefore, hafter⟩ := ih (fun g hg => hp g (List.mem_cons_of_mem _ hg)) h
    have hb := hp.turn
    rw [inorder_plug] at h
    cases s with
    | left =>
      refine ⟨hbefore, ?_⟩
      have hsplit : before (⟨.left, b, u⟩ :: p) ++ t.inorder ++ after (⟨.left, b, u⟩ :: p) =
          (before p ++ t.inorder) ++ b :: (u.inorder ++ after p) := by simp [before, after]
      rw [hsplit] at h
      have hneg := h.neg (le_of_lt hb)
      intro a ha
      rcases List.mem_cons.mp ha with rfl | ha
      · exact hb
      · exact hneg a ha
    | right =>
      refine ⟨?_, hafter⟩
      have hsplit : before (⟨.right, b, u⟩ :: p) ++ t.inorder ++ after (⟨.right, b, u⟩ :: p) =
          (before p ++ u.inorder) ++ b :: (t.inorder ++ after p) := by simp [before, after]
      rw [hsplit] at h
      have hpos := h.pos (le_of_lt hb)
      intro a ha
      rcases List.mem_append.mp ha with ha | ha
      · exact hpos a ha
      · rw [List.mem_singleton.mp ha]
        exact hb

end BinaryTree
