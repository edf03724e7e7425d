import CppInAction.RbHeap
import CppInAction.ProbeOrder

namespace CppInAction

open BinaryTree

namespace RbHead

variable {h : RbHead} {s : Side} {b : Nat × RbColor} {t l r near far : BinaryTree (Nat × RbColor)}
  {p : List (Frame (Nat × RbColor))} {par q : Option Nat} {x z fuel : Nat} {cmp : Nat → Nat → Int} {A B : List Nat}

/-- The elements before a place, and those after it. -/
def lower (p : List (Frame (Nat × RbColor))) : List Nat := (before p).map Prod.fst

def upper (p : List (Frame (Nat × RbColor))) : List Nat := (after p).map Prod.fst

theorem addrs_plug : addrs (plug p t) = lower p ++ addrs t ++ upper p := by
  simp only [addrs, inorder_plug, List.map_append, lower, upper]

theorem probes_addrs : Probes (fun b : Nat × RbColor => cmp x b.1) t.inorder ↔ Probes (cmp x) (addrs t) := by
  rw [Probes, Probes, addrs, List.pairwise_map]

/-- The elements on the two sides of the way of a search. -/
theorem follows_lower_upper (hp : Follows (fun b : Nat × RbColor => cmp x b.1) p)
    (hx : Probes (cmp x) (addrs (plug p t))) : (∀ a ∈ lower p, 0 < cmp x a) ∧ ∀ a ∈ upper p, cmp x a < 0 := by
  obtain ⟨hbefore, hafter⟩ := hp.sides (probes_addrs.mpr hx)
  constructor
  · intro a ha
    obtain ⟨b, hb, rfl⟩ := List.mem_map.mp ha
    exact hbefore b hb
  · intro a ha
    obtain ⟨b, hb, rfl⟩ := List.mem_map.mp ha
    exact hafter b hb

theorem insertWalk_stands {comp : Int} (hp : Follows (fun b : Nat × RbColor => cmp x b.1) p) (ht : Stands h par t)
    (hfuel : t.height ≤ fuel) (hcomp : ∀ f ∈ p.head?, comp < 0 ↔ f.side = .left) :
    (∃ q b l r, plug p t = plug q (node b l r) ∧ Follows (fun b : Nat × RbColor => cmp x b.1) q ∧ cmp x b.1 = 0 ∧
      h.insertWalk cmp x fuel (ptr t) (up p) comp = some (.found b.1)) ∨
    ∃ q comp', plug p t = plug q nil ∧ Follows (fun b : Nat × RbColor => cmp x b.1) q ∧
      (∀ f ∈ q.head?, comp' < 0 ↔ f.side = .left) ∧
      h.insertWalk cmp x fuel (ptr t) (up p) comp = some (.place (up q) comp') := by
  induction p, t, hp using search_induction generalizing fuel par comp with
  | empty p hp => exact Or.inr ⟨p, comp, rfl, hp, hcomp, by rw [ptr_nil, insertWalk]⟩
  | found p b l r hp hb =>
    refine Or.inl ⟨p, b, l, r, rfl, hp, hb, ?_⟩
    obtain ⟨fuel, rfl⟩ : ∃ k, fuel = k + 1 := ⟨fuel - 1, by simp only [height] at hfuel; omega⟩
    simp only [ptr_node, insertWalk, hb, lt_irrefl, if_false]
  | step p s b near far hp hturn ih =>
    obtain ⟨hb, hnear, _⟩ := stands_join.mp ht
    have hlt := height_join_lt s b near far
    obtain ⟨fuel, rfl⟩ : ∃ k, fuel = k + 1 := ⟨fuel - 1, by omega⟩
    have hstep : h.insertWalk cmp x (fuel + 1) (ptr (join s b near far)) (up p) comp =
        h.insertWalk cmp x fuel (ptr near) (some b.1) (cmp x b.1) := by
      rw [ptr_join, insertWalk, hturn.branch]
      cases s <;> simp only [child_at hb, at_child, Option.bind_eq_bind, Option.bind_some]
    rw [hstep]
    refine ih hnear (by omega) ?_
    intro f hf
    obtain rfl : _ = f := Option.some.inj hf
    exact hturn.neg_iff

theorem findLoop_stands (hp : Follows (fun b : Nat × RbColor => cmp x b.1) p) (ht : Stands h par t)
    (hfuel : t.height ≤ fuel) (hx : Probes (cmp x) (addrs (plug p t))) :
    h.findLoop cmp x fuel (ptr t) = some ((addrs (plug p t)).find? (cmp x · = 0)) := by
  induction p, t, hp using search_induction generalizing fuel par with
  | empty p hp =>
    obtain ⟨hlower, hupper⟩ := follows_lower_upper hp hx
    rw [ptr_nil, findLoop, addrs_plug, addrs_nil, List.append_nil, find_of_gap hlower hupper]
  | found p b l r hp hb =>
    obtain ⟨fuel, rfl⟩ : ∃ k, fuel = k + 1 := ⟨fuel - 1, by simp only [height] at hfuel; omega⟩
    have hsplit : addrs (plug p (node b l r)) = (lower p ++ addrs l) ++ b.1 :: (addrs r ++ upper p) := by
      simp [addrs_plug]
    rw [hsplit] at hx ⊢
    rw [find_of_zero (hx.pos hb.ge) hb]
    simp only [ptr_node, findLoop, hb, lt_irrefl, if_false]
  | step p s b near far hp hturn ih =>
    obtain ⟨hb, hnear, _⟩ := stands_join.mp ht
    have hlt := height_join_lt s b near far
    obtain ⟨fuel, rfl⟩ : ∃ k, fuel = k + 1 := ⟨fuel - 1, by omega⟩
    have hstep : h.findLoop cmp x (fuel + 1) (ptr (join s b near far)) = h.findLoop cmp x fuel (ptr near) := by
      rw [ptr_join, findLoop, hturn.branch]
      cases s <;> simp only [child_at hb, at_child, Option.bind_eq_bind, Option.bind_some]
    rw [hstep]
    exact ih hnear (by omega) hx

theorem find_holds (ht : Holds h t) (hx : Probes (cmp x) (addrs t)) (hfuel : t.height ≤ fuel) :
    h.find cmp fuel x = some ((addrs t).find? (cmp x · = 0)) := by
  rw [find, ht.root]
  exact findLoop_stands Follows.nil ht.stands hfuel hx

/-- RB_NFIND: the last element the search left to the left is the least one above. -/
theorem nfindLoop_stands (hp : Follows (fun b : Nat × RbColor => cmp x b.1) p) (ht : Stands h par t)
    (hfuel : t.height ≤ fuel) (hx : Probes (cmp x) (addrs (plug p t))) :
    h.nfindLoop cmp x fuel (ptr t) (upper p).head? = some ((addrs (plug p t)).find? (cmp x · ≤ 0)) := by
  induction p, t, hp using search_induction generalizing fuel par with
  | empty p hp =>
    obtain ⟨hlower, hupper⟩ := follows_lower_upper hp hx
    rw [ptr_nil, nfindLoop, addrs_plug, addrs_nil, List.append_nil, nfind_of_gap hlower fun a ha => (hupper a ha).le]
  | found p b l r hp hb =>
    obtain ⟨fuel, rfl⟩ : ∃ k, fuel = k + 1 := ⟨fuel - 1, by simp only [height] at hfuel; omega⟩
    have hsplit : addrs (plug p (node b l r)) = (lower p ++ addrs l) ++ b.1 :: (addrs r ++ upper p) := by
      simp [addrs_plug]
    rw [hsplit] at hx ⊢
    rw [nfind_of_gap (hx.pos hb.ge)]
    · simp only [ptr_node, nfindLoop, hb, lt_irrefl, if_false, List.head?_cons]
    · intro a ha
      rcases List.mem_cons.mp ha with rfl | ha
      · exact hb.le
      · exact (hx.neg hb.le a ha).le
  | step p s b near far hp hturn ih =>
    obtain ⟨hb, hnear, _⟩ := stands_join.mp ht
    have hlt := height_join_lt s b near far
    obtain ⟨fuel, rfl⟩ : ∃ k, fuel = k + 1 := ⟨fuel - 1, by omega⟩
    have hstep : h.nfindLoop cmp x (fuel + 1) (ptr (join s b near far)) (upper p).head? =
        h.nfindLoop cmp x fuel (ptr near) (upper (⟨s, b, far⟩ :: p)).head? := by
      rw [ptr_join, nfindLoop, hturn.branch]
      cases s <;> simp only [child_at hb, at_child, Option.bind_eq_bind, Option.bind_some] <;> rfl
    rw [hstep]
    exact ih hnear (by omega) hx

theorem nfind_holds (ht : Holds h t) (hx : Probes (cmp x) (addrs t)) (hfuel : t.height ≤ fuel) :
    h.nfind cmp fuel x = some ((addrs t).find? (cmp x · ≤ 0)) := by
  rw [nfind, ht.root]
  exact nfindLoop_stands Follows.nil ht.stands hfuel hx

/-- The end of a list toward a side. -/
def end? (s : Side) (L : List Nat) : Option Nat :=
  match s with
  | .left => L.head?
  | .right => L.getLast?

theorem addrs_eq_nil : addrs t = [] ↔ t = nil := by
  rw [addrs, List.map_eq_nil_iff, inorder_eq_nil]

theorem end_ne_none (ht : t ≠ nil) : end? s (addrs t) ≠ none := by
  cases s <;> simp [end?, addrs_eq_nil, ht]

theorem end_join (hnear : near ≠ nil) : end? s (addrs (join s b near far)) = end? s (addrs near) := by
  have hne : addrs near ≠ [] := mt addrs_eq_nil.mp hnear
  cases s with
  | left => rw [end?, join, addrs_node, List.head?_append_of_ne_nil _ hne, end?]
  | right =>
    rw [end?, join, addrs_node, List.getLast?_append_of_ne_nil _ (by simp), List.getLast?_cons, end?]
    cases hlast : (addrs near).getLast? with
    | none => exact absurd (List.getLast?_eq_none_iff.mp hlast) hne
    | some z => rfl

theorem end_join_nil : end? s (addrs (join s b nil far)) = some b.1 := by
  cases s <;> simp [end?, join]

theorem minmaxLoop_stands {val : Int} (hval : (if val < 0 then Side.left else .right) = s) (ht : Stands h par t)
    (hfuel : t.height ≤ fuel) : h.minmaxLoop val fuel (ptr t) q = some ((end? s (addrs t)).or q) := by
  induction t using join_induction s generalizing fuel par q with
  | empty => cases s <;> simp [minmaxLoop, end?]
  | step b near far ih =>
    obtain ⟨hb, hnear, _⟩ := stands_join.mp ht
    have hlt := height_join_lt s b near far
    obtain ⟨fuel, rfl⟩ : ∃ k, fuel = k + 1 := ⟨fuel - 1, by omega⟩
    have hloop := ih (q := some b.1) hnear (show near.height ≤ fuel by omega)
    simp only [ptr_join, minmaxLoop, hval, child_at hb, at_child, Option.bind_eq_bind, Option.bind_some, hloop]
    by_cases hnil : near = nil
    · subst hnil
      rw [end_join_nil]
      cases s <;> rfl
    · rw [end_join hnil]
      cases hend : end? s (addrs near) with
      | none => exact absurd hend (end_ne_none hnil)
      | some z => rfl

theorem rbMin_holds (ht : Holds h t) (hfuel : t.height ≤ fuel) : h.rbMin fuel = some (addrs t).head? := by
  rw [rbMin, minmax, ht.root, minmaxLoop_stands (s := .left) rfl ht.stands hfuel, Option.or_none]
  rfl

theorem rbMax_holds (ht : Holds h t) (hfuel : t.height ≤ fuel) : h.rbMax fuel = some (addrs t).getLast? := by
  rw [rbMax, minmax, ht.root, minmaxLoop_stands (s := .right) rfl ht.stands hfuel, Option.or_none]
  rfl

theorem extreme_stands (ht : Stands h par t) (hfuel : t.height ≤ fuel) (hne : t ≠ nil) :
    h.extreme s fuel (ptr t) = some (end? s (addrs t)) := by
  induction t using join_induction s generalizing fuel par with
  | empty => exact absurd rfl hne
  | step b near far ih =>
    obtain ⟨hb, hnear, _⟩ := stands_join.mp ht
    have hlt := height_join_lt s b near far
    obtain ⟨fuel, rfl⟩ : ∃ k, fuel = k + 1 := ⟨fuel - 1, by omega⟩
    simp only [ptr_join, extreme, child_at hb, at_child, Option.bind_eq_bind, Option.bind_some]
    by_cases hnil : near = nil
    · subst hnil
      rw [ptr_nil, end_join_nil]
    · rw [end_join hnil, ← ih hnear (show near.height ≤ fuel by omega) hnil]
      cases near with
      | nil => exact absurd rfl hnil
      | node c l r => rfl

/-- The elements on the other side of a place, seen from the one where a step goes. -/
def beyond (s : Side) (p : List (Frame (Nat × RbColor))) : List Nat :=
  match s with
  | .left => upper p
  | .right => lower p

theorem end_beyond : end? s (beyond s (⟨s, b, far⟩ :: p)) = some b.1 := by
  cases s with
  | left => rfl
  | right => simp [end?, beyond, lower, before]

theorem beyond_other : beyond s (⟨s.other, b, far⟩ :: p) = beyond s p := by
  cases s <;> rfl

/-- RB_NEXT and RB_PREV of an element without a child on that side. -/
theorem ascend_context (hp : Context h p (some z)) (hz : h.parent (some z) = some (up p)) (hd : (z :: sides p).Nodup)
    (hfuel : p.length < fuel) : h.ascend s fuel (some z) = some (end? s (beyond s p)) := by
  induction p generalizing fuel z with
  | nil =>
    obtain ⟨fuel, rfl⟩ : ∃ k, fuel = k + 1 := ⟨fuel - 1, by omega⟩
    simp only [ascend, hz, up_nil, Option.bind_eq_bind, Option.bind_some]
    cases s <;> rfl
  | cons f p ih =>
    obtain ⟨s', b, u⟩ := f
    obtain ⟨hf, hu, hp⟩ := hp
    obtain ⟨fuel, rfl⟩ : ∃ k, fuel = k + 1 := ⟨fuel - 1, by omega⟩
    rw [(sides_cons_perm.cons z).nodup_iff] at hd
    simp only [List.nodup_cons, List.mem_cons, List.mem_append, not_or, List.nodup_append] at hd
    obtain ⟨⟨hzb, hzu, _⟩, ⟨_, hbp⟩, _, hdp, _⟩ := hd
    have hapart : some z ≠ ptr u := fun heq => hzu (mem_of_ptr heq.symm)
    simp only [ascend, hz, up_cons, child_at hf, Option.bind_eq_bind, Option.bind_some]
    rcases Side.eq_or_other s s' with rfl | rfl
    · rw [at_child_other, if_neg hapart, end_beyond]
    · have hlen : p.length < fuel := by simpa using hfuel
      have hloop := ih hp (by rw [parent_at hf, at_parent]) (List.nodup_cons.mpr ⟨hbp, hdp⟩) hlen
      rw [at_child, if_pos rfl, hloop, beyond_other]

/-- The elements on that side of an element. -/
def rest (s : Side) (p : List (Frame (Nat × RbColor))) (far : BinaryTree (Nat × RbColor)) : List Nat :=
  match s with
  | .left => addrs far ++ upper p
  | .right => lower p ++ addrs far

theorem end_rest (hfar : far ≠ nil) : end? s (rest s p far) = end? s (addrs far) := by
  have hne : addrs far ≠ [] := mt addrs_eq_nil.mp hfar
  cases s with
  | left => exact List.head?_append_of_ne_nil _ hne
  | right => exact List.getLast?_append_of_ne_nil _ hne

theorem end_rest_nil : end? s (rest s p nil) = end? s (beyond s p) := by
  cases s <;> simp [rest, beyond]

theorem neighbor_holds (ht : Holds h (plug p (join s b near far)))
    (hfuel : (plug p (join s b near far)).height ≤ fuel) :
    h.neighbor s fuel b.1 = some (end? s (rest s p far)) := by
  obtain ⟨hp, hsub, hd⟩ := holds_plug.mp ht
  obtain ⟨hb, _, hfar⟩ := stands_join.mp hsub
  have hheight := length_path_le (p := p) (t := join s b near far)
  have hlt := height_join_lt s.other b far near
  rw [join_other] at hlt
  rw [ptr_join] at hp
  have hup : h.parent (some b.1) = some (up p) := by rw [parent_at hb, at_parent]
  have hd' := ((addrs_join_perm.append_left (sides p)).trans List.perm_middle).nodup_iff.mp hd
  simp only [List.nodup_cons, List.mem_append, not_or, List.nodup_append] at hd'
  have hascend := ascend_context (s := s) hp hup (List.nodup_cons.mpr ⟨hd'.1.1, hd'.2.1⟩)
    (show p.length < fuel by omega)
  by_cases hnil : far = nil
  · subst hnil
    simp only [neighbor, child_at hb, at_child_other, ptr_nil, hup, Option.bind_eq_bind, Option.bind_some, end_rest_nil]
    cases p with
    | nil => exact hascend
    | cons f p =>
      -- an element on the near side of its parent has the parent next to it
      obtain ⟨s', a, u⟩ := f
      rcases Side.eq_or_other s s' with rfl | rfl
      · simp only [up_cons, child_at hp.1, at_child, Option.bind_some, end_beyond]
        simp
      · have hside : h.child s (some a.1) = some (ptr u) := by
          have hchild := child_at (s := s.other.other) hp.1
          rwa [at_child_other, Side.other_other] at hchild
        have hapart : some b.1 ≠ ptr u := by
          intro heq
          refine hd'.1.1 (sides_cons_perm.mem_iff.mpr ?_)
          simp [mem_of_ptr heq.symm]
        simp only [up_cons, hside, Option.bind_some, hapart, and_false, if_false]
        exact hascend
  · rw [end_rest hnil, ← extreme_stands hfar (show far.height ≤ fuel by omega) hnil]
    simp only [neighbor, child_at hb, at_child_other, Option.bind_eq_bind, Option.bind_some]
    cases far with
    | nil => exact absurd rfl hnil
    | node c l r => rfl

theorem next_prev_holds (ht : Holds h t) (hsplit : addrs t = A ++ x :: B) (hfuel : t.height ≤ fuel) :
    h.next fuel x = some B.head? ∧ h.prev fuel x = some A.getLast? := by
  have hx : x ∈ addrs t := by rw [hsplit]; simp
  obtain ⟨b, hb, rfl⟩ := List.mem_map.mp hx
  obtain ⟨p, l, r, rfl⟩ := exists_plug hb
  have hplace : addrs (plug p (node b l r)) = (lower p ++ addrs l) ++ b.1 :: (addrs r ++ upper p) := by
    simp [addrs_plug]
  have hd := ht.nodup
  rw [hplace] at hd
  simp only [List.nodup_append, List.nodup_cons, List.mem_append] at hd
  obtain ⟨rfl, _, rfl⟩ := (List.append_cons_inj_of_notMem (fun hmem => hd.2.2 b.1 (List.mem_append.mp hmem) b.1
    List.mem_cons_self rfl) fun hmem => hd.2.1.1 (List.mem_append.mp hmem)).mp (hplace.symm.trans hsplit)
  exact ⟨neighbor_holds (s := .left) ht hfuel, neighbor_holds (s := .right) ht hfuel⟩

end RbHead

end CppInAction
