import CppInAction.ProbeOrder
import CppInAction.SplayHeap

namespace CppInAction

open BinaryTree

namespace SplayWork

open SplayHead

variable {w w' w'' : SplayWork} {s : Side} {P P' P'' : Side → List (Frame Nat)} {t t' t'' near far l r : BinaryTree Nat}
  {b x fuel : Nat} {c : Nat → Int}

/-- What turns of the loop keep: the elements in their order, and on which side of the one
that is looked for those are that were linked away. -/
structure Turns (c : Nat → Int) (w : SplayWork) (P : Side → List (Frame Nat)) (t : BinaryTree Nat) (w' : SplayWork)
    (P' : Side → List (Frame Nat)) (t' : BinaryTree Nat) : Prop where
  splits : Splits w' P' t'
  spread : SplayWork.spread P' t' = SplayWork.spread P t
  clear : (∀ s, ∀ a ∈ around (P s), s.Leads (c a)) → ∀ s, ∀ a ∈ around (P' s), s.Leads (c a)
  same : ∀ z ∉ SplayWork.spread P t, w'.head.entries z = w.head.entries z

theorem Turns.refl (hw : Splits w P t) : Turns c w P t w P t := ⟨hw, rfl, fun hc => hc, fun _ _ => rfl⟩

theorem Turns.trans (h1 : Turns c w P t w' P' t') (h2 : Turns c w' P' t' w'' P'' t'') : Turns c w P t w'' P'' t'' where
  splits := h2.splits
  spread := h2.spread.trans h1.spread
  clear := fun hc => h2.clear (h1.clear hc)
  same := fun z hz => (h2.same z (h1.spread ▸ hz)).trans (h1.same z hz)

/-- What is behind a node, seen from the side where the search goes. -/
theorem far_clear {A B : List Nat} (h : Probes c (A ++ (join s b near far).inorder ++ B)) (hb : s.Leads (c b)) :
    ∀ a ∈ far.inorder, s.Leads (c a) := by
  cases s with
  | left =>
    have hsplit : A ++ (join .left b near far).inorder ++ B = (A ++ near.inorder) ++ b :: (far.inorder ++ B) := by
      simp [join]
    rw [hsplit] at h
    exact fun a ha => h.neg (le_of_lt hb) a (List.mem_append_left _ ha)
  | right =>
    have hsplit : A ++ (join .right b near far).inorder ++ B = (A ++ far.inorder) ++ b :: (near.inorder ++ B) := by
      simp [join]
    rw [hsplit] at h
    exact fun a ha => h.pos (le_of_lt hb) a (List.mem_append_right _ ha)

theorem link_turns (hw : Splits w P (join s b near far)) (hprobe : Probes c (spread P (join s b near far)))
    (hb : s.Leads (c b)) :
    ∃ w', w.link s = some w' ∧
      Turns c w P (join s b near far) w' (Function.update P s (⟨s, b, far⟩ :: P s)) near := by
  obtain ⟨w', hset, hw', hsame⟩ := hw.link
  refine ⟨w', hset, hw', spread_link, ?_, hsame⟩
  intro hclear
  refine forall_side s ?_ ?_
  · intro a ha
    rw [Function.update_self, around_cons_perm.mem_iff] at ha
    rcases List.mem_cons.mp ha with rfl | ha
    · exact hb
    · rcases List.mem_append.mp ha with ha | ha
      · exact far_clear hprobe hb a ha
      · exact hclear s a ha
  · intro a ha
    rw [Function.update_of_ne (by cases s <;> simp [Side.other])] at ha
    exact hclear s.other a ha

/-- A turn goes down, or comes to the last node of that side. -/
theorem turn_turns (hw : Splits w P (join s b near far)) (hprobe : Probes c (spread P (join s b near far)))
    (hb : s.Leads (c b)) :
    (∃ w' P' t', w.turn c s = some (w', true) ∧ Turns c w P (join s b near far) w' P' t' ∧ t' ≠ nil ∧
      t'.height < (join s b near far).height) ∨
    ∃ w' x far', w.turn c s = some (w', false) ∧ Turns c w P (join s b near far) w' P (join s x nil far') ∧
      s.Leads (c x) := by
  have hchild : w.head.child s w.head.root = some near.top := by
    rw [hw.root, top_join, child_at (stands_join.mp hw.stands).1, SplayEntry.at_child]
  by_cases hnil : near = nil
  · subst hnil
    refine Or.inr ⟨w, b, far, ?_, Turns.refl hw, hb⟩
    simp only [turn, hchild, top_nil, Option.bind_eq_bind, Option.bind_some]
  · obtain ⟨y, u, v, rfl⟩ : ∃ y u v, near = join s y u v := by
      cases near with
      | nil => exact absurd rfl hnil
      | node y l r =>
        cases s
        · exact ⟨y, l, r, rfl⟩
        · exact ⟨y, r, l, rfl⟩
    rw [top_join] at hchild
    by_cases hy : s.Leads (c y)
    · obtain ⟨h1, hset1, hw1, hsame1⟩ := hw.rotate
      have hspread : spread P (join s y u (join s b v far)) = spread P (join s b (join s y u v) far) :=
        spread_congr inorder_rotate.symm
      have hturns1 : Turns c w P (join s b (join s y u v) far) { w with head := h1 } P (join s y u (join s b v far)) :=
        ⟨hw1, hspread, fun hc => hc, hsame1⟩
      have hchild1 : h1.child s h1.root = some u.top := by
        rw [show h1.root = some y from hw1.root.trans top_join, child_at (stands_join.mp hw1.stands).1,
          SplayEntry.at_child]
      by_cases hu : u = nil
      · subst hu
        refine Or.inr ⟨{ w with head := h1 }, y, _, ?_, hturns1, hy⟩
        simp only [turn, hchild, hy, hset1, hchild1, top_nil, Option.bind_eq_bind, Option.bind_some, if_true]
      · rw [← hspread] at hprobe
        obtain ⟨w2, hset2, hturns2⟩ := link_turns hw1 hprobe hy
        refine Or.inl ⟨w2, _, u, ?_, hturns1.trans hturns2, hu, ?_⟩
        · simp only [turn, hchild, hy, hset1, hchild1, Option.bind_eq_bind, Option.bind_some, if_true]
          cases u with
          | nil => exact absurd rfl hu
          | node a l r => simp only [top_node, hset2, Option.bind_some]
        · have h1 := height_join_lt s y u v
          have h2 := height_join_lt s b (join s y u v) far
          omega
    · obtain ⟨w2, hset2, hturns2⟩ := link_turns hw hprobe hb
      refine Or.inl ⟨w2, _, _, ?_, hturns2, hnil, height_join_lt s b (join s y u v) far⟩
      simp only [turn, hchild, hy, hset2, Option.bind_eq_bind, Option.bind_some, if_false]

/-- The loop comes to a node with nothing of the wrong side next to it. -/
theorem loop_turns (hw : Splits w P t) (hne : t ≠ nil) (hprobe : Probes c (spread P t)) (hfuel : t.height ≤ fuel) :
    ∃ w' P' x l r, loop c fuel w = some w' ∧ Turns c w P t w' P' (.node x l r) ∧ (∀ a ∈ l.inorder, 0 < c a) ∧
      ∀ a ∈ r.inorder, c a < 0 := by
  induction fuel generalizing w P t with
  | zero =>
    cases t with
    | nil => exact absurd rfl hne
    | node b l r =>
      simp only [height] at hfuel
      omega
  | succ fuel ih =>
    cases t with
    | nil => exact absurd rfl hne
    | node b l r =>
      have hroot : w.head.root = some b := hw.root
      by_cases hb : c b = 0
      · have hsplit : spread P (.node b l r) = (before (P .right) ++ l.inorder) ++ b :: (r.inorder ++ after (P .left)) := by
          simp [spread]
        rw [hsplit] at hprobe
        refine ⟨w, P, b, l, r, ?_, Turns.refl hw, ?_, ?_⟩
        · simp only [loop, hroot, hb, Option.bind_eq_bind, Option.bind_some, if_true]
        · exact fun a ha => hprobe.pos hb.ge a (List.mem_append_right _ ha)
        · exact fun a ha => hprobe.neg hb.le a (List.mem_append_left _ ha)
      · obtain ⟨s, near, far, hview, hs⟩ : ∃ s near far, .node b l r = join s b near far ∧ s.Leads (c b) := by
          rcases lt_or_gt_of_ne hb with hneg | hpos
          · exact ⟨.left, l, r, rfl, hneg⟩
          · exact ⟨.right, r, l, rfl, hpos⟩
        have hside : (if c b < 0 then Side.left else .right) = s := by
          cases s with
          | left => exact if_pos hs
          | right => exact if_neg (not_lt.mpr (le_of_lt hs))
        rw [hview] at hw hprobe hfuel ⊢
        rcases turn_turns hw hprobe hs with ⟨w1, P1, t1, hturn, hturns1, hne1, hlt⟩ | ⟨w1, x, far', hturn, hturns1, hx⟩
        · obtain ⟨w2, P2, x, l2, r2, hloop, hturns2, hl, hr⟩ :=
            ih hturns1.splits hne1 (by rwa [hturns1.spread]) (by omega)
          refine ⟨w2, P2, x, l2, r2, ?_, hturns1.trans hturns2, hl, hr⟩
          simp only [loop, hroot, hb, hside, hturn, hloop, Option.bind_eq_bind, Option.bind_some, if_true, if_false]
        · have hfar : ∀ a ∈ far'.inorder, s.Leads (c a) := by
            rw [← hturns1.spread] at hprobe
            exact far_clear hprobe hx
          have hend : loop c (fuel + 1) w = some w1 := by
            simp only [loop, hroot, hb, hside, hturn, Option.bind_eq_bind, Option.bind_some, Bool.false_eq_true, if_false]
          cases s with
          | left => exact ⟨w1, P, x, nil, far', hend, hturns1, by simp, hfar⟩
          | right => exact ⟨w1, P, x, far', nil, hend, hturns1, hfar, by simp⟩

end SplayWork

namespace SplayHead

variable {h : SplayHead} {t : BinaryTree Nat} {c : Nat → Int} {fuel : Nat}

/-- SPLAY: the same elements in the same order, with those before and behind the place that
is looked for on the two sides of the root, but for the root itself. -/
theorem splayBy_holds (ht : Holds h t) (hne : t ≠ nil) (hprobe : Probes c t.inorder) (hfuel : t.height ≤ fuel) :
    ∃ h' x l r, h.splayBy c fuel = some h' ∧ Holds h' (node x l r) ∧ (node x l r).inorder = t.inorder ∧
      (∀ a ∈ l.inorder, 0 < c a) ∧ (∀ a ∈ r.inorder, c a < 0) ∧ ∀ z ∉ t.inorder, h'.entries z = h.entries z := by
  let w : SplayWork := ⟨h, ⟨none, none⟩, none, none⟩
  have hspread : SplayWork.spread (fun _ => []) t = t.inorder := by simp [SplayWork.spread, before, after]
  have hw : SplayWork.Splits w (fun _ => []) t := by
    refine ⟨ht.root, ht.stands, ?_, ?_, by rw [hspread]; exact ht.nodup⟩
    · exact fun s => ⟨none, by cases s <;> rfl⟩
    · exact fun s => by cases s <;> rfl
  rw [← hspread] at hprobe
  obtain ⟨w1, P, x, l, r, hloop, hturns, hl, hr⟩ := SplayWork.loop_turns hw hne hprobe hfuel
  obtain ⟨h', hset, ht', hsame⟩ := hturns.splits.assemble
  have hclear := hturns.clear (by simp [around, before, after])
  obtain ⟨_, hright⟩ := hturns.splits.spine .right
  obtain ⟨_, hleft⟩ := hturns.splits.spine .left
  have horder : (node x (plug (P .right) l) (plug (P .left) r)).inorder = t.inorder := by
    rw [← hspread, ← hturns.spread]
    simp [inorder_plug, SplayWork.spread, after_right hright.side, before_left hleft.side]
  refine ⟨h', x, _, _, ?_, ht', horder, ?_, ?_, ?_⟩
  · simp only [splayBy, hloop, hset, Option.bind_eq_bind, Option.bind_some, w]
  · intro a ha
    rcases List.mem_append.mp (plug_perm.mem_iff.mp ha) with ha | ha
    · exact hclear .right a ha
    · exact hl a ha
  · intro a ha
    rcases List.mem_append.mp (plug_perm.mem_iff.mp ha) with ha | ha
    · exact hclear .left a ha
    · exact hr a ha
  · intro z hz
    have hz' : z ∉ SplayWork.spread P (.node x l r) := by rwa [hturns.spread, hspread]
    rw [hsame z hz', hturns.same z (by rwa [hspread])]

end SplayHead

end CppInAction
