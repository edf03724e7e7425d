import CppInAction.RbInsert
import CppInAction.RbUnlink

namespace CppInAction

open BinaryTree RbTree

namespace RbHead

variable {h h' : RbHead} {s : Side} {x y : Nat × RbColor} {t u v w near far : BinaryTree (Nat × RbColor)}
  {p : List (Frame (Nat × RbColor))} {f : Frame (Nat × RbColor)} {a b m n fuel : Nat} {c d : RbColor}

theorem plug_far : plug (⟨s.other, x, near⟩ :: p) far = plug p (join s x near far) := plug_other

theorem child_near (ht : Holds h (plug p (join s x near far))) : h.child s (some x.1) = some (ptr near) := by
  rw [child_at (stands_join.mp (holds_plug.mp ht).2.1).1, at_child]

theorem child_far (ht : Holds h (plug p (join s x near far))) : h.child s.other (some x.1) = some (ptr far) := by
  rw [child_at (stands_join.mp (holds_plug.mp ht).2.1).1, at_child_other]

theorem color_holds (ht : Holds h (plug p (join s x near far))) : h.color (some x.1) = some x.2 := by
  rw [color_at (stands_join.mp (holds_plug.mp ht).2.1).1, at_color]

theorem parent_holds (ht : Holds h (plug p (join s x near far))) : h.parent (some x.1) = some (up p) := by
  rw [parent_at (stands_join.mp (holds_plug.mp ht).2.1).1, at_parent]

theorem isRed_holds (ht : Holds h (plug p t)) : h.isRed (ptr t) = some (decide (rootColor t = .red)) :=
  isRed_ptr (holds_plug.mp ht).2.1

theorem isRed_far (ht : Holds h (plug p (join s x near far))) :
    h.isRed (ptr far) = some (decide (rootColor far = .red)) := by
  rw [← plug_far] at ht
  exact isRed_holds ht

theorem Reshapes.refl (ht : Holds h t) : Reshapes h t h t := ⟨ht, rfl, fun _ _ => rfl⟩

theorem blacken_reshapes (ht : Holds h (plug p t)) :
    ∃ h', h.blacken (ptr t) = some h' ∧ Reshapes h (plug p t) h' (plug p (blackened t)) := by
  cases t with
  | nil => exact ⟨h, rfl, Reshapes.refl ht⟩
  | node b l r => exact setColor_reshapes (s := .left) ht .black

theorem childrenBlack_holds (ht : Holds h (plug p (join s x near far))) :
    h.childrenBlack (some x.1) = some (decide (rootColor near = .black ∧ rootColor far = .black)) := by
  have hnear := isRed_holds (p := ⟨s, x, far⟩ :: p) ht
  have hfar := isRed_far ht
  have hcn := child_near ht
  have hcf := child_far ht
  cases s <;> cases hn : rootColor near <;> cases hf : rootColor far <;>
    simp_all [childrenBlack, Side.other]

/-- With a red child on the far side of the sibling. -/
theorem removeColorEnd_far (ht : Holds h (plug p (join s (m, c) t (join s (a, d) near far)))) (hfar : rootColor far = .red) :
    ∃ h', h.removeColorEnd s (some m) (some a) = some h' ∧
      Reshapes h (plug p (join s (m, c) t (join s (a, d) near far))) h'
        (plug p (join s (a, c) (join s (m, .black) t near) (blackened far))) := by
  have ht0 := ht
  rw [← plug_far] at ht0
  have hcf := child_far ht0
  have hred := isRed_far ht0
  obtain ⟨h1, hset1, hr1⟩ := setColor_reshapes ht0 c
  rw [plug_far, plug_far] at hr1
  obtain ⟨h2, hset2, hr2⟩ := setColor_reshapes hr1.holds .black
  have ht2 := hr2.holds
  rw [← plug_far] at ht2
  have hcf2 := child_far ht2
  rw [← plug_far] at ht2
  obtain ⟨h3, hset3, hr3⟩ := blacken_reshapes ht2
  rw [plug_far, plug_far, plug_far, plug_far] at hr3
  obtain ⟨h4, hset4, hr4⟩ := rotate_reshapes hr3.holds
  refine ⟨h4, ?_, ((hr1.trans hr2).trans hr3).trans hr4⟩
  simp only [removeColorEnd, hcf, hred, hfar, color_holds ht, hset1, hset2, hcf2, hset3, hset4, Option.bind_eq_bind,
    Option.bind_some, decide_true, if_true]

/-- With a red child on the near side only: a rotation brings it to the place of the sibling. -/
theorem removeColorEnd_near (ht : Holds h (plug p (join s (m, c) t (join s (a, d) (join s (b, .red) u v) far))))
    (hfar : rootColor far = .black) :
    ∃ h', h.removeColorEnd s (some m) (some a) = some h' ∧
      Reshapes h (plug p (join s (m, c) t (join s (a, d) (join s (b, .red) u v) far))) h'
        (plug p (join s (b, c) (join s (m, .black) t u) (join s (a, .black) v far))) := by
  have ht0 := ht
  rw [← plug_far] at ht0
  have hcf := child_far ht0
  have hcn := child_near ht0
  have hblack := isRed_far ht0
  obtain ⟨h2, hset2, hr2⟩ := setBlackRed_reshapes ht0
  obtain ⟨h1, hset1, hset2⟩ := Option.bind_eq_some_iff.mp hset2
  obtain ⟨h3, hset3, hr3⟩ := rotate_other_reshapes hr2.holds
  have hr := hr2.trans hr3
  have ht3 := hr3.holds
  have hcf3 := child_far ht3
  have hred3 := isRed_far ht3
  rw [plug_far] at ht3
  have hm := child_far ht3
  obtain ⟨h4, hend, hr4⟩ := removeColorEnd_far ht3 rootColor_join
  have hsame : h.removeColorEnd s (some m) (some a) = h3.removeColorEnd s (some m) (some b) := by
    rw [ptr_join] at hcn hm
    simp only [removeColorEnd, hcf, hblack, hfar, hcn, blacken, hset1, hset2, hset3, hm, hcf3, hred3, rootColor_join,
      Option.bind_eq_bind, Option.bind_some, reduceCtorEq, decide_false, decide_true, Bool.false_eq_true,
      if_true, if_false]
  rw [plug_far, plug_far] at hr
  refine ⟨h4, hsame.trans hend, ?_⟩
  rw [blackened_join] at hr4
  exact hr.trans hr4

/-- A turn of the loop of RB_REMOVE_COLOR for a black sibling with two black children. -/
theorem removeColorTurn_black (ht : Holds h (plug p (join s (m, c) t (join s (a, .black) near far))))
    (hn : rootColor near = .black) (hf : rootColor far = .black) :
    ∃ h', h.removeColorTurn s (some m) = some (h', some (up p, some m)) ∧
      Reshapes h (plug p (join s (m, c) t (join s (a, .black) near far))) h'
        (plug p (join s (m, c) t (join s (a, .red) near far))) := by
  have hm := child_far ht
  have ht0 := ht
  rw [← plug_far] at ht0
  obtain ⟨h1, hset1, hr1⟩ := setColor_reshapes ht0 .red
  rw [plug_far, plug_far] at hr1
  refine ⟨h1, ?_, hr1⟩
  rw [ptr_join] at hm
  simp only [removeColorTurn, hm, color_holds ht0, childrenBlack_holds ht0, hn, hf, hset1, parent_holds hr1.holds,
    Option.bind_eq_bind, Option.bind_some, reduceCtorEq, and_self, decide_true, if_true, if_false]

/-- And for a black one with a red child. -/
theorem removeColorTurn_end (ht : Holds h (plug p (join s (m, c) t (join s (a, .black) near far))))
    (hred : ¬(rootColor near = .black ∧ rootColor far = .black)) :
    h.removeColorTurn s (some m) = (h.removeColorEnd s (some m) (some a)).map fun h' => (h', none) := by
  have hm := child_far ht
  have ht0 := ht
  rw [← plug_far] at ht0
  rw [ptr_join] at hm
  simp only [removeColorTurn, hm, color_holds ht0, childrenBlack_holds ht0, hred, Option.bind_eq_bind,
    Option.bind_some, reduceCtorEq, decide_false, Bool.false_eq_true, if_false]
  cases h.removeColorEnd s (some m) (some a) <;> rfl

/-- A red sibling is rotated up first. -/
theorem removeColorTurn_red (ht : Holds h (plug p (join s (m, c) t (join s (a, .red) (join s (b, .black) u v) far)))) :
    ∃ h', h.removeColorTurn s (some m) = h'.removeColorTurn s (some m) ∧
      Reshapes h (plug p (join s (m, c) t (join s (a, .red) (join s (b, .black) u v) far))) h'
        (plug p (join s (a, .black) (join s (m, .red) t (join s (b, .black) u v)) far)) := by
  have hm := child_far ht
  have ht0 := ht
  rw [← plug_far] at ht0
  obtain ⟨h1, hset1, hr1⟩ := setColor_reshapes ht0 .black
  rw [plug_far, plug_far] at hr1
  obtain ⟨h2, hset2, hr2⟩ := setColor_reshapes hr1.holds .red
  obtain ⟨h3, hset3, hr3⟩ := rotate_reshapes hr2.holds
  refine ⟨h3, ?_, (hr1.trans hr2).trans hr3⟩
  have ht3 : Holds h3 (plug (⟨s, (a, .black), far⟩ :: p) (join s (m, .red) t (join s (b, .black) u v))) := hr3.holds
  have hm3 := child_far ht3
  rw [← plug_far] at ht3
  have hblack := color_holds ht3
  rw [ptr_join] at hm hm3
  simp only [removeColorTurn, hm, color_holds ht0, setBlackRed, hset1, hset2, hset3, hm3, hblack, Option.bind_eq_bind,
    Option.bind_some, reduceCtorEq, if_true, if_false]

/-- A turn of the loop of RB_REMOVE_COLOR with a black sibling: it mends the tree, or
leaves the parent to the next turn. -/
theorem removeColorTurn_shape (ht : Holds h (plug (⟨s, (m, c), w⟩ :: p) t)) (hcw : rootColor w = .black)
    (hsw : Shape w (n + 1)) (hs : Shape t n) (hp : Takes (⟨s, (m, c), w⟩ :: p) (n + 1) .black) :
    (∃ h' t', h.removeColorTurn s (some m) = some (h', none) ∧ Reshapes h (plug (⟨s, (m, c), w⟩ :: p) t) h' t' ∧
      RedBlack t') ∨
    ∃ h' u k, h.removeColorTurn s (some m) = some (h', some (up p, some m)) ∧
      Reshapes h (plug (⟨s, (m, c), w⟩ :: p) t) h' (plug p (join s (m, c) t u)) ∧ Short (join s (m, c) t u) k ∧
      Takes p (k + 1) .black := by
  obtain ⟨⟨a, d⟩, near, far, rfl⟩ := hsw.exists_join s
  rw [rootColor_join] at hcw
  obtain rfl : d = .black := hcw
  obtain ⟨hnear, hfar⟩ := shape_black.mp hsw
  by_cases hboth : rootColor near = .black ∧ rootColor far = .black
  · obtain ⟨h1, hturn, hr1⟩ := removeColorTurn_black ht hboth.1 hboth.2
    obtain ⟨k, hk, hpk⟩ := hp.short hs (shape_red.mpr ⟨hboth.1, hboth.2, hnear, hfar⟩)
    exact Or.inr ⟨h1, _, k, hturn, hr1, hk, hpk⟩
  · refine Or.inl ?_
    have hturn := removeColorTurn_end ht hboth
    cases hcf : rootColor far with
    | red =>
      obtain ⟨f, l, r, rfl⟩ := exists_join_of_red hcf s
      obtain ⟨_, _, hl, hr⟩ := shape_red.mp hfar
      obtain ⟨h1, hend, hr1⟩ := removeColorEnd_far ht hcf
      refine ⟨h1, _, by rw [hturn, hend]; rfl, hr1, ?_⟩
      rw [blackened_join]
      exact hp.mended (shape_black.mpr ⟨hs, hnear⟩) rootColor_join (shape_black.mpr ⟨hl, hr⟩) rootColor_join
    | black =>
      have hcn : rootColor near = .red := by
        cases hcn : rootColor near with
        | red => rfl
        | black => exact absurd ⟨hcn, hcf⟩ hboth
      obtain ⟨b, u, v, rfl⟩ := exists_join_of_red hcn s
      obtain ⟨_, _, hu, hv⟩ := shape_red.mp hnear
      obtain ⟨h1, hend, hr1⟩ := removeColorEnd_near ht hcf
      refine ⟨h1, _, by rw [hturn, hend]; rfl, hr1, ?_⟩
      exact hp.mended (shape_black.mpr ⟨hs, hu⟩) rootColor_join (shape_black.mpr ⟨hv, hfar⟩) rootColor_join

/-- A turn with any sibling. When a red one is rotated up first, what is left to the next
turn has a red root. -/
theorem removeColorTurn_step (ht : Holds h (plug (⟨s, (m, c), w⟩ :: p) t)) (hs : Shape t n)
    (hp : Takes (⟨s, (m, c), w⟩ :: p) (n + 1) .black) :
    (∃ h' t', h.removeColorTurn s (some m) = some (h', none) ∧ Reshapes h (plug (⟨s, (m, c), w⟩ :: p) t) h' t' ∧
      RedBlack t') ∨
    ∃ h' q v k, h.removeColorTurn s (some m) = some (h', some (up q, ptr v)) ∧
      Reshapes h (plug (⟨s, (m, c), w⟩ :: p) t) h' (plug q v) ∧ Short v k ∧ Takes q (k + 1) .black ∧
      (q = p ∨ rootColor v = .red) := by
  cases hcw : rootColor w with
  | black =>
    rcases removeColorTurn_shape ht hcw hp.shape_sibling hs hp with hdone | ⟨h1, u, k, hturn, hr1, hk, hpk⟩
    · exact Or.inl hdone
    · exact Or.inr ⟨h1, p, _, k, by rw [hturn, ptr_join], hr1, hk, hpk, Or.inl rfl⟩
  | red =>
    obtain ⟨a, near, far, rfl⟩ := exists_join_of_red hcw s
    cases c with
    | red => cases hcw.symm.trans hp.2.1
    | black =>
      obtain ⟨hsw, hp⟩ := hp
      obtain ⟨hcn, _, hnear, hfar⟩ := shape_red.mp hsw
      obtain ⟨⟨b, d⟩, u, v, rfl⟩ := hnear.exists_join s
      rw [rootColor_join] at hcn
      obtain rfl : d = .black := hcn
      obtain ⟨h1, hsame, hr1⟩ := removeColorTurn_red ht
      have ht1 : Holds h1 (plug (⟨s, (m, .red), join s (b, .black) u v⟩ :: ⟨s, (a, .black), far⟩ :: p) t) := hr1.holds
      rcases removeColorTurn_shape ht1 rootColor_join hnear hs ⟨rfl, rootColor_join, hnear, hfar, hp⟩ with
        ⟨h2, t2, hturn, hr2, hrb⟩ | ⟨h2, u2, k, hturn, hr2, hk, hpk⟩
      · exact Or.inl ⟨h2, t2, hsame.trans hturn, hr1.trans hr2, hrb⟩
      · exact Or.inr ⟨h2, _, _, k, by rw [hsame, hturn, ptr_join], hr1.trans hr2, hk, hpk, Or.inr rootColor_join⟩

theorem ptr_plug_mem : ∃ z ∈ sides (f :: p), ptr (plug (f :: p) t) = some z := by
  induction p generalizing f t with
  | nil => exact ⟨f.label.1, sides_cons_perm.mem_iff.mpr List.mem_cons_self, ptr_join⟩
  | cons g p ih =>
    obtain ⟨z, hz, hptr⟩ := ih (f := g) (t := join f.side f.label t f.sibling)
    refine ⟨z, sides_cons_perm.mem_iff.mpr ?_, hptr⟩
    simp [hz]

/-- Below the root no subtree has the pointer of the root. -/
theorem ptr_ne_root (ht : Holds h (plug (f :: p) t)) : ptr t ≠ h.root := by
  obtain ⟨z, hz, hptr⟩ := ptr_plug_mem (f := f) (p := p) (t := t)
  rw [ht.root, hptr]
  intro heq
  have hd := addrs_plug_perm.nodup_iff.mp ht.nodup
  exact (List.nodup_append.mp hd).2.2 z hz z (mem_of_ptr heq) rfl

/-- With a subtree of the right black height, or a red root, the loop is at its end. -/
theorem removeColorLoop_end {q : Option Nat} (ht : Holds h (plug p t)) (hend : rootColor t = .red ∨ p = []) :
    removeColorLoop (fuel + 1) h q (ptr t) = some (h, ptr t) := by
  have hred := isRed_holds ht
  simp only [removeColorLoop, hred, Option.bind_eq_bind, Option.bind_some, decide_eq_true_eq]
  rw [if_pos]
  rcases hend with hc | rfl
  · exact Or.inl hc
  · exact Or.inr ht.root.symm

theorem removeColorLoop_turn (fuel : Nat) (ht : Holds h (plug (⟨s, (m, c), w⟩ :: p) t)) (hct : rootColor t = .black) (hw : w ≠ nil) :
    (∀ h', h.removeColorTurn s (some m) = some (h', none) →
      removeColorLoop (fuel + 1) h (some m) (ptr t) = some (h', h'.root)) ∧
    ∀ h' q e, h.removeColorTurn s (some m) = some (h', some (q, e)) →
      removeColorLoop (fuel + 1) h (some m) (ptr t) = removeColorLoop fuel h' q e := by
  have hred := isRed_holds ht
  have hroot := ptr_ne_root ht
  obtain ⟨hp, _, hd⟩ := holds_plug.mp ht
  have hapart : ptr w ≠ ptr t := by
    refine (ptr_ne hw fun z hz hzt => ?_).symm
    exact (List.nodup_append.mp hd).2.2 z (sides_cons_perm.mem_iff.mpr (by simp [hz])) z hzt rfl
  have hside : (if (RbEntry.at s (ptr t) (ptr w) (up p) c).child .left = ptr t then Side.left else .right) = s :=
    at_side hapart
  constructor
  · intro h' hturn
    simp only [removeColorLoop, hred, hct, hroot, child_at hp.1, hside, hturn, Option.bind_eq_bind, Option.bind_some,
      reduceCtorEq, decide_false, Bool.false_eq_true, or_false, if_false]
  · intro h' q e hturn
    simp only [removeColorLoop, hred, hct, hroot, child_at hp.1, hside, hturn, Option.bind_eq_bind, Option.bind_some,
      reduceCtorEq, decide_false, Bool.false_eq_true, or_false, if_false]

theorem blacken_root (ht : Holds h t) (hrb : RedBlack t) :
    ∃ h' t', h.blacken h.root = some h' ∧ Reshapes h t h' t' ∧ RedBlack t' := by
  obtain ⟨n, hs⟩ := hrb.shape
  obtain ⟨h', hset, hr⟩ := blacken_reshapes (p := []) ht
  exact ⟨h', _, ht.root ▸ hset, hr, hs.blackened⟩

/-- RB_REMOVE_COLOR fills the hole: the loop goes up while the levels of the sibling can be
made short too, and what it ends with becomes black. -/
theorem removeColorLoop_reshapes (ht : Holds h (plug p t)) (hs : Short t n) (hp : Takes p (n + 1) .black)
    (hfuel : p.length < fuel ∨ (rootColor t = .red ∧ 0 < fuel)) :
    ∃ h1 e h' t', removeColorLoop fuel h (up p) (ptr t) = some (h1, e) ∧ h1.blacken e = some h' ∧
      Reshapes h (plug p t) h' t' ∧ RedBlack t' := by
  induction fuel generalizing h p t n with
  | zero => omega
  | succ fuel ih =>
    cases hct : rootColor t with
    | red =>
      obtain ⟨h', hset, hr⟩ := blacken_reshapes ht
      refine ⟨h, _, h', _, removeColorLoop_end ht (Or.inl hct), hset, hr, redBlack_plug.mpr ⟨n + 1, ?_, ?_⟩⟩
      · exact (short_of_red hct).mp hs
      · rwa [rootColor_blackened]
    | black =>
      have hst := (short_of_black hct).mp hs
      cases p with
      | nil =>
        obtain ⟨h', hset, hr⟩ := blacken_reshapes (p := []) ht
        exact ⟨h, _, h', _, removeColorLoop_end ht (Or.inr rfl), hset, hr, hst.blackened⟩
      | cons f p =>
        have hlen : p.length < fuel := by
          rcases hfuel with hfuel | ⟨hred, _⟩
          · simpa using hfuel
          · rw [hct] at hred
            cases hred
        obtain ⟨s, ⟨m, c⟩, w⟩ := f
        obtain ⟨hdone, hagain⟩ := removeColorLoop_turn fuel ht hct hp.shape_sibling.ne_nil
        rcases removeColorTurn_step ht hst hp with ⟨h1, t1, hturn, hr1, hrb⟩ | ⟨h1, q, v, k, hturn, hr1, hk, hq, hdown⟩
        · obtain ⟨h2, t2, hset, hr2, hrb2⟩ := blacken_root hr1.holds hrb
          exact ⟨h1, _, h2, t2, hdone h1 hturn, hset, hr1.trans hr2, hrb2⟩
        · have hfuel' : q.length < fuel ∨ (rootColor v = .red ∧ 0 < fuel) := by
            rcases hdown with rfl | hred
            · exact Or.inl hlen
            · exact Or.inr ⟨hred, by omega⟩
          obtain ⟨h2, e, h3, t3, hloop, hset, hr3, hrb⟩ := ih hr1.holds hk hq hfuel'
          exact ⟨h2, e, h3, t3, (hagain h1 _ _ hturn).trans hloop, hset, hr1.trans hr3, hrb⟩

theorem removeColor_reshapes (ht : Holds h (plug p t)) (hs : Short t n) (hp : Takes p (n + 1) .black)
    (hfuel : p.length < fuel) :
    ∃ h' t', h.removeColor fuel (up p) (ptr t) = some h' ∧ Reshapes h (plug p t) h' t' ∧ RedBlack t' := by
  obtain ⟨h1, e, h', t', hloop, hset, hr, hrb⟩ := removeColorLoop_reshapes ht hs hp (Or.inl hfuel)
  refine ⟨h', t', ?_, hr, hrb⟩
  simp only [removeColor, hloop, hset, Option.bind_eq_bind, Option.bind_some]

/-- RB_REMOVE. -/
theorem remove_holds {z : Nat} (ht : Holds h t) (hrb : RedBlack t) (hz : z ∈ addrs t) (hfuel : t.height ≤ fuel) :
    ∃ h' t', h.remove fuel z = some (h', some z) ∧ Holds h' t' ∧ RedBlack t' ∧ addrs t' = (addrs t).erase z ∧
      h'.entries z ≠ none ∧ ∀ y ∉ addrs t, h'.entries y = h.entries y := by
  obtain ⟨h1, q, v, c, hset1, hun⟩ := unlink_unlinks ht hrb hz hfuel
  have hout : ∀ y ∉ (addrs t).erase z, y ∉ addrs (plug q v) := fun y hy => by rwa [hun.addrs]
  have hlen := hun.length
  cases c with
  | red =>
    refine ⟨h1, _, ?_, hun.holds, hun.hole, hun.addrs, hun.kept, hun.same⟩
    simp only [remove, hset1, Option.bind_eq_bind, Option.bind_some, reduceCtorEq, if_false]
  | black =>
    obtain ⟨n, hs, hp⟩ := hun.hole
    obtain ⟨h2, t2, hset2, hr2, hrb2⟩ := removeColor_reshapes hun.holds hs hp (show q.length < fuel by omega)
    refine ⟨h2, t2, ?_, hr2.holds, hrb2, hr2.addrs.trans hun.addrs, ?_, ?_⟩
    · simp only [remove, hset1, hset2, Option.bind_eq_bind, Option.bind_some, if_true]
    · rw [hr2.same z (hout z ht.nodup.not_mem_erase)]
      exact hun.kept
    · intro y hy
      rw [hr2.same y (hout y fun hmem => hy (List.mem_of_mem_erase hmem)), hun.same y hy]

end RbHead

end CppInAction
