import CppInAction.RbSearch
import CppInAction.RbShape

namespace CppInAction

open BinaryTree RbTree

namespace RbHead

variable {h h' : RbHead} {s : Side} {b x y : Nat × RbColor} {t l r u v w near far : BinaryTree (Nat × RbColor)}
  {p : List (Frame (Nat × RbColor))} {f : Frame (Nat × RbColor)} {par q : Option Nat} {a n fuel : Nat} {c : RbColor}

theorem addrs_recolor : addrs (join s (b.1, c) near far) = addrs (join s b near far) := by
  cases s <;> simp [join]

theorem setColor_reshapes (ht : Holds h (plug p (join s b near far))) (c : RbColor) :
    ∃ h', h.setColor (some b.1) c = some h' ∧
      Reshapes h (plug p (join s b near far)) h' (plug p (join s (b.1, c) near far)) := by
  obtain ⟨hp, hsub, hd⟩ := holds_plug.mp ht
  obtain ⟨hb, hnear, hfar⟩ := stands_join.mp hsub
  have hperm : (sides p ++ addrs (join s b near far)).Perm (b.1 :: (sides p ++ (addrs near ++ addrs far))) :=
    (addrs_join_perm.append_left _).trans List.perm_middle
  have hd' := hperm.nodup_iff.mp hd
  simp only [List.nodup_cons, List.mem_append, not_or] at hd'
  obtain ⟨⟨hbp, hbn, hbf⟩, _⟩ := hd'
  have hsame : ∀ z, z ≠ b.1 → (h.put b.1 (.at s (ptr near) (ptr far) (up p) c)).entries z = h.entries z :=
    fun z hz => put_ne hz
  have haddrs : addrs (plug p (join s (b.1, c) near far)) = addrs (plug p (join s b near far)) :=
    addrs_plug_congr addrs_recolor
  refine ⟨_, by rw [setColor, modify_at hb, at_setColor],
    ⟨holds_plug.mpr ⟨?_, stands_join.mpr ⟨put_self, ?_, ?_⟩, ?_⟩, haddrs, ?_⟩⟩
  · rw [ptr_join] at hp ⊢
    exact hp.congr rfl fun z hz => hsame z (by rintro rfl; exact hbp hz)
  · exact hnear.congr fun z hz => hsame z (by rintro rfl; exact hbn hz)
  · exact hfar.congr fun z hz => hsame z (by rintro rfl; exact hbf hz)
  · rwa [← addrs_plug_perm.nodup_iff, haddrs, addrs_plug_perm.nodup_iff]
  · intro z hz
    refine hsame z ?_
    rintro rfl
    exact hz (mem_addrs_plug.mpr (Or.inr (addrs_join_perm.mem_iff.mpr List.mem_cons_self)))

theorem setBlackRed_reshapes {s' : Side} (ht : Holds h (plug p (join s y (join s' x near far) v))) :
    ∃ h', h.setBlackRed (some x.1) (some y.1) = some h' ∧
      Reshapes h (plug p (join s y (join s' x near far) v)) h'
        (plug p (join s (y.1, .red) (join s' (x.1, .black) near far) v)) := by
  obtain ⟨h1, hset1, hr1⟩ := setColor_reshapes (p := ⟨s, y, v⟩ :: p) ht .black
  obtain ⟨h2, hset2, hr2⟩ := setColor_reshapes (p := p) hr1.holds .red
  refine ⟨h2, ?_, hr1.trans hr2⟩
  simp only [setBlackRed, hset1, hset2, Option.bind_eq_bind, Option.bind_some]

theorem rotate_other_reshapes (ht : Holds h (plug p (join s y (join s x u v) w))) :
    ∃ h', h.rotate s.other (some y.1) = some h' ∧
      Reshapes h (plug p (join s y (join s x u v) w)) h' (plug p (join s x u (join s y v w))) := by
  have hview : join s.other y w (join s.other x v u) = join s y (join s x u v) w := by
    rw [join_other, join_other]
  have hresult : join s.other x (join s.other y w v) u = join s x u (join s y v w) := by
    rw [join_other, join_other]
  rw [← hview, ← hresult]
  rw [← hview] at ht
  exact rotate_reshapes ht

theorem isRed_ptr (ht : Stands h par t) : h.isRed (ptr t) = some (decide (rootColor t = .red)) := by
  cases t with
  | nil => rfl
  | node b l r =>
    rw [ptr_node, isRed, color_at ht.1]
    rfl

theorem isRed_up (hp : Context h (f :: p) q) : h.isRed (some f.label.1) = some (decide (f.label.2 = .red)) := by
  rw [isRed, color_at hp.1]
  simp

/-- With a red sibling of the parent: three colors change. -/
theorem insertColorTurn_red {s' : Side} {g m : Nat × RbColor}
    (ht : Holds h (plug p (join s g (join s' m t w) (join .left (a, .red) l r)))) :
    ∃ h', h.insertColorTurn s (some g.1) (some m.1) q = some (h', some g.1) ∧
      Reshapes h (plug p (join s g (join s' m t w) (join .left (a, .red) l r))) h'
        (plug p (join s (g.1, .red) (join s' (m.1, .black) t w) (join .left (a, .black) l r))) := by
  obtain ⟨hp, hsub, _⟩ := holds_plug.mp ht
  obtain ⟨hg, _, hu⟩ := stands_join.mp hsub
  have hred := isRed_ptr hu
  have hview : ∀ t', plug (⟨s.other, g, join s' m t w⟩ :: p) t' = plug p (join s g (join s' m t w) t') :=
    fun t' => plug_other
  have ht' := ht
  rw [← hview] at ht'
  obtain ⟨h1, hset1, hr1⟩ := setColor_reshapes ht' .black
  rw [hview, hview] at hr1
  obtain ⟨h2, hset2, hr2⟩ := setBlackRed_reshapes hr1.holds
  refine ⟨h2, ?_, hr1.trans hr2⟩
  rw [ptr_join] at hred
  simp only [insertColorTurn, child_at hg, at_child_other, hred, rootColor_join, ptr_join, hset1, hset2, Option.bind_eq_bind,
    Option.bind_some, decide_true, if_true]

/-- With a black one, and the new element on the outer side of its parent. -/
theorem insertColorTurn_outer {g m : Nat × RbColor} (ht : Holds h (plug p (join s g (join s m t w) u)))
    (hu : rootColor u = .black) (hne : t ≠ nil) :
    ∃ h', h.insertColorTurn s (some g.1) (some m.1) (ptr t) = some (h', ptr t) ∧
      Reshapes h (plug p (join s g (join s m t w) u)) h'
        (plug p (join s (m.1, .black) t (join s (g.1, .red) w u))) := by
  obtain ⟨hp, hsub, hd⟩ := holds_plug.mp ht
  obtain ⟨hg, hm, hsib⟩ := stands_join.mp hsub
  have hred := isRed_ptr hsib
  obtain ⟨hm, htm, hw⟩ := stands_join.mp hm
  have hinner : ptr w ≠ ptr t := by
    refine ptr_ne hne fun z hz hzw => ?_
    have hd := (((addrs_join_perm.trans ((addrs_join_perm.append_right _).cons _)).append_left _).nodup_iff).mp hd
    simp only [List.nodup_append, List.nodup_cons, List.mem_append] at hd
    exact hd.2.1.2.1.2.2.2 z hz z hzw rfl
  obtain ⟨h1, hset1, hr1⟩ := setBlackRed_reshapes ht
  obtain ⟨h2, hset2, hr2⟩ := rotate_other_reshapes hr1.holds
  refine ⟨h2, ?_, hr1.trans hr2⟩
  simp only [insertColorTurn, child_at hg, at_child_other, hred, hu, child_at hm, hinner, hset1, hset2,
    Option.bind_eq_bind, Option.bind_some, reduceCtorEq, decide_false, Bool.false_eq_true, if_false]

/-- And on the inner side. -/
theorem insertColorTurn_inner {g m : Nat × RbColor}
    (ht : Holds h (plug p (join s g (join s m w (join s x near far)) u))) (hu : rootColor u = .black) :
    ∃ h', h.insertColorTurn s (some g.1) (some m.1) (some x.1) = some (h', some m.1) ∧
      Reshapes h (plug p (join s g (join s m w (join s x near far)) u)) h'
        (plug p (join s (x.1, .black) (join s m w near) (join s (g.1, .red) far u))) := by
  obtain ⟨hp, hsub, hd⟩ := holds_plug.mp ht
  obtain ⟨hg, hm, hsib⟩ := stands_join.mp hsub
  have hred := isRed_ptr hsib
  obtain ⟨hm, hw, hx⟩ := stands_join.mp hm
  obtain ⟨h1, hset1, hr1⟩ := rotate_reshapes (p := ⟨s, g, u⟩ :: p) ht
  obtain ⟨h2, hset2, hr2⟩ := setBlackRed_reshapes (p := p) hr1.holds
  obtain ⟨h3, hset3, hr3⟩ := rotate_other_reshapes hr2.holds
  refine ⟨h3, ?_, (hr1.trans hr2).trans hr3⟩
  rw [ptr_join] at hm
  simp only [insertColorTurn, child_at hg, at_child_other, hred, hu, child_at hm, hset1, hset2, hset3,
    Option.bind_eq_bind, Option.bind_some, reduceCtorEq, decide_false, Bool.false_eq_true, if_false, if_true]

theorem parent_ptr (ht : Stands h par t) (hne : t ≠ nil) : h.parent (ptr t) = some par := by
  cases t with
  | nil => exact absurd rfl hne
  | node b l r => exact parent_at ht.1

theorem ne_nil_of_red (ht : rootColor t = .red) : t ≠ nil := by
  rintro rfl
  cases ht

/-- Below a black parent, or as the root, the new element ends the loop. -/
theorem insertColorLoop_end (fuel : Nat) (ht : Holds h (plug p t)) (hne : t ≠ nil)
    (hp : ∀ f ∈ p.head?, f.label.2 = .black) : insertColorLoop (fuel + 1) h (ptr t) = some h := by
  obtain ⟨hc, hsub, _⟩ := holds_plug.mp ht
  have hparent := parent_ptr hsub hne
  have hred : h.isRed (up p) = some false := by
    cases p with
    | nil => rfl
    | cons f p => simp [up_cons, isRed_up hc, hp f rfl]
  simp only [insertColorLoop, hparent, hred, Option.bind_eq_bind, Option.bind_some, Bool.false_eq_true, if_false]

/-- Two red nodes below a black one: what the next turn is about. -/
theorem insertColorLoop_turn {s s' : Side} {g m : Nat} (fuel : Nat)
    (ht : Holds h (plug p (join s (g, .black) (join s' (m, .red) t w) u))) (hne : t ≠ nil) :
    insertColorLoop (fuel + 1) h (ptr t) =
      (h.insertColorTurn s (some g) (some m) (ptr t)).bind fun r => insertColorLoop fuel r.1 r.2 := by
  obtain ⟨_, hsub, hd⟩ := holds_plug.mp ht
  obtain ⟨hg, hm, _⟩ := stands_join.mp hsub
  obtain ⟨hm, htm, _⟩ := stands_join.mp hm
  have hparent := parent_ptr htm hne
  have hred : h.isRed (some m) = some true := by simp [isRed, color_at hm]
  have hapart : ptr u ≠ some m := by
    intro heq
    have hd := (((addrs_join_perm.trans ((addrs_join_perm.append_right _).cons _)).append_left _).nodup_iff).mp hd
    simp only [List.nodup_append, List.nodup_cons, List.mem_append] at hd
    exact hd.2.1.2.2.2 m List.mem_cons_self m (mem_of_ptr heq) rfl
  have hside : (if some m = (RbEntry.at s (some m) (ptr u) (up p) .black).child .left then Side.left else .right) = s := by
    rw [if_congr eq_comm rfl rfl]
    exact at_side hapart
  rw [ptr_join] at hg
  simp only [insertColorLoop, hparent, hred, parent_at hm, at_parent, child_at hg, hside, Option.bind_eq_bind,
    Option.bind_some, if_true]

/-- The loop of RB_INSERT_COLOR ends with a tree that may only have a red root. -/
theorem insertColorLoop_reshapes (ht : Holds h (plug p t)) (hred : rootColor t = .red) (hs : Shape t n)
    (hp : Takes p n .black) (hfuel : p.length < fuel) :
    ∃ h' t', insertColorLoop fuel h (ptr t) = some h' ∧ Reshapes h (plug p t) h' t' ∧ ∃ m, Shape t' m := by
  induction fuel generalizing h p t n with
  | zero => omega
  | succ fuel ih =>
    have hne := ne_nil_of_red hred
    have hstay : Reshapes h (plug p t) h (plug p t) := ⟨ht, rfl, fun _ _ => rfl⟩
    cases p with
    | nil => exact ⟨h, t, insertColorLoop_end fuel ht hne (by simp), hstay, n, hs⟩
    | cons f p =>
      obtain ⟨s', ⟨m, c⟩, w⟩ := f
      cases c with
      | black =>
        refine ⟨h, _, insertColorLoop_end fuel ht hne (by simp), hstay, ?_⟩
        exact (redBlack_plug.mpr ⟨n, hs, by rw [hred]; exact hp⟩).shape
      | red =>
        obtain ⟨_, hcw, hw, hp⟩ := hp
        cases p with
        | nil => cases hp
        | cons f p =>
          obtain ⟨s, ⟨g, c⟩, u⟩ := f
          cases c with
          | red => cases hp.1
          | black =>
            obtain ⟨hu, hp⟩ := hp
            have hturn := insertColorLoop_turn (p := p) fuel ht hne
            simp only [List.length_cons] at hfuel
            cases hcu : rootColor u with
            | red =>
              -- the colors change, and the loop goes on with the grandparent
              obtain ⟨a, l, r, rfl⟩ := exists_join_of_red hcu .left
              obtain ⟨_, _, hl, hr⟩ := shape_red.mp hu
              obtain ⟨h1, hset1, hr1⟩ := insertColorTurn_red (p := p) (q := ptr t) ht
              have hs1 : Shape (join s (g, .red) (join s' (m, .black) t w) (join .left (a, .black) l r)) (n + 1) :=
                shape_red.mpr ⟨rootColor_join, rootColor_join, shape_black.mpr ⟨hs, hw⟩, shape_black.mpr ⟨hl, hr⟩⟩
              obtain ⟨h2, t2, hloop, hr2, hgood⟩ := ih hr1.holds rootColor_join hs1 hp (by omega)
              refine ⟨h2, t2, ?_, hr1.trans hr2, hgood⟩
              rw [ptr_join] at hloop
              rw [hturn, hset1, Option.bind_some, hloop]
            | black =>
              obtain ⟨fuel, rfl⟩ : ∃ k, fuel = k + 1 := ⟨fuel - 1, by omega⟩
              rcases Side.eq_or_other s s' with rfl | rfl
              · obtain ⟨h1, hset1, hr1⟩ := insertColorTurn_outer (p := p) ht hcu hne
                refine ⟨h1, _, ?_, hr1, ?_⟩
                · rw [hturn, hset1, Option.bind_some]
                  exact insertColorLoop_end (p := ⟨s', (m, .black), join s' (g, .red) w u⟩ :: p) fuel hr1.holds hne (by simp)
                · refine (redBlack_plug.mpr ⟨n + 1, shape_black.mpr ⟨hs, shape_red.mpr ⟨hcw, hcu, hw, hu⟩⟩, ?_⟩).shape
                  rwa [rootColor_join]
              · obtain ⟨x, near, far, rfl⟩ := exists_join_of_red hred s
                obtain ⟨hcn, hcf, hn, hf⟩ := shape_red.mp hs
                have hview : plug (⟨s.other, (m, .red), w⟩ :: ⟨s, (g, .black), u⟩ :: p) (join s (x, .red) near far) =
                    plug p (join s (g, .black) (join s (m, .red) w (join s (x, .red) near far)) u) := by
                  rw [plug, plug, join_other]
                rw [hview] at ht ⊢
                obtain ⟨h1, hset1, hr1⟩ := insertColorTurn_inner ht hcu
                have hs1 : Shape (join s (m, .red) w near) n := shape_red.mpr ⟨hcw, hcn, hw, hn⟩
                have hs2 : Shape (join s (g, .red) far u) n := shape_red.mpr ⟨hcf, hcu, hf, hu⟩
                refine ⟨h1, _, ?_, hr1, ?_⟩
                · have hend := insertColorLoop_end (p := ⟨s, (x, .black), join s (g, .red) far u⟩ :: p) fuel
                    (t := join s (m, .red) w near) hr1.holds (ne_nil_of_red rootColor_join) (by simp)
                  rw [ptr_join] at hend hturn ⊢
                  rw [hturn, hset1, Option.bind_some, hend]
                · refine (redBlack_plug.mpr ⟨n + 1, shape_black.mpr ⟨hs1, hs2⟩, ?_⟩).shape
                  rwa [rootColor_join]

theorem Reshapes.ne_nil (hr : Reshapes h t h' u) (ht : t ≠ nil) : u ≠ nil := by
  rintro rfl
  have haddrs : (RbHead.addrs t).length = 0 := by rw [← hr.addrs, addrs_nil, List.length_nil]
  rw [RbHead.addrs, List.length_map, List.length_eq_zero_iff] at haddrs
  exact ht (inorder_eq_nil.mp haddrs)

/-- RB_INSERT_COLOR, for a new red element anywhere in a tree that is red-black without it. -/
theorem insertColor_reshapes (ht : Holds h (plug p t)) (hred : rootColor t = .red) (hs : Shape t n)
    (hp : Takes p n .black) (hfuel : p.length < fuel) :
    ∃ h' t', insertColor fuel h (ptr t) = some h' ∧ Reshapes h (plug p t) h' t' ∧ RedBlack t' := by
  obtain ⟨h1, t1, hloop, hr1, m, hm⟩ := insertColorLoop_reshapes ht hred hs hp hfuel
  have hne := hr1.ne_nil fun heq => ne_nil_of_red hred (plug_eq_nil.mp heq).2
  cases t1 with
  | nil => exact absurd rfl hne
  | node b l r =>
    obtain ⟨h2, hset2, hr2⟩ := setColor_reshapes (p := []) (s := .left) hr1.holds .black
    refine ⟨h2, _, ?_, hr1.trans hr2, hm.blackened⟩
    have hroot := hr1.holds.root
    rw [ptr_node] at hroot
    simp only [insertColor, hloop, hroot, hset2, Option.bind_eq_bind, Option.bind_some]

/-- The new element at an empty place. -/
theorem link_holds {z : Nat} {comp : Int} (ht : Holds h (plug p nil)) (hz : z ∉ addrs (plug p nil))
    (hentry : h.entries z ≠ none) (hcomp : ∀ f ∈ p.head?, comp < 0 ↔ f.side = .left) :
    ∃ h', h.link z (up p) comp = some h' ∧ Holds h' (plug p (node (z, .red) nil nil)) ∧
      ∀ y ∉ addrs (plug p nil), y ≠ z → h'.entries y = h.entries y := by
  obtain ⟨hp, _, hd⟩ := holds_plug.mp ht
  simp only [mem_addrs_plug, addrs_nil, List.not_mem_nil, or_false] at hz
  rw [addrs_nil, List.append_nil] at hd
  obtain ⟨old, hold⟩ := Option.ne_none_iff_exists'.mp hentry
  let h1 := h.put z ⟨none, none, up p, .red⟩
  have hset1 : h.set (some z) (up p) = some h1 := by rw [set, modify_at hold]
  have hsame1 : ∀ y, y ≠ z → h1.entries y = h.entries y := fun y hy => put_ne hy
  have hd' : (sides p ++ addrs (node (z, RbColor.red) nil nil)).Nodup := by
    rw [addrs_node, addrs_nil, List.nil_append]
    exact List.nodup_append.mpr ⟨hd, by simp, by rintro y hy _ (_ | ⟨_, ⟨⟩⟩) rfl; exact hz hy⟩
  cases p with
  | nil =>
    rw [up_nil] at hset1
    refine ⟨{ h1 with root := some z }, by simp only [link, hset1, up_nil, Option.bind_eq_bind, Option.bind_some],
      holds_plug.mpr ⟨rfl, ⟨put_self, trivial, trivial⟩, hd'⟩, fun y _ hy => hsame1 y hy⟩
  | cons f p =>
    obtain ⟨s, b, u⟩ := f
    obtain ⟨hf, hu, hp⟩ := hp
    rw [sides_cons_perm.mem_iff] at hz
    rw [sides_cons_perm.nodup_iff] at hd
    simp only [List.nodup_cons, List.mem_cons, List.mem_append, not_or, List.nodup_append] at hd hz
    obtain ⟨hzb, hzu, hzp⟩ := hz
    obtain ⟨⟨hbu, hbp⟩, _⟩ := hd
    have hside : (if comp < 0 then Side.left else .right) = s := by
      have hiff := hcomp ⟨s, b, u⟩ rfl
      cases s with
      | left => exact if_pos (hiff.mpr rfl)
      | right => exact if_neg fun hneg => by cases hiff.mp hneg
    have hf1 : h1.entries b.1 = some (.at s none (ptr u) (up p) b.2) := (hsame1 b.1 (Ne.symm hzb)).trans hf
    let h2 := h1.put b.1 (.at s (some z) (ptr u) (up p) b.2)
    have hsame2 : ∀ y, y ≠ b.1 → h2.entries y = h1.entries y := fun y hy => put_ne hy
    refine ⟨h2, ?_, holds_plug.mpr ⟨⟨put_self, hu.congr ?_, hp.congr rfl ?_⟩, ⟨?_, trivial, trivial⟩, hd'⟩, ?_⟩
    · rw [up_cons] at hset1
      simp only [link, hset1, up_cons, hside, setChild, modify_at hf1, at_setChild, Option.bind_eq_bind, Option.bind_some]
      rfl
    · intro y hy
      rw [hsame2 y (by rintro rfl; exact hbu hy), hsame1 y (by rintro rfl; exact hzu hy)]
    · intro y hy
      rw [hsame2 y (by rintro rfl; exact hbp hy), hsame1 y (by rintro rfl; exact hzp hy)]
    · rw [hsame2 z hzb]
      exact put_self
    · intro y hy hyz
      rw [mem_addrs_plug, sides_cons_perm.mem_iff] at hy
      simp only [List.mem_cons, not_or] at hy
      rw [hsame2 y hy.1.1, hsame1 y hyz]

/-- The walk of RB_INSERT ends at an equal element, or where the new one has its place. -/
theorem insertWalk_holds {cmp : Nat → Nat → Int} {z : Nat} (ht : Holds h t) (hprobe : Probes (cmp z) (addrs t))
    (hfuel : t.height ≤ fuel) :
    (∃ y, (addrs t).find? (cmp z · = 0) = some y ∧ h.insertWalk cmp z fuel h.root none 0 = some (.found y)) ∨
    ∃ q comp, t = plug q nil ∧ (∀ a ∈ lower q, 0 < cmp z a) ∧ (∀ a ∈ upper q, cmp z a < 0) ∧
      (∀ f ∈ q.head?, comp < 0 ↔ f.side = .left) ∧
      h.insertWalk cmp z fuel h.root none 0 = some (.place (up q) comp) := by
  have hstart : Follows (fun b : Nat × RbColor => cmp z b.1) [] := Follows.nil
  rw [ht.root]
  have hfirst : ∀ f ∈ ([] : List (Frame (Nat × RbColor))).head?, (0 : Int) < 0 ↔ f.side = .left := by simp
  rcases insertWalk_stands hstart ht.stands hfuel hfirst with
    ⟨q, b, l, r, htree, hq, hb, hwalk⟩ | ⟨q, comp, htree, hq, hcomp, hwalk⟩
  · refine Or.inl ⟨b.1, ?_, hwalk⟩
    have hsplit : addrs t = (lower q ++ addrs l) ++ b.1 :: (addrs r ++ upper q) := by
      rw [show t = plug q (node b l r) from htree]
      simp [addrs_plug]
    rw [hsplit] at hprobe ⊢
    exact find_of_zero (hprobe.pos hb.ge) hb
  · have htree' : t = plug q nil := htree
    subst htree'
    obtain ⟨hlower, hupper⟩ := follows_lower_upper hq hprobe
    exact Or.inr ⟨q, comp, rfl, hlower, hupper, hcomp, hwalk⟩

/-- RB_INSERT with an equal element in the tree. -/
theorem insert_found {cmp : Nat → Nat → Int} {y z : Nat} (ht : Holds h t) (hprobe : Probes (cmp z) (addrs t))
    (hfind : (addrs t).find? (cmp z · = 0) = some y) (hfuel : t.height ≤ fuel) :
    h.insert cmp fuel z = some (h, some y) := by
  rcases insertWalk_holds ht hprobe hfuel with ⟨y', hfind', hwalk⟩ | ⟨q, comp, rfl, hlower, hupper, _⟩
  · obtain rfl : y' = y := Option.some.inj (hfind'.symm.trans hfind)
    simp only [insert, hwalk, Option.bind_eq_bind, Option.bind_some]
  · rw [addrs_plug, addrs_nil, List.append_nil, find_of_gap hlower hupper] at hfind
    cases hfind

/-- RB_INSERT without one. -/
theorem insert_new {cmp : Nat → Nat → Int} {z : Nat} (hc : CmpOrder cmp) (ht : Holds h t) (hrb : RedBlack t)
    (hprobe : Probes (cmp z) (addrs t)) (hfind : (addrs t).find? (cmp z · = 0) = none) (hz : h.entries z ≠ none)
    (hfuel : t.height < fuel) :
    ∃ h' t', h.insert cmp fuel z = some (h', none) ∧ Holds h' t' ∧ RedBlack t' ∧
      addrs t' = (addrs t).orderedInsert (cmp · · ≤ 0) z ∧ ∀ y ∉ addrs t, y ≠ z → h'.entries y = h.entries y := by
  rcases insertWalk_holds ht hprobe hfuel.le with ⟨y', hfind', _⟩ | ⟨q, comp, rfl, hlower, hupper, hcomp, hwalk⟩
  · cases hfind'.symm.trans hfind
  · have hmem : z ∉ addrs (plug q nil) := by
      intro hmem
      rw [List.find?_eq_none] at hfind
      exact hfind z hmem (by simpa using hc.refl z)
    obtain ⟨h1, hset1, hholds1, hsame1⟩ := link_holds ht hmem hz hcomp
    obtain ⟨n, hs, hp⟩ := redBlack_plug.mp hrb
    have hn : n = 0 := hs
    subst hn
    have hshape : Shape (node (z, .red) nil nil) 0 := ⟨rfl, rfl, rfl, rfl⟩
    have hlen := length_path_le (p := q) (t := (nil : BinaryTree (Nat × RbColor)))
    obtain ⟨h2, t2, hset2, hr2, hrb2⟩ := insertColor_reshapes hholds1 rfl hshape hp (show q.length < fuel by omega)
    refine ⟨h2, t2, ?_, hr2.holds, hrb2, ?_, ?_⟩
    · rw [ptr_node] at hset2
      simp only [insert, hwalk, hset1, hset2, Option.bind_eq_bind, Option.bind_some]
    · rw [hr2.addrs, addrs_plug, addrs_plug, addrs_nil, List.append_nil, orderedInsert_of_gap hlower hupper]
      simp
    · intro y hy hyz
      rw [hr2.same, hsame1 y hy hyz]
      rw [mem_addrs_plug] at hy ⊢
      simp only [addrs_node, addrs_nil, List.nil_append, List.mem_singleton]
      tauto

end RbHead

end CppInAction
