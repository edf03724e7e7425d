import CppInAction.RbTree
import Mathlib.Tactic.Common

namespace CppInAction

open BinaryTree

/-- The entry of an element, the child on the given side first. -/
def RbEntry.at (s : Side) (near far parent : Option Nat) (c : RbColor) : RbEntry :=
  match s with
  | .left => ⟨near, far, parent, c⟩
  | .right => ⟨far, near, parent, c⟩

namespace RbHead

/-- The pointer to a tree of elements with their colors. -/
def ptr (t : BinaryTree (Nat × RbColor)) : Option Nat := t.top.map Prod.fst

def addrs (t : BinaryTree (Nat × RbColor)) : List Nat := t.inorder.map Prod.fst

/-- The parent that a tree at the end of the path has. -/
def up (p : List (Frame (Nat × RbColor))) : Option Nat := p.head?.map (·.label.1)

/-- The elements of a path and of its other subtrees. -/
def sides (p : List (Frame (Nat × RbColor))) : List Nat := (around p).map Prod.fst

/-- The tree is in memory, below the given parent. -/
def Stands (h : RbHead) (par : Option Nat) : BinaryTree (Nat × RbColor) → Prop
  | nil => True
  | node b l r => h.entries b.1 = some ⟨ptr l, ptr r, par, b.2⟩ ∧ Stands h (some b.1) l ∧ Stands h (some b.1) r

/-- The path is in memory, from the root down to a link to q. -/
def Context (h : RbHead) : List (Frame (Nat × RbColor)) → Option Nat → Prop
  | [], q => h.root = q
  | f :: p, q => h.entries f.label.1 = some (.at f.side q (ptr f.sibling) (up p) f.label.2) ∧
      Stands h (some f.label.1) f.sibling ∧ Context h p (some f.label.1)

/-- The tree of the head. -/
structure Holds (h : RbHead) (t : BinaryTree (Nat × RbColor)) : Prop where
  root : h.root = ptr t
  stands : Stands h none t
  nodup : (addrs t).Nodup

variable {h h' : RbHead} {s : Side} {b x y : Nat × RbColor} {a t l r u v near far : BinaryTree (Nat × RbColor)}
  {p : List (Frame (Nat × RbColor))} {f : Frame (Nat × RbColor)} {par q : Option Nat} {e : RbEntry} {z : Nat}

@[simp] theorem ptr_nil : ptr nil = none := rfl

@[simp] theorem ptr_node : ptr (node b l r) = some b.1 := rfl

@[simp] theorem ptr_join : ptr (join s b near far) = some b.1 := by
  simp [ptr]

theorem ptr_eq_none : ptr t = none ↔ t = nil := by
  cases t <;> simp

@[simp] theorem addrs_nil : addrs nil = [] := rfl

@[simp] theorem addrs_node : addrs (node b l r) = addrs l ++ b.1 :: addrs r := by
  simp [addrs]

@[simp] theorem up_nil : up [] = none := rfl

@[simp] theorem up_cons : up (f :: p) = some f.label.1 := rfl

@[simp] theorem sides_nil : sides [] = [] := rfl

theorem mem_of_ptr (hz : ptr t = some z) : z ∈ addrs t := by
  cases t with
  | nil => cases hz
  | node b l r =>
    obtain rfl : b.1 = z := Option.some.inj hz
    simp

/-- Pointers to trees without a common element differ, unless both are null. -/
theorem ptr_ne (ht : t ≠ nil) (hd : ∀ z ∈ addrs t, z ∉ addrs u) : ptr u ≠ ptr t := by
  intro heq
  cases t with
  | nil => exact ht rfl
  | node b l r => exact hd b.1 (by simp) (mem_of_ptr heq)

theorem addrs_join_perm : (addrs (join s b near far)).Perm (b.1 :: (addrs near ++ addrs far)) := by
  simpa [addrs] using join_perm.map Prod.fst

theorem sides_cons_perm : (sides (f :: p)).Perm (f.label.1 :: (addrs f.sibling ++ sides p)) := by
  simpa [sides, addrs] using around_cons_perm.map Prod.fst

theorem addrs_plug_perm : (addrs (plug p t)).Perm (sides p ++ addrs t) := by
  simpa [sides, addrs] using plug_perm.map Prod.fst

theorem mem_addrs_plug : z ∈ addrs (plug p t) ↔ z ∈ sides p ∨ z ∈ addrs t := by
  rw [addrs_plug_perm.mem_iff, List.mem_append]

theorem addrs_plug_congr (ht : addrs u = addrs t) : addrs (plug p u) = addrs (plug p t) := by
  simp only [addrs, inorder_plug, List.map_append] at ht ⊢
  rw [ht]

theorem addrs_rotate : addrs (join s y (join s x a u) v) = addrs (join s x a (join s y u v)) := by
  rw [addrs, inorder_rotate, addrs]

theorem stands_join : Stands h par (join s b near far) ↔
    h.entries b.1 = some (.at s (ptr near) (ptr far) par b.2) ∧ Stands h (some b.1) near ∧
      Stands h (some b.1) far := by
  cases s
  · rfl
  · simp only [join, Stands, RbEntry.at]
    tauto

theorem Stands.congr (ht : Stands h par t) (hsame : ∀ z ∈ addrs t, h'.entries z = h.entries z) :
    Stands h' par t := by
  induction t generalizing par with
  | nil => trivial
  | node b l r ihl ihr =>
    obtain ⟨hb, hl, hr⟩ := ht
    refine ⟨by rw [hsame b.1 (by simp), hb], ihl hl ?_, ihr hr ?_⟩
    · exact fun z hz => hsame z (by simp [hz])
    · exact fun z hz => hsame z (by simp [hz])

theorem Context.congr (hp : Context h p q) (hroot : h'.root = h.root)
    (hsame : ∀ z ∈ sides p, h'.entries z = h.entries z) : Context h' p q := by
  induction p generalizing q with
  | nil => exact hroot.trans hp
  | cons f p ih =>
    obtain ⟨hf, hu, hp⟩ := hp
    have hmem : ∀ z, z = f.label.1 ∨ z ∈ addrs f.sibling ∨ z ∈ sides p → z ∈ sides (f :: p) := by
      intro z hz
      rw [sides_cons_perm.mem_iff]
      simpa using hz
    refine ⟨by rw [hsame _ (hmem _ (Or.inl rfl)), hf], hu.congr ?_, ih hp ?_⟩
    · exact fun z hz => hsame z (hmem z (Or.inr (Or.inl hz)))
    · exact fun z hz => hsame z (hmem z (Or.inr (Or.inr hz)))

/-- The tree of the head, seen from a place in it. -/
theorem holds_plug : Holds h (plug p t) ↔
    Context h p (ptr t) ∧ Stands h (up p) t ∧ (sides p ++ addrs t).Nodup := by
  rw [← addrs_plug_perm.nodup_iff]
  suffices hsuff : h.root = ptr (plug p t) ∧ Stands h none (plug p t) ↔ Context h p (ptr t) ∧ Stands h (up p) t by
    constructor
    · rintro ⟨hroot, hs, hd⟩
      exact ⟨(hsuff.mp ⟨hroot, hs⟩).1, (hsuff.mp ⟨hroot, hs⟩).2, hd⟩
    · rintro ⟨hc, hs, hd⟩
      exact ⟨(hsuff.mpr ⟨hc, hs⟩).1, (hsuff.mpr ⟨hc, hs⟩).2, hd⟩
  induction p generalizing t with
  | nil => rfl
  | cons f p ih =>
    simp only [plug, ih, Context, up_cons, ptr_join, stands_join]
    tauto

@[simp] theorem put_self : (h.put z e).entries z = some e := Function.update_self ..

theorem put_ne {w : Nat} (hw : w ≠ z) : (h.put z e).entries w = h.entries w := Function.update_of_ne hw ..

@[simp] theorem put_root : (h.put z e).root = h.root := rfl

theorem modify_at {g : RbEntry → RbEntry} (he : h.entries z = some e) :
    h.modify (some z) g = some (h.put z (g e)) := by
  simp [modify, he]

theorem child_at (he : h.entries z = some e) : h.child s (some z) = some (e.child s) := by
  simp [child, get, he]

theorem parent_at (he : h.entries z = some e) : h.parent (some z) = some e.parent := by
  simp [parent, get, he]

theorem color_at (he : h.entries z = some e) : h.color (some z) = some e.color := by
  simp [color, get, he]

section Entries

variable {n m : Option Nat} {c d : RbColor}

@[simp] theorem at_child : (RbEntry.at s n m par c).child s = n := by
  cases s <;> rfl

@[simp] theorem at_child_other : (RbEntry.at s n m par c).child s.other = m := by
  cases s <;> rfl

@[simp] theorem at_parent : (RbEntry.at s n m par c).parent = par := by
  cases s <;> rfl

@[simp] theorem at_color : (RbEntry.at s n m par c).color = c := by
  cases s <;> rfl

@[simp] theorem at_setChild : (RbEntry.at s n m par c).setChild s q = .at s q m par c := by
  cases s <;> rfl

@[simp] theorem at_setChild_other : (RbEntry.at s n m par c).setChild s.other q = .at s n q par c := by
  cases s <;> rfl

@[simp] theorem at_setParent : { RbEntry.at s n m par c with parent := q } = .at s n m q c := by
  cases s <;> rfl

@[simp] theorem at_setColor : { RbEntry.at s n m par c with color := d } = .at s n m par d := by
  cases s <;> rfl

theorem at_side (hne : m ≠ n) :
    (if (RbEntry.at s n m par c).child .left = n then Side.left else .right) = s := by
  cases s with
  | left => simp [RbEntry.at, RbEntry.child]
  | right => simp [RbEntry.at, RbEntry.child, hne]

end Entries

/-- The parent pointer of the root of a subtree is set; nothing happens to an empty one. -/
theorem setParentOf_stands (ht : Stands h par t) (hd : (addrs t).Nodup) (q : Option Nat) :
    ∃ h', h.setParentOf (ptr t) q = some h' ∧ Stands h' q t ∧ h'.root = h.root ∧
      ∀ z ∉ addrs t, h'.entries z = h.entries z := by
  cases t with
  | nil => exact ⟨h, rfl, trivial, rfl, fun _ _ => rfl⟩
  | node b l r =>
    obtain ⟨hb, hl, hr⟩ := ht
    refine ⟨_, modify_at hb, ⟨put_self, hl.congr ?_, hr.congr ?_⟩, rfl, ?_⟩
    · intro z hz
      refine put_ne ?_
      rintro rfl
      simp only [addrs_node, List.nodup_append] at hd
      exact hd.2.2 _ hz _ List.mem_cons_self rfl
    · intro z hz
      refine put_ne ?_
      rintro rfl
      simp only [addrs_node, List.nodup_append, List.nodup_cons] at hd
      exact hd.2.1.1 hz
    · intro z hz
      refine put_ne ?_
      rintro rfl
      exact hz (by simp)

/-- The link at the end of a path goes to q instead. -/
theorem relink_context (hp : Context h p (some z)) (hd : (z :: sides p).Nodup) (q : Option Nat) :
    ∃ h', h.relink (up p) (some z) q = some h' ∧ Context h' p q ∧ ∀ w ∉ sides p, h'.entries w = h.entries w := by
  cases p with
  | nil => exact ⟨{ h with root := q }, rfl, rfl, fun _ _ => rfl⟩
  | cons f p =>
    obtain ⟨s, b, u⟩ := f
    obtain ⟨hf, hu, hp⟩ := hp
    rw [(sides_cons_perm.cons z).nodup_iff] at hd
    simp only [List.nodup_cons, List.mem_cons, List.mem_append, not_or, List.nodup_append] at hd
    obtain ⟨⟨hzb, hzu, _⟩, ⟨hbu, hbp⟩, hdu, _, _⟩ := hd
    have hside : (if (RbEntry.at s (some z) (ptr u) (up p) b.2).child .left = some z then Side.left else .right) = s :=
      at_side fun heq => hzu (mem_of_ptr heq)
    refine ⟨h.put b.1 (.at s q (ptr u) (up p) b.2), ?_, ⟨put_self, hu.congr ?_, hp.congr rfl ?_⟩, ?_⟩
    · dsimp only at hf
      simp only [relink, up_cons, child_at hf, Option.bind_eq_bind, Option.bind_some, hside, setChild, modify_at hf,
        at_setChild]
    · intro w hw
      refine put_ne ?_
      rintro rfl
      exact hbu hw
    · intro w hw
      refine put_ne ?_
      rintro rfl
      exact hbp hw
    · intro w hw
      refine put_ne ?_
      rintro rfl
      rw [sides_cons_perm.mem_iff] at hw
      exact hw List.mem_cons_self

/-- A change of the tree that keeps its elements in their order and touches no other entry. -/
structure Reshapes (h : RbHead) (t : BinaryTree (Nat × RbColor)) (h' : RbHead) (t' : BinaryTree (Nat × RbColor)) :
    Prop where
  holds : Holds h' t'
  addrs : RbHead.addrs t' = RbHead.addrs t
  same : ∀ z ∉ RbHead.addrs t, h'.entries z = h.entries z

theorem Reshapes.trans {h'' : RbHead} {t' t'' : BinaryTree (Nat × RbColor)} (h1 : Reshapes h t h' t')
    (h2 : Reshapes h' t' h'' t'') : Reshapes h t h'' t'' where
  holds := h2.holds
  addrs := h2.addrs.trans h1.addrs
  same := fun z hz => (h2.same z (h1.addrs ▸ hz)).trans (h1.same z hz)

theorem rotate_perm : (sides p ++ addrs (join s x a (join s y u v))).Perm
    (x.1 :: (sides p ++ (addrs a ++ (y.1 :: (addrs u ++ addrs v))))) :=
  ((addrs_join_perm.trans ((addrs_join_perm.append_left _).cons _)).append_left _).trans List.perm_middle

theorem rotate_reshapes (ht : Holds h (plug p (join s x a (join s y u v)))) :
    ∃ h', h.rotate s (some x.1) = some h' ∧
      Reshapes h (plug p (join s x a (join s y u v))) h' (plug p (join s y (join s x a u) v)) := by
  obtain ⟨hp, hsub, hd⟩ := holds_plug.mp ht
  obtain ⟨hx, ha, hyuv⟩ := stands_join.mp hsub
  obtain ⟨hy, hu, hv⟩ := stands_join.mp hyuv
  rw [ptr_join] at hp hx
  have hd' := rotate_perm.nodup_iff.mp hd
  simp only [List.nodup_cons, List.nodup_append, List.mem_append, List.mem_cons, not_or] at hd'
  obtain ⟨⟨hxp, hxa, hxy, hxu, hxv⟩, hdp, ⟨_, ⟨⟨hyu, hyv⟩, hdu, _, huv⟩, hother⟩, hpother⟩ := hd'
  -- the subtree u goes from y to x
  let h1 := h.put x.1 (.at s (ptr a) (ptr u) (up p) x.2)
  have hsame1 : ∀ z, z ≠ x.1 → h1.entries z = h.entries z := fun z hz => put_ne hz
  have hset1 : h.setChild s.other (some x.1) (ptr u) = some h1 := by
    rw [setChild, modify_at hx, at_setChild_other]
  obtain ⟨h2, hset2, hu2, hroot2, hsame2⟩ :=
    setParentOf_stands (h := h1) (hu.congr fun z hz => hsame1 z (by grind)) hdu (some x.1)
  have hx2 : h2.entries x.1 = some (.at s (ptr a) (ptr u) (up p) x.2) := (hsame2 x.1 hxu).trans put_self
  have hy2 : h2.entries y.1 = some (.at s (ptr u) (ptr v) (some x.1) y.2) := by
    rw [hsame2 y.1 hyu, hsame1 y.1 (Ne.symm hxy), hy]
  -- y gets the place of x below the parent
  let h3 := h2.put y.1 (.at s (ptr u) (ptr v) (up p) y.2)
  have hsame3 : ∀ z, z ≠ y.1 → h3.entries z = h2.entries z := fun z hz => put_ne hz
  have hset3 : h2.setParent (some y.1) (up p) = some h3 := by rw [setParent, modify_at hy2, at_setParent]
  have hp3 : Context h3 p (some x.1) := hp.congr hroot2 fun z hz => by
    rw [hsame3 z (by grind), hsame2 z (by grind), hsame1 z (by grind)]
  obtain ⟨h4, hset4, hp4, hsame4⟩ := relink_context hp3 (List.nodup_cons.mpr ⟨hxp, hdp⟩) (some y.1)
  have hx4 : h4.entries x.1 = some (.at s (ptr a) (ptr u) (up p) x.2) := by
    rw [hsame4 x.1 hxp, hsame3 x.1 hxy, hx2]
  have hy4 : h4.entries y.1 = some (.at s (ptr u) (ptr v) (up p) y.2) :=
    (hsame4 y.1 (by grind)).trans put_self
  -- x goes below y
  let h5 := h4.put y.1 (.at s (some x.1) (ptr v) (up p) y.2)
  have hsame5 : ∀ z, z ≠ y.1 → h5.entries z = h4.entries z := fun z hz => put_ne hz
  have hset5 : h4.setChild s (some y.1) (some x.1) = some h5 := by rw [setChild, modify_at hy4, at_setChild]
  let h6 := h5.put x.1 (.at s (ptr a) (ptr u) (some y.1) x.2)
  have hsame6 : ∀ z, z ≠ x.1 → h6.entries z = h5.entries z := fun z hz => put_ne hz
  have hset6 : h5.setParent (some x.1) (some y.1) = some h6 := by
    rw [setParent, modify_at ((hsame5 x.1 hxy).trans hx4), at_setParent]
  have hsame : ∀ z, z ∉ sides p → z ∉ RbHead.addrs u → z ≠ x.1 → z ≠ y.1 → h6.entries z = h.entries z := by
    intro z hzp hzu hzx hzy
    rw [hsame6 z hzx, hsame5 z hzy, hsame4 z hzp, hsame3 z hzy, hsame2 z hzu, hsame1 z hzx]
  have haddrs : RbHead.addrs (plug p (join s y (join s x a u) v)) = RbHead.addrs (plug p (join s x a (join s y u v))) :=
    addrs_plug_congr addrs_rotate
  refine ⟨h6, ?_, ⟨holds_plug.mpr ⟨?_, stands_join.mpr ⟨?_, stands_join.mpr ⟨?_, ?_, ?_⟩, ?_⟩, ?_⟩, haddrs, ?_⟩⟩
  · simp only [rotate, child_at hx, child_at hy, at_child, at_child_other, Option.bind_eq_bind, Option.bind_some,
      hset1, hset2, parent_at hx2, at_parent, hset3, hset4, hset5, hset6]
  · rw [ptr_join]
    exact hp4.congr rfl fun z hz => by rw [hsame6 z (by grind), hsame5 z (by grind)]
  · rw [hsame6 y.1 (Ne.symm hxy), ptr_join]
    exact put_self
  · exact put_self
  · exact ha.congr fun z hz => hsame z (by grind) (by grind) (by grind) (by grind)
  · exact hu2.congr fun z hz => by
      rw [hsame6 z (by grind), hsame5 z (by grind), hsame4 z (by grind), hsame3 z (by grind)]
  · exact hv.congr fun z hz => hsame z (by grind) (by grind) (by grind) (by grind)
  · rwa [← addrs_plug_perm.nodup_iff, haddrs, addrs_plug_perm.nodup_iff]
  · intro z hz
    rw [mem_addrs_plug, ← List.mem_append, rotate_perm.mem_iff] at hz
    simp only [List.mem_cons, List.mem_append, not_or] at hz
    exact hsame z hz.2.1 hz.2.2.2.2.1 hz.1 hz.2.2.2.1

end RbHead

end CppInAction
