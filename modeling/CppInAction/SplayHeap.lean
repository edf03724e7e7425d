import CppInAction.SplayTree
import Mathlib.Tactic.Common

namespace CppInAction

open BinaryTree

/-- The entry of an element, the child on the given side first. -/
def SplayEntry.at (s : Side) (near far : Option Nat) : SplayEntry :=
  match s with
  | .left => ⟨near, far⟩
  | .right => ⟨far, near⟩

namespace SplayEntry

variable {s : Side} {n m q : Option Nat} {e : SplayEntry}

@[simp] theorem at_child : (SplayEntry.at s n m).child s = n := by
  cases s <;> rfl

@[simp] theorem at_child_other : (SplayEntry.at s n m).child s.other = m := by
  cases s <;> rfl

@[simp] theorem at_setChild : (SplayEntry.at s n m).setChild s q = .at s q m := by
  cases s <;> rfl

@[simp] theorem at_setChild_other : (SplayEntry.at s n m).setChild s.other q = .at s n q := by
  cases s <;> rfl

@[simp] theorem child_setChild : (e.setChild s q).child s = q := by
  cases s <;> rfl

@[simp] theorem child_setChild_other : (e.setChild s q).child s.other = e.child s.other := by
  cases s <;> rfl

end SplayEntry

namespace SplayHead

/-- The tree is in memory. -/
def Stands (h : SplayHead) : BinaryTree Nat → Prop
  | nil => True
  | node b l r => h.entries b = some ⟨l.top, r.top⟩ ∧ Stands h l ∧ Stands h r

/-- The tree of the head. -/
structure Holds (h : SplayHead) (t : BinaryTree Nat) : Prop where
  root : h.root = t.top
  stands : Stands h t
  nodup : t.inorder.Nodup

variable {h h' : SplayHead} {s : Side} {t near far : BinaryTree Nat} {b z : Nat} {q : Option Nat} {e : SplayEntry}

theorem stands_join : Stands h (join s b near far) ↔
    h.entries b = some (.at s near.top far.top) ∧ Stands h near ∧ Stands h far := by
  cases s
  · rfl
  · simp only [join, Stands, SplayEntry.at]
    tauto

theorem Stands.congr (ht : Stands h t) (hsame : ∀ z ∈ t.inorder, h'.entries z = h.entries z) : Stands h' t := by
  induction t with
  | nil => trivial
  | node b l r ihl ihr =>
    obtain ⟨hb, hl, hr⟩ := ht
    refine ⟨by rw [hsame b (by simp), hb], ihl hl ?_, ihr hr ?_⟩
    · exact fun z hz => hsame z (by simp [hz])
    · exact fun z hz => hsame z (by simp [hz])

@[simp] theorem put_self : (h.put z e).entries z = some e := Function.update_self ..

theorem put_ne {w : Nat} (hw : w ≠ z) : (h.put z e).entries w = h.entries w := Function.update_of_ne hw ..

@[simp] theorem put_root : (h.put z e).root = h.root := rfl

theorem child_at (he : h.entries z = some e) : h.child s (some z) = some (e.child s) := by
  simp [child, he]

theorem setChild_at (he : h.entries z = some e) : h.setChild s (some z) q = some (h.put z (e.setChild s q)) := by
  simp [setChild, he]

end SplayHead

namespace SplayWork

open SplayHead

/-- The nodes that were linked away on a side are in memory, below the local node, from the
lowest one, which has a link to q, up. -/
def Spine (h : SplayHead) (e : SplayEntry) (s : Side) : List (Frame Nat) → Option Nat → Prop
  | [], q => e.child s = q
  | f :: p, q => f.side = s ∧ h.entries f.label = some (.at s q f.sibling.top) ∧ Stands h f.sibling ∧
      Spine h e s p (some f.label)

/-- The elements in their order: those linked away before the tree, the tree, the others. -/
def spread (P : Side → List (Frame Nat)) (t : BinaryTree Nat) : List Nat :=
  before (P .right) ++ t.inorder ++ after (P .left)

/-- The loop of SPLAY between two turns: the rest of the tree, and what was linked away. -/
structure Splits (w : SplayWork) (P : Side → List (Frame Nat)) (t : BinaryTree Nat) : Prop where
  root : w.head.root = t.top
  stands : Stands w.head t
  spine : ∀ s, ∃ q, Spine w.head w.node s (P s) q
  tip : ∀ s, w.tip s = (P s).head?.map (·.label)
  nodup : (spread P t).Nodup

variable {w w' : SplayWork} {h h' : SplayHead} {e e' : SplayEntry} {s : Side} {P : Side → List (Frame Nat)}
  {t near far u v l r : BinaryTree Nat} {p : List (Frame Nat)} {b x y z : Nat} {q : Option Nat}

theorem Spine.side (hp : Spine h e s p q) : ∀ f ∈ p, f.side = s := by
  induction p generalizing q with
  | nil => simp
  | cons f p ih =>
    obtain ⟨hf, _, _, hp⟩ := hp
    exact List.forall_mem_cons.mpr ⟨hf, ih hp⟩

theorem Spine.congr (hp : Spine h e s p q) (he : e'.child s = e.child s)
    (hsame : ∀ z ∈ around p, h'.entries z = h.entries z) : Spine h' e' s p q := by
  induction p generalizing q with
  | nil => exact he.trans hp
  | cons f p ih =>
    obtain ⟨hf, hentry, hsib, hp⟩ := hp
    have hmem : ∀ z, z = f.label ∨ z ∈ f.sibling.inorder ∨ z ∈ around p → z ∈ around (f :: p) := by
      intro z hz
      rw [around_cons_perm.mem_iff]
      simpa using hz
    refine ⟨hf, by rw [hsame _ (hmem _ (Or.inl rfl)), hentry], hsib.congr ?_, ih hp ?_⟩
    · exact fun z hz => hsame z (hmem z (Or.inr (Or.inl hz)))
    · exact fun z hz => hsame z (hmem z (Or.inr (Or.inr hz)))

/-- The subtree at the end of a spine makes a tree of it. -/
theorem Spine.plug (hp : Spine h e s p t.top) (ht : Stands h t) :
    e.child s = (plug p t).top ∧ Stands h (plug p t) := by
  induction p generalizing t with
  | nil => exact ⟨hp, ht⟩
  | cons f p ih =>
    obtain ⟨hf, hentry, hsib, hp⟩ := hp
    rw [BinaryTree.plug, hf]
    exact ih (by rwa [top_join]) (stands_join.mpr ⟨hentry, ht, hsib⟩)

/-- The parts of the work do not share elements, whichever side comes first. -/
theorem Splits.spread_perm (hw : Splits w P t) (s : Side) :
    (spread P t).Perm (around (P s) ++ (around (P s.other) ++ t.inorder)) := by
  obtain ⟨_, hl⟩ := hw.spine .left
  obtain ⟨_, hr⟩ := hw.spine .right
  have hbefore := before_left hl.side
  have hafter := after_right hr.side
  cases s with
  | left =>
    simp only [spread, around, Side.other, hbefore, hafter, List.nil_append, List.append_nil]
    exact List.perm_append_comm
  | right =>
    simp only [spread, around, Side.other, hbefore, hafter, List.nil_append, List.append_nil, List.append_assoc]
    exact List.perm_append_comm.append_left _

theorem Splits.apart (hw : Splits w P t) :
    t.inorder.Nodup ∧ ∀ s, ∀ z ∈ around (P s), z ∉ t.inorder := by
  constructor
  · have hd := (hw.spread_perm .left).nodup_iff.mp hw.nodup
    exact (List.nodup_append.mp (List.nodup_append.mp hd).2.1).2.1
  · intro s z hz ht
    have hd := (hw.spread_perm s).nodup_iff.mp hw.nodup
    exact (List.nodup_append.mp hd).2.2 z hz z (List.mem_append_right _ ht) rfl

theorem mem_spread_of_mem (hz : z ∈ t.inorder) : z ∈ spread P t := by
  simp [spread, hz]

theorem spread_link : spread (Function.update P s (⟨s, b, far⟩ :: P s)) near = spread P (join s b near far) := by
  cases s <;> simp [spread, join, before, after]

theorem spread_congr (ht : u.inorder = t.inorder) : spread P u = spread P t := by
  rw [spread, spread, ht]

theorem forall_side {C : Side → Prop} (s : Side) (hs : C s) (ho : C s.other) : ∀ s', C s' := by
  intro s'
  rcases Side.eq_or_other s s' with rfl | rfl
  · exact hs
  · exact ho

/-- SPLAY_LINKLEFT and SPLAY_LINKRIGHT write the link of the last node of a spine. -/
theorem Splits.hang (hw : Splits w P t) (s : Side) (q : Option Nat) :
    ∃ w', w.hang s q = some w' ∧ Splits w' P t ∧ Spine w'.head w'.node s (P s) q ∧
      (∀ q', Spine w.head w.node s.other (P s.other) q' → Spine w'.head w'.node s.other (P s.other) q') ∧
      ∀ z ∉ spread P t, w'.head.entries z = w.head.entries z := by
  have hperm := hw.spread_perm s
  obtain ⟨q0, hp⟩ := hw.spine s
  obtain ⟨q1, hother⟩ := hw.spine s.other
  have htip := hw.tip s
  cases hps : P s with
  | nil =>
    rw [hps, List.head?_nil, Option.map_none] at htip
    let w' : SplayWork := { w with node := w.node.setChild s q }
    have hs : Spine w'.head w'.node s (P s) q := by
      rw [hps]
      exact SplayEntry.child_setChild
    have ho : ∀ q', Spine w.head w.node s.other (P s.other) q' → Spine w'.head w'.node s.other (P s.other) q' :=
      fun q' hq' => hq'.congr SplayEntry.child_setChild_other fun _ _ => rfl
    refine ⟨w', by simp only [SplayWork.hang, htip, w'], ⟨hw.root, hw.stands, ?_, ?_, hw.nodup⟩, hps ▸ hs, ho, fun _ _ => rfl⟩
    · exact forall_side s ⟨q, hs⟩ ⟨q1, ho q1 hother⟩
    · exact fun s' => (by cases s' <;> rfl : w'.tip s' = w.tip s').trans (hw.tip s')
  | cons f p =>
    rw [hps, List.head?_cons, Option.map_some] at htip
    rw [hps] at hp
    obtain ⟨hf, hentry, hsib, hp⟩ := hp
    have hmem : f.label ∈ spread P t := by
      rw [hperm.mem_iff, hps]
      simp [around_cons_perm.mem_iff]
    have hd := hperm.nodup_iff.mp hw.nodup
    rw [hps, (around_cons_perm.append_right _).nodup_iff] at hd
    simp only [List.cons_append, List.nodup_cons, List.mem_append, not_or] at hd
    obtain ⟨⟨⟨hfs, hfp⟩, hfo, hft⟩, _⟩ := hd
    let w' : SplayWork := { w with head := w.head.put f.label (.at s q f.sibling.top) }
    have hsame : ∀ z, z ≠ f.label → w'.head.entries z = w.head.entries z := fun z hz => put_ne hz
    have hs : Spine w'.head w'.node s (P s) q := by
      rw [hps]
      refine ⟨hf, put_self, hsib.congr ?_, hp.congr rfl ?_⟩
      · exact fun z hz => hsame z (by rintro rfl; exact hfs hz)
      · exact fun z hz => hsame z (by rintro rfl; exact hfp hz)
    have ho : ∀ q', Spine w.head w.node s.other (P s.other) q' → Spine w'.head w'.node s.other (P s.other) q' :=
      fun q' hq' => hq'.congr rfl fun z hz => hsame z (by rintro rfl; exact hfo hz)
    refine ⟨w', ?_, ⟨hw.root, ?_, ?_, hw.tip, hw.nodup⟩, hps ▸ hs, ho, ?_⟩
    · simp only [SplayWork.hang, htip, setChild_at hentry, SplayEntry.at_setChild, Option.bind_eq_bind, Option.bind_some, w']
    · exact hw.stands.congr fun z hz => hsame z (by rintro rfl; exact hft hz)
    · exact forall_side s ⟨q, hs⟩ ⟨q1, ho q1 hother⟩
    · exact fun z hz => hsame z (by rintro rfl; exact hz hmem)

/-- A link: the root goes to the spine with its subtree on the far side. -/
theorem Splits.link (hw : Splits w P (join s b near far)) :
    ∃ w', w.link s = some w' ∧ Splits w' (Function.update P s (⟨s, b, far⟩ :: P s)) near ∧
      ∀ z ∉ spread P (join s b near far), w'.head.entries z = w.head.entries z := by
  obtain ⟨w1, hset1, hw1, hs1, ho1, hsame1⟩ := hw.hang s w.head.root
  obtain ⟨hb, hnear, hfar⟩ := stands_join.mp hw1.stands
  have hroot1 := hw1.root
  have hroot := hw.root
  rw [top_join] at hroot1 hroot
  rw [hroot] at hs1 hset1
  obtain ⟨q1, hother⟩ := hw1.spine s.other
  have hne : s.other ≠ s := by cases s <;> simp [Side.other]
  let w2 : SplayWork := { (w1.setTip s (some b)) with head := { w1.head with root := near.top } }
  have hnode : w2.node = w1.node := by cases s <;> rfl
  refine ⟨w2, ?_, ⟨rfl, hnear.congr fun _ _ => rfl, ?_, ?_, ?_⟩, hsame1⟩
  · have htip : ∀ q, (w1.setTip s q).head = w1.head := fun q => by cases s <;> rfl
    simp only [SplayWork.link, hroot, hset1, htip, hroot1, child_at hb, SplayEntry.at_child, Option.bind_eq_bind,
      Option.bind_some, w2]
  · refine forall_side s ⟨near.top, ?_⟩ ⟨q1, ?_⟩
    · rw [Function.update_self]
      exact ⟨rfl, hb, hfar.congr fun _ _ => rfl, hs1.congr (by rw [hnode]) fun _ _ => rfl⟩
    · rw [Function.update_of_ne hne]
      exact hother.congr (by rw [hnode]) fun _ _ => rfl
  · refine forall_side s ?_ ?_
    · rw [Function.update_self]
      cases s <;> rfl
    · rw [Function.update_of_ne hne, ← hw1.tip s.other]
      cases s <;> rfl
  · rw [spread_link]
    exact hw.nodup

theorem Splits.rotate (hw : Splits w P (join s b (join s y u v) far)) :
    ∃ h', w.head.rotate s (some y) = some h' ∧ Splits { w with head := h' } P (join s y u (join s b v far)) ∧
      ∀ z ∉ spread P (join s b (join s y u v) far), h'.entries z = w.head.entries z := by
  obtain ⟨hb, hyuv, hfar⟩ := stands_join.mp hw.stands
  obtain ⟨hy, hu, hv⟩ := stands_join.mp hyuv
  have hroot := hw.root
  rw [top_join] at hroot hb
  obtain ⟨hd, hapart⟩ := hw.apart
  have hmemb : b ∈ (join s b (join s y u v) far).inorder := mem_inorder_join.mpr (Or.inl rfl)
  have hmemy : y ∈ (join s b (join s y u v) far).inorder :=
    mem_inorder_join.mpr (Or.inr (Or.inl (mem_inorder_join.mpr (Or.inl rfl))))
  have hd' := (join_perm.trans ((join_perm.append_right _).cons _)).nodup_iff.mp hd
  simp only [List.cons_append, List.nodup_cons, List.mem_cons, List.mem_append, not_or] at hd'
  obtain ⟨⟨hby, ⟨hbu, hbv⟩, hbf⟩, ⟨⟨hyu, hyv⟩, hyf⟩, _⟩ := hd'
  let h1 := w.head.put b (.at s v.top far.top)
  let h2 := h1.put y (.at s u.top (some b))
  have hy1 : h1.entries y = some (.at s u.top v.top) := (put_ne (Ne.symm hby)).trans hy
  have hsame : ∀ z, z ≠ b → z ≠ y → h2.entries z = w.head.entries z :=
    fun z hzb hzy => (put_ne hzy).trans (put_ne hzb)
  refine ⟨{ h2 with root := some y }, ?_, ⟨?_, ?_, ?_, hw.tip, ?_⟩, ?_⟩
  · simp only [SplayHead.rotate, child_at hy, SplayEntry.at_child_other, hroot, setChild_at hb, SplayEntry.at_setChild,
      put_root, setChild_at hy1, SplayEntry.at_setChild_other, Option.bind_eq_bind, Option.bind_some, h2, h1]
  · exact top_join.symm
  · refine stands_join.mpr ⟨?_, ?_, stands_join.mpr ⟨?_, ?_, ?_⟩⟩
    · rw [top_join]
      exact put_self
    · exact hu.congr fun z hz => hsame z (by rintro rfl; exact hbu hz) (by rintro rfl; exact hyu hz)
    · exact (put_ne hby).trans put_self
    · exact hv.congr fun z hz => hsame z (by rintro rfl; exact hbv hz) (by rintro rfl; exact hyv hz)
    · exact hfar.congr fun z hz => hsame z (by rintro rfl; exact hbf hz) (by rintro rfl; exact hyf hz)
  · intro s'
    obtain ⟨q, hq⟩ := hw.spine s'
    refine ⟨q, hq.congr rfl fun z hz => hsame z ?_ ?_⟩
    · rintro rfl
      exact hapart s' z hz hmemb
    · rintro rfl
      exact hapart s' z hz hmemy
  · rw [spread_congr inorder_rotate.symm]
    exact hw.nodup
  · intro z hz
    refine hsame z ?_ ?_
    · rintro rfl
      exact hz (mem_spread_of_mem hmemb)
    · rintro rfl
      exact hz (mem_spread_of_mem hmemy)

/-- SPLAY_ASSEMBLE puts what was linked away on the two sides below the root. -/
theorem Splits.assemble (hw : Splits w P (.node x l r)) :
    ∃ h', w.assemble = some h' ∧ Holds h' (.node x (BinaryTree.plug (P .right) l) (BinaryTree.plug (P .left) r)) ∧
      ∀ z ∉ spread P (.node x l r), h'.entries z = w.head.entries z := by
  obtain ⟨w1, hset1, hw1, hs1, _, hsame1⟩ := hw.hang .right l.top
  obtain ⟨w2, hset2, hw2, hs2, ho2, hsame2⟩ := hw1.hang .left r.top
  have hr2 := ho2 l.top hs1
  obtain ⟨hx, _, _⟩ := hw.stands
  obtain ⟨hx1, _, _⟩ := hw1.stands
  obtain ⟨hx2, hl2, hstandsr⟩ := hw2.stands
  have hroot : w.head.root = some x := hw.root
  have hroot1 : w1.head.root = some x := hw1.root
  have hroot2 : w2.head.root = some x := hw2.root
  obtain ⟨hnoder, hstandsl⟩ : w2.node.right = (BinaryTree.plug (P .right) l).top ∧
    Stands w2.head (BinaryTree.plug (P .right) l) := Spine.plug hr2 hl2
  obtain ⟨hnodel, hstandsr⟩ : w2.node.left = (BinaryTree.plug (P .left) r).top ∧
    Stands w2.head (BinaryTree.plug (P .left) r) := Spine.plug hs2 hstandsr
  have horder : (BinaryTree.node x (BinaryTree.plug (P .right) l) (BinaryTree.plug (P .left) r)).inorder =
      spread P (.node x l r) := by
    obtain ⟨_, hside⟩ := hw.spine .right
    obtain ⟨_, hside'⟩ := hw.spine .left
    simp [inorder_plug, spread, after_right hside.side, before_left hside'.side]
  have hd := hw.nodup
  rw [← horder, inorder_node, List.nodup_middle, List.nodup_cons, List.mem_append, not_or] at hd
  -- the two children of the root are written in turn
  let h3 := w2.head.put x ⟨w2.node.right, r.top⟩
  let h4 := h3.put x ⟨w2.node.right, w2.node.left⟩
  have hsame4 : ∀ z, z ≠ x → h4.entries z = w2.head.entries z := fun z hz => (put_ne hz).trans (put_ne hz)
  have hset3 : w2.head.setChild .left (some x) w2.node.right = some h3 := setChild_at hx2
  have hset4 : h3.setChild .right (some x) w2.node.left = some h4 := setChild_at put_self
  refine ⟨h4, ?_, ⟨hroot2, ⟨?_, ?_, ?_⟩, ?_⟩, ?_⟩
  · have hl : w.head.child .left (some x) = some l.top := child_at hx
    have hr : w1.head.child .right (some x) = some r.top := child_at hx1
    have hroot3 : h3.root = some x := hroot2
    simp only [SplayWork.assemble, hroot, hl, hset1, hroot1, hr, hset2, hroot2, hset3, hroot3, hset4,
      Option.bind_eq_bind, Option.bind_some]
  · rw [← hnoder, ← hnodel]
    exact put_self
  · exact hstandsl.congr fun z hz => hsame4 z (by rintro rfl; exact hd.1.1 hz)
  · exact hstandsr.congr fun z hz => hsame4 z (by rintro rfl; exact hd.1.2 hz)
  · rw [horder]
    exact hw.nodup
  · intro z hz
    rw [hsame4 z, hsame2 z hz, hsame1 z hz]
    rintro rfl
    exact hz (mem_spread_of_mem (by simp))

end SplayWork

end CppInAction
