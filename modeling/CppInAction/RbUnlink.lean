import CppInAction.RbSearch
import CppInAction.RbShape

namespace CppInAction

open BinaryTree RbTree

namespace RbHead

variable {h h' : RbHead} {s : Side} {b e x : Nat × RbColor} {t l r u near far : BinaryTree (Nat × RbColor)}
  {p q : List (Frame (Nat × RbColor))} {f : Frame (Nat × RbColor)} {par up' : Option Nat} {fuel n : Nat} {c : RbColor}

theorem splice_holds (ht : Holds h (plug p (join s x nil u))) :
    ∃ h1 h', h.setParentOf (ptr u) (up p) = some h1 ∧ h1.relink (up p) (some x.1) (ptr u) = some h' ∧
      Holds h' (plug p u) ∧ ∀ z ∉ addrs (plug p u), h'.entries z = h.entries z := by
  obtain ⟨hp, hsub, hd⟩ := holds_plug.mp ht
  obtain ⟨hx, _, hu⟩ := stands_join.mp hsub
  have hd' := ((addrs_join_perm.append_left (sides p)).trans List.perm_middle).nodup_iff.mp hd
  simp only [addrs_nil, List.nil_append, List.nodup_cons, List.mem_append, not_or] at hd'
  obtain ⟨⟨hxp, hxu⟩, hdpu⟩ := hd'
  obtain ⟨hdp, hdu, hapart⟩ := List.nodup_append.mp hdpu
  rw [ptr_join] at hp
  obtain ⟨h1, hset1, hu1, hroot1, hsame1⟩ := setParentOf_stands hu hdu (up p)
  have hp1 : Context h1 p (some x.1) :=
    hp.congr hroot1 fun z hz => hsame1 z fun hzu => hapart z hz z hzu rfl
  obtain ⟨h2, hset2, hp2, hsame2⟩ := relink_context hp1 (List.nodup_cons.mpr ⟨hxp, hdp⟩) (ptr u)
  refine ⟨h1, h2, hset1, hset2, holds_plug.mpr ⟨hp2, ?_, hdpu⟩, ?_⟩
  · exact hu1.congr fun z hz => hsame2 z fun hzp => hapart z hzp z hz rfl
  · intro z hz
    rw [mem_addrs_plug, not_or] at hz
    rw [hsame2 z hz.1, hsame1 z hz.2]

theorem unlinkOuter_holds (ht : Holds h (plug p (join s x nil u))) :
    ∃ h', h.unlinkOuter x.1 (ptr u) = some (h', up p, ptr u, x.2) ∧ Holds h' (plug p u) ∧
      ∀ z ∉ addrs (plug p u), h'.entries z = h.entries z := by
  obtain ⟨_, hsub, _⟩ := holds_plug.mp ht
  obtain ⟨hx, _⟩ := stands_join.mp hsub
  obtain ⟨h1, h2, hset1, hset2, hholds, hsame⟩ := splice_holds ht
  refine ⟨h2, ?_, hholds, hsame⟩
  simp only [unlinkOuter, parent_at hx, at_parent, color_at hx, at_color, hset1, hset2, Option.bind_eq_bind,
    Option.bind_some]

theorem climb_context {y : Option Nat} (hp : Context h p y) (hfuel : p.length ≤ fuel) (hne : p ≠ []) :
    h.climb fuel (up p) = some () := by
  induction p generalizing fuel y with
  | nil => exact absurd rfl hne
  | cons f p ih =>
    obtain ⟨fuel, rfl⟩ : ∃ k, fuel = k + 1 := ⟨fuel - 1, by simp only [List.length_cons] at hfuel; omega⟩
    simp only [up_cons, climb, parent_at hp.1, at_parent, Option.bind_eq_bind, Option.bind_some]
    cases p with
    | nil => rfl
    | cons g p => exact ih hp.2.2 (by simpa using hfuel) (by simp)

/-- An element outside of the tree takes the place of one with a subtree on the left. -/
theorem replace_holds (ht : Holds h (plug p (node x l r))) (hl : l ≠ nil) (he : e.1 ∉ addrs (plug p (node x l r)))
    {old : RbEntry} (hentry : h.entries e.1 = some old) :
    ∃ field h1 h2 h3 h', h.get (some x.1) = some field ∧ h.modify (some e.1) (fun _ => field) = some h1 ∧
      h1.relink field.parent (some x.1) (some e.1) = some h2 ∧ h2.child .left (some x.1) = some (ptr l) ∧
      h2.setParent (ptr l) (some e.1) = some h3 ∧ h3.child .right (some x.1) = some (ptr r) ∧
      h3.setParentOf (ptr r) (some e.1) = some h' ∧ Holds h' (plug p (node (e.1, x.2) l r)) ∧
      ∀ z ∉ addrs (plug p (node (e.1, x.2) l r)), h'.entries z = h.entries z := by
  obtain ⟨hp, ⟨hx, hsl, hsr⟩, hd⟩ := holds_plug.mp ht
  rw [addrs_plug_perm.mem_iff] at he
  simp only [addrs_node, List.mem_append, List.mem_cons, not_or] at he
  obtain ⟨hep, hel, hex, her⟩ := he
  simp only [addrs_node, List.nodup_append, List.nodup_cons, List.mem_append, List.mem_cons] at hd
  obtain ⟨hdp, ⟨hdl, ⟨hxr, hdr⟩, hlr⟩, hpsub⟩ := hd
  have hxp : x.1 ∉ sides p := fun hmem => hpsub _ hmem _ (Or.inr (Or.inl rfl)) rfl
  have hxl : x.1 ∉ addrs l := fun hmem => hlr _ hmem _ (Or.inl rfl) rfl
  let h1 := h.put e.1 ⟨ptr l, ptr r, up p, x.2⟩
  have hsame1 : ∀ z, z ≠ e.1 → h1.entries z = h.entries z := fun z hz => put_ne hz
  have hp1 : Context h1 p (some x.1) := hp.congr rfl fun z hz => hsame1 z (by rintro rfl; exact hep hz)
  obtain ⟨h2, hset2, hp2, hsame2⟩ := relink_context hp1 (List.nodup_cons.mpr ⟨hxp, hdp⟩) (some e.1)
  have hx2 : h2.entries x.1 = some ⟨ptr l, ptr r, up p, x.2⟩ := by
    rw [hsame2 x.1 hxp, hsame1 x.1 (Ne.symm hex), hx]
  have hl2 : Stands h2 (some x.1) l := hsl.congr fun z hz => by
    rw [hsame2 z fun hmem => hpsub z hmem z (Or.inl hz) rfl, hsame1 z (by rintro rfl; exact hel hz)]
  have hr2 : Stands h2 (some x.1) r := hsr.congr fun z hz => by
    rw [hsame2 z fun hmem => hpsub z hmem z (Or.inr (Or.inr hz)) rfl, hsame1 z (by rintro rfl; exact her hz)]
  obtain ⟨h3, hset3, hl3, hroot3, hsame3⟩ := setParentOf_stands hl2 hdl (some e.1)
  have hx3 : h3.entries x.1 = some ⟨ptr l, ptr r, up p, x.2⟩ := by rw [hsame3 x.1 hxl, hx2]
  have hr3 : Stands h3 (some x.1) r := hr2.congr fun z hz => hsame3 z fun hmem => hlr z hmem z (Or.inr hz) rfl
  obtain ⟨h4, hset4, hr4, hroot4, hsame4⟩ := setParentOf_stands hr3 hdr (some e.1)
  have hsame : ∀ z ∉ sides p, z ≠ e.1 → z ∉ addrs l → z ∉ addrs r → h4.entries z = h.entries z := by
    intro z hzp hze hzl hzr
    rw [hsame4 z hzr, hsame3 z hzl, hsame2 z hzp, hsame1 z hze]
  refine ⟨_, h1, h2, h3, h4, hx, by rw [modify_at hentry], hset2, by rw [child_at hx2]; rfl, ?_,
    by rw [child_at hx3]; rfl, hset4, holds_plug.mpr ⟨?_, ⟨?_, ?_, hr4⟩, ?_⟩, ?_⟩
  · cases l with
    | nil => exact absurd rfl hl
    | node b u v => exact hset3
  · exact hp2.congr (hroot4.trans hroot3) fun z hz => by
      rw [hsame4 z fun hmem => hpsub z hz z (Or.inr (Or.inr hmem)) rfl,
        hsame3 z fun hmem => hpsub z hz z (Or.inl hmem) rfl]
  · rw [hsame4 e.1 her, hsame3 e.1 hel, hsame2 e.1 hep]
    exact put_self
  · exact hl3.congr fun z hz => hsame4 z fun hmem => hlr z hz z (Or.inr hmem) rfl
  · simp only [addrs_node, List.nodup_append, List.nodup_cons, List.mem_append, List.mem_cons]
    grind
  · intro z hz
    rw [mem_addrs_plug] at hz
    simp only [addrs_node, List.mem_append, List.mem_cons, not_or] at hz
    exact hsame z hz.1 hz.2.2.1 hz.2.1 hz.2.2.2

theorem up_append (hq : q ≠ []) : up (q ++ p) = up q := by
  cases q with
  | nil => exact absurd rfl hq
  | cons f q => rfl

theorem up_mem_sides (hq : q ≠ []) : ∃ z ∈ sides q, up q = some z := by
  cases q with
  | nil => exact absurd rfl hq
  | cons f q => exact ⟨f.label.1, sides_cons_perm.mem_iff.mpr List.mem_cons_self, rfl⟩

theorem mem_sides_append {z : Nat} : z ∈ sides (q ++ p) ↔ z ∈ sides q ∨ z ∈ sides p := by
  induction q with
  | nil => simp
  | cons f q ih =>
    rw [List.cons_append, sides_cons_perm.mem_iff, sides_cons_perm.mem_iff]
    simp only [List.mem_cons, List.mem_append, ih]
    tauto

/-- RB_REMOVE of an element with two subtrees: the next element, below the path q of left
links from its right subtree, comes to its place. -/
theorem unlinkInner_holds (ht : Holds h (plug (q ++ ⟨.right, x, l⟩ :: p) (join .left e nil far))) (hl : l ≠ nil)
    (hq : ∀ f ∈ q, f.side = .left) (hfuel : (plug (q ++ ⟨.right, x, l⟩ :: p) (join .left e nil far)).height ≤ fuel) :
    ∃ h', h.unlinkInner fuel x.1 = some (h', up (q ++ ⟨.right, (e.1, x.2), l⟩ :: p), ptr far, e.2) ∧
      Holds h' (plug (q ++ ⟨.right, (e.1, x.2), l⟩ :: p) far) ∧ h'.entries x.1 ≠ none ∧
      ∀ z ∉ addrs (plug (q ++ ⟨.right, x, l⟩ :: p) (join .left e nil far)), h'.entries z = h.entries z := by
  have hview : ∀ b t, plug (q ++ ⟨.right, b, l⟩ :: p) t = plug p (node b l (plug q t)) := fun b t => by
    rw [plug_append]
    rfl
  have hlen := length_path_le (p := q ++ ⟨.right, x, l⟩ :: p) (t := join .left e nil far)
  -- the entries that are read first
  have ht' := ht
  rw [hview] at ht'
  obtain ⟨_, ⟨hx, _, hright⟩, hdx⟩ := holds_plug.mp ht'
  obtain ⟨hpath, hsub, hd⟩ := holds_plug.mp ht
  obtain ⟨he, _, _⟩ := stands_join.mp hsub
  have hne : plug q (join .left e nil far) ≠ nil := fun heq => by cases (plug_eq_nil.mp heq).2
  have hhead : (addrs (plug q (join .left e nil far))).head? = some e.1 := by
    rw [addrs_plug, lower, before_left hq]
    rfl
  have hright_le : (plug q (join .left e nil far)).height ≤ fuel := by
    have hheight := length_path_le (p := p) (t := node x l (plug q (join .left e nil far)))
    rw [← hview] at hheight
    simp only [height] at hheight
    omega
  have hextreme := extreme_stands (s := .left) hright hright_le hne
  rw [end?, hhead] at hextreme
  -- the next element is taken out of its place
  obtain ⟨h1, h2, hset1, hset2, hholds2, hsame2⟩ := splice_holds ht
  have he2 : e.1 ∉ addrs (plug (q ++ ⟨.right, x, l⟩ :: p) far) := by
    have hd' := ((addrs_join_perm.append_left _).trans List.perm_middle).nodup_iff.mp hd
    rw [mem_addrs_plug, ← List.mem_append]
    exact (List.nodup_cons.mp hd').1
  have hentry2 := (hsame2 e.1 he2).trans he
  -- and put where the removed one is
  rw [hview] at hholds2 he2
  obtain ⟨field, h3, h4, h5, h6, hget, hset3, hset4, hchild4, hset5, hchild5, hset6, hholds6, hsame6⟩ :=
    replace_holds hholds2 hl he2 hentry2
  have hpath' := hholds6
  rw [← hview] at hpath'
  have hclimb : h6.climb fuel (up (q ++ ⟨.right, (e.1, x.2), l⟩ :: p)) = some () := by
    refine climb_context (holds_plug.mp hpath').1 ?_ (by simp)
    simp only [List.length_append, List.length_cons] at hlen ⊢
    omega
  have hparent : (if up (q ++ ⟨.right, x, l⟩ :: p) = some x.1 then some e.1 else up (q ++ ⟨.right, x, l⟩ :: p)) =
      up (q ++ ⟨.right, (e.1, x.2), l⟩ :: p) := by
    by_cases hnil : q = []
    · subst hnil
      simp
    · obtain ⟨z, hz, hup⟩ := up_mem_sides hnil
      rw [up_append hnil, up_append hnil, hup, if_neg]
      rintro heq
      obtain rfl := Option.some.inj heq
      simp only [addrs_node, List.nodup_append, List.nodup_cons] at hdx
      exact hdx.2.1.2.1.1 (mem_addrs_plug.mpr (Or.inl hz))
  have hx6 : h6.entries x.1 ≠ none := by
    obtain ⟨_, ⟨hx2, _⟩, hd2⟩ := holds_plug.mp hholds2
    rw [hsame6, hx2]
    · simp
    · rw [mem_addrs_plug] at he2 ⊢
      simp only [addrs_node, List.nodup_append, List.nodup_cons, List.mem_append, List.mem_cons] at hd2 he2 ⊢
      grind
  refine ⟨h6, ?_, hpath', hx6, ?_⟩
  · have hmin : h.extreme .left fuel (ptr (plug q (join .left e nil far))) = some (some e.1) := hextreme
    have hchild : h.child .right (some x.1) = some (ptr (plug q (join .left e nil far))) := by rw [child_at hx]; rfl
    have hfar : h.child .right (some e.1) = some (ptr far) := by rw [child_at he]; rfl
    have hcolor : h.color (some e.1) = some e.2 := color_at he
    have hup : h.parent (some e.1) = some (up (q ++ ⟨.right, x, l⟩ :: p)) := parent_at he
    have hup2 : h2.parent (some e.1) = some (up (q ++ ⟨.right, x, l⟩ :: p)) := parent_at hentry2
    unfold unlinkInner
    rw [hchild, Option.bind_eq_bind, Option.bind_some, hmin]
    simp only [Option.bind_eq_bind, Option.bind_some, hfar, hup, hcolor, hset1, hset2, hup2, hget]
    rw [hparent, hset3, Option.bind_some, hset4, Option.bind_some, hchild4, Option.bind_some, hset5, Option.bind_some,
      hchild5, Option.bind_some, hset6, Option.bind_some, hclimb, Option.bind_some, if_pos]
    obtain ⟨z, _, hz⟩ := up_mem_sides (q := q ++ ⟨.right, (e.1, x.2), l⟩ :: p) (by simp)
    rw [hz]
    simp
  · intro z hz
    rw [mem_addrs_plug, addrs_join_perm.mem_iff, mem_sides_append, sides_cons_perm.mem_iff] at hz
    simp only [addrs_nil, List.nil_append, List.mem_cons, List.mem_append, not_or] at hz
    rw [hsame6, hsame2]
    · rw [mem_addrs_plug, mem_sides_append, sides_cons_perm.mem_iff]
      simp only [List.mem_cons, List.mem_append]
      tauto
    · rw [← hview, mem_addrs_plug, mem_sides_append, sides_cons_perm.mem_iff]
      simp only [List.mem_cons, List.mem_append]
      tauto

/-- What RB_REMOVE leaves to RB_REMOVE_COLOR: a hole at the end of the path p, with the
subtree u in it, in place of a node of color c. -/
structure Unlinks (h : RbHead) (t : BinaryTree (Nat × RbColor)) (x : Nat) (h' : RbHead)
    (p : List (Frame (Nat × RbColor))) (u : BinaryTree (Nat × RbColor)) (c : RbColor) : Prop where
  holds : Holds h' (plug p u)
  addrs : RbHead.addrs (plug p u) = (RbHead.addrs t).erase x
  same : ∀ z ∉ RbHead.addrs t, h'.entries z = h.entries z
  kept : h'.entries x ≠ none
  hole : Hole p u c
  length : p.length < t.height

theorem addrs_splice (hd : (addrs (plug p (join s x nil u))).Nodup) :
    addrs (plug p u) = (addrs (plug p (join s x nil u))).erase x.1 := by
  cases s with
  | left =>
    have hsplit : addrs (plug p (join .left x nil u)) = lower p ++ x.1 :: (addrs u ++ upper p) := by
      simp [addrs_plug, join]
    rw [hsplit] at hd ⊢
    rw [erase_split hd, addrs_plug, List.append_assoc]
  | right =>
    have hsplit : addrs (plug p (join .right x nil u)) = (lower p ++ addrs u) ++ x.1 :: upper p := by
      simp [addrs_plug, join]
    rw [hsplit] at hd ⊢
    rw [erase_split hd, addrs_plug]

theorem unlinkOuter_unlinks (ht : Holds h (plug p (join s x nil u))) (hrb : RedBlack (plug p (join s x nil u))) :
    ∃ h' q v c, h.unlinkOuter x.1 (ptr u) = some (h', up q, ptr v, c) ∧
      Unlinks h (plug p (join s x nil u)) x.1 h' q v c := by
  obtain ⟨_, hsub, hd⟩ := holds_plug.mp ht
  obtain ⟨hx, _⟩ := stands_join.mp hsub
  obtain ⟨h', hset, hholds, hsame⟩ := unlinkOuter_holds ht
  have haddrs := addrs_splice ht.nodup
  have hout : x.1 ∉ addrs (plug p u) := by
    rw [haddrs]
    exact ht.nodup.not_mem_erase
  refine ⟨h', p, u, x.2, hset, hholds, haddrs, ?_, ?_, hrb.hole, ?_⟩
  · intro z hz
    refine hsame z fun hmem => hz ?_
    rw [haddrs] at hmem
    exact List.mem_of_mem_erase hmem
  · rw [hsame _ hout, hx]
    simp
  · have hlen := length_path_le (p := p) (t := join s x nil u)
    have hlt := height_join_lt s x nil u
    omega

theorem unlinkInner_unlinks (ht : Holds h (plug p (node x l r))) (hrb : RedBlack (plug p (node x l r))) (hl : l ≠ nil)
    (hr : r ≠ nil) (hfuel : (plug p (node x l r)).height ≤ fuel) :
    ∃ h' q v c, h.unlinkInner fuel x.1 = some (h', up q, ptr v, c) ∧ Unlinks h (plug p (node x l r)) x.1 h' q v c := by
  obtain ⟨q, e, far, rfl, hq⟩ := exists_extreme .left hr
  have hview : ∀ b t, plug (q ++ ⟨.right, b, l⟩ :: p) t = plug p (node b l (plug q t)) := fun b t => by
    rw [plug_append]
    rfl
  rw [← hview] at ht hrb hfuel ⊢
  obtain ⟨h', hset, hholds, hkept, hsame⟩ := unlinkInner_holds ht hl hq hfuel
  refine ⟨h', _, far, e.2, hset, hholds, ?_, hsame, hkept, (RedBlack.relabel hrb).hole, ?_⟩
  · have hd := ht.nodup
    have hlower : lower q = [] := by rw [lower, before_left hq, List.map_nil]
    have hsplit : addrs (plug (q ++ ⟨.right, x, l⟩ :: p) (join .left e nil far)) =
        (lower p ++ addrs l) ++ x.1 :: (e.1 :: (addrs far ++ upper q) ++ upper p) := by
      rw [hview, addrs_plug, addrs_node, addrs_plug, hlower]
      simp [join]
    have hnew : addrs (plug (q ++ ⟨.right, (e.1, x.2), l⟩ :: p) far) =
        (lower p ++ addrs l) ++ (e.1 :: (addrs far ++ upper q) ++ upper p) := by
      rw [hview, addrs_plug, addrs_node, addrs_plug, hlower]
      simp
    rw [hsplit] at hd ⊢
    rw [erase_split hd, hnew]
  · have hlen := length_path_le (p := q ++ ⟨.right, x, l⟩ :: p) (t := join .left e nil far)
    have hlt := height_join_lt .left e nil far
    simp only [List.length_append, List.length_cons] at hlen ⊢
    omega

theorem unlink_unlinks {z : Nat} (ht : Holds h t) (hrb : RedBlack t) (hz : z ∈ addrs t) (hfuel : t.height ≤ fuel) :
    ∃ h' q v c, h.unlink fuel z = some (h', up q, ptr v, c) ∧ Unlinks h t z h' q v c := by
  obtain ⟨x, hx, rfl⟩ := List.mem_map.mp hz
  obtain ⟨p, l, r, rfl⟩ := exists_plug hx
  obtain ⟨_, ⟨hentry, _⟩, _⟩ := holds_plug.mp ht
  have hl : h.child .left (some x.1) = some (ptr l) := child_at hentry
  have hr : h.child .right (some x.1) = some (ptr r) := child_at hentry
  by_cases hlnil : l = nil
  · subst hlnil
    obtain ⟨h', q, v, c, hset, hun⟩ := unlinkOuter_unlinks (s := .left) ht hrb
    exact ⟨h', q, v, c, by simp only [unlink, hl, hr, ptr_nil, hset, Option.bind_eq_bind, Option.bind_some, if_true], hun⟩
  · by_cases hrnil : r = nil
    · subst hrnil
      obtain ⟨h', q, v, c, hset, hun⟩ := unlinkOuter_unlinks (s := .right) ht hrb
      refine ⟨h', q, v, c, ?_, hun⟩
      simp only [unlink, hl, hr, ptr_nil, ptr_eq_none, hlnil, hset, Option.bind_eq_bind, Option.bind_some, if_true, if_false]
    · obtain ⟨h', q, v, c, hset, hun⟩ := unlinkInner_unlinks ht hrb hlnil hrnil hfuel
      refine ⟨h', q, v, c, ?_, hun⟩
      simp only [unlink, hl, hr, ptr_eq_none, hlnil, hrnil, hset, Option.bind_eq_bind, Option.bind_some, if_false]

end RbHead

end CppInAction
