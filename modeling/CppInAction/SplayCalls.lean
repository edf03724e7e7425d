import CppInAction.SplayLoop

namespace CppInAction

open BinaryTree

namespace SplayHead

variable {h : SplayHead} {t : BinaryTree Nat} {c : Nat → Int} {cmp : Nat → Nat → Int} {x y fuel : Nat} {L : List Nat}

/-- The head has a tree of these elements, in this order. -/
def Represents (h : SplayHead) (L : List Nat) : Prop := ∃ t, Holds h t ∧ t.inorder = L

theorem Represents.entry (hr : h.Represents L) (hx : x ∈ L) : h.entries x ≠ none := by
  obtain ⟨t, ht, rfl⟩ := hr
  have hstands := ht.stands
  clear ht
  induction t with
  | nil => cases hx
  | node b l r ihl ihr =>
    obtain ⟨hb, hl, hr⟩ := hstands
    rcases List.mem_append.mp hx with hx | hx
    · exact ihl hx hl
    · rcases List.mem_cons.mp hx with rfl | hx
      · simp [hb]
      · exact ihr hx hr

theorem represents_init (h : SplayHead) : h.init.Represents [] := ⟨nil, ⟨rfl, trivial, List.nodup_nil⟩, rfl⟩

theorem height_le_length : t.height ≤ t.inorder.length := by
  induction t with
  | nil => rfl
  | node b l r ihl ihr =>
    simp only [height, inorder_node, List.length_append, List.length_cons]
    omega

/-- SPLAY on a list of elements: the element that comes to the root, and the two parts of
the rest. -/
theorem splayBy_represents (hr : h.Represents L) (hne : L ≠ []) (hprobe : Probes c L) (hfuel : L.length ≤ fuel) :
    ∃ h' y l r, h.splayBy c fuel = some h' ∧ Holds h' (node y l r) ∧ l.inorder ++ y :: r.inorder = L ∧
      (∀ a ∈ l.inorder, 0 < c a) ∧ (∀ a ∈ r.inorder, c a < 0) ∧ ∀ z ∉ L, h'.entries z = h.entries z := by
  obtain ⟨t, ht, rfl⟩ := hr
  have hheight := height_le_length (t := t)
  obtain ⟨h', y, l, r, hset, ht', horder, hl, hr, hsame⟩ :=
    splayBy_holds ht (mt inorder_eq_nil.mpr hne) hprobe (show t.height ≤ fuel by omega)
  exact ⟨h', y, l, r, hset, ht', horder, hl, hr, hsame⟩

theorem Represents.root (hr : h.Represents L) : h.root = none ↔ L = [] := by
  obtain ⟨t, ht, rfl⟩ := hr
  rw [ht.root, inorder_eq_nil]
  cases t <;> simp

/-- The new element above the root, which keeps one of its subtrees. -/
theorem raise_holds {s : Side} {near far : BinaryTree Nat} (ht : Holds h (join s y near far))
    (hx : x ∉ (join s y near far).inorder) (hentry : h.entries x ≠ none) :
    ∃ h1 h2 h3, h.child s (some y) = some near.top ∧ h.setChild s (some x) near.top = some h1 ∧
      h1.setChild s.other (some x) (some y) = some h2 ∧ h2.setChild s (some y) none = some h3 ∧
      Holds { h3 with root := some x } (join s x near (join s y nil far)) ∧
      ∀ z ∉ (join s y near far).inorder, z ≠ x → h3.entries z = h.entries z := by
  obtain ⟨hy, hnear, hfar⟩ := stands_join.mp ht.stands
  rw [join_perm.mem_iff] at hx
  have hd := join_perm.nodup_iff.mp ht.nodup
  simp only [List.mem_cons, List.mem_append, not_or, List.nodup_cons] at hx hd
  obtain ⟨hxy, hxn, hxf⟩ := hx
  obtain ⟨⟨hyn, hyf⟩, hdnf⟩ := hd
  obtain ⟨e, he⟩ := Option.ne_none_iff_exists'.mp hentry
  let h1 := h.put x (e.setChild s near.top)
  let h2 := h1.put x ((e.setChild s near.top).setChild s.other (some y))
  let h3 := h2.put y (.at s none far.top)
  have hy2 : h2.entries y = some (.at s near.top far.top) :=
    (put_ne (Ne.symm hxy)).trans ((put_ne (Ne.symm hxy)).trans hy)
  have hsame : ∀ z, z ≠ x → z ≠ y → h3.entries z = h.entries z :=
    fun z hzx hzy => (put_ne hzy).trans ((put_ne hzx).trans (put_ne hzx))
  refine ⟨h1, h2, h3, by rw [child_at hy, SplayEntry.at_child], setChild_at he, setChild_at put_self,
    by rw [setChild_at hy2, SplayEntry.at_setChild], ⟨top_join.symm, stands_join.mpr ⟨?_, ?_, stands_join.mpr ⟨?_, ?_, ?_⟩⟩, ?_⟩, ?_⟩
  · rw [top_join]
    refine (put_ne hxy).trans (put_self.trans ?_)
    cases s <;> rfl
  · exact hnear.congr fun z hz => hsame z (by rintro rfl; exact hxn hz) (by rintro rfl; exact hyn hz)
  · exact put_self
  · trivial
  · exact hfar.congr fun z hz => hsame z (by rintro rfl; exact hxf hz) (by rintro rfl; exact hyf hz)
  · rw [(join_perm.trans ((join_perm.append_left _).cons _)).nodup_iff]
    simp only [List.nodup_cons, List.mem_append, List.mem_cons, inorder_nil, List.nil_append, not_or]
    exact ⟨⟨hxn, hxy, hxf⟩, List.nodup_middle.mpr (List.nodup_cons.mpr ⟨by simp [hyn, hyf], hdnf⟩)⟩
  · intro z hz hzx
    exact hsame z hzx fun heq => hz (heq ▸ mem_inorder_join.mpr (Or.inl rfl))

variable {S : SortedSet cmp}

/-- What SPLAY for an element leaves at the root of a tree in order. -/
theorem splay_represents (hc : CmpOrder cmp) (hr : h.Represents S.elems) (hne : S.elems ≠ []) (x : Nat)
    (hfuel : S.elems.length ≤ fuel) :
    ∃ h' y l r, h.splay cmp fuel x = some h' ∧ Holds h' (node y l r) ∧ l.inorder ++ y :: r.inorder = S.elems ∧
      (∀ a ∈ l.inorder, 0 < cmp x a) ∧ (∀ a ∈ r.inorder, cmp x a < 0) ∧ S.find x = (if cmp x y = 0 then some y else none) ∧
      ∀ z ∉ S.elems, h'.entries z = h.entries z := by
  obtain ⟨h', y, l, r, hset, ht, horder, hl, hr, hsame⟩ :=
    splayBy_represents hr hne (Probes.of_sorted hc S.sorted x) hfuel
  refine ⟨h', y, l, r, hset, ht, horder, hl, hr, ?_, hsame⟩
  rw [SortedSet.find, ← horder]
  rcases lt_trichotomy (cmp x y) 0 with hy | hy | hy
  · rw [if_neg hy.ne]
    exact find_of_gap hl (List.forall_mem_cons.mpr ⟨hy, hr⟩)
  · rw [if_pos hy, find_of_zero hl hy]
  · rw [if_neg hy.ne', List.append_cons]
    refine find_of_gap (fun a ha => ?_) hr
    rcases List.mem_append.mp ha with ha | ha
    · exact hl a ha
    · rwa [List.mem_singleton.mp ha]

theorem insert_represents (hc : CmpOrder cmp) (hr : h.Represents S.elems) (hx : h.entries x ≠ none)
    (hfuel : S.elems.length ≤ fuel) :
    ∃ h', h.insert cmp fuel x = some (h', S.find x) ∧ h'.Represents (S.insert hc x).elems ∧ h'.entries x ≠ none ∧
      ∀ z ∉ S.elems, z ≠ x → h'.entries z = h.entries z := by
  by_cases hempty : S.elems = []
  · have hroot := hr.root.mpr hempty
    have hfind : S.find x = none := by rw [SortedSet.find, hempty, List.find?_nil]
    obtain ⟨e, he⟩ := Option.ne_none_iff_exists'.mp hx
    let h1 := h.put x (e.setChild .right none)
    let h2 := h1.put x ((e.setChild .right none).setChild .left none)
    have hset2 : h1.setChild .left (some x) none = some h2 := setChild_at put_self
    refine ⟨{ h2 with root := some x }, ?_, ⟨node x nil nil, ⟨rfl, ⟨put_self, trivial, trivial⟩, by simp⟩, ?_⟩, ?_, ?_⟩
    · simp only [insert, hroot, setChild_at he, hset2, hfind, Option.bind_eq_bind, Option.bind_some, h1]
    · rw [SortedSet.insert_of_none hc hfind, hempty]
      rfl
    · exact ne_of_eq_of_ne put_self (by simp)
    · intro z _ hz
      exact (put_ne hz).trans (put_ne hz)
  · obtain ⟨h1, y, l, r, hset1, ht1, horder, hl, hr1, hfind, hsame1⟩ := splay_represents hc hr hempty x hfuel
    have hroot : ∃ a, h.root = some a := Option.ne_none_iff_exists'.mp fun hnone => hempty (hr.root.mp hnone)
    obtain ⟨a, hroot⟩ := hroot
    have hroot1 : h1.root = some y := ht1.root
    by_cases hy : cmp x y = 0
    · rw [if_pos hy] at hfind
      have hr1 : h1.Represents S.elems := ⟨_, ht1, horder⟩
      refine ⟨h1, ?_, ?_, ?_, fun z hz _ => hsame1 z hz⟩
      · simp only [insert, hroot, hset1, hroot1, hy, hfind, Option.bind_eq_bind, Option.bind_some, if_true]
      · rwa [SortedSet.insert_of_some hc hfind]
      · by_cases hmem : x ∈ S.elems
        · exact hr1.entry hmem
        · rwa [hsame1 x hmem]
    · rw [if_neg hy] at hfind
      have hmem : x ∉ (node y l r).inorder := by
        intro hmem
        rw [inorder_node, horder] at hmem
        rw [SortedSet.find, find_self hc S.sorted hmem] at hfind
        cases hfind
      have hentry1 : h1.entries x ≠ none := by
        rwa [hsame1 x (by rwa [← horder])]
      suffices hraise : ∀ s near far, node y l r = join s y near far →
          (if cmp x y < 0 then Side.left else .right) = s →
          (join s x near (join s y nil far)).inorder = S.elems.orderedInsert (cmp · · ≤ 0) x → _ by
        rcases lt_or_gt_of_ne hy with hneg | hpos
        · refine hraise .left l r rfl (if_pos hneg) ?_
          rw [← horder, orderedInsert_of_gap hl (List.forall_mem_cons.mpr ⟨hneg, hr1⟩)]
          rfl
        · refine hraise .right r l rfl (if_neg (not_lt.mpr (le_of_lt hpos))) ?_
          rw [← horder, List.append_cons, orderedInsert_of_gap _ hr1]
          · simp [join]
          · intro a ha
            rcases List.mem_append.mp ha with ha | ha
            · exact hl a ha
            · rwa [List.mem_singleton.mp ha]
      intro s near far hview hside horder'
      rw [hview] at ht1 hmem
      obtain ⟨h2, h3, h4, hchild, hset2, hset3, hset4, ht4, hsame4⟩ := raise_holds ht1 hmem hentry1
      have hr4 : ({ h4 with root := some x } : SplayHead).Represents (S.insert hc x).elems :=
        ⟨_, ht4, by rw [horder', SortedSet.insert_of_none hc hfind]⟩
      refine ⟨{ h4 with root := some x }, ?_, hr4, hr4.entry ?_, ?_⟩
      · simp only [insert, hroot, hset1, hroot1, hy, hside, hchild, hset2, hset3, hset4, hfind, Option.bind_eq_bind,
          Option.bind_some, if_false]
      · rw [SortedSet.insert_of_none hc hfind, List.mem_orderedInsert]
        exact Or.inl rfl
      · intro z hz hzx
        have hz' : z ∉ (join s y near far).inorder := by rwa [← hview, inorder_node, horder]
        exact (hsame4 z hz' hzx).trans (hsame1 z hz)

theorem find_mem (hc : CmpOrder cmp) (hx : x ∈ S.elems) : S.find x = some x := find_self hc S.sorted hx

/-- SPLAY for an element of the tree brings it to the root. -/
theorem splay_mem (hc : CmpOrder cmp) (hr : h.Represents S.elems) (hx : x ∈ S.elems) (hfuel : S.elems.length ≤ fuel) :
    ∃ h' l r, h.splay cmp fuel x = some h' ∧ Holds h' (node x l r) ∧ l.inorder ++ x :: r.inorder = S.elems ∧
      (∀ a ∈ l.inorder, 0 < cmp x a) ∧ ∀ z ∉ S.elems, h'.entries z = h.entries z := by
  obtain ⟨h', y, l, r, hset, ht, horder, hl, _, hfind, hsame⟩ :=
    splay_represents hc hr (List.ne_nil_of_mem hx) x hfuel
  rw [find_mem hc hx] at hfind
  by_cases hy : cmp x y = 0
  · rw [if_pos hy] at hfind
    obtain rfl := Option.some.inj hfind
    exact ⟨h', l, r, hset, ht, horder, hl, hsame⟩
  · rw [if_neg hy] at hfind
    cases hfind

theorem root_of_mem (hr : h.Represents L) (hx : x ∈ L) : ∃ a, h.root = some a :=
  Option.ne_none_iff_exists'.mp fun hnone => List.ne_nil_of_mem hx (hr.root.mp hnone)

theorem remove_represents (hc : CmpOrder cmp) (hr : h.Represents S.elems) (hx : x ∈ S.elems)
    (hfuel : S.elems.length ≤ fuel) :
    ∃ h', h.remove cmp fuel x = some (h', some x) ∧ h'.Represents (S.elems.erase x) ∧ h'.entries x ≠ none ∧
      ∀ z ∉ S.elems, h'.entries z = h.entries z := by
  obtain ⟨h1, l, r, hset1, ht1, horder, hl, hsame1⟩ := splay_mem hc hr hx hfuel
  obtain ⟨a, hroot⟩ := root_of_mem hr hx
  have hroot1 : h1.root = some x := ht1.root
  obtain ⟨hx1, hstandsl, hstandsr⟩ := ht1.stands
  have hchildl : h1.child .left (some x) = some l.top := child_at hx1
  have hchildr : h1.child .right (some x) = some r.top := child_at hx1
  have hd := ht1.nodup
  have herase : S.elems.erase x = l.inorder ++ r.inorder := by
    rw [← horder]
    exact erase_split hd
  rw [inorder_node, List.nodup_middle, List.nodup_cons, List.mem_append, not_or] at hd
  obtain ⟨⟨hxl, hxr⟩, hd⟩ := hd
  obtain ⟨hdl, hdr, hlr⟩ := List.nodup_append.mp hd
  by_cases hnil : l = nil
  · subst hnil
    refine ⟨{ h1 with root := r.top }, ?_, ⟨r, ⟨rfl, hstandsr.congr fun _ _ => rfl, hdr⟩, by simp [herase]⟩, ?_, hsame1⟩
    · simp only [remove, hroot, hset1, hroot1, hc.refl x, hchildl, hchildr, top_nil, Option.bind_eq_bind, Option.bind_some,
        if_true]
    · simp [hx1]
  · -- what is before the element is splayed for it, and what is behind goes to the right of its root
    have hr2 : ({ h1 with root := l.top } : SplayHead).Represents l.inorder :=
      ⟨l, ⟨rfl, hstandsl.congr fun _ _ => rfl, hdl⟩, rfl⟩
    have hprobe : Probes (cmp x) l.inorder := by
      have hp := Probes.of_sorted hc S.sorted x
      rw [← horder] at hp
      exact (List.pairwise_append.mp hp).1
    have hlen : l.inorder.length ≤ fuel := by
      have hlength := congrArg List.length horder
      rw [List.length_append] at hlength
      omega
    obtain ⟨h2, y, l2, r2, hset2, ht2, horder2, _, hneg2, hsame2⟩ :=
      splayBy_represents hr2 (mt inorder_eq_nil.mp hnil) hprobe hlen
    have hr2nil : r2 = nil := by
      rw [← inorder_eq_nil, List.eq_nil_iff_forall_not_mem]
      intro b hb
      have hneg := hneg2 b hb
      have hpos := hl b (by rw [← horder2]; simp [hb])
      omega
    subst hr2nil
    have hroot2 : h2.root = some y := ht2.root
    obtain ⟨hy2, hstands2, _⟩ := ht2.stands
    have hyl : y ∈ l.inorder := by rw [← horder2]; simp
    let h3 := h2.put y ⟨l2.top, r.top⟩
    have hset3 : h2.setChild .right (some y) r.top = some h3 := setChild_at hy2
    have hsame3 : ∀ z, z ≠ y → h3.entries z = h2.entries z := fun z hz => put_ne hz
    have hd2 := ht2.nodup
    rw [inorder_node, List.nodup_middle, List.nodup_cons] at hd2
    have horder3 : (node y l2 r).inorder = S.elems.erase x := by
      rw [herase, ← horder2]
      simp
    refine ⟨h3, ?_, ⟨node y l2 r, ⟨hroot2, ⟨put_self, ?_, ?_⟩, ?_⟩, horder3⟩, ?_, ?_⟩
    · obtain ⟨b, hb⟩ : ∃ b, l.top = some b := by
        cases l with
        | nil => exact absurd rfl hnil
        | node b u v => exact ⟨b, rfl⟩
      have hset2' : splay cmp fuel { h1 with root := some b } x = some h2 := by rw [← hb]; exact hset2
      simp only [remove, hroot, hset1, hroot1, hc.refl x, hchildl, hchildr, hb, hset2', hroot2, hset3, Option.bind_eq_bind,
        Option.bind_some, if_true]
    · exact hstands2.congr fun z hz => hsame3 z (by rintro rfl; exact hd2.1 (by simp [hz]))
    · exact hstandsr.congr fun z hz => by
        rw [hsame3 z fun heq => hlr y hyl z hz heq.symm, hsame2 z fun hmem => hlr z hmem z hz rfl]
    · rw [horder3, herase]
      exact hd
    · rw [hsame3 x (by rintro rfl; exact hxl hyl), hsame2 x hxl, hx1]
      simp
    · intro z hz
      rw [← horder, List.mem_append, List.mem_cons, not_or, not_or] at hz
      rw [hsame3 z (by rintro rfl; exact hz.1 hyl), hsame2 z hz.1, hsame1 z]
      rw [← horder, List.mem_append, List.mem_cons, not_or, not_or]
      exact hz

theorem find_represents (hc : CmpOrder cmp) (hr : h.Represents S.elems) (x : Nat) (hfuel : S.elems.length ≤ fuel) :
    ∃ h', h.find cmp fuel x = some (h', S.find x) ∧ h'.Represents S.elems ∧
      ∀ z ∉ S.elems, h'.entries z = h.entries z := by
  by_cases hempty : S.elems = []
  · have hroot := hr.root.mpr hempty
    refine ⟨h, ?_, hr, fun _ _ => rfl⟩
    simp only [find, hroot, SortedSet.find, hempty, List.find?_nil]
  · obtain ⟨h1, y, l, r, hset1, ht1, horder, _, _, hfind, hsame1⟩ := splay_represents hc hr hempty x hfuel
    obtain ⟨a, hroot⟩ := Option.ne_none_iff_exists'.mp fun hnone => hempty (hr.root.mp hnone)
    have hroot1 : h1.root = some y := ht1.root
    refine ⟨h1, ?_, ⟨_, ht1, horder⟩, hsame1⟩
    simp only [find, hroot, hset1, hroot1, hfind, Option.bind_eq_bind, Option.bind_some]

theorem leftmost_stands (ht : Stands h t) (hne : t ≠ nil) (hfuel : t.height ≤ fuel) :
    h.leftmost fuel t.top = some t.inorder.head? := by
  induction t generalizing fuel with
  | nil => exact absurd rfl hne
  | node b l r ihl _ =>
    obtain ⟨hb, hl, _⟩ := ht
    simp only [height] at hfuel
    obtain ⟨fuel, rfl⟩ : ∃ k, fuel = k + 1 := ⟨fuel - 1, by omega⟩
    have hchild : h.child .left (some b) = some l.top := child_at hb
    simp only [top_node, leftmost, hchild, Option.bind_eq_bind, Option.bind_some]
    by_cases hnil : l = nil
    · subst hnil
      rfl
    · have hloop := ihl hl hnil (show l.height ≤ fuel by omega)
      rw [inorder_node, List.head?_append_of_ne_nil _ (mt inorder_eq_nil.mp hnil), ← hloop]
      cases l with
      | nil => exact absurd rfl hnil
      | node c u v => rfl

theorem next_represents (hc : CmpOrder cmp) (hr : h.Represents S.elems) (hx : x ∈ S.elems)
    (hfuel : S.elems.length ≤ fuel) :
    ∃ h', h.next cmp fuel x = some (h', S.next x) ∧ h'.Represents S.elems ∧
      ∀ z ∉ S.elems, h'.entries z = h.entries z := by
  obtain ⟨h1, l, r, hset1, ht1, horder, _, hsame1⟩ := splay_mem hc hr hx hfuel
  obtain ⟨hx1, _, hstandsr⟩ := ht1.stands
  have hchild : h1.child .right (some x) = some r.top := child_at hx1
  refine ⟨h1, ?_, ⟨_, ht1, horder⟩, hsame1⟩
  rw [(SortedSet.next_prev_of_split hc horder.symm).1]
  by_cases hnil : r = nil
  · subst hnil
    simp only [next, hset1, hchild, top_nil, Option.bind_eq_bind, Option.bind_some, inorder_nil, List.head?_nil]
  · have hlen : r.height ≤ fuel := by
      have hheight := height_le_length (t := r)
      have hlength := congrArg List.length horder
      rw [List.length_append, List.length_cons] at hlength
      omega
    have hloop := leftmost_stands hstandsr hnil hlen
    cases r with
    | nil => exact absurd rfl hnil
    | node c u v =>
      rw [top_node] at hchild hloop
      simp only [next, hset1, hchild, hloop, Option.bind_eq_bind, Option.bind_some]

theorem minMax_represents (hr : h.Represents L) (hfuel : L.length ≤ fuel) :
    (∃ h', h.minMax fuel (-1) = some (h', L.head?) ∧ h'.Represents L ∧ ∀ z ∉ L, h'.entries z = h.entries z) ∧
    ∃ h', h.minMax fuel 1 = some (h', L.getLast?) ∧ h'.Represents L ∧ ∀ z ∉ L, h'.entries z = h.entries z := by
  by_cases hempty : L = []
  · have hroot := hr.root.mpr hempty
    subst hempty
    exact ⟨⟨h, by simp only [minMax, hroot, List.head?_nil], hr, fun _ _ => rfl⟩,
      h, by simp only [minMax, hroot, List.getLast?_nil], hr, fun _ _ => rfl⟩
  · obtain ⟨a, hroot⟩ := Option.ne_none_iff_exists'.mp fun hnone => hempty (hr.root.mp hnone)
    constructor
    · obtain ⟨h1, y, l, r, hset1, ht1, horder, hl, _, hsame1⟩ :=
        splayBy_represents (c := fun _ => -1) hr hempty 
          (List.pairwise_of_forall fun _ _ hneg => absurd hneg (show ¬(0 : Int) ≤ -1 by omega)) hfuel
      have hlnil : l.inorder = [] := List.eq_nil_iff_forall_not_mem.mpr fun b hb => by
        have := hl b hb
        omega
      refine ⟨h1, ?_, ⟨_, ht1, horder⟩, hsame1⟩
      have hroot1 : h1.root = some y := ht1.root
      simp only [minMax, hroot, splayMinmax, hset1, hroot1, ← horder, hlnil, List.nil_append, List.head?_cons,
        Option.bind_eq_bind, Option.bind_some]
    · obtain ⟨h1, y, l, r, hset1, ht1, horder, _, hr1, hsame1⟩ :=
        splayBy_represents (c := fun _ => 1) hr hempty (List.pairwise_of_forall fun _ _ _ => Int.one_pos) hfuel
      have hrnil : r.inorder = [] := List.eq_nil_iff_forall_not_mem.mpr fun b hb => by
        have := hr1 b hb
        omega
      refine ⟨h1, ?_, ⟨_, ht1, horder⟩, hsame1⟩
      have hroot1 : h1.root = some y := ht1.root
      simp only [minMax, hroot, splayMinmax, hset1, hroot1, ← horder, hrnil, List.getLast?_concat,
        Option.bind_eq_bind, Option.bind_some]

end SplayHead

end CppInAction
