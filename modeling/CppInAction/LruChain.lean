import CppInAction.Assoc
import CppInAction.LruCache

namespace CppInAction

namespace LRUCache

variable {c d : LRUCache} {as l r : List Nat} {node : Nat} {key value : Int}

/-- From c to d only links of nodes have changed. -/
def SameNodes (c d : LRUCache) : Prop := d.entry = c.entry ∧ d = { c with cells := d.cells }

theorem SameNodes.head (h : SameNodes c d) : d.head = c.head := by
  rw [h.2]

theorem SameNodes.tail (h : SameNodes c d) : d.tail = c.tail := by
  rw [h.2]

theorem SameNodes.trans {e : LRUCache} (h : SameNodes c d) (h' : SameNodes d e) : SameNodes c e := by
  refine ⟨h'.1.trans h.1, ?_⟩
  rw [h'.2, h.2]

/-- The capacity and the sentinels stay as they are. -/
def SameFrame (c d : LRUCache) : Prop := d.capacity = c.capacity ∧ d.head = c.head ∧ d.tail = c.tail

theorem SameFrame.trans {e : LRUCache} (h : SameFrame c d) (h' : SameFrame d e) : SameFrame c e :=
  ⟨h'.1.trans h.1, h'.2.1.trans h.2.1, h'.2.2.trans h.2.2⟩

theorem SameNodes.frame (h : SameNodes c d) : SameFrame c d := by
  refine ⟨?_, h.head, h.tail⟩
  rw [h.2]

/-- All nodes of the list, the two sentinels included. -/
def around (c : LRUCache) (as : List Nat) : List Nat := c.head :: as ++ [c.tail]

theorem around_of_same (h : SameNodes c d) : d.around as = c.around as := by
  rw [around, h.head, h.tail]
  rfl

theorem around_middle : (c.around (l ++ node :: r)).Perm (node :: c.around (l ++ r)) := by
  have h : (c.head :: l ++ node :: r).Perm (node :: (c.head :: l ++ r)) := List.perm_middle
  simpa [around] using h.append_right [c.tail]

/-- The listed nodes are linked in that order between the sentinels. -/
structure Ring (c : LRUCache) (as : List Nat) : Prop where
  nodup : (c.around as).Nodup
  linked : Linked c.next c.prev (c.around as)
  nodes : ∀ a ∈ c.around as, (c.entry a).isSome

theorem Ring.ne_of_mem (h : c.Ring (l ++ node :: r)) : ∀ a ∈ l ++ r, a ≠ node := by
  have hout := (List.nodup_cons.mp (around_middle.nodup_iff.mp h.nodup)).1
  rintro a ha rfl
  exact hout (List.mem_append_left _ (List.mem_cons_of_mem _ ha))

theorem Ring.removeNode (h : c.Ring (l ++ node :: r)) :
    ∃ d, c.removeNode node = some d ∧ d.Ring (l ++ r) ∧ SameNodes c d := by
  obtain ⟨front, a, hfront⟩ : ∃ front a, c.head :: l = front ++ [a] :=
    ⟨_, _, (List.dropLast_append_getLast (List.cons_ne_nil c.head l)).symm⟩
  obtain ⟨b, back, hback⟩ : ∃ b back, r ++ [c.tail] = b :: back := by
    cases r with
    | nil => exact ⟨_, _, rfl⟩
    | cons b r => exact ⟨_, _, rfl⟩
  have hall : c.around (l ++ node :: r) = front ++ a :: node :: b :: back := by
    calc c.around (l ++ node :: r) = (c.head :: l) ++ node :: (r ++ [c.tail]) := by simp [around]
      _ = front ++ a :: node :: b :: back := by rw [hfront, hback]; simp
  have hrest : c.around (l ++ r) = front ++ a :: b :: back := by
    calc c.around (l ++ r) = (c.head :: l) ++ (r ++ [c.tail]) := by simp [around]
      _ = front ++ a :: b :: back := by rw [hfront, hback]; simp
  have hnodup := h.nodup
  have hlinked := h.linked
  have hnodes := h.nodes
  rw [hall] at hnodup hlinked hnodes
  obtain ⟨_, ⟨hanode, hprev⟩, hnext⟩ := List.isChain_append_cons_cons.mp hlinked
  have hne : node ≠ a := by
    rintro rfl
    simp [List.nodup_append] at hnodup
  obtain ⟨d, hd, hlinks⟩ := removeNode_links (hnodes node (by simp)) (hnodes a (by simp)) (hnodes b (by simp))
    hprev (List.isChain_cons_cons.mp hnext).1.1 hne
  have hsame : SameNodes c d := ⟨hlinks.entry, hlinks.rest⟩
  have hd' : d.around (l ++ r) = c.around (l ++ r) := by
    rw [around, hsame.head, hsame.tail]
    rfl
  have hsub : (c.around (l ++ r)).Sublist (c.around (l ++ node :: r)) := by
    rw [hall, hrest]
    simp
  refine ⟨d, hd, ⟨?_, ?_, fun x hx => ?_⟩, hsame⟩
  · rw [hd']
    exact h.nodup.sublist hsub
  · rw [hd', hrest, hlinks.next, hlinks.prev]
    exact hlinked.remove hnodup
  · rw [hlinks.entry]
    rw [hd'] at hx
    exact h.nodes x (hsub.subset hx)

theorem Ring.addToHead (h : c.Ring as) (hnode : (c.entry node).isSome) (hout : node ∉ c.around as) :
    ∃ d, c.addToHead node = some d ∧ d.Ring (node :: as) ∧ SameNodes c d := by
  obtain ⟨b, back, hback⟩ : ∃ b back, as ++ [c.tail] = b :: back := by
    cases as with
    | nil => exact ⟨_, _, rfl⟩
    | cons b as => exact ⟨_, _, rfl⟩
  have hall : c.around as = c.head :: b :: back := congrArg (c.head :: ·) hback
  have hmore : c.around (node :: as) = c.head :: node :: b :: back :=
    congrArg (fun xs => c.head :: node :: xs) hback
  have hnodup := h.nodup
  have hlinked := h.linked
  have hnodes := h.nodes
  rw [hall] at hnodup hlinked hnodes hout
  have hne : c.head ≠ node := fun hne => hout (hne ▸ List.mem_cons_self)
  obtain ⟨d, hd, hlinks⟩ := addToHead_links hnode (hnodes _ (by simp)) (hnodes b (by simp))
    (List.isChain_cons_cons.mp hlinked).1.1 hne
  have hsame : SameNodes c d := ⟨hlinks.entry, hlinks.rest⟩
  have hd' : d.around (node :: as) = c.head :: node :: b :: back := by
    rw [← hmore, around, hsame.head, hsame.tail]
    rfl
  refine ⟨d, hd, ⟨?_, ?_, fun x hx => ?_⟩, hsame⟩
  · rw [hd']
    refine ((List.Perm.swap node c.head (b :: back)).nodup_iff).mpr ?_
    exact List.nodup_cons.mpr ⟨hout, hnodup⟩
  · rw [hd', hlinks.next, hlinks.prev]
    exact hlinked.insert hnodup hout
  · rw [hlinks.entry]
    rw [hd'] at hx
    rcases List.mem_cons.mp hx with rfl | hx
    · exact hnodes _ List.mem_cons_self
    · rcases List.mem_cons.mp hx with rfl | hx
      · exact hnode
      · exact hnodes x (List.mem_cons_of_mem _ hx)

theorem Ring.moveToHead (h : c.Ring (l ++ node :: r)) :
    ∃ d, c.moveToHead node = some d ∧ d.Ring (node :: (l ++ r)) ∧ SameNodes c d := by
  obtain ⟨d, hd, hring, hsame⟩ := h.removeNode
  have hnode : (d.entry node).isSome := by
    rw [hsame.1]
    exact h.nodes node (by simp [around])
  have hout : node ∉ d.around (l ++ r) := by
    rw [around_of_same hsame]
    exact (List.nodup_cons.mp (around_middle.nodup_iff.mp h.nodup)).1
  obtain ⟨e, he, hring, hsame'⟩ := hring.addToHead hnode hout
  refine ⟨e, ?_, hring, hsame.trans hsame'⟩
  simp [LRUCache.moveToHead, hd, he]

/-- The nodes in use are those of the list, and the map leads from each key to its node. -/
structure Chain (c : LRUCache) (as : List Nat) : Prop extends Ring c as where
  used : ∀ a, (c.entry a).isSome → a ∈ c.around as
  bound : ∀ a ∈ c.around as, a < c.fresh
  mapped : ∀ k a, c.cache.lookup k = some a ↔ a ∈ as ∧ (c.entry a).map Prod.fst = some k

/-- What the listed nodes say. -/
def contents (c : LRUCache) (as : List Nat) : List (Int × Int) := as.filterMap c.entry

theorem chain_new (capacity : Int) : (new capacity).Chain [] := by
  have haround : (new capacity).around [] = [0, 1] := rfl
  refine ⟨⟨?_, ?_, ?_⟩, fun a ha => ?_, ?_, fun k a => ?_⟩
  · rw [haround]
    decide
  · exact List.isChain_cons_cons.mpr ⟨⟨rfl, rfl⟩, List.isChain_singleton 1⟩
  · intro a ha
    rw [haround] at ha
    rcases List.mem_cons.mp ha with rfl | ha
    · rfl
    · rw [List.mem_singleton.mp ha]
      rfl
  · rw [haround]
    by_contra hout
    have h0 : a ≠ 0 := fun h => hout (by simp [h])
    have h1 : a ≠ 1 := fun h => hout (by simp [h])
    simp [entry, new, Function.update_of_ne h0, Function.update_of_ne h1] at ha
  · rw [haround]
    change ∀ a ∈ [0, 1], a < 2
    decide
  · simp [new]

/-- A ring whose nodes were only moved around. -/
theorem Chain.of_same {bs : List Nat} (h : c.Chain as) (hring : d.Ring bs) (hsame : SameNodes c d)
    (hperm : bs.Perm as) : d.Chain bs := by
  have haround : ∀ a, a ∈ d.around bs ↔ a ∈ c.around as := by
    intro a
    rw [around_of_same hsame]
    simp [around, hperm.mem_iff]
  refine ⟨hring, fun a ha => ?_, fun a ha => ?_, fun k a => ?_⟩
  · rw [hsame.1] at ha
    exact (haround a).mpr (h.used a ha)
  · have hfresh : d.fresh = c.fresh := by rw [hsame.2]
    rw [hfresh]
    exact h.bound a ((haround a).mp ha)
  · have hcache : d.cache = c.cache := by rw [hsame.2]
    rw [hcache, hsame.1, hperm.mem_iff]
    exact h.mapped k a

theorem Chain.moveToHead (h : c.Chain (l ++ node :: r)) :
    ∃ d, c.moveToHead node = some d ∧ d.Chain (node :: (l ++ r)) ∧ SameNodes c d := by
  obtain ⟨d, hd, hring, hsame⟩ := h.toRing.moveToHead
  exact ⟨d, hd, h.of_same hring hsame List.perm_middle.symm, hsame⟩

/-- Storing a value to a listed node. -/
theorem Chain.store {n : DListNode} (h : c.Chain as) (hn : c.cells node = some n) (value : Int) :
    (c.store node { n with value }).Chain as := by
  have hnext : (c.store node { n with value }).next = c.next := by
    rw [store_next, Function.update_eq_self_iff, LRUCache.next, hn]
    rfl
  have hprev : (c.store node { n with value }).prev = c.prev := by
    rw [store_prev, Function.update_eq_self_iff, LRUCache.prev, hn]
    rfl
  have hentry : ∀ a, ((c.store node { n with value }).entry a).map Prod.fst = (c.entry a).map Prod.fst := by
    intro a
    rw [store_entry]
    by_cases ha : a = node
    · subst ha
      simp [entry, hn]
    · rw [Function.update_of_ne ha]
  have hsome : ∀ a, ((c.store node { n with value }).entry a).isSome = (c.entry a).isSome := by
    intro a
    have := congrArg Option.isSome (hentry a)
    rwa [Option.isSome_map, Option.isSome_map] at this
  refine ⟨⟨h.nodup, ?_, fun a ha => ?_⟩, fun a ha => ?_, h.bound, fun k a => ?_⟩
  · rw [hnext, hprev]
    exact h.linked
  · rw [hsome]
    exact h.nodes a ha
  · rw [hsome] at ha
    exact h.used a ha
  · rw [hentry]
    exact h.mapped k a

/-- What happens beside the list leaves it as it is. -/
theorem Ring.of_cells (h : c.Ring as) (hhead : d.head = c.head) (htail : d.tail = c.tail)
    (hcells : ∀ a ∈ c.around as, d.cells a = c.cells a) : d.Ring as := by
  have haround : d.around as = c.around as := by
    rw [around, hhead, htail]
    rfl
  refine ⟨?_, ?_, fun a ha => ?_⟩
  · rw [haround]
    exact h.nodup
  · rw [haround]
    refine h.linked.congr (fun a ha => ?_) (fun a ha => ?_)
    · rw [LRUCache.next, hcells a ha]
      rfl
    · rw [LRUCache.prev, hcells a ha]
      rfl
  · rw [haround] at ha
    rw [LRUCache.entry, hcells a ha]
    exact h.nodes a ha

theorem newNode_entry : (c.newNode key value).entry = Function.update c.entry c.fresh (some (key, value)) :=
  store_entry

/-- The map with a key that was not in it, which leads to a node that was not listed. -/
theorem Chain.mapped_cons (h : c.Chain as) (hkey : c.cache.lookup key = none) (hnode : node ∉ as) (k : Int) (a : Nat) :
    ((key, node) :: c.cache).lookup k = some a ↔
      a ∈ node :: as ∧ (Function.update c.entry node (some (key, value)) a).map Prod.fst = some k := by
  by_cases hk : k = key
  · subst hk
    rw [List.lookup_cons_self]
    constructor
    · intro ha
      cases Option.some.inj ha
      simp
    · rintro ⟨ha, hak⟩
      rcases List.mem_cons.mp ha with rfl | ha
      · rfl
      · have hne : a ≠ node := fun hne => hnode (hne ▸ ha)
        rw [Function.update_of_ne hne] at hak
        rw [(h.mapped k a).mpr ⟨ha, hak⟩] at hkey
        cases hkey
  · rw [lookup_cons_ne hk, h.mapped k a]
    by_cases ha : a = node
    · subst ha
      simp [hnode, Ne.symm hk]
    · simp [ha]

theorem Chain.insertNew (h : c.Chain as) (hkey : c.cache.lookup key = none) (value : Int) :
    ∃ d, c.insertNew key value = some d ∧ d.Chain (c.fresh :: as) ∧
      d.entry = Function.update c.entry c.fresh (some (key, value)) ∧ SameFrame c d ∧
      d.size = toInt32 (c.size + 1) := by
  have hfresh : c.fresh ∉ c.around as := fun hm => Nat.lt_irrefl _ (h.bound _ hm)
  have hring : (c.newNode key value).Ring as :=
    h.toRing.of_cells rfl rfl fun a ha => Function.update_of_ne (Nat.ne_of_lt (h.bound a ha)) _ _
  have hnode : ((c.newNode key value).entry c.fresh).isSome := by
    rw [newNode_entry, Function.update_self]
    rfl
  obtain ⟨d, hd, hring', hsame⟩ := hring.addToHead hnode hfresh
  have hentry : d.entry = Function.update c.entry c.fresh (some (key, value)) := hsame.1.trans newNode_entry
  have haround : ∀ a, a ∈ d.around (c.fresh :: as) ↔ a = c.fresh ∨ a ∈ c.around as := by
    intro a
    rw [around_of_same hsame]
    change a ∈ c.head :: c.fresh :: as ++ [c.tail] ↔ a = c.fresh ∨ a ∈ c.head :: as ++ [c.tail]
    simp [or_left_comm]
  refine ⟨{ d with size := toInt32 (d.size + 1) }, ?_, ⟨?_, fun a ha => ?_, fun a ha => ?_, fun k a => ?_⟩,
    hentry, hsame.frame, ?_⟩
  · simp [LRUCache.insertNew, hd]
  · exact hring'.of_cells rfl rfl fun a _ => rfl
  · refine (haround a).mpr ?_
    by_cases hf : a = c.fresh
    · exact Or.inl hf
    · have ha : (d.entry a).isSome := ha
      rw [hentry, Function.update_of_ne hf] at ha
      exact Or.inr (h.used a ha)
  · have hdf : d.fresh = c.fresh + 1 := by rw [hsame.2]; rfl
    change a < d.fresh
    rw [hdf]
    rcases (haround a).mp ha with rfl | ha
    · omega
    · have := h.bound a ha
      omega
  · have hdc : d.cache = (key, c.fresh) :: c.cache := by rw [hsame.2]; rfl
    change d.cache.lookup k = some a ↔ a ∈ c.fresh :: as ∧ (d.entry a).map Prod.fst = some k
    rw [hdc, hentry]
    exact h.mapped_cons hkey (fun hm => hfresh (by simp [around, hm])) k a
  · have hds : d.size = c.size := by rw [hsame.2]; rfl
    rw [← hds]

theorem removeTail_eq (h : c.Ring (l ++ [node])) :
    ∃ d, c.removeTail = some (d, node) ∧ d.Ring l ∧ SameNodes c d := by
  obtain ⟨d, hd, hring, hsame⟩ := h.removeNode
  rw [List.append_nil] at hring
  refine ⟨d, ?_, hring, hsame⟩
  have hall : c.around (l ++ [node]) = (c.head :: l) ++ node :: c.tail :: [] := by simp [around]
  have hlinked := h.linked
  rw [hall] at hlinked
  have hprev := (List.isChain_append_cons_cons.mp hlinked).2.1.2
  obtain ⟨t, ht, _, htp, _⟩ := (Links.refl c).deref (h.nodes c.tail (by simp [around]))
  obtain ⟨n, hn, _⟩ := (Links.refl c).deref (h.nodes node (by simp [around]))
  rw [hprev] at htp
  simp [LRUCache.removeTail, ht, htp, hn, hd]

/-- Two listed nodes with one key are one node. -/
theorem Chain.key_inj (h : c.Chain as) {a b : Nat} {k : Int} (ha : a ∈ as) (hb : b ∈ as)
    (hak : (c.entry a).map Prod.fst = some k) (hbk : (c.entry b).map Prod.fst = some k) : a = b := by
  have ha := (h.mapped k a).mpr ⟨ha, hak⟩
  rw [(h.mapped k b).mpr ⟨hb, hbk⟩] at ha
  exact (Option.some.inj ha).symm

/-- The map without the key of the last node. -/
theorem Chain.mapped_concat (h : c.Chain (l ++ [node])) (hkey : (c.entry node).map Prod.fst = some key) (k : Int)
    (a : Nat) :
    (c.cache.filter (·.1 ≠ key)).lookup k = some a ↔
      a ∈ l ∧ (Function.update c.entry node none a).map Prod.fst = some k := by
  have hne : ∀ b ∈ l, b ≠ node := fun b hb => h.ne_of_mem b (List.mem_append_left _ hb)
  by_cases hk : k = key
  · subst hk
    rw [lookup_filter_self]
    constructor
    · intro hnone
      cases hnone
    · rintro ⟨ha, hak⟩
      rw [Function.update_of_ne (hne a ha)] at hak
      exact absurd (h.key_inj (List.mem_append_left _ ha) (by simp) hak hkey) (hne a ha)
  · rw [lookup_filter_ne hk, h.mapped k a, List.mem_append, List.mem_singleton]
    by_cases ha : a = node
    · subst ha
      rw [hkey]
      simp [Ne.symm hk]
    · rw [Function.update_of_ne ha]
      simp [ha]

theorem Chain.evict (h : c.Chain (l ++ [node])) :
    ∃ d, c.evict = some d ∧ d.Chain l ∧ d.entry = Function.update c.entry node none ∧
      SameFrame c d ∧ d.size = toInt32 (c.size - 1) := by
  obtain ⟨e, he, hring, hsame⟩ := removeTail_eq h.toRing
  obtain ⟨n, hn⟩ : ∃ n, e.cells node = some n := by
    refine (Links.refl e).alive ?_
    rw [hsame.1]
    exact h.nodes node (by simp [around])
  have hkey : (c.entry node).map Prod.fst = some n.key := by
    rw [← hsame.1, LRUCache.entry, hn]
    rfl
  have hperm : (c.around (l ++ [node])).Perm (node :: e.around l) := by
    have hmiddle : (c.around (l ++ [node])).Perm (node :: c.around (l ++ [])) := around_middle
    rw [around_of_same hsame]
    rwa [List.append_nil] at hmiddle
  have hout : node ∉ e.around l := (List.nodup_cons.mp (hperm.nodup_iff.mp h.nodup)).1
  let d : LRUCache :=
    { e with
      cells := Function.update e.cells node none
      cache := e.cache.filter (·.1 ≠ n.key)
      size := toInt32 (e.size - 1) }
  have hentry : d.entry = Function.update c.entry node none := by
    funext a
    by_cases ha : a = node
    · subst ha
      simp [LRUCache.entry, d]
    · rw [Function.update_of_ne ha, ← hsame.1]
      simp [LRUCache.entry, d, Function.update_of_ne ha]
  refine ⟨d, ?_, ⟨?_, fun a ha => ?_, fun a ha => ?_, fun k a => ?_⟩, hentry, hsame.frame, ?_⟩
  · simp [LRUCache.evict, he, deref_some hn, delete, hn, d]
  · refine hring.of_cells rfl rfl fun a ha => Function.update_of_ne (fun hane => ?_) _ _
    exact hout (hane ▸ ha)
  · have hane : a ≠ node := by
      rintro rfl
      rw [hentry, Function.update_self] at ha
      cases ha
    rw [hentry, Function.update_of_ne hane] at ha
    exact (List.mem_cons.mp ((hperm.mem_iff).mp (h.used a ha))).resolve_left hane
  · have hfresh : e.fresh = c.fresh := by rw [hsame.2]
    change a < e.fresh
    rw [hfresh]
    exact h.bound a ((hperm.mem_iff).mpr (List.mem_cons_of_mem _ ha))
  · have hcache : e.cache = c.cache := by rw [hsame.2]
    rw [hentry, ← h.mapped_concat hkey k a, ← hcache]
  · change toInt32 (e.size - 1) = toInt32 (c.size - 1)
    rw [hsame.2]

theorem contents_append_cons {a : Nat} {e : Int × Int} (he : c.entry a = some e) :
    c.contents (l ++ a :: r) = c.contents l ++ e :: c.contents r := by
  rw [contents, List.filterMap_append, List.filterMap_cons_some he]
  rfl

theorem Chain.contents_length (h : c.Chain as) : (c.contents as).length = as.length := by
  rw [contents, List.length_filterMap_eq_countP, List.countP_eq_length]
  intro a ha
  exact h.nodes a (by simp [around, ha])

theorem mem_contents {e : Int × Int} : e ∈ c.contents as ↔ ∃ a ∈ as, c.entry a = some e := List.mem_filterMap

theorem Chain.lookup_none_iff (h : c.Chain as) (k : Int) :
    c.cache.lookup k = none ↔ (c.contents as).lookup k = none := by
  constructor
  · intro hnone
    refine lookup_eq_none.mpr fun e he hek => ?_
    obtain ⟨a, ha, hae⟩ := mem_contents.mp he
    rw [(h.mapped k a).mpr ⟨ha, by rw [hae, ← hek]; rfl⟩] at hnone
    cases hnone
  · intro hnone
    cases hl : c.cache.lookup k with
    | none => rfl
    | some a =>
      obtain ⟨ha, hak⟩ := (h.mapped k a).mp hl
      obtain ⟨e, hae, hek⟩ := Option.map_eq_some_iff.mp hak
      exact absurd hek (lookup_eq_none.mp hnone e (mem_contents.mpr ⟨a, ha, hae⟩))

/-- What the list says about a node that the map leads to. -/
theorem Chain.hit (h : c.Chain as) {a : Nat} (hk : c.cache.lookup key = some a) :
    ∃ l r n, as = l ++ a :: r ∧ c.cells a = some n ∧ n.key = key ∧
      (c.contents as).lookup key = some n.value ∧ (c.contents as).filter (·.1 ≠ key) = c.contents (l ++ r) := by
  obtain ⟨ha, hak⟩ := (h.mapped key a).mp hk
  obtain ⟨l, r, rfl⟩ := List.append_of_mem ha
  obtain ⟨n, hn⟩ := (Links.refl c).alive (h.nodes a (by simp [around]))
  have hentry : c.entry a = some (n.key, n.value) := by rw [entry, hn]; rfl
  rw [hentry] at hak
  cases Option.some.inj hak
  have hother : ∀ e ∈ c.contents (l ++ r), e.1 ≠ n.key := by
    intro e he hek
    obtain ⟨b, hb, hbe⟩ := mem_contents.mp he
    have hbas : b ∈ l ++ a :: r := by
      rcases List.mem_append.mp hb with hb | hb <;> simp [hb]
    exact h.ne_of_mem b hb (h.key_inj hbas ha (k := n.key) (by rw [hbe, ← hek]; rfl) (by rw [hentry]; rfl))
  have hsplit : c.contents (l ++ r) = c.contents l ++ c.contents r := List.filterMap_append
  refine ⟨l, r, n, rfl, hn, rfl, ?_, ?_⟩
  · rw [contents_append_cons hentry]
    exact lookup_append_cons fun e he => hother e (by rw [hsplit]; exact List.mem_append_left _ he)
  · rw [contents_append_cons hentry, hsplit, List.filter_append, List.filter_cons_of_neg (by simp)]
    rw [← List.filter_append, ← hsplit]
    exact List.filter_eq_self.mpr fun e he => by simpa using hother e he

end LRUCache

end CppInAction
