import CppInAction.LruChain

namespace CppInAction

/-- The reference: key and value pairs, the most recently used first. -/
structure LruMap where
  capacity : Int
  entries : List (Int × Int)
deriving DecidableEq, Repr

namespace LruMap

/-- The pairs with a key moved to the front. -/
def moved (m : LruMap) (key value : Int) : List (Int × Int) := (key, value) :: m.entries.filter (·.1 ≠ key)

/-- The pairs with a new key, without the last one if there are too many. -/
def added (m : LruMap) (key value : Int) : List (Int × Int) :=
  if max m.capacity 0 < (((key, value) :: m.entries).length : Int) then ((key, value) :: m.entries).dropLast
  else (key, value) :: m.entries

def call (m : LruMap) : CacheCall → LruMap × Option Int
  | .get key => match m.entries.lookup key with
    | none => (m, some (-1))
    | some value => ({ m with entries := m.moved key value }, some value)
  | .put key value =>
    ({ m with entries := if m.entries.lookup key = none then m.added key value else m.moved key value }, none)

def run (m : LruMap) : List CacheCall → LruMap × List (Option Int)
  | [] => (m, [])
  | a :: as => (((m.call a).1.run as).1, (m.call a).2 :: ((m.call a).1.run as).2)

end LruMap

namespace LRUCache

/-- Forwards and backwards the cache shows the pairs of the reference, the map leads from
each of their keys to its node, size is their number, the heap holds their nodes and the two
sentinels, and a call frees a node if and only if its key goes. -/
structure Shows (c : LRUCache) (m : LruMap) (as : List Nat) : Prop where
  nodup : (c.around as).Nodup
  forward : Path c.next (c.next c.head) as (some c.tail)
  backward : Path c.prev (c.prev c.tail) as.reverse (some c.head)
  entries : c.contents as = m.entries
  mapped : ∀ k a, c.cache.lookup k = some a ↔ a ∈ as ∧ (c.entry a).map Prod.fst = some k
  size : c.size = m.entries.length
  used : ∀ a, (c.cells a).isSome ↔ a ∈ c.around as
  frees : ∀ a d out, c.call a = some (d, out) → ∀ node k v, node ∈ as → c.entry node = some (k, v) →
    (d.cells node = none ↔ (m.call a).1.entries.lookup k = none)

/-- A sequence of calls has a defined outcome, returns what the reference returns and ends in
a cache that shows the reference. -/
def Refines (capacity : Int) (as : List CacheCall) : Prop :=
  ∃ c outs nodes, (new capacity).run as = some (c, outs) ∧
    outs = (LruMap.run ⟨capacity, []⟩ as).2 ∧ c.Shows (LruMap.run ⟨capacity, []⟩ as).1 nodes

variable {c d : LRUCache} {m : LruMap} {as : List Nat} {key value : Int}

/-- The cache has the pairs of the reference. -/
structure Holds (c : LRUCache) (m : LruMap) (as : List Nat) : Prop where
  chain : c.Chain as
  entries : c.contents as = m.entries
  size : c.size = as.length
  capacity : c.capacity = m.capacity

/-- The nodes of the new list are those of the old one with their keys, or new ones. -/
def Kept (c d : LRUCache) (as bs : List Nat) : Prop :=
  SameFrame c d ∧ ∀ b ∈ bs, b ∈ as ∧ (d.entry b).map Prod.fst = (c.entry b).map Prod.fst ∨
    b ∉ as ∧ ∃ k, (d.entry b).map Prod.fst = some k ∧ c.cache.lookup k = none

theorem contents_congr {as : List Nat} (h : ∀ a ∈ as, d.entry a = c.entry a) : d.contents as = c.contents as :=
  List.filterMap_congr h

/-- The map leads to a node: it goes to the front, and nothing else happens. -/
theorem Chain.toFront {l r : List Nat} {node : Nat} (h : c.Chain (l ++ node :: r))
    (hentry : c.entry node = some (key, value)) :
    ∃ d, c.moveToHead node = some d ∧ d.entry = c.entry ∧ d.Chain (node :: (l ++ r)) ∧
      d.contents (node :: (l ++ r)) = (key, value) :: c.contents (l ++ r) ∧ d.size = c.size ∧ SameFrame c d := by
  obtain ⟨d, hd, hchain, hsame⟩ := h.moveToHead
  refine ⟨d, hd, hsame.1, hchain, ?_, ?_, hsame.frame⟩
  · rw [contents_congr fun a _ => congrFun hsame.1 a]
    exact List.filterMap_cons_some hentry
  · rw [hsame.2]

theorem Chain.contents_insert (h : c.Chain as) (hentry : d.entry = Function.update c.entry c.fresh (some (key, value))) :
    d.contents (c.fresh :: as) = (key, value) :: c.contents as := by
  rw [contents, List.filterMap_cons_some (by rw [hentry, Function.update_self])]
  refine congrArg _ (contents_congr fun a ha => ?_)
  have hlt := h.bound a (by simp [around, ha])
  rw [hentry, Function.update_of_ne (Nat.ne_of_lt hlt)]

theorem Chain.contents_evict {l : List Nat} {z : Nat} (h : c.Chain (l ++ [z]))
    (hentry : d.entry = Function.update c.entry z none) : d.contents l = (c.contents (l ++ [z])).dropLast := by
  obtain ⟨x, hx⟩ := Option.isSome_iff_exists.mp (h.nodes z (by simp [around]))
  have hsame : ∀ a ∈ l, d.entry a = c.entry a := by
    intro a ha
    rw [hentry, Function.update_of_ne (h.ne_of_mem a (List.mem_append_left _ ha))]
  rw [contents_append_cons hx, contents_congr hsame]
  exact List.dropLast_concat.symm

theorem Chain.get_hit {node : Nat} (h : c.Chain as) (hk : c.cache.lookup key = some node) :
    ∃ d l r v, as = l ++ node :: r ∧ (c.contents as).lookup key = some v ∧ c.get key = some (d, v) ∧
      d.Chain (node :: (l ++ r)) ∧ d.contents (node :: (l ++ r)) = (key, v) :: (c.contents as).filter (·.1 ≠ key) ∧
      d.entry = c.entry ∧ d.size = c.size ∧ SameFrame c d := by
  obtain ⟨l, r, n, rfl, hn, rfl, hlookup, hfilter⟩ := h.hit hk
  have hentry : c.entry node = some (n.key, n.value) := by rw [entry, hn]; rfl
  obtain ⟨d, hd, hsame, hchain, hcontents, hsize, hframe⟩ := h.toFront hentry
  obtain ⟨n', hn'⟩ : ∃ n', d.cells node = some n' := (Links.refl d).alive (by rw [hsame, hentry]; rfl)
  have hvalue : n'.value = n.value := by
    have he := congrFun hsame node
    rw [hentry, entry, hn'] at he
    exact congrArg Prod.snd (Option.some.inj he)
  refine ⟨d, l, r, n.value, rfl, hlookup, ?_, hchain, ?_, hsame, hsize, hframe⟩
  · simp [LRUCache.get, hk, hd, deref_some hn', hvalue]
  · rw [hcontents, hfilter]

theorem Chain.put_hit {node : Nat} (h : c.Chain as) (hk : c.cache.lookup key = some node) (value : Int) :
    ∃ d l r v, as = l ++ node :: r ∧ (c.contents as).lookup key = some v ∧ c.put key value = some d ∧
      d.Chain (node :: (l ++ r)) ∧ d.contents (node :: (l ++ r)) = (key, value) :: (c.contents as).filter (·.1 ≠ key) ∧
      (∀ b, (d.entry b).map Prod.fst = (c.entry b).map Prod.fst) ∧ d.size = c.size ∧ SameFrame c d := by
  obtain ⟨l, r, n, rfl, hn, rfl, hlookup, hfilter⟩ := h.hit hk
  have hentry : c.entry node = some (n.key, n.value) := by rw [entry, hn]; rfl
  have hstored : (c.store node { n with value }).entry = Function.update c.entry node (some (n.key, value)) := store_entry
  obtain ⟨d, hd, hsame, hchain, hcontents, hsize, hframe⟩ :=
    (h.store hn value).toFront (by rw [hstored, Function.update_self])
  refine ⟨d, l, r, n.value, rfl, hlookup, ?_, hchain, ?_, fun b => ?_, hsize, hframe⟩
  · simp [LRUCache.put, hk, deref_some hn, hd]
  · rw [hcontents, hfilter, contents_congr fun b hb => ?_]
    rw [hstored, Function.update_of_ne (h.ne_of_mem b hb)]
  · rw [hsame, hstored]
    by_cases hbn : b = node
    · rw [hbn, Function.update_self, hentry]
      rfl
    · rw [Function.update_of_ne hbn]

theorem Holds.get (h : c.Holds m as) (key : Int) :
    ∃ d bs, c.call (.get key) = some (d, (m.call (.get key)).2) ∧ d.Holds (m.call (.get key)).1 bs ∧
      Kept c d as bs := by
  cases hk : c.cache.lookup key with
  | none =>
    have hm := (h.chain.lookup_none_iff key).mp hk
    rw [h.entries] at hm
    refine ⟨c, as, ?_, ?_, ⟨rfl, rfl, rfl⟩, fun b hb => Or.inl ⟨hb, rfl⟩⟩
    · simp [call, LRUCache.get, LruMap.call, hk, hm]
    · rw [LruMap.call, hm]
      exact h
  | some node =>
    obtain ⟨d, l, r, v, rfl, hlookup, hd, hchain, hcontents, hsame, hsize, hframe⟩ := h.chain.get_hit hk
    rw [h.entries] at hlookup hcontents
    refine ⟨d, node :: (l ++ r), ?_, ?_, hframe, fun b hb => Or.inl ⟨?_, by rw [hsame]⟩⟩
    · simp [call, LruMap.call, hd, hlookup]
    · simp only [LruMap.call, hlookup]
      refine ⟨hchain, hcontents, ?_, hframe.1.trans h.capacity⟩
      rw [hsize, h.size, List.perm_middle.length_eq]
    · exact (List.perm_middle.mem_iff).mpr hb

theorem Holds.put_hit (h : c.Holds m as) {node : Nat} (hk : c.cache.lookup key = some node) (value : Int) :
    ∃ d bs, c.call (.put key value) = some (d, (m.call (.put key value)).2) ∧
      d.Holds (m.call (.put key value)).1 bs ∧ Kept c d as bs := by
  obtain ⟨d, l, r, v, rfl, hlookup, hd, hchain, hcontents, hkeys, hsize, hframe⟩ := h.chain.put_hit hk value
  rw [h.entries] at hlookup hcontents
  refine ⟨d, node :: (l ++ r), ?_, ?_, hframe, fun b hb => Or.inl ⟨?_, hkeys b⟩⟩
  · simp [call, LruMap.call, hd]
  · simp only [LruMap.call, hlookup, reduceCtorEq, if_false]
    refine ⟨hchain, hcontents, ?_, hframe.1.trans h.capacity⟩
    rw [hsize, h.size, List.perm_middle.length_eq]
  · exact (List.perm_middle.mem_iff).mpr hb

/-- A new node at the front, before the cache looks at its capacity. -/
theorem Holds.insertNew (h : c.Holds m as) (hroom : as.length + 1 < 2 ^ 31) (hk : c.cache.lookup key = none)
    (value : Int) :
    ∃ d, c.insertNew key value = some d ∧ d.Chain (c.fresh :: as) ∧
      d.contents (c.fresh :: as) = (key, value) :: m.entries ∧ d.size = as.length + 1 ∧
      Kept c d as (c.fresh :: as) := by
  obtain ⟨d, hd, hchain, hentry, hframe, hsize⟩ := h.chain.insertNew hk value
  have hfresh : c.fresh ∉ as := fun hm => Nat.lt_irrefl _ (h.chain.bound _ (by simp [around, hm]))
  have hne : ∀ a ∈ as, a ≠ c.fresh := fun a ha haf => hfresh (haf ▸ ha)
  refine ⟨d, hd, hchain, ?_, ?_, hframe, fun b hb => ?_⟩
  · rw [h.chain.contents_insert hentry, h.entries]
  · rw [hsize, h.size]
    exact toInt32_of_nonneg (by omega) (by omega)
  · rcases List.mem_cons.mp hb with rfl | hb
    · exact Or.inr ⟨hfresh, key, by rw [hentry, Function.update_self]; rfl, hk⟩
    · exact Or.inl ⟨hb, by rw [hentry, Function.update_of_ne (hne b hb)]⟩

/-- The last node goes. -/
theorem Kept.evict {bs : List Nat} (h : Kept c d as bs) (hchain : d.Chain bs) (hne : bs ≠ [])
    (hsize : d.size = bs.length) (hroom : bs.length < 2 ^ 31) :
    ∃ e es, d.evict = some e ∧ e.Chain es ∧ e.contents es = (d.contents bs).dropLast ∧ e.size = es.length ∧
      Kept c e as es := by
  obtain ⟨l, z, rfl⟩ : ∃ l z, bs = l ++ [z] := ⟨_, _, (List.dropLast_append_getLast hne).symm⟩
  obtain ⟨e, he, hchain', hentry, hframe, hsize'⟩ := hchain.evict
  have hsame : ∀ a ∈ l, e.entry a = d.entry a := by
    intro a ha
    rw [hentry, Function.update_of_ne (hchain.ne_of_mem a (List.mem_append_left _ ha))]
  rw [List.length_append, List.length_singleton] at hsize hroom
  refine ⟨e, l, he, hchain', hchain.contents_evict hentry, ?_, h.1.trans hframe, fun b hb => ?_⟩
  · rw [hsize', hsize, toInt32_of_nonneg (by omega) (by omega)]
    omega
  · rw [hsame b hb]
    exact h.2 b (List.mem_append_left _ hb)

theorem Holds.put_new (h : c.Holds m as) (hroom : as.length + 1 < 2 ^ 31) (hk : c.cache.lookup key = none)
    (value : Int) :
    ∃ d bs, c.call (.put key value) = some (d, (m.call (.put key value)).2) ∧
      d.Holds (m.call (.put key value)).1 bs ∧ Kept c d as bs := by
  obtain ⟨d, hd, hchain, hcontents, hsize, hkept⟩ := h.insertNew hroom hk value
  have hlookup := (h.chain.lookup_none_iff key).mp hk
  rw [h.entries] at hlookup
  have hlength : m.entries.length = as.length := by rw [← h.entries, h.chain.contents_length]
  have hcapacity : d.capacity = m.capacity := hkept.1.1.trans h.capacity
  have hiff : max m.capacity 0 < (((key, value) :: m.entries).length : Int) ↔ d.capacity < d.size := by
    rw [List.length_cons, hlength, hsize, hcapacity]
    omega
  simp only [LruMap.call, LruMap.added, hlookup, if_true]
  by_cases hover : d.capacity < d.size
  · obtain ⟨e, es, he, hchain', hcontents', hsize', hkept'⟩ :=
      hkept.evict hchain (List.cons_ne_nil _ _) hsize hroom
    refine ⟨e, es, ?_, ⟨hchain', ?_, hsize', hkept'.1.1.trans h.capacity⟩, hkept'⟩
    · simp [call, LRUCache.put, hk, hd, hover, he]
    · rw [if_pos (hiff.mpr hover), hcontents', hcontents]
  · refine ⟨d, c.fresh :: as, ?_, ⟨hchain, ?_, hsize, hcapacity⟩, hkept⟩
    · simp [call, LRUCache.put, hk, hd, hover]
    · rw [if_neg fun hmax => hover (hiff.mp hmax), hcontents]

/-- Every call of the cache is a call of the reference, as long as size can be incremented. -/
theorem Holds.call (h : c.Holds m as) (hroom : as.length + 1 < 2 ^ 31) (a : CacheCall) :
    ∃ d bs, c.call a = some (d, (m.call a).2) ∧ d.Holds (m.call a).1 bs ∧ Kept c d as bs := by
  cases a with
  | get key => exact h.get key
  | put key value =>
    cases hk : c.cache.lookup key with
    | none => exact h.put_new hroom hk value
    | some node => exact h.put_hit hk value

/-- A node of the old list is gone exactly if its key is. -/
theorem Kept.frees {m' : LruMap} {bs : List Nat} {node : Nat} {k v : Int} (hkept : Kept c d as bs)
    (h : c.Chain as) (hd : d.Holds m' bs) (hnode : node ∈ as) (hentry : c.entry node = some (k, v)) :
    d.cells node = none ↔ m'.entries.lookup k = none := by
  have hkey : (c.entry node).map Prod.fst = some k := by rw [hentry]; rfl
  rw [← hd.entries, ← hd.chain.lookup_none_iff k]
  constructor
  · intro hnone
    cases hl : d.cache.lookup k with
    | none => rfl
    | some b =>
      obtain ⟨hb, hbk⟩ := (hd.chain.mapped k b).mp hl
      rcases hkept.2 b hb with ⟨hbas, hsame⟩ | ⟨_, k', hbk', hnew⟩
      · cases h.key_inj hbas hnode (hsame.symm.trans hbk) hkey
        have hsome := hd.chain.nodes node (by simp [around, hb])
        rw [LRUCache.entry, hnone] at hsome
        cases hsome
      · rw [hbk] at hbk'
        cases Option.some.inj hbk'
        rw [(h.mapped k node).mpr ⟨hnode, hkey⟩] at hnew
        cases hnew
  · intro hnone
    by_contra hsome
    have hsome : (d.entry node).isSome := by
      rw [LRUCache.entry, Option.isSome_map]
      exact Option.isSome_iff_ne_none.mpr hsome
    have hbs : node ∈ bs := by
      have hm := hd.chain.used node hsome
      have hnodup := h.nodup
      rw [around, hkept.1.2.1, hkept.1.2.2] at hm
      simp only [around, List.cons_append, List.nodup_cons, List.mem_append, List.mem_singleton,
        List.nodup_append, not_or] at hnodup
      rcases List.mem_append.mp hm with hm | hm
      · rcases List.mem_cons.mp hm with rfl | hm
        · exact absurd hnode hnodup.1.1
        · exact hm
      · exact absurd (List.mem_singleton.mp hm) (hnodup.2.2.2 node hnode _ rfl)
    rcases hkept.2 node hbs with ⟨_, hsame⟩ | ⟨hout, _⟩
    · rw [(hd.chain.mapped k node).mpr ⟨hbs, hsame.trans hkey⟩] at hnone
      cases hnone
    · exact hout hnode

theorem Holds.shows (h : c.Holds m as) (hroom : as.length + 1 < 2 ^ 31) : c.Shows m as where
  nodup := h.chain.nodup
  forward := h.chain.linked.path
  backward := h.chain.linked.path_reverse
  entries := h.entries
  mapped := h.chain.mapped
  size := by rw [h.size, ← h.entries, h.chain.contents_length]
  used := fun a => by
    have hiff : (c.cells a).isSome = (c.entry a).isSome := (Option.isSome_map ..).symm
    rw [hiff]
    exact ⟨h.chain.used a, h.chain.nodes a⟩
  frees := fun a d out hd node k v hnode hentry => by
    obtain ⟨e, bs, he, hholds, hkept⟩ := h.call hroom a
    rw [he] at hd
    cases Option.some.inj hd
    exact hkept.frees h.chain hholds hnode hentry

end LRUCache

namespace LruMap

variable {m : LruMap}

/-- No more pairs than the capacity allows. -/
def Bounded (m : LruMap) : Prop := (m.entries.length : Int) ≤ max m.capacity 0

theorem moved_length {key other : Int} (h : m.entries.lookup key = some other) (value : Int) :
    (m.moved key value).length ≤ m.entries.length := by
  have hlt : (m.entries.filter (·.1 ≠ key)).length < m.entries.length :=
    List.length_filter_lt_length_iff_exists.mpr ⟨_, mem_of_lookup h, by simp⟩
  exact hlt

theorem added_length {key value : Int} (h : m.Bounded) : ((m.added key value).length : Int) ≤ max m.capacity 0 := by
  unfold added
  split
  next =>
    rw [List.length_dropLast, List.length_cons, Nat.add_sub_cancel]
    exact h
  next hle => exact Int.not_lt.mp hle

theorem call_capacity (m : LruMap) (a : CacheCall) : (m.call a).1.capacity = m.capacity := by
  cases a with
  | get key =>
    rw [call]
    split <;> rfl
  | put key value => rfl

theorem Bounded.call (h : m.Bounded) (a : CacheCall) : (m.call a).1.Bounded := by
  unfold Bounded at h ⊢
  rw [call_capacity]
  cases a with
  | get key =>
    rw [LruMap.call]
    split
    next => exact h
    next value hl =>
      have hle := moved_length hl value
      change ((m.moved key value).length : Int) ≤ _
      omega
  | put key value =>
    rw [LruMap.call]
    by_cases hl : m.entries.lookup key = none
    · simp only [if_pos hl]
      exact added_length h
    · obtain ⟨other, hother⟩ := Option.ne_none_iff_exists'.mp hl
      have hle := moved_length hother value
      simp only [if_neg hl]
      omega

end LruMap

namespace LRUCache

variable {c d : LRUCache} {m : LruMap} {nodes : List Nat} {capacity : Int}

theorem holds_new (capacity : Int) : (new capacity).Holds ⟨capacity, []⟩ [] :=
  ⟨chain_new capacity, rfl, rfl, rfl⟩

theorem Holds.room (h : c.Holds m nodes) (hbounded : m.Bounded) (hcapacity : m.capacity < 2 ^ 31 - 1) :
    nodes.length + 1 < 2 ^ 31 := by
  have hlength : m.entries.length = nodes.length := by rw [← h.entries, h.chain.contents_length]
  unfold LruMap.Bounded at hbounded
  omega

/-- A whole run of the cache is the run of the reference. -/
theorem Holds.run (as : List CacheCall) (h : c.Holds m nodes) (hbounded : m.Bounded)
    (hcapacity : m.capacity < 2 ^ 31 - 1) :
    ∃ d bs, c.run as = some (d, (m.run as).2) ∧ d.Shows (m.run as).1 bs := by
  induction as generalizing c m nodes with
  | nil => exact ⟨c, nodes, rfl, h.shows (h.room hbounded hcapacity)⟩
  | cons a as ih =>
    obtain ⟨d, bs, hd, hholds, _⟩ := h.call (h.room hbounded hcapacity) a
    have hcapacity' : (m.call a).1.capacity < 2 ^ 31 - 1 := by
      rw [m.call_capacity a]
      exact hcapacity
    obtain ⟨e, es, he, hshows⟩ := ih hholds (hbounded.call a) hcapacity'
    refine ⟨e, es, ?_, hshows⟩
    simp [LRUCache.run, LruMap.run, hd, he]

/-- Puts of the keys 0, 1, and so on. -/
def puts (n : Nat) : List CacheCall := (List.range n).map fun k : Nat => .put k 0

/-- What the reference holds after them when its capacity is not reached. -/
def filled (capacity : Int) (n : Nat) : LruMap := ⟨capacity, (List.range n).reverse.map fun k : Nat => (k, 0)⟩

theorem filled_lookup (capacity : Int) (n : Nat) : (filled capacity n).entries.lookup (n : Int) = none := by
  refine lookup_eq_none.mpr fun x hx hn => ?_
  obtain ⟨k, hk, rfl⟩ := List.mem_map.mp hx
  have hlt := List.mem_range.mp (List.mem_reverse.mp hk)
  have hkn : (k : Int) = n := hn
  omega

theorem filled_length (capacity : Int) (n : Nat) : (filled capacity n).entries.length = n := by
  simp [filled]

theorem filled_call {n : Nat} (hcapacity : (n : Int) < capacity) :
    ((filled capacity n).call (.put n 0)).1 = filled capacity (n + 1) := by
  have hmax : ¬ max (filled capacity n).capacity 0 <
      ((((n : Int), (0 : Int)) :: (filled capacity n).entries).length : Int) := by
    rw [List.length_cons, filled_length]
    change ¬ max capacity 0 < _
    omega
  rw [LruMap.call, LruMap.added, if_pos (filled_lookup capacity n), if_neg hmax]
  simp [filled, List.range_succ]

theorem puts_succ (n : Nat) : puts (n + 1) = puts n ++ [.put n 0] := by
  simp [puts, List.range_succ]

theorem run_concat (c : LRUCache) (as : List CacheCall) (a : CacheCall) :
    c.run (as ++ [a]) = (c.run as).bind fun x => (x.1.call a).map fun y => (y.1, x.2 ++ [y.2]) := by
  induction as generalizing c with
  | nil =>
    cases h : c.call a with
    | none => simp [LRUCache.run, h]
    | some x => simp [LRUCache.run, h]
  | cons b as ih =>
    cases h : c.call b with
    | none => simp [LRUCache.run, h]
    | some x =>
      have hb : ∀ bs, c.run (b :: bs) = (x.1.run bs).map fun y => (y.1, x.2 :: y.2) := by
        intro bs
        cases hbs : x.1.run bs <;> simp [LRUCache.run, h, hbs]
      rw [List.cons_append, hb, hb, ih]
      cases hx : x.1.run as with
      | none => rfl
      | some y =>
        simp only [Option.bind_some, Option.map_some]
        cases y.1.call a <;> rfl

/-- A cache that is not full holds everything that was put in. -/
theorem fill {n : Nat} (hn : n < 2 ^ 31) (hcapacity : (n : Int) ≤ capacity) :
    ∃ c outs nodes, (new capacity).run (puts n) = some (c, outs) ∧ c.Holds (filled capacity n) nodes := by
  induction n with
  | zero => exact ⟨new capacity, [], [], rfl, holds_new capacity⟩
  | succ n ih =>
    obtain ⟨c, outs, nodes, hrun, hholds⟩ := ih (by omega) (by omega)
    have hlength : nodes.length = n := by
      rw [← hholds.chain.contents_length, hholds.entries, filled_length]
    obtain ⟨d, bs, hd, hholds', _⟩ := hholds.call (by omega) (.put n 0)
    rw [filled_call (by omega)] at hholds'
    refine ⟨d, outs ++ [none], bs, ?_, hholds'⟩
    rw [puts_succ, run_concat, hrun, Option.bind_some, hd]
    rfl

/-- With a capacity of INT_MAX the counter overflows before the capacity is exceeded. -/
theorem overflows {n : Nat} (hn : n + 1 = 2 ^ 31) (hcapacity : (n : Int) ≤ capacity) :
    ¬ Refines capacity (puts (n + 1)) := by
  rintro ⟨e, outs, nodes, hrun, -, hshows⟩
  obtain ⟨c, outs', nodes', hrun', hholds⟩ := fill (by omega) hcapacity
  have hk : c.cache.lookup (n : Int) = none := by
    rw [hholds.chain.lookup_none_iff, hholds.entries, filled_lookup]
  obtain ⟨d, hd, _, _, hframe, hsize⟩ := hholds.chain.insertNew hk 0
  have hcsize : c.size = n := by
    rw [hholds.size, ← hholds.chain.contents_length, hholds.entries, filled_length]
  have hwrap : d.size = -2 ^ 31 := by
    have hn' : (n : Int) + 1 = 2 ^ 31 := by exact_mod_cast hn
    rw [hsize, hcsize, hn']
    decide
  have hdcap : d.capacity = capacity := hframe.1.trans hholds.capacity
  have hput : c.put n 0 = some d := by
    simp only [LRUCache.put, hk, hd, Option.bind_eq_bind, Option.bind_some]
    rw [if_neg (by omega)]
  rw [puts_succ, run_concat, hrun', Option.bind_some] at hrun
  simp only [LRUCache.call, hput, Option.map_some, Option.some.injEq, Prod.mk.injEq] at hrun
  have hsize := hshows.size
  rw [← hrun.1, hwrap] at hsize
  omega

/-- The cache is the reference in every run exactly if its capacity is below INT_MAX. -/
theorem lruCache_refines_iff (capacity : Int) : (∀ as, Refines capacity as) ↔ capacity < 2 ^ 31 - 1 := by
  constructor
  · intro h
    by_contra hcapacity
    exact overflows (n := 2 ^ 31 - 1) (by decide) (by omega) (h _)
  · intro hcapacity as
    have hbounded : LruMap.Bounded ⟨capacity, []⟩ := Int.le_max_right capacity 0
    obtain ⟨c, nodes, hrun, hshows⟩ := (holds_new capacity).run as hbounded hcapacity
    exact ⟨c, _, nodes, hrun, rfl, hshows⟩

example : ((new 2).run [.put 1 10, .put 2 20, .get 1, .put 3 3, .get 2]).map Prod.snd =
    some [none, none, some 10, none, some (-1)] := by decide

theorem lruCache_not_always_refines : ¬ ∀ (capacity : Int) (as : List CacheCall), Refines capacity as := by
  intro h
  exact overflows (n := 2 ^ 31 - 1) (by decide) (by decide) (h (2 ^ 31 - 1) _)

end LRUCache

end CppInAction
