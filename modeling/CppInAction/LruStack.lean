import CppInAction.LruRefines
import CppInAction.Recency

namespace CppInAction

namespace LRUCache

/-- How many pairs a cache keeps: size is an int, so that it never exceeds a capacity of
INT_MAX. -/
def room (capacity : Int) : ℕ∞ := if capacity < 2 ^ 31 - 1 then capacity.toNat else ⊤

theorem room_mono {c₁ c₂ : Int} (h : c₁ ≤ c₂) : room c₁ ≤ room c₂ := by
  unfold room
  by_cases h₂ : c₂ < 2 ^ 31 - 1
  · rw [if_pos (by omega), if_pos h₂]
    have hle : c₁.toNat ≤ c₂.toNat := by omega
    exact_mod_cast hle
  · rw [if_neg h₂]
    exact le_top

/-- The pairs after a call. -/
def recent (capacity : Int) (xs : List (Int × Int)) : CacheCall → List (Int × Int)
  | .get key => Recency.get xs key
  | .put key value => Recency.put (room capacity) xs key value

/-- The cache has these pairs, the most recently used first. -/
structure Ranks (c : LRUCache) (limit : Int) (xs : List (Int × Int)) (as : List Nat) : Prop where
  chain : c.Chain as
  contents : c.contents as = xs
  capacity : c.capacity = limit
  size : c.size = toInt32 as.length
  fits : as.length ≤ room limit

variable {c d : LRUCache} {capacity : Int} {xs : List (Int × Int)} {as : List Nat} {key value : Int}

theorem ranks_new (capacity : Int) : (new capacity).Ranks capacity [] [] :=
  ⟨chain_new capacity, rfl, rfl, rfl, bot_le⟩

theorem toInt32_add (x y : Int) : toInt32 (toInt32 x + y) = toInt32 (x + y) := by
  unfold toInt32
  rw [Int.bmod_add_bmod]

theorem Ranks.get (h : c.Ranks capacity xs as) (key : Int) :
    ∃ d bs, c.get key = some (d, (xs.lookup key).getD (-1)) ∧ d.Ranks capacity (Recency.get xs key) bs := by
  have hxs := h.contents
  unfold Recency.get
  cases hk : c.cache.lookup key with
  | none =>
    have hnone := (h.chain.lookup_none_iff key).mp hk
    rw [hxs] at hnone
    refine ⟨c, as, ?_, ?_⟩
    · simp [LRUCache.get, hk, hnone]
    · rw [hnone]
      exact h
  | some node =>
    obtain ⟨d, l, r, v, rfl, hlookup, hd, hchain, hcontents, _, hsize, hframe⟩ := h.chain.get_hit hk
    have hlength : (node :: (l ++ r)).length = (l ++ node :: r).length := List.perm_middle.symm.length_eq
    rw [hxs] at hlookup hcontents
    rw [hlookup]
    refine ⟨d, node :: (l ++ r), hd, hchain, hcontents, hframe.1.trans h.capacity, ?_, ?_⟩
    · rw [hsize, h.size, hlength]
    · rw [hlength]
      exact h.fits

theorem Ranks.put_hit (h : c.Ranks capacity xs as) {node : Nat} (hk : c.cache.lookup key = some node) (value : Int) :
    ∃ d bs, c.put key value = some d ∧ d.Ranks capacity (Recency.put (room capacity) xs key value) bs := by
  obtain ⟨d, l, r, v, rfl, hlookup, hd, hchain, hcontents, _, hsize, hframe⟩ := h.chain.put_hit hk value
  have hlength : (node :: (l ++ r)).length = (l ++ node :: r).length := List.perm_middle.symm.length_eq
  rw [h.contents] at hlookup hcontents
  unfold Recency.put
  rw [hlookup]
  refine ⟨d, node :: (l ++ r), hd, hchain, hcontents, hframe.1.trans h.capacity, ?_, ?_⟩
  · rw [hsize, h.size, hlength]
  · rw [hlength]
    exact h.fits

/-- With one pair more, the cache is over its capacity if and only if it had no room. -/
theorem room_le_iff {n : Nat} (h : n ≤ room capacity) :
    room capacity ≤ n ↔ capacity < toInt32 (n + 1 : Nat) := by
  unfold room at h ⊢
  by_cases hc : capacity < 2 ^ 31 - 1
  · rw [if_pos hc] at h ⊢
    have hn : n ≤ capacity.toNat := by exact_mod_cast h
    have hle : (capacity.toNat : ℕ∞) ≤ n ↔ capacity.toNat ≤ n := by exact_mod_cast Iff.rfl
    rw [hle, toInt32_of_nonneg (by omega) (by omega)]
    omega
  · rw [if_neg hc]
    have hlt := toInt32_lt (n + 1 : Nat)
    constructor
    · intro htop
      exact absurd (top_le_iff.mp htop) (ENat.natCast_ne_top n)
    · intro hover
      omega

theorem Ranks.put_new (h : c.Ranks capacity xs as) (hk : c.cache.lookup key = none) (value : Int) :
    ∃ d bs, c.put key value = some d ∧ d.Ranks capacity (Recency.put (room capacity) xs key value) bs := by
  obtain ⟨d, hd, hchain, hentry, hframe, hsize⟩ := h.chain.insertNew hk value
  have hcontents := h.chain.contents_insert hentry
  have hnone := (h.chain.lookup_none_iff key).mp hk
  have hlength : xs.length = as.length := by rw [← h.contents, h.chain.contents_length]
  have hcapacity : d.capacity = capacity := hframe.1.trans h.capacity
  have hdsize : d.size = toInt32 (as.length + 1 : Nat) := by
    rw [hsize, h.size, toInt32_add]
    rfl
  have hiff : room capacity ≤ xs.length ↔ d.capacity < d.size := by
    rw [hlength, hcapacity, hdsize]
    exact room_le_iff h.fits
  rw [h.contents] at hcontents hnone
  unfold Recency.put
  rw [hnone]
  simp only [Recency.add]
  by_cases hover : d.capacity < d.size
  · -- the last node of the list goes, whatever the new one is
    obtain ⟨l, z, hlz⟩ : ∃ l z, c.fresh :: as = l ++ [z] :=
      ⟨_, _, (List.dropLast_append_getLast (List.cons_ne_nil _ _)).symm⟩
    rw [hlz] at hchain hcontents
    obtain ⟨e, he, hchain', hentry', hframe', hsize'⟩ := hchain.evict
    have hl : l.length = as.length := by
      have hsucc := congrArg List.length hlz
      rw [List.length_cons, List.length_append, List.length_singleton] at hsucc
      omega
    refine ⟨e, l, ?_, hchain', ?_, hframe'.1.trans hcapacity, ?_, ?_⟩
    · simp [LRUCache.put, hk, hd, hover, he]
    · rw [if_pos (hiff.mpr hover), hchain.contents_evict hentry', hcontents]
    · rw [hsize', hdsize, Int.sub_eq_add_neg, toInt32_add, hl]
      congr 1
      omega
    · rw [hl]
      exact h.fits
  · refine ⟨d, c.fresh :: as, ?_, hchain, ?_, hcapacity, hdsize, ?_⟩
    · simp [LRUCache.put, hk, hd, hover]
    · rw [if_neg fun hfull => hover (hiff.mp hfull), hcontents]
    · have hlt : (as.length : ℕ∞) < room capacity := by
        rw [← hlength]
        exact not_le.mp fun hfull => hover (hiff.mp hfull)
      rw [List.length_cons]
      exact_mod_cast Order.add_one_le_of_lt hlt

theorem Ranks.call (h : c.Ranks capacity xs as) (a : CacheCall) :
    ∃ d out bs, c.call a = some (d, out) ∧ d.Ranks capacity (recent capacity xs a) bs := by
  cases a with
  | get key =>
    obtain ⟨d, bs, hd, hranks⟩ := h.get key
    exact ⟨d, _, bs, by rw [LRUCache.call, hd]; rfl, hranks⟩
  | put key value =>
    obtain ⟨d, bs, hd, hranks⟩ : ∃ d bs, c.put key value = some d ∧
        d.Ranks capacity (Recency.put (room capacity) xs key value) bs := by
      cases hk : c.cache.lookup key with
      | none => exact h.put_new hk value
      | some node => exact h.put_hit hk value
    exact ⟨d, none, bs, by rw [LRUCache.call, hd]; rfl, hranks⟩

theorem Ranks.run (as : List CacheCall) {nodes : List Nat} (h : c.Ranks capacity xs nodes) :
    ∃ d outs bs, c.run as = some (d, outs) ∧ d.Ranks capacity (as.foldl (recent capacity) xs) bs := by
  induction as generalizing c xs nodes with
  | nil => exact ⟨c, [], nodes, rfl, h⟩
  | cons a as ih =>
    obtain ⟨d, out, bs, hd, hranks⟩ := h.call a
    obtain ⟨e, outs, es, he, hranks⟩ := ih hranks
    exact ⟨e, out :: outs, es, by simp [LRUCache.run, hd, he], hranks⟩

theorem within_run {c₁ c₂ : Int} (h : c₁ ≤ c₂) (as : List CacheCall) {xs ys : List (Int × Int)}
    (hwithin : Recency.Within (room c₁) xs ys) :
    Recency.Within (room c₁) (as.foldl (recent c₁) xs) (as.foldl (recent c₂) ys) := by
  induction as generalizing xs ys with
  | nil => exact hwithin
  | cons a as ih =>
    apply ih
    cases a with
    | get key => exact hwithin.get key
    | put key value => exact hwithin.put (room_mono h) key value

/-- What the smaller cache holds the larger one holds in the same order, and a get that hits
in the smaller one hits in the larger one with the same result. -/
structure Stacked (small large : LRUCache) : Prop where
  ordered : ∃ as bs, Path small.next (small.next small.head) as (some small.tail) ∧
    Path large.next (large.next large.head) bs (some large.tail) ∧
    (small.contents as).Sublist (large.contents bs)
  hits : ∀ key, (small.cache.lookup key).isSome → (large.cache.lookup key).isSome ∧
    ∃ small' large' value, small.get key = some (small', value) ∧ large.get key = some (large', value)

theorem Ranks.stacked {c₁ c₂ : Int} {small large : LRUCache} {xs ys : List (Int × Int)} {as bs : List Nat}
    (h : small.Ranks c₁ xs as) (h' : large.Ranks c₂ ys bs) (hwithin : Recency.Within (room c₁) xs ys) :
    Stacked small large where
  ordered := by
    refine ⟨as, bs, h.chain.linked.path, h'.chain.linked.path, ?_⟩
    rw [h.contents, h'.contents]
    exact hwithin.sublist
  hits := by
    intro key hkey
    have hne : xs.lookup key ≠ none := by
      intro hnone
      rw [← h.contents, ← h.chain.lookup_none_iff] at hnone
      rw [hnone] at hkey
      cases hkey
    obtain ⟨value, hvalue⟩ := Option.ne_none_iff_exists'.mp hne
    have hlarge := hwithin.lookup hvalue
    obtain ⟨d, _, hd, _⟩ := h.get key
    obtain ⟨e, _, he, _⟩ := h'.get key
    rw [hvalue] at hd
    rw [hlarge] at he
    refine ⟨?_, d, e, value, hd, he⟩
    apply Option.isSome_iff_ne_none.mpr
    intro hnone
    rw [h'.chain.lookup_none_iff, h'.contents, hlarge] at hnone
    cases hnone

/-- The same calls on two caches: the smaller one is always stacked below the larger one. -/
theorem lruCache_stacked (c₁ c₂ : Int) (h : c₁ ≤ c₂) (as : List CacheCall) :
    ∃ small large outs outs', (new c₁).run as = some (small, outs) ∧ (new c₂).run as = some (large, outs') ∧
      Stacked small large := by
  obtain ⟨small, outs, _, hsmall, hranks⟩ := (ranks_new c₁).run as
  obtain ⟨large, outs', _, hlarge, hranks'⟩ := (ranks_new c₂).run as
  have hwithin : Recency.Within (room c₁) ([] : List (Int × Int)) [] :=
    ⟨List.Sublist.refl _, fun _ => rfl, List.nodup_nil⟩
  exact ⟨small, large, outs, outs', hsmall, hlarge, hranks.stacked hranks' (within_run h as hwithin)⟩

theorem lruCache_stacked_oneTwo :
    ∃ small large outs outs',
      (new 1).run [.put 1 10, .put 2 20, .get 1] = some (small, outs) ∧
        (new 2).run [.put 1 10, .put 2 20, .get 1] = some (large, outs') ∧ Stacked small large :=
  lruCache_stacked 1 2 (by decide) _

end LRUCache

end CppInAction
