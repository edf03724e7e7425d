import CppInAction.TimerList

namespace CppInAction

namespace TimerList

variable {l l' : TimerList} {a b t : Nat} {c : UtilTimer} {p q : Option Nat}

/-- The links of the heap, read without a fault. -/
def next (l : TimerList) (a : Nat) : Option Nat := (l.cells a).bind UtilTimer.next

def prev (l : TimerList) (a : Nat) : Option Nat := (l.cells a).bind UtilTimer.prev

/-- What a timer says apart from its links. -/
def data (l : TimerList) (a : Nat) : Option (Int × Nat) := (l.cells a).map fun c => (c.expire, c.userData)

def expire (l : TimerList) (a : Nat) : Option Int := (l.cells a).map UtilTimer.expire

theorem expire_at (h : l'.data a = l.data a) : l'.expire a = l.expire a := by
  have ha := congrArg (Option.map Prod.fst) h
  simp only [data, Option.map_map] at ha
  exact ha

theorem expire_of_data (h : l'.data = l.data) : l'.expire = l.expire :=
  funext fun a => expire_at (congrFun h a)

theorem deref_some (h : l.cells a = some c) : l.deref (some a) = .ok (a, c) := by
  simp only [deref, h]

theorem setNext_some (h : l.cells a = some c) :
    l.setNext (some a) q = .ok (l.put a { c with next := q }) := by
  simp only [setNext, deref_some h]
  rfl

theorem setPrev_some (h : l.cells a = some c) :
    l.setPrev (some a) q = .ok (l.put a { c with prev := q }) := by
  simp only [setPrev, deref_some h]
  rfl

theorem put_cells_self : (l.put a c).cells a = some c := Function.update_self _ _ _

theorem put_cells_ne (h : b ≠ a) : (l.put a c).cells b = l.cells b := Function.update_of_ne h _ _

theorem put_next : (l.put a c).next = Function.update l.next a c.next := by
  funext b
  by_cases h : b = a
  · subst h
    simp [next, put_cells_self]
  · simp [next, put_cells_ne h, Function.update_of_ne h]

theorem put_prev : (l.put a c).prev = Function.update l.prev a c.prev := by
  funext b
  by_cases h : b = a
  · subst h
    simp [prev, put_cells_self]
  · simp [prev, put_cells_ne h, Function.update_of_ne h]

/-- A store to a link leaves what the timers say. -/
theorem put_data (h : l.cells a = some c) {c' : UtilTimer} (he : c'.expire = c.expire)
    (hu : c'.userData = c.userData) : (l.put a c').data = l.data := by
  funext b
  by_cases hb : b = a
  · subst hb
    simp [data, put_cells_self, h, he, hu]
  · simp [data, put_cells_ne hb]

theorem live_of_data (h : l'.data = l.data) (a : Nat) : (l'.cells a).isSome = (l.cells a).isSome := by
  have ha := congrArg Option.isSome (congrFun h a)
  simpa only [data, Option.isSome_map] using ha

/-- The timers of the list in order, and at most one live timer outside of it. Each
timer but the first is its own predecessor or has the right one. -/
structure Chain (l : TimerList) (as : List Nat) (loose : Option Nat) : Prop where
  path : Path l.next l.head as none
  nodup : as.Nodup
  live : ∀ a, (l.cells a).isSome ↔ a ∈ as ∨ loose = some a
  bound : ∀ a, (l.cells a).isSome → a < l.fresh
  tail : as ≠ [] → l.tail = as.getLast?
  back : as.IsChain fun a b => l.prev b = some b ∨ l.prev b = some a
  outside : ∀ t, loose = some t → t ∉ as

theorem back_update {prev : Nat → Option Nat} {n : Nat} {rest : List Nat} (v : Option Nat) (hn : n ∉ rest)
    (hb : (n :: rest).IsChain fun a b => prev b = some b ∨ prev b = some a) :
    (n :: rest).IsChain fun a b =>
      Function.update prev n v b = some b ∨ Function.update prev n v b = some a := by
  obtain ⟨hfirst, hrest⟩ := List.isChain_cons.mp hb
  have hkeep : ∀ y ∈ rest, Function.update prev n v y = prev y := fun y hy =>
    Function.update_of_ne (by rintro rfl; exact hn hy) _ _
  refine List.isChain_cons.mpr ⟨fun y hy => ?_, List.IsChain.imp_of_mem_imp ?_ hrest⟩
  · rw [hkeep y (List.mem_of_mem_head? hy)]
    exact hfirst y hy
  · intro x y _ hy hxy
    rw [hkeep y hy]
    exact hxy

theorem chain_empty : empty.Chain [] none where
  path := rfl
  nodup := List.nodup_nil
  live := by simp [empty]
  bound := by simp [empty]
  tail := fun h => absurd rfl h
  back := List.IsChain.nil
  outside := by simp

variable {as : List Nat} {loose : Option Nat}

theorem Chain.cell (h : l.Chain as loose) (ha : a ∈ as) : ∃ c, l.cells a = some c :=
  Option.isSome_iff_exists.mp ((h.live a).mpr (Or.inl ha))

theorem Chain.loose_cell (h : l.Chain as (some t)) : ∃ c, l.cells t = some c :=
  Option.isSome_iff_exists.mp ((h.live t).mpr (Or.inr rfl))

theorem Chain.length_le (h : l.Chain as loose) : as.length ≤ l.fresh :=
  length_le_of_lt h.nodup fun a ha => h.bound a ((h.live a).mpr (Or.inl ha))

/-- A new timer starts outside the list. -/
theorem Chain.newTimer (h : l.Chain as none) (e : Int) (u : Nat) :
    (l.newTimer e u).1.Chain as (some l.fresh) := by
  have hfresh : l.fresh ∉ as := fun hm =>
    Nat.lt_irrefl _ (h.bound l.fresh ((h.live _).mpr (Or.inl hm)))
  refine ⟨?_, h.nodup, ?_, ?_, h.tail, ?_, ?_⟩
  · change Path (l.put l.fresh ⟨e, u, none, none⟩).next l.head as none
    rw [put_next]
    exact h.path.update hfresh none
  · intro b
    by_cases hb : b = l.fresh
    · subst hb
      simp [TimerList.newTimer, put_cells_self]
    · have := h.live b
      simp only [reduceCtorEq, or_false] at this
      simp [TimerList.newTimer, put_cells_ne hb, this, Ne.symm hb]
  · intro b hb
    change b < l.fresh + 1
    by_cases hbf : b = l.fresh
    · omega
    · have := h.bound b (by simpa [TimerList.newTimer, put_cells_ne hbf] using hb)
      omega
  · refine List.IsChain.imp_of_mem_imp ?_ h.back
    intro x y _ hy hxy
    have hne : y ≠ l.fresh := fun e => hfresh (e ▸ hy)
    have hp : (l.newTimer e u).1.prev y = l.prev y := by
      simp [TimerList.newTimer, prev, put_cells_ne hne]
    rw [hp]
    exact hxy
  · rintro t ⟨⟩
    exact hfresh

/-- From l to l' only links of timers were stored, and these are the links now. -/
structure Links (l l' : TimerList) (next prev : Nat → Option Nat) : Prop where
  next : l'.next = next
  prev : l'.prev = prev
  data : l'.data = l.data
  fresh : l'.fresh = l.fresh
  head : l'.head = l.head
  tail : l'.tail = l.tail

theorem setNext_links (h : (l.cells a).isSome) (q : Option Nat) :
    ∃ l', l.setNext (some a) q = .ok l' ∧ l.Links l' (Function.update l.next a q) l.prev := by
  obtain ⟨c, hc⟩ := Option.isSome_iff_exists.mp h
  have hp : c.prev = l.prev a := by simp [prev, hc]
  refine ⟨_, setNext_some hc, put_next, ?_, put_data hc rfl rfl, rfl, rfl, rfl⟩
  rw [put_prev, hp, Function.update_eq_self]

theorem setPrev_links (h : (l.cells a).isSome) (q : Option Nat) :
    ∃ l', l.setPrev (some a) q = .ok l' ∧ l.Links l' l.next (Function.update l.prev a q) := by
  obtain ⟨c, hc⟩ := Option.isSome_iff_exists.mp h
  have hn : c.next = l.next a := by simp [next, hc]
  refine ⟨_, setPrev_some hc, ?_, put_prev, put_data hc rfl rfl, rfl, rfl, rfl⟩
  rw [put_next, hn, Function.update_eq_self]

theorem findPlace_end {e : Int} {rest : List Nat} (fuel prev : Nat) (hp : Path l.next p rest none)
    (hcell : ∀ a ∈ rest, ∃ c, l.cells a = some c ∧ c.expire ≤ e) (hfuel : rest.length < fuel) :
    ∃ z, l.findPlace e fuel prev p = .ok (z, none) := by
  induction rest generalizing p fuel prev with
  | nil =>
    obtain ⟨fuel, rfl⟩ : ∃ n, fuel = n + 1 := ⟨fuel - 1, by simp at hfuel; omega⟩
    cases hp
    exact ⟨prev, rfl⟩
  | cons a rest ih =>
    obtain ⟨fuel, rfl⟩ : ∃ n, fuel = n + 1 := ⟨fuel - 1, by simp at hfuel; omega⟩
    obtain ⟨rfl, hp⟩ := hp
    obtain ⟨c, hc, hle⟩ := hcell a (by simp)
    have hnext : l.next a = c.next := by simp [next, hc]
    rw [hnext] at hp
    obtain ⟨z, hz⟩ := ih fuel a hp (fun b hb => hcell b (by simp [hb]))
      (by simp at hfuel; omega)
    refine ⟨z, ?_⟩
    rw [← hz]
    simp only [findPlace, deref_some hc]
    exact if_neg (Int.not_lt.mpr hle)

/-- Links may change as long as the timers and what they say stay. -/
theorem Chain.relink {bs : List Nat} {loose' : Option Nat} (h : l.Chain as loose)
    (hd : l'.data = l.data) (hf : l'.fresh = l.fresh)
    (hm : ∀ a, (a ∈ bs ∨ loose' = some a) ↔ (a ∈ as ∨ loose = some a))
    (path : Path l'.next l'.head bs none) (nodup : bs.Nodup)
    (tail : bs ≠ [] → l'.tail = bs.getLast?)
    (back : bs.IsChain fun a b => l'.prev b = some b ∨ l'.prev b = some a)
    (outside : ∀ t, loose' = some t → t ∉ bs) : l'.Chain bs loose' where
  path := path
  nodup := nodup
  live a := by rw [live_of_data hd, h.live, hm]
  bound a ha := by
    rw [live_of_data hd] at ha
    rw [hf]
    exact h.bound a ha
  tail := tail
  back := back
  outside := outside

/-- The stores at the end of the list. -/
theorem Chain.link_last {z : Nat} (h : l.Chain (as ++ [z]) (some t)) :
    ∃ l1 l2 l3, l.setNext l.tail (some t) = .ok l1 ∧ l1.setPrev (some t) (some t) = .ok l2 ∧
      l2.setNext (some t) none = .ok l3 ∧
      l.Links l3 (Function.update (Function.update l.next z (some t)) t none)
        (Function.update l.prev t (some t)) := by
  have htail : l.tail = some z := by rw [h.tail (by simp)]; simp
  have hlz : (l.cells z).isSome := (h.live z).mpr (Or.inl (by simp))
  have hlt : (l.cells t).isSome := (h.live t).mpr (Or.inr rfl)
  obtain ⟨l1, h1, k1⟩ := setNext_links hlz (some t)
  obtain ⟨l2, h2, k2⟩ := setPrev_links (l := l1) (a := t) (by rw [live_of_data k1.data]; exact hlt) (some t)
  obtain ⟨l3, h3, k3⟩ := setNext_links (l := l2) (a := t)
    (by rw [live_of_data k2.data, live_of_data k1.data]; exact hlt) none
  refine ⟨l1, l2, l3, htail ▸ h1, h2, h3, ?_, ?_, ?_, ?_, ?_, ?_⟩
  · rw [k3.next, k2.next, k1.next]
  · rw [k3.prev, k2.prev, k1.prev]
  · rw [k3.data, k2.data, k1.data]
  · rw [k3.fresh, k2.fresh, k1.fresh]
  · rw [k3.head, k2.head, k1.head]
  · rw [k3.tail, k2.tail, k1.tail]

theorem not_mem_of_nodup_concat {z : Nat} (h : (as ++ [z]).Nodup) : z ∉ as := fun hz =>
  (List.nodup_append.mp h).2.2 z hz z (by simp) rfl

theorem nodup_concat_of (h : as.Nodup) (ht : t ∉ as) : (as ++ [t]).Nodup := by
  refine List.nodup_append.mpr ⟨h, List.nodup_singleton t, ?_⟩
  rintro x hx y hy rfl
  exact ht (List.mem_singleton.mp hy ▸ hx)

theorem Chain.link_last_chain {z : Nat} (h : l.Chain (as ++ [z]) (some t))
    (hk : l.Links l' (Function.update (Function.update l.next z (some t)) t none)
      (Function.update l.prev t (some t))) :
    { l' with tail := some t }.Chain (as ++ [z] ++ [t]) none := by
  have hout : t ∉ as ++ [z] := h.outside t rfl
  have hz : z ∉ as := not_mem_of_nodup_concat h.nodup
  refine h.relink hk.data hk.fresh ?_ ?_ (nodup_concat_of h.nodup hout) ?_ ?_ (by simp)
  · intro b
    simp [eq_comm, or_assoc]
  · change Path l'.next l'.head _ none
    rw [hk.next, hk.head, Path.concat]
    refine ⟨Path.update ?_ hout none, Function.update_self _ _ _⟩
    have hp := h.path
    rw [Path.concat] at hp ⊢
    exact ⟨hp.1.update hz _, Function.update_self _ _ _⟩
  · intro _
    simp
  · have hprev : ∀ y, y ≠ t → l'.prev y = l.prev y := fun y hy => by
      rw [hk.prev, Function.update_of_ne hy]
    refine List.IsChain.append ?_ (List.IsChain.singleton t) ?_
    · refine List.IsChain.imp_of_mem_imp ?_ h.back
      intro x y _ hy hxy
      have hyt : y ≠ t := fun e => hout (e ▸ hy)
      change l'.prev y = _ ∨ l'.prev y = _
      rw [hprev y hyt]
      exact hxy
    · rintro x _ y ⟨⟩
      left
      change l'.prev t = some t
      rw [hk.prev, Function.update_self]

/-- A timer that is due after all but the first goes to the end. -/
theorem Chain.addAfter_last (h : l.Chain as (some t)) (hne : as ≠ []) (hc : l.cells t = some c)
    (hlate : ∀ a ∈ as.tail, ∀ e, l.expire a = some e → e ≤ c.expire) :
    ∃ l', l.addAfter t l.head = .ok l' ∧ l'.Chain (as ++ [t]) none ∧ l'.data = l.data := by
  obtain ⟨h0, rest, rfl⟩ := List.exists_cons_of_ne_nil hne
  obtain ⟨c0, hc0⟩ := h.cell (List.mem_cons_self (a := h0) (l := rest))
  have hhead : l.head = some h0 := h.path.1
  have hpath : Path l.next c0.next rest none := by
    have := h.path.2
    rwa [show l.next h0 = c0.next by simp [next, hc0]] at this
  have hlen := h.length_le
  obtain ⟨z0, hfind⟩ := findPlace_end (e := c.expire) (l.fresh + 1) h0 hpath
    (fun a ha => by
      obtain ⟨ca, hca⟩ := h.cell (List.mem_cons_of_mem _ ha)
      exact ⟨ca, hca, hlate a ha ca.expire (by simp [expire, hca])⟩)
    (by simp only [List.length_cons] at hlen; omega)
  obtain ⟨front, z, hsplit⟩ : ∃ front z, h0 :: rest = front ++ [z] :=
    ⟨_, _, (List.dropLast_append_getLast hne).symm⟩
  rw [hsplit] at h ⊢
  obtain ⟨l1, l2, l3, e1, e2, e3, hk⟩ := h.link_last
  refine ⟨{ l3 with tail := some t }, ?_, h.link_last_chain hk, hk.data⟩
  simp only [addAfter, hhead, deref_some hc0, deref_some hc, bind, Except.bind, hfind, e1, e2, e3]

/-- The addresses met from the head on. -/
def walk (l : TimerList) : Nat → Option Nat → List Nat
  | 0, _ => []
  | _ + 1, none => []
  | fuel + 1, some a => a :: l.walk fuel (l.next a)

def order (l : TimerList) : List Nat := l.walk (l.fresh + 1) l.head

theorem walk_of_path {fuel : Nat} (h : Path l.next p as none) (hf : as.length < fuel) :
    l.walk fuel p = as := by
  induction as generalizing p fuel with
  | nil =>
    cases h
    cases fuel <;> rfl
  | cons a as ih =>
    obtain ⟨rfl, h⟩ := h
    obtain ⟨fuel, rfl⟩ : ∃ n, fuel = n + 1 := ⟨fuel - 1, by simp at hf; omega⟩
    simp only [walk, ih h (by simp at hf; omega)]

theorem Chain.order_eq (h : l.Chain as loose) : l.order = as :=
  walk_of_path h.path (Nat.lt_succ_of_le h.length_le)

/-- A timer due at e belongs before the first timer of the list or after all others. -/
def Ends (l : TimerList) (e : Int) : Prop :=
  (∀ a ∈ l.order.head?, ∀ x, l.expire a = some x → e < x) ∨
    ∀ a ∈ l.order.tail, ∀ x, l.expire a = some x → x ≤ e

instance (l : TimerList) (e : Int) : Decidable (l.Ends e) :=
  inferInstanceAs (Decidable ((∀ a ∈ l.order.head?, ∀ x ∈ l.expire a, e < x) ∨
    ∀ a ∈ l.order.tail, ∀ x ∈ l.expire a, x ≤ e))

theorem Chain.addTimer_empty (h : l.Chain [] (some t)) (hn : l.next t = none) :
    ∃ l', l.addTimer t = .ok l' ∧ l'.Chain [t] none ∧ l'.data = l.data := by
  have hhead : l.head = none := h.path
  refine ⟨{ l with head := some t, tail := some t }, by simp only [addTimer, hhead], ?_, rfl⟩
  refine h.relink rfl rfl ?_ ⟨rfl, hn⟩ (List.nodup_singleton t) (fun _ => rfl) (List.IsChain.singleton t)
    (by simp)
  intro b
  simp [eq_comm]

theorem Chain.addTimer_first {h0 : Nat} {rest : List Nat} {c0 : UtilTimer}
    (h : l.Chain (h0 :: rest) (some t)) (hc : l.cells t = some c) (hc0 : l.cells h0 = some c0)
    (hlt : c.expire < c0.expire) :
    ∃ l', l.addTimer t = .ok l' ∧ l'.Chain (t :: h0 :: rest) none ∧ l'.data = l.data := by
  have hhead : l.head = some h0 := h.path.1
  have hout : t ∉ h0 :: rest := h.outside t rfl
  obtain ⟨l1, h1, k1⟩ := setPrev_links (l := l) (a := h0) (by simp [hc0]) (some t)
  obtain ⟨l2, h2, k2⟩ := setNext_links (l := l1) (a := t)
    (by rw [live_of_data k1.data]; simp [hc]) (some h0)
  have hnext : l2.next = Function.update l.next t (some h0) := by rw [k2.next, k1.next]
  have hprev : l2.prev = Function.update l.prev h0 (some t) := by rw [k2.prev, k1.prev]
  refine ⟨{ l2 with head := some t }, ?_, ?_, k2.data.trans k1.data⟩
  · simp only [addTimer, hhead, deref_some hc, deref_some hc0, bind, Except.bind, hlt, if_true, h1, h2]
  · refine h.relink (k2.data.trans k1.data) (k2.fresh.trans k1.fresh) ?_ ?_
      (List.nodup_cons.mpr ⟨hout, h.nodup⟩) ?_ ?_ (by simp)
    · intro b
      simp [eq_comm, or_comm]
    · refine ⟨rfl, ?_⟩
      change Path l2.next (l2.next t) _ none
      rw [hnext, Function.update_self]
      exact hhead ▸ h.path.update hout (some h0)
    · intro _
      change l2.tail = _
      rw [k2.tail, k1.tail, h.tail (by simp), List.getLast?_cons_cons]
    · refine List.IsChain.cons_cons ?_ ?_
      · right
        change l2.prev h0 = some t
        rw [hprev, Function.update_self]
      · have hback := back_update (some t) (List.nodup_cons.mp h.nodup).1 h.back
        rw [← hprev] at hback
        exact hback

/-- add_timer at one end of the list keeps the list and takes the timer in. -/
theorem Chain.addTimer (h : l.Chain as (some t)) (hc : l.cells t = some c) (hn : c.next = none)
    (hends : l.Ends c.expire) :
    ∃ l' bs, l.addTimer t = .ok l' ∧ l'.Chain bs none ∧ bs.Perm (t :: as) ∧ l'.data = l.data := by
  cases as with
  | nil =>
    obtain ⟨l', hadd, hch, hd⟩ := h.addTimer_empty (by simp [next, hc, hn])
    exact ⟨l', [t], hadd, hch, List.Perm.refl _, hd⟩
  | cons h0 rest =>
    obtain ⟨c0, hc0⟩ := h.cell (List.mem_cons_self (a := h0) (l := rest))
    by_cases hlt : c.expire < c0.expire
    · obtain ⟨l', hadd, hch, hd⟩ := h.addTimer_first hc hc0 hlt
      exact ⟨l', _, hadd, hch, List.Perm.refl _, hd⟩
    · have hhead : l.head = some h0 := h.path.1
      have hlate : ∀ a ∈ (h0 :: rest).tail, ∀ e, l.expire a = some e → e ≤ c.expire := by
        rw [Ends, h.order_eq] at hends
        refine hends.resolve_left fun hf => hlt (hf h0 (by simp) c0.expire (by simp [expire, hc0]))
      obtain ⟨l', hadd, hch, hd⟩ := h.addAfter_last (by simp) hc hlate
      refine ⟨l', _, ?_, hch, List.perm_append_comm.trans (List.Perm.refl _), hd⟩
      rw [← hadd, hhead]
      simp only [TimerList.addTimer, hhead, deref_some hc, deref_some hc0, bind, Except.bind, hlt, if_false]

end TimerList

end CppInAction
