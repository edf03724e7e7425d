import CppInAction.TimerMove
import CppInAction.DoublyLinked

namespace CppInAction

namespace TimerList

variable {l l' : TimerList} {a t : Nat} {c : UtilTimer} {p : Option Nat} {as : List Nat}

/-- The timers of the list from head to tail, linked in both directions. -/
structure WellFormed (l : TimerList) (as : List Nat) : Prop where
  linked : Linked l.next l.prev as
  head : l.head = as.head?
  tail : as ≠ [] → l.tail = as.getLast?
  first : ∀ a ∈ as.head?, l.prev a = none
  last : ∀ a ∈ as.getLast?, l.next a = none
  nodup : as.Nodup
  live : ∀ a ∈ as, (l.cells a).isSome
  bound : ∀ a, (l.cells a).isSome → a < l.fresh

def Ascending (l : TimerList) (as : List Nat) : Prop :=
  as.Pairwise fun a b => ∀ x ∈ l.expire a, ∀ y ∈ l.expire b, x ≤ y

theorem Ascending.of_data (h : l.Ascending as) (hd : ∀ a ∈ as, l'.data a = l.data a) : l'.Ascending as := by
  refine List.Pairwise.imp_of_mem (fun ha hb hab => ?_) h
  rw [expire_at (hd _ ha), expire_at (hd _ hb)]
  exact hab

theorem WellFormed.cell (h : l.WellFormed as) (ha : a ∈ as) : ∃ c, l.cells a = some c :=
  Option.isSome_iff_exists.mp (h.live a ha)

theorem WellFormed.not_self (h : l.WellFormed as) (ha : a ∈ as) : l.next a ≠ some a ∧ l.prev a ≠ some a := by
  obtain ⟨front, back, rfl⟩ := List.append_of_mem ha
  obtain ⟨_, hback, hdisj⟩ := List.nodup_append.mp h.nodup
  obtain ⟨hout, _⟩ := List.nodup_cons.mp hback
  constructor
  · intro hself
    cases back with
    | nil =>
      have hlast := h.last a (by simp)
      rw [hself] at hlast
      cases hlast
    | cons b back =>
      have hnext := (List.isChain_append_cons_cons.mp h.linked).2.1.1
      rw [hself] at hnext
      cases hnext
      exact hout List.mem_cons_self
  · intro hself
    rcases List.eq_nil_or_concat front with rfl | ⟨front, f, rfl⟩
    · have hfirst := h.first a (by simp)
      rw [hself] at hfirst
      cases hfirst
    · have hlinked := h.linked
      rw [List.concat_eq_append, List.append_assoc] at hlinked
      have hprev := (List.isChain_append_cons_cons.mp hlinked).2.1.2
      rw [hself] at hprev
      cases hprev
      exact hdisj a (by simp) a (by simp) rfl

theorem deref_ok (h : l.deref p = .ok (a, c)) : p = some a ∧ l.cells a = some c := by
  cases p with
  | none => cases h
  | some b =>
    cases hb : l.cells b with
    | none => simp [deref, hb] at h
    | some d =>
      rw [deref_some hb] at h
      cases Except.ok.inj h
      exact ⟨rfl, hb⟩

theorem setNext_ok {q : Option Nat} (h : l.setNext p q = .ok l') :
    ∃ a c, p = some a ∧ l.cells a = some c ∧ l' = l.put a { c with next := q } := by
  obtain ⟨⟨a, c⟩, hderef, hput⟩ := bind_ok h
  obtain ⟨hp, hc⟩ := deref_ok hderef
  exact ⟨a, c, hp, hc, (Except.ok.inj hput).symm⟩

theorem setPrev_ok {q : Option Nat} (h : l.setPrev p q = .ok l') :
    ∃ a c, p = some a ∧ l.cells a = some c ∧ l' = l.put a { c with prev := q } := by
  obtain ⟨⟨a, c⟩, hderef, hput⟩ := bind_ok h
  obtain ⟨hp, hc⟩ := deref_ok hderef
  exact ⟨a, c, hp, hc, (Except.ok.inj hput).symm⟩

/-- The private add_timer links the timer to itself, in the middle as its own successor
and at the end as its own predecessor. -/
theorem addAfter_self (h : l.addAfter t p = .ok l') : l'.next t = some t ∨ l'.prev t = some t := by
  obtain ⟨_, _, h⟩ := bind_ok h
  obtain ⟨_, _, h⟩ := bind_ok h
  obtain ⟨⟨z, tmp⟩, _, h⟩ := bind_ok h
  cases tmp with
  | some tmp =>
    obtain ⟨l1, _, h⟩ := bind_ok h
    obtain ⟨l2, _, h⟩ := bind_ok h
    obtain ⟨l3, _, h⟩ := bind_ok h
    obtain ⟨b, d, hb, _, rfl⟩ := setNext_ok h
    cases hb
    left
    rw [put_next, Function.update_self]
  | none =>
    obtain ⟨l1, _, h⟩ := bind_ok h
    obtain ⟨l2, h2, h⟩ := bind_ok h
    obtain ⟨l3, h3, h⟩ := bind_ok h
    cases Except.ok.inj h
    obtain ⟨b, d, hb, _, rfl⟩ := setPrev_ok h2
    cases hb
    obtain ⟨b, d', hb, hd, rfl⟩ := setNext_ok h3
    cases hb
    right
    change ((l1.put t { d with prev := some t }).put t { d' with next := none }).prev t = some t
    rw [put_cells_self] at hd
    cases Option.some.inj hd
    rw [put_prev, Function.update_self]

theorem WellFormed.not_addAfter (h : l'.WellFormed as) (ht : t ∈ as) : l.addAfter t p ≠ .ok l' := by
  intro hadd
  obtain ⟨hnext, hprev⟩ := h.not_self ht
  exact (addAfter_self hadd).elim hnext hprev

/-- add_timer leaves the old timers in their order and the new one behind every timer
that is due no later than it. -/
def AddsInOrder (l : TimerList) (as : List Nat) (t : Nat) (e : Int) : Prop :=
  ∃ l' front back, as = front ++ back ∧ l.addTimer t = .ok l' ∧ l'.WellFormed (front ++ t :: back) ∧
    l'.Ascending (front ++ t :: back) ∧ (∀ a ∈ back, ∀ x ∈ l.expire a, e < x) ∧ l'.data = l.data

/-- adjust_timer moves the timer, leaves the others in their order, and loses none. -/
def AdjustsInOrder (l : TimerList) (as : List Nat) (t : Nat) : Prop :=
  ∃ l' bs, l.adjustTimer t = .ok l' ∧ l'.WellFormed bs ∧ l'.Ascending bs ∧ bs.Perm as ∧
    bs.erase t = as.erase t ∧ l'.data = l.data

/-- A well-formed list after stores to links only. -/
theorem WellFormed.relink {bs : List Nat} (h : l.WellFormed as) (hd : l'.data = l.data) (hf : l'.fresh = l.fresh)
    (hlive : ∀ a ∈ bs, (l.cells a).isSome) (nodup : bs.Nodup) (linked : Linked l'.next l'.prev bs)
    (head : l'.head = bs.head?) (tail : bs ≠ [] → l'.tail = bs.getLast?)
    (first : ∀ a ∈ bs.head?, l'.prev a = none) (last : ∀ a ∈ bs.getLast?, l'.next a = none) :
    l'.WellFormed bs where
  linked := linked
  head := head
  tail := tail
  first := first
  last := last
  nodup := nodup
  live a ha := by
    rw [live_of_data hd]
    exact hlive a ha
  bound a ha := by
    rw [live_of_data hd] at ha
    rw [hf]
    exact h.bound a ha

theorem WellFormed.addTimer_empty (h : l.WellFormed []) (hc : l.cells t = some c) (hn : c.next = none)
    (hp : c.prev = none) : ∃ l', l.addTimer t = .ok l' ∧ l'.WellFormed [t] ∧ l'.data = l.data := by
  have hhead : l.head = none := h.head
  refine ⟨{ l with head := some t, tail := some t }, by simp only [addTimer, hhead], ?_, rfl⟩
  refine h.relink rfl rfl ?_ (List.nodup_singleton t) (List.isChain_singleton t) rfl (fun _ => rfl) ?_ ?_
  · simp [hc]
  · rintro a ⟨⟩
    exact (cell_prev hc).symm.trans hp
  · rintro a ⟨⟩
    exact (cell_next hc).symm.trans hn

theorem WellFormed.addTimer_first {h0 : Nat} {rest : List Nat} {c0 : UtilTimer} (h : l.WellFormed (h0 :: rest))
    (ht : t ∉ h0 :: rest) (hc : l.cells t = some c) (hp : c.prev = none) (hc0 : l.cells h0 = some c0)
    (hlt : c.expire < c0.expire) :
    ∃ l', l.addTimer t = .ok l' ∧ l'.WellFormed (t :: h0 :: rest) ∧ l'.data = l.data := by
  have hhead : l.head = some h0 := h.head
  have hne : t ≠ h0 := fun heq => ht (heq ▸ List.mem_cons_self)
  obtain ⟨hout, _⟩ := List.nodup_cons.mp h.nodup
  obtain ⟨l1, h1, k1⟩ := setPrev_links (l := l) (a := h0) (by simp [hc0]) (some t)
  obtain ⟨l2, h2, k2⟩ := setNext_links (l := l1) (a := t)
    (by rw [live_of_data k1.data]; simp [hc]) (some h0)
  have hnext : l2.next = Function.update l.next t (some h0) := by rw [k2.next, k1.next]
  have hprev : l2.prev = Function.update l.prev h0 (some t) := by rw [k2.prev, k1.prev]
  have hdata := k2.data.trans k1.data
  refine ⟨{ l2 with head := some t }, ?_, ?_, hdata⟩
  · simp only [addTimer, hhead, deref_some hc, deref_some hc0, bind, Except.bind, hlt, if_true, h1, h2]
  · refine h.relink hdata (k2.fresh.trans k1.fresh) ?_ (List.nodup_cons.mpr ⟨ht, h.nodup⟩) ?_ rfl ?_ ?_ ?_
    · intro a ha
      rcases List.mem_cons.mp ha with rfl | ha
      · simp [hc]
      · exact h.live a ha
    · change Linked l2.next l2.prev (t :: h0 :: rest)
      rw [hnext, hprev]
      refine List.isChain_cons_cons.mpr ⟨⟨Function.update_self .., Function.update_self ..⟩, ?_⟩
      refine (h.linked.update_prev hout).congr (fun a ha => ?_) (fun _ _ => rfl)
      have hat : a ≠ t := fun heq => ht (heq ▸ ha)
      exact Function.update_of_ne hat _ _
    · intro _
      change l2.tail = _
      rw [k2.tail, k1.tail, h.tail (by simp), List.getLast?_cons_cons]
    · rintro a ⟨⟩
      change l2.prev t = none
      rw [hprev, Function.update_of_ne hne]
      exact (cell_prev hc).symm.trans hp
    · intro a ha
      rw [List.getLast?_cons_cons] at ha
      have hat : a ≠ t := fun heq => ht (heq ▸ List.mem_of_mem_getLast? ha)
      change l2.next a = none
      rw [hnext, Function.update_of_ne hat]
      exact h.last a ha

theorem expire_cell (hc : l.cells a = some c) : l.expire a = some c.expire := by simp [expire, hc]

theorem Ascending.head_le {h0 : Nat} {rest : List Nat} {c0 : UtilTimer} (h : l.Ascending (h0 :: rest))
    (hc0 : l.cells h0 = some c0) : ∀ a ∈ h0 :: rest, ∀ x ∈ l.expire a, c0.expire ≤ x := by
  intro a ha x hx
  rcases List.mem_cons.mp ha with rfl | ha
  · rw [expire_cell hc0] at hx
    cases Option.some.inj hx
    exact Int.le_refl _
  · exact (List.pairwise_cons.mp h).1 a ha c0.expire (expire_cell hc0) x hx

theorem WellFormed.addsInOrder_iff (h : l.WellFormed as) (hasc : l.Ascending as) (ht : t ∉ as)
    (hc : l.cells t = some c) (hn : c.next = none) (hp : c.prev = none) :
    l.AddsInOrder as t c.expire ↔ ∀ a ∈ as.head?, ∀ x ∈ l.expire a, c.expire < x := by
  cases as with
  | nil =>
    refine iff_of_true ?_ (by simp)
    obtain ⟨l', hadd, hwf, hd⟩ := h.addTimer_empty hc hn hp
    exact ⟨l', [], [], rfl, hadd, hwf, List.pairwise_singleton _ _, by simp, hd⟩
  | cons h0 rest =>
    obtain ⟨c0, hc0⟩ := h.cell (List.mem_cons_self (a := h0) (l := rest))
    have hhead : l.head = some h0 := h.head
    constructor
    · rintro ⟨l', front, back, _, hadd, hwf, _⟩ a ⟨⟩ x hx
      rw [expire_cell hc0] at hx
      cases Option.some.inj hx
      by_contra hlt
      simp only [addTimer, hhead, deref_some hc, deref_some hc0, bind, Except.bind, hlt, if_false] at hadd
      exact hwf.not_addAfter (by simp) hadd
    · intro hearly
      have hlt : c.expire < c0.expire := hearly h0 rfl c0.expire (expire_cell hc0)
      obtain ⟨l', hadd, hwf, hd⟩ := h.addTimer_first ht hc hp hc0 hlt
      have hback : ∀ a ∈ h0 :: rest, ∀ x ∈ l.expire a, c.expire < x := fun a ha x hx =>
        Int.lt_of_lt_of_le hlt (hasc.head_le hc0 a ha x hx)
      refine ⟨l', [], h0 :: rest, rfl, hadd, hwf, Ascending.of_data ?_ fun a _ => congrFun hd a, hback, hd⟩
      refine List.pairwise_cons.mpr ⟨fun a ha x hx y hy => ?_, hasc⟩
      rw [expire_cell hc] at hx
      cases Option.some.inj hx
      exact Int.le_of_lt (hback a ha y hy)

theorem WellFormed.raise (h : l.WellFormed as) (hc : l.cells t = some c) (e : Int) :
    (l.put t { c with expire := e }).WellFormed as := by
  have hlive : ∀ a, ((l.put t { c with expire := e }).cells a).isSome = (l.cells a).isSome := by
    intro a
    by_cases ha : a = t
    · subst ha
      simp [put_cells_self, hc]
    · rw [put_cells_ne ha]
  have hnext : (l.put t { c with expire := e }).next = l.next := by
    rw [put_next, cell_next hc, Function.update_eq_self]
  have hprev : (l.put t { c with expire := e }).prev = l.prev := by
    rw [put_prev, cell_prev hc, Function.update_eq_self]
  refine ⟨?_, h.head, h.tail, ?_, ?_, h.nodup, fun a ha => ?_, fun a ha => ?_⟩
  · rw [hnext, hprev]
    exact h.linked
  · rw [hprev]
    exact h.first
  · rw [hnext]
    exact h.last
  · rw [hlive]
    exact h.live a ha
  · rw [hlive] at ha
    exact h.bound a ha

/-- A timer whose successor is due later than its new time may stay. -/
theorem Ascending.raise {e : Int} (h : l.Ascending as) (hwf : l.WellFormed as) (ht : t ∈ as) (hc : l.cells t = some c)
    (hle : c.expire ≤ e) (hnext : ∀ n ∈ c.next, ∀ x ∈ l.expire n, e < x) :
    (l.put t { c with expire := e }).Ascending as := by
  obtain ⟨front, back, rfl⟩ := List.append_of_mem ht
  obtain ⟨_, hnd, hdisj⟩ := List.nodup_append.mp hwf.nodup
  obtain ⟨hout, _⟩ := List.nodup_cons.mp hnd
  obtain ⟨hfront, hback, hcross⟩ := List.pairwise_append.mp h
  obtain ⟨_, hback⟩ := List.pairwise_cons.mp hback
  have hself : (l.put t { c with expire := e }).expire t = some e := by simp [expire, put_cells_self]
  have hof : ∀ a ∈ front, (l.put t { c with expire := e }).expire a = l.expire a := fun a ha =>
    put_expire_ne (hdisj a ha t List.mem_cons_self)
  have hob : ∀ a ∈ back, (l.put t { c with expire := e }).expire a = l.expire a := fun a ha =>
    put_expire_ne fun heq => hout (heq ▸ ha)
  have hlate : ∀ a ∈ back, ∀ x ∈ l.expire a, e ≤ x := by
    cases back with
    | nil => simp
    | cons n back =>
      have hn : c.next = some n := (cell_next hc).trans (List.isChain_append_cons_cons.mp hwf.linked).2.1.1
      obtain ⟨cn, hcn⟩ := hwf.cell (a := n) (by simp)
      intro a ha x hx
      have hfirst := hnext n hn cn.expire (expire_cell hcn)
      have hle := Ascending.head_le hback hcn a ha x hx
      omega
  refine List.pairwise_append.mpr ⟨?_, List.pairwise_cons.mpr ⟨fun a ha x hx y hy => ?_, ?_⟩, ?_⟩
  · refine hfront.imp_of_mem fun ha hb hab => ?_
    rw [hof _ ha, hof _ hb]
    exact hab
  · rw [hself] at hx
    cases Option.some.inj hx
    rw [hob a ha] at hy
    exact hlate a ha y hy
  · refine hback.imp_of_mem fun ha hb hab => ?_
    rw [hob _ ha, hob _ hb]
    exact hab
  · intro a ha b hb x hx y hy
    rw [hof a ha] at hx
    rcases List.mem_cons.mp hb with rfl | hb
    · rw [hself] at hy
      cases Option.some.inj hy
      have hold := hcross a ha b List.mem_cons_self x hx c.expire (expire_cell hc)
      omega
    · rw [hob b hb] at hy
      exact hcross a ha b (List.mem_cons_of_mem t hb) x hx y hy

theorem moveTimer_addAfter (h : l.moveTimer t c = .ok l') : ∃ (l1 : TimerList) (q : Option Nat), l1.addAfter t q = .ok l' := by
  unfold moveTimer at h
  split at h
  next =>
    obtain ⟨l1, _, h⟩ := bind_ok h
    obtain ⟨l2, _, h⟩ := bind_ok h
    exact ⟨l2, _, h⟩
  next =>
    obtain ⟨l1, _, h⟩ := bind_ok h
    obtain ⟨_, _, h⟩ := bind_ok h
    obtain ⟨l2, _, h⟩ := bind_ok h
    exact ⟨l2, _, h⟩

theorem WellFormed.tail_next (h : l.WellFormed as) (ht : t ∈ as) (htail : l.tail = some t) : l.next t = none := by
  have hlast := (h.tail (List.ne_nil_of_mem ht)).symm.trans htail
  exact h.last t hlast

theorem WellFormed.adjustsInOrder_iff {e : Int} (h : l.WellFormed as) (hasc : l.Ascending as) (ht : t ∈ as)
    (hc : l.cells t = some c) (hle : c.expire ≤ e) :
    (l.put t { c with expire := e }).AdjustsInOrder as t ↔ ∀ n ∈ c.next, ∀ x ∈ l.expire n, e < x := by
  have hcell : (l.put t { c with expire := e }).cells t = some { c with expire := e } := put_cells_self
  have hother : ∀ n ∈ c.next, ∃ cn, l.cells n = some cn ∧ n ≠ t := by
    intro n hn
    have hnt : n ≠ t := by
      rintro rfl
      exact (h.not_self ht).1 ((cell_next hc).symm.trans hn)
    obtain ⟨front, back, rfl⟩ := List.append_of_mem ht
    cases back with
    | nil =>
      have hlast := h.last t (by simp)
      rw [← cell_next hc, hn] at hlast
      cases hlast
    | cons b back =>
      have hnext := (List.isChain_append_cons_cons.mp h.linked).2.1.1
      rw [← cell_next hc, hn] at hnext
      cases hnext
      obtain ⟨cn, hcn⟩ := h.cell (a := n) (by simp)
      exact ⟨cn, hcn, hnt⟩
  constructor
  · rintro ⟨l', bs, hadj, hwf, _, hperm, _⟩ n hn x hx
    by_contra hlt
    obtain ⟨cn, hcn, hnt⟩ := hother n hn
    rw [expire_cell hcn] at hx
    cases Option.some.inj hx
    have hne : ¬ ((l.put t { c with expire := e }).head = some t ∧
        (l.put t { c with expire := e }).tail = some t) := by
      rintro ⟨_, htail⟩
      have hnone := h.tail_next ht htail
      rw [← cell_next hc, hn] at hnone
      cases hnone
    rw [adjustTimer_eq hcell hn ((put_cells_ne hnt).trans hcn) hlt hne] at hadj
    obtain ⟨l1, q, hadd⟩ := moveTimer_addAfter hadj
    exact hwf.not_addAfter (hperm.mem_iff.mpr ht) hadd
  · intro hnext
    refine ⟨_, as, adjustTimer_stay hcell ?_, h.raise hc e, hasc.raise h ht hc hle hnext, List.Perm.refl as, rfl,
      rfl⟩
    intro n hn
    obtain ⟨cn, hcn, hnt⟩ := hother n hn
    exact ⟨cn, (put_cells_ne hnt).trans hcn, hnext n hn cn.expire (expire_cell hcn)⟩

/-- Adding is right exactly at the front, and adjusting exactly when the timer may stay. -/
theorem timerList_ordered_iff (l : TimerList) (as : List Nat) (h : l.WellFormed as) (hasc : l.Ascending as) :
    (∀ t c, t ∉ as → l.cells t = some c → c.next = none → c.prev = none →
      (l.AddsInOrder as t c.expire ↔ ∀ a ∈ as.head?, ∀ x ∈ l.expire a, c.expire < x)) ∧
    ∀ t c e, t ∈ as → l.cells t = some c → c.expire ≤ e →
      ((l.put t { c with expire := e }).AdjustsInOrder as t ↔ ∀ n ∈ c.next, ∀ x ∈ l.expire n, e < x) :=
  ⟨fun _ _ ht hc hn hp => h.addsInOrder_iff hasc ht hc hn hp,
    fun _ _ _ ht hc hle => h.adjustsInOrder_iff hasc ht hc hle⟩

/-- Timers due at 5 and 9 in the list, and one due at e outside of it. -/
def threeTimers (e : Int) : TimerList where
  cells a := [⟨5, 0, none, some 1⟩, ⟨9, 1, some 0, none⟩, ⟨e, 2, none, none⟩][a]?
  fresh := 3
  head := some 0
  tail := some 1

theorem threeTimers_wellFormed (e : Int) : (threeTimers e).WellFormed [0, 1] where
  linked := List.isChain_pair.mpr ⟨rfl, rfl⟩
  head := rfl
  tail _ := rfl
  first := by
    rintro a ⟨⟩
    rfl
  last := by
    rintro a ⟨⟩
    rfl
  nodup := by decide
  live a ha := by
    simp only [List.mem_cons, List.not_mem_nil, or_false] at ha
    rcases ha with rfl | rfl <;> rfl
  bound a ha := by
    obtain ⟨c, hc⟩ := Option.isSome_iff_exists.mp ha
    exact (List.getElem?_eq_some_iff.mp hc).1

theorem threeTimers_ascending (e : Int) : (threeTimers e).Ascending [0, 1] := by
  refine List.pairwise_pair.mpr ?_
  rintro x ⟨⟩ y ⟨⟩
  decide

theorem timerList_ordered_iff_threeTimers :
    (threeTimers 3).AddsInOrder [0, 1] 2 3 ∧
      ((threeTimers 3).put 0 ⟨8, 0, none, some 1⟩).AdjustsInOrder [0, 1] 0 := by
  obtain ⟨hadd, hadj⟩ :=
    timerList_ordered_iff (threeTimers 3) [0, 1] (threeTimers_wellFormed 3) (threeTimers_ascending 3)
  refine ⟨(hadd 2 ⟨3, 2, none, none⟩ (by decide) rfl rfl rfl).mpr ?_,
    (hadj 0 ⟨5, 0, none, some 1⟩ 8 (by decide) rfl (by decide)).mpr ?_⟩
  · rintro a ⟨⟩ x ⟨⟩
    decide
  · rintro n ⟨⟩ x ⟨⟩
    decide

/-- A timer due at 7 does not find its place between two others. -/
theorem timerList_not_always_ordered :
    ¬ ∀ (l : TimerList) (as : List Nat), l.WellFormed as → l.Ascending as →
      (∀ t c, t ∉ as → l.cells t = some c → c.next = none → c.prev = none → l.AddsInOrder as t c.expire) ∧
      ∀ t c e, t ∈ as → l.cells t = some c → c.expire ≤ e → (l.put t { c with expire := e }).AdjustsInOrder as t := by
  intro h
  have hadd := (h _ _ (threeTimers_wellFormed 7) (threeTimers_ascending 7)).1 2 ⟨7, 2, none, none⟩ (by decide) rfl rfl rfl
  rw [(threeTimers_wellFormed 7).addsInOrder_iff (threeTimers_ascending 7) (by decide) rfl rfl rfl] at hadd
  exact absurd (hadd 0 rfl 5 rfl) (by decide)

end TimerList

end CppInAction
