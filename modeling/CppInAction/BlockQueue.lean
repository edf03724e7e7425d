import CppInAction.QueueCalls

namespace CppInAction

structure BlockQueue (α : Type) where
  array : Int → α
  size : Int
  maxSize : Int
  front : Int
  back : Int

namespace BlockQueue

variable {α : Type}

/-- The constructor for a positive max_size; the array holds what T's constructor leaves. -/
def new (maxSize : Int) (junk : Int → α) : BlockQueue α := ⟨junk, 0, maxSize, -1, -1⟩

def inArray (q : BlockQueue α) (i : Int) : Bool := 0 ≤ i && i < q.maxSize

def clear (q : BlockQueue α) : BlockQueue α := { q with size := 0, front := -1, back := -1 }

def full (q : BlockQueue α) : Bool := q.maxSize ≤ q.size

def empty (q : BlockQueue α) : Bool := q.size ≤ 0

def backItem (q : BlockQueue α) : Reply α :=
  if q.size ≤ 0 then .bool false
  else if q.inArray q.back then .item (q.array q.back)
  else .outOfBounds

def push (q : BlockQueue α) (x : α) : BlockQueue α × Reply α :=
  if q.maxSize ≤ q.size then (q, .bool false)
  else
    let back := (q.back + 1).tmod q.maxSize
    if q.inArray back then
      ({ q with back := back, array := Function.update q.array back x, size := q.size + 1 }, .bool true)
    else (q, .outOfBounds)

/-- The end of both pops. -/
def take (q : BlockQueue α) : BlockQueue α × Reply α :=
  let front := (q.front + 1).tmod q.maxSize
  if q.inArray front then ({ q with front := front, size := q.size - 1 }, .item (q.array front))
  else (q, .outOfBounds)

def ops : QueueOps (BlockQueue α) α where
  push := push
  take := take
  clear := clear
  full := full
  empty := empty
  size := size
  back := backItem

end BlockQueue

/-- A bounded list, oldest item first. accepted has all items that were let in and removed
those that were popped or cleared. -/
structure Fifo (α : Type) where
  capacity : Int
  items : List α
  accepted : List α
  removed : List α

namespace Fifo

variable {α : Type}

def new (capacity : Int) : Fifo α := ⟨capacity, [], [], []⟩

def push (f : Fifo α) (x : α) : Fifo α × Reply α :=
  if f.capacity ≤ f.items.length then (f, .bool false)
  else ({ f with items := f.items ++ [x], accepted := f.accepted ++ [x] }, .bool true)

def take (f : Fifo α) : Fifo α × Reply α :=
  match f.items with
  | [] => (f, .bool false)
  | x :: rest => ({ f with items := rest, removed := f.removed ++ [x] }, .item x)

def ops : QueueOps (Fifo α) α where
  push := push
  take := take
  clear := fun f => { f with items := [], removed := f.removed ++ f.items }
  full := fun f => f.capacity ≤ f.items.length
  empty := fun f => f.items.isEmpty
  size := fun f => f.items.length
  back := fun f => match f.items.getLast? with
    | none => .bool false
    | some x => .item x

/-- Nothing is lost, and what leaves does so in order and once. -/
def Accounts (f : Fifo α) : Prop :=
  f.accepted = f.removed ++ f.items ∧ f.items.length ≤ f.capacity

theorem accounts_push {f : Fifo α} (h : f.Accounts) (x : α) : (f.push x).1.Accounts := by
  unfold push
  split
  next => exact h
  next hroom =>
    refine ⟨?_, ?_⟩
    · change f.accepted ++ [x] = f.removed ++ (f.items ++ [x])
      rw [h.1, List.append_assoc]
    · change ((f.items ++ [x]).length : Int) ≤ f.capacity
      rw [List.length_append, List.length_singleton]
      push_cast
      omega

theorem accounts_take {f : Fifo α} (h : f.Accounts) : f.take.1.Accounts := by
  unfold take
  split
  next => exact h
  next x rest hx =>
    obtain ⟨hacc, hlen⟩ := h
    rw [hx] at hacc hlen
    rw [List.length_cons] at hlen
    push_cast at hlen
    refine ⟨?_, ?_⟩
    · change f.accepted = f.removed ++ [x] ++ rest
      rw [hacc, List.append_assoc]
      rfl
    · change (rest.length : Int) ≤ f.capacity
      omega

theorem keeps : (ops : QueueOps (Fifo α) α).Keeps Accounts (· ≠ .outOfBounds) where
  push := fun f x h => by
    refine ⟨accounts_push h x, ?_⟩
    change (f.push x).2 ≠ _
    unfold push
    split <;> simp
  take := fun f h _ => by
    refine ⟨accounts_take h, ?_⟩
    change f.take.2 ≠ _
    unfold take
    split <;> simp
  clear := fun f h => by
    refine ⟨h.1.trans (List.append_nil _).symm, ?_⟩
    have hle := h.2
    change (0 : Int) ≤ f.capacity
    omega
  back := fun f _ => by
    change (match f.items.getLast? with
      | none => Reply.bool false
      | some x => .item x) ≠ _
    split <;> simp
  other := fun _ _ h => h

/-- On a list that is not empty a pop, or the return of its wait, replies the oldest item and takes it out. -/
theorem pop_oldest {s t : Fifo α × List PopPc} {r : Reply α} {a : QueueAct α} {i : Nat} {x : α} {rest : List α}
    (hx : s.1.items = x :: rest) (ha : a ∈ [.pop i, .wake i true, .popTimed i, .wakeTimed i true])
    (hs : ops.step s a = some (t, r)) :
    r = .item x ∧ t = ({ s.1 with items := rest, removed := s.1.removed ++ [x] }, s.2.set i .outside) := by
  have hempty : ops.empty s.1 = false := congrArg List.isEmpty hx
  have htake : ops.take s.1 = ({ s.1 with items := rest, removed := s.1.removed ++ [x] }, .item x) := by
    change Fifo.take s.1 = _
    unfold Fifo.take
    rw [hx]
  have htry : ∀ wait, ops.tryPop s i wait =
      (({ s.1 with items := rest, removed := s.1.removed ++ [x] }, s.2.set i .outside), .item x) := by
    intro wait
    rw [QueueOps.tryPop, hempty, htake]
    rfl
  have hend : ops.endPop s i true = ops.tryPop s i .timed := by
    rw [QueueOps.endPop, QueueOps.tryPop, hempty]
    rfl
  have hof : ∀ {pc : PopPc} {y : (Fifo α × List PopPc) × Reply α}, (if s.2[i]? = some pc then some y else none) = some (t, r) →
      y = (t, r) := by
    intro pc y hy
    split at hy
    next => exact Option.some.inj hy
    next => cases hy
  simp only [List.mem_cons, List.not_mem_nil, or_false] at ha
  have hpop : ∃ wait, ops.tryPop s i wait = (t, r) := by
    rcases ha with rfl | rfl | rfl | rfl
    · exact ⟨_, hof hs⟩
    · exact ⟨_, hof hs⟩
    · exact ⟨_, hof hs⟩
    · exact ⟨_, hend.symm.trans (hof hs)⟩
  obtain ⟨wait, hpop⟩ := hpop
  rw [htry] at hpop
  obtain ⟨ht, hr⟩ := Prod.mk.inj hpop
  exact ⟨hr.symm, ht.symm⟩

end Fifo

/-- An index that has run past the end once comes back to the start. -/
def wrap (x m : Int) : Int := if x < m then x else x - m

theorem tmod_succ {x m : Int} (h0 : -1 ≤ x) (hx : x < m) : (x + 1).tmod m = wrap (x + 1) m := by
  unfold wrap
  split
  next hlt => exact Int.tmod_eq_of_lt (by omega) hlt
  next hge =>
    have heq : x + 1 = m := by omega
    rw [heq, Int.tmod_self, Int.sub_self]

namespace BlockQueue

variable {α : Type} {q : BlockQueue α} {f : Fifo α}

/-- The items are in the cells behind front, up to back. -/
structure Holds (q : BlockQueue α) (f : Fifo α) : Prop where
  capacity : q.maxSize = f.capacity
  pos : 1 ≤ q.maxSize
  size : q.size = f.items.length
  le : q.size ≤ q.maxSize
  front : -1 ≤ q.front ∧ q.front < q.maxSize
  back : q.back = wrap (q.front + q.size) q.maxSize
  items : ∀ k : Nat, k < f.items.length → f.items[k]? = some (q.array (wrap (q.front + 1 + k) q.maxSize))

theorem new_holds {maxSize : Int} (h : 1 ≤ maxSize) (junk : Int → α) :
    (new maxSize junk).Holds (Fifo.new maxSize) where
  capacity := rfl
  pos := h
  size := rfl
  le := by
    change 0 ≤ maxSize
    omega
  front := by
    change -1 ≤ -1 ∧ -1 < maxSize
    omega
  back := by
    change -1 = wrap (-1 + 0) maxSize
    unfold wrap
    split <;> omega
  items := fun k hk => absurd hk (Nat.not_lt_zero k)

theorem Holds.clear (h : q.Holds f) : q.clear.Holds { f with items := [], removed := f.removed ++ f.items } where
  capacity := h.capacity
  pos := h.pos
  size := rfl
  le := by
    have hpos := h.pos
    change 0 ≤ q.maxSize
    omega
  front := by
    have hpos := h.pos
    change -1 ≤ -1 ∧ -1 < q.maxSize
    omega
  back := by
    have hpos := h.pos
    change -1 = wrap (-1 + 0) q.maxSize
    unfold wrap
    split <;> omega
  items := fun k hk => absurd hk (Nat.not_lt_zero k)

/-- The index of push is the cell behind the last item. -/
theorem Holds.nextBack (h : q.Holds f) (hroom : q.size < q.maxSize) :
    (q.back + 1).tmod q.maxSize = wrap (q.front + 1 + q.size) q.maxSize ∧
      0 ≤ wrap (q.front + 1 + q.size) q.maxSize ∧ wrap (q.front + 1 + q.size) q.maxSize < q.maxSize := by
  have hfront := h.front
  have hsize := h.size
  have hback := h.back
  have hrange : -1 ≤ q.back ∧ q.back < q.maxSize := by
    rw [hback]
    unfold wrap
    split <;> omega
  rw [tmod_succ hrange.1 hrange.2, hback]
  unfold wrap
  refine ⟨?_, ?_, ?_⟩
  · split <;> split <;> split <;> omega
  · split <;> omega
  · split <;> omega

theorem Holds.push (h : q.Holds f) (x : α) :
    (q.push x).1.Holds (f.push x).1 ∧ (q.push x).2 = (f.push x).2 := by
  have hsize := h.size
  have hcap := h.capacity
  have hfront := h.front
  unfold BlockQueue.push Fifo.push
  by_cases hfull : q.maxSize ≤ q.size
  · rw [if_pos hfull, if_pos (by omega)]
    exact ⟨h, rfl⟩
  · obtain ⟨hnext, h0, hlt⟩ := h.nextBack (by omega)
    have hin : q.inArray (wrap (q.front + 1 + q.size) q.maxSize) = true := by
      simp [inArray, h0, hlt]
    have hroom : ¬ f.capacity ≤ (f.items.length : Int) := by omega
    rw [if_neg hfull, if_neg hroom]
    simp only [hnext, hin, if_true]
    refine ⟨⟨hcap, h.pos, ?_, ?_, hfront, ?_, fun k hk => ?_⟩, trivial⟩
    · change q.size + 1 = ((f.items ++ [x]).length : Int)
      rw [List.length_append, List.length_singleton]
      push_cast
      omega
    · change q.size + 1 ≤ q.maxSize
      omega
    · change wrap (q.front + 1 + q.size) q.maxSize = wrap (q.front + (q.size + 1)) q.maxSize
      congr 1
      omega
    · change (f.items ++ [x])[k]? = some (Function.update q.array (wrap (q.front + 1 + q.size) q.maxSize) x
        (wrap (q.front + 1 + k) q.maxSize))
      by_cases hlast : k < f.items.length
      · have hne : wrap (q.front + 1 + k) q.maxSize ≠ wrap (q.front + 1 + q.size) q.maxSize := by
          unfold wrap
          split <;> split <;> omega
        rw [List.getElem?_append_left hlast, h.items k hlast, Function.update_of_ne hne]
      · have hk' : k = f.items.length := by
          change k < (f.items ++ [x]).length at hk
          rw [List.length_append, List.length_singleton] at hk
          omega
        rw [hk', ← hsize, Function.update_self, List.getElem?_append_right (Nat.le_refl _), Nat.sub_self]
        rfl

/-- The oldest item is in the cell behind front. -/
theorem Holds.first (h : q.Holds f) {x : α} {rest : List α} (hx : f.items = x :: rest) :
    (q.front + 1).tmod q.maxSize = wrap (q.front + 1) q.maxSize ∧ 0 ≤ wrap (q.front + 1) q.maxSize ∧
      wrap (q.front + 1) q.maxSize < q.maxSize ∧ q.array (wrap (q.front + 1) q.maxSize) = x := by
  have hfront := h.front
  have hpos := h.pos
  have hzero := h.items 0 (by rw [hx, List.length_cons]; omega)
  refine ⟨tmod_succ hfront.1 hfront.2, ?_, ?_, ?_⟩
  · unfold wrap
    split <;> omega
  · unfold wrap
    split <;> omega
  · rw [hx] at hzero
    simpa using hzero.symm

theorem Holds.take (h : q.Holds f) (hne : f.items ≠ []) :
    q.take.1.Holds f.take.1 ∧ q.take.2 = f.take.2 := by
  obtain ⟨x, rest, hx⟩ := List.exists_cons_of_ne_nil hne
  have hsize := h.size
  have hfront := h.front
  have hback := h.back
  have hle := h.le
  rw [hx, List.length_cons] at hsize
  push_cast at hsize
  obtain ⟨hnext, hlow, hlt, hhead⟩ := h.first hx
  have hin : q.inArray (wrap (q.front + 1) q.maxSize) = true := by
    simp [inArray, hlow, hlt]
  simp only [BlockQueue.take, Fifo.take, hnext, hin, if_true, hx]
  refine ⟨⟨h.capacity, h.pos, ?_, ?_, ?_, ?_, fun k hk => ?_⟩, by rw [hhead]⟩
  · change q.size - 1 = (rest.length : Int)
    omega
  · change q.size - 1 ≤ q.maxSize
    omega
  · change -1 ≤ wrap (q.front + 1) q.maxSize ∧ wrap (q.front + 1) q.maxSize < q.maxSize
    omega
  · change q.back = wrap (wrap (q.front + 1) q.maxSize + (q.size - 1)) q.maxSize
    rw [hback]
    unfold wrap
    split <;> split <;> split <;> omega
  · have hk' : k < rest.length := hk
    have hnextItem := h.items (k + 1) (by rw [hx, List.length_cons]; omega)
    rw [hx, List.getElem?_cons_succ] at hnextItem
    change rest[k]? = some (q.array (wrap (wrap (q.front + 1) q.maxSize + 1 + k) q.maxSize))
    rw [hnextItem]
    congr 2
    unfold wrap
    push_cast
    split <;> split <;> split <;> omega

theorem Holds.backItem (h : q.Holds f) : q.backItem = Fifo.ops.back f := by
  have hsize := h.size
  have hfront := h.front
  have hback := h.back
  have hle := h.le
  unfold BlockQueue.backItem
  change _ = match f.items.getLast? with
    | none => Reply.bool false
    | some x => .item x
  by_cases hempty : q.size ≤ 0
  · have hnil : f.items = [] := List.length_eq_zero_iff.mp (by omega)
    rw [if_pos hempty, hnil]
    rfl
  · have hin : q.inArray q.back = true := by
      have hrange : 0 ≤ q.back ∧ q.back < q.maxSize := by
        rw [hback]
        unfold wrap
        split <;> omega
      simp [inArray, hrange.1, hrange.2]
    have hlast := h.items (f.items.length - 1) (by omega)
    have hcell : wrap (q.front + 1 + ((f.items.length - 1 : Nat) : Int)) q.maxSize = q.back := by
      rw [hback]
      congr 1
      omega
    rw [hcell] at hlast
    rw [if_neg hempty, if_pos hin, List.getLast?_eq_getElem?, hlast]

theorem simulates : (ops : QueueOps (BlockQueue α) α).Simulates Fifo.ops Holds where
  push := fun x h => h.push x
  take := fun {_ f} h hne => h.take fun hnil => by
    change f.items.isEmpty = false at hne
    rw [hnil] at hne
    cases hne
  clear := fun h => h.clear
  full := fun {q f} h => by
    have hsize := h.size
    have hcap := h.capacity
    change decide (q.maxSize ≤ q.size) = decide (f.capacity ≤ (f.items.length : Int))
    rw [hsize, hcap]
  empty := fun {q f} h => by
    have hsize := h.size
    change decide (q.size ≤ 0) = f.items.isEmpty
    rw [hsize]
    cases f.items with
    | nil => rfl
    | cons x rest =>
      rw [List.isEmpty_cons, decide_eq_false_iff_not, List.length_cons]
      push_cast
      omega
  size := fun h => h.size
  back := fun h => h.backItem

/-- The items from front to back. -/
def contents (q : BlockQueue α) : List α :=
  (List.range q.size.toNat).map fun k : Nat => q.array (wrap (q.front + 1 + k) q.maxSize)

theorem Holds.contents (h : q.Holds f) : q.contents = f.items := by
  have hlen : q.size.toNat = f.items.length := by
    rw [h.size, Int.toNat_natCast]
  refine List.ext_getElem? fun k => ?_
  unfold BlockQueue.contents
  rw [hlen, List.getElem?_map]
  by_cases hk : k < f.items.length
  · rw [List.getElem?_range hk, h.items k hk]
    rfl
  · rw [List.getElem?_eq_none (by rw [List.length_range]; omega), List.getElem?_eq_none (by omega)]
    rfl

theorem Holds.contents_push (h : q.Holds f) (x : α) :
    (q.push x).1.contents = if q.full then q.contents else q.contents ++ [x] := by
  have hfull := simulates.full h
  change q.full = decide (f.capacity ≤ (f.items.length : Int)) at hfull
  rw [(h.push x).1.contents, h.contents, hfull]
  unfold Fifo.push
  by_cases hc : f.capacity ≤ (f.items.length : Int)
  · rw [if_pos hc, if_pos (decide_eq_true hc)]
  · rw [if_neg hc, if_neg (by simpa using hc)]

theorem Holds.contents_take (h : q.Holds f) (hne : q.empty = false) :
    ∃ x, q.take.2 = .item x ∧ q.contents = x :: q.take.1.contents := by
  have hempty := simulates.empty h
  change q.empty = f.items.isEmpty at hempty
  have hitems : f.items ≠ [] := by
    intro hnil
    rw [hne, hnil] at hempty
    cases hempty
  obtain ⟨x, rest, hx⟩ := List.exists_cons_of_ne_nil hitems
  obtain ⟨hholds, hreply⟩ := h.take hitems
  rw [hholds.contents, h.contents, hreply, Fifo.take]
  simp only [hx]
  exact ⟨x, rfl, rfl⟩

/-- A turn of pop leaves the items alone or gives the first of them. -/
theorem Holds.popTurn {s t : BlockQueue α × List PopPc} {r : Reply α} {a : QueueAct α} {i : Nat}
    (h : s.1.Holds f) (ha : a = .pop i ∨ ∃ ok, a = .wake i ok) (hs : ops.step s a = some (t, r)) :
    (∃ f', t.1.Holds f') ∧
      (t.1.contents = s.1.contents ∧ (∀ x, r ≠ .item x) ∨ ∃ x, r = .item x ∧ s.1.contents = x :: t.1.contents) := by
  have htry : ∀ {wait}, ops.tryPop s i wait = (t, r) → (∃ f', t.1.Holds f') ∧
      (t.1.contents = s.1.contents ∧ (∀ x, r ≠ .item x) ∨ ∃ x, r = .item x ∧ s.1.contents = x :: t.1.contents) := by
    intro wait hpop
    unfold QueueOps.tryPop at hpop
    split at hpop
    next =>
      cases hpop
      exact ⟨⟨f, h⟩, Or.inl ⟨rfl, by simp⟩⟩
    next he =>
      cases hpop
      have hne : s.1.empty = false := Bool.eq_false_iff.mpr he
      have hsim := simulates.empty h
      have hholds := (simulates.take h (hsim.symm.trans hne)).1
      exact ⟨⟨_, hholds⟩, Or.inr (h.contents_take hne)⟩
  rcases ha with rfl | ⟨ok, rfl⟩
  · simp only [QueueOps.step, QueueOps.call] at hs
    split at hs
    next => exact htry (Option.some.inj hs)
    next => cases hs
  · simp only [QueueOps.step] at hs
    split at hs
    next =>
      cases ok with
      | true => exact htry (Option.some.inj hs)
      | false =>
        cases Option.some.inj hs
        exact ⟨⟨f, h⟩, Or.inl ⟨rfl, by simp⟩⟩
    next => cases hs

/-- The ring buffer replies as a bounded list does, under every interleaving and with
every return of the waits. -/
theorem blockQueue_refines_fifo (maxSize : Int) (h : 1 ≤ maxSize) (junk : Int → α) (threads : Nat)
    (as : List (QueueAct α)) :
    ops.replies (new maxSize junk, List.replicate threads .outside) as =
        Fifo.ops.replies (Fifo.new maxSize, List.replicate threads .outside) as ∧
      Reply.outOfBounds ∉ ops.replies (new maxSize junk, List.replicate threads .outside) as ∧
      Along Fifo.ops.next (fun f => f.1.Accounts)
        ((Fifo.new maxSize : Fifo α), List.replicate threads .outside) as := by
  have hreplies := simulates.replies (s := (new maxSize junk, List.replicate threads .outside))
    (t := (Fifo.new maxSize, List.replicate threads .outside)) ⟨new_holds h junk, rfl⟩ as
  have hstart : (Fifo.new maxSize : Fifo α).Accounts := by
    refine ⟨rfl, ?_⟩
    change (0 : Int) ≤ maxSize
    omega
  refine ⟨hreplies, ?_, Fifo.keeps.along hstart as⟩
  rw [hreplies]
  exact fun hm => Fifo.keeps.replies hstart as _ hm rfl

theorem blockQueue_refines_fifo_twoCells :
    (1 : Int) ≤ 2 ∧
      ops.replies (new 2 (fun _ => 0), [.outside, .outside])
          [.pop 0, .push 1 7, .wake 0 true, .push 1 8, .push 1 9, .push 1 10, .back 1, .clear 1, .popTimed 0] =
        Fifo.ops.replies (Fifo.new 2, [.outside, .outside])
          [.pop 0, .push 1 7, .wake 0 true, .push 1 8, .push 1 9, .push 1 10, .back 1, .clear 1, .popTimed 0] :=
  ⟨by decide, (blockQueue_refines_fifo 2 (by decide) (fun _ => 0) 2 _).1⟩

end BlockQueue

end CppInAction
