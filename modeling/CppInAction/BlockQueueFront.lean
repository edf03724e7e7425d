import CppInAction.BlockQueue

namespace CppInAction

namespace BlockQueue

variable {α : Type}

/-- front reads the cell of m_front itself. -/
def frontItem (q : BlockQueue α) : Reply α :=
  if q.size ≤ 0 then .bool false
  else if q.inArray q.front then .item (q.array q.front)
  else .outOfBounds

end BlockQueue

/-- A bounded list with the item that was popped last since the start or the last clear. -/
structure Trail (α : Type) where
  fifo : Fifo α
  popped : Option α

namespace Trail

variable {α : Type}

def new (capacity : Int) : Trail α := ⟨Fifo.new capacity, none⟩

def ops : QueueOps (Trail α) α where
  push := fun t x => ({ t with fifo := (t.fifo.push x).1 }, (t.fifo.push x).2)
  take := fun t => (⟨t.fifo.take.1, t.fifo.items.head?⟩, t.fifo.take.2)
  clear := fun t => ⟨Fifo.ops.clear t.fifo, none⟩
  full := fun t => Fifo.ops.full t.fifo
  empty := fun t => Fifo.ops.empty t.fifo
  size := fun t => Fifo.ops.size t.fifo
  back := fun t => Fifo.ops.back t.fifo

/-- An item was popped, and the oldest item is equal to it, or to the newest item when the
queue is full. -/
def Leads (t : Trail α) : Prop :=
  t.popped ≠ none ∧
    if t.fifo.capacity ≤ t.fifo.items.length then t.fifo.items.head? = t.fifo.items.getLast?
    else t.fifo.items.head? = t.popped

end Trail

namespace BlockQueue

variable {α : Type} {q : BlockQueue α} {t : Trail α}

/-- The cell of front has the item popped last until the queue is full. -/
structure Follows (q : BlockQueue α) (t : Trail α) : Prop where
  holds : q.Holds t.fifo
  start : t.popped = none → q.front = -1
  after : ∀ x, t.popped = some x → 0 ≤ q.front ∧ (q.size < q.maxSize → q.array q.front = x)

theorem new_follows {maxSize : Int} (h : 1 ≤ maxSize) (junk : Int → α) :
    (new maxSize junk).Follows (Trail.new maxSize) where
  holds := new_holds h junk
  start := fun _ => rfl
  after := by
    intro x hx
    cases hx

theorem push_front (q : BlockQueue α) (x : α) : (q.push x).1.front = q.front := by
  unfold push
  split
  next => rfl
  next =>
    dsimp only
    split <;> rfl

theorem Follows.push (h : q.Follows t) (x : α) :
    (q.push x).1.Follows (Trail.ops.push t x).1 ∧ (q.push x).2 = (Trail.ops.push t x).2 := by
  obtain ⟨hholds, hreply⟩ := h.holds.push x
  refine ⟨⟨hholds, fun hnone => ?_, fun y hy => ?_⟩, hreply⟩
  · rw [push_front]
    exact h.start hnone
  · obtain ⟨h0, hcell⟩ := h.after y hy
    rw [push_front]
    refine ⟨h0, fun hroom => ?_⟩
    by_cases hfull : q.maxSize ≤ q.size
    · rw [BlockQueue.push, if_pos hfull] at hroom ⊢
      exact hcell hroom
    · -- the new item goes to another cell, since the queue is not full after it either
      obtain ⟨hnext, hlow, hlt⟩ := h.holds.nextBack (by omega)
      have hin : q.inArray (wrap (q.front + 1 + q.size) q.maxSize) = true := by
        simp [inArray, hlow, hlt]
      rw [BlockQueue.push, if_neg hfull] at hroom ⊢
      simp only [hnext, hin, if_true] at hroom ⊢
      have hsize := h.holds.size
      have hfront := h.holds.front
      have hne : q.front ≠ wrap (q.front + 1 + q.size) q.maxSize := by
        unfold wrap
        split <;> omega
      rw [Function.update_of_ne hne]
      exact hcell (by omega)

theorem Follows.take (h : q.Follows t) (hne : t.fifo.items ≠ []) :
    q.take.1.Follows (Trail.ops.take t).1 ∧ q.take.2 = (Trail.ops.take t).2 := by
  obtain ⟨hholds, hreply⟩ := h.holds.take hne
  obtain ⟨x, rest, hx⟩ := List.exists_cons_of_ne_nil hne
  obtain ⟨hnext, hlow, hlt, hhead⟩ := h.holds.first hx
  have hin : q.inArray (wrap (q.front + 1) q.maxSize) = true := by
    simp [inArray, hlow, hlt]
  have htaken : q.take.1.front = wrap (q.front + 1) q.maxSize ∧ q.take.1.array = q.array := by
    simp only [BlockQueue.take, hnext, hin, if_true, and_self]
  have hpopped : (Trail.ops.take t).1.popped = some x := by
    change t.fifo.items.head? = some x
    rw [hx]
    rfl
  refine ⟨⟨hholds, fun hnone => ?_, fun y hy => ?_⟩, hreply⟩
  · rw [hpopped] at hnone
    cases hnone
  · rw [hpopped] at hy
    rw [htaken.1, htaken.2]
    exact ⟨hlow, fun _ => hhead.trans (Option.some.inj hy)⟩

theorem follows_simulates : (ops : QueueOps (BlockQueue α) α).Simulates Trail.ops Follows where
  push := fun x h => h.push x
  take := fun {_ t} h hne => h.take fun hnil => by
    change t.fifo.items.isEmpty = false at hne
    rw [hnil] at hne
    cases hne
  clear := fun {_ _} h => ⟨h.holds.clear, fun _ => rfl, fun x hx => by cases hx⟩
  full := fun h => simulates.full h.holds
  empty := fun h => simulates.empty h.holds
  size := fun h => simulates.size h.holds
  back := fun h => simulates.back h.holds

/-- When the queue is full, the newest item is in the cell of front. -/
theorem Follows.newest (h : q.Follows t) (h0 : 0 ≤ q.front) (hfull : q.maxSize ≤ q.size) :
    t.fifo.items.getLast? = some (q.array q.front) := by
  have hsize := h.holds.size
  have hpos := h.holds.pos
  have hle := h.holds.le
  have hfront := h.holds.front
  have hlast := h.holds.items (t.fifo.items.length - 1) (by omega)
  have hcell : wrap (q.front + 1 + ((t.fifo.items.length - 1 : Nat) : Int)) q.maxSize = q.front := by
    unfold wrap
    split <;> omega
  rw [List.getLast?_eq_getElem?, hlast, hcell]

/-- front gives what pop would give exactly if the last item popped, or the newest item of
a full queue, is equal to the oldest one. -/
theorem Follows.frontItem_iff (h : q.Follows t) (hne : q.empty = false) : q.frontItem = q.take.2 ↔ t.Leads := by
  have hsize : ¬ q.size ≤ 0 := by simpa [empty] using hne
  have hempty := simulates.empty h.holds
  have hitems : t.fifo.items ≠ [] := by
    intro hnil
    change q.empty = t.fifo.items.isEmpty at hempty
    rw [hne, hnil] at hempty
    cases hempty
  obtain ⟨x, rest, hx⟩ := List.exists_cons_of_ne_nil hitems
  have htake : q.take.2 = .item x := by
    rw [(h.holds.take hitems).2, Fifo.take]
    simp only [hx]
  have hhead : t.fifo.items.head? = some x := by
    rw [hx]
    rfl
  rw [htake, frontItem, if_neg hsize, Trail.Leads, hhead]
  cases hpopped : t.popped with
  | none =>
    have hout : q.inArray q.front = false := by simp [inArray, h.start hpopped]
    simp [hout]
  | some y =>
    obtain ⟨h0, hcell⟩ := h.after y hpopped
    have hin : q.inArray q.front = true := by simp [inArray, h0, h.holds.front.2]
    have hcap := h.holds.capacity
    have hlen := h.holds.size
    rw [if_pos hin]
    by_cases hfull : q.maxSize ≤ q.size
    · rw [if_pos (by omega), h.newest h0 hfull]
      simp [eq_comm]
    · rw [if_neg (by omega), hcell (by omega)]
      simp [eq_comm]

/-- After every history that leaves something in the queue, front gives the item that pop
would give exactly under the condition on that history. -/
theorem blockQueue_front_iff {maxSize : Int} (h : 1 ≤ maxSize) (junk : Int → α) (threads : Nat)
    (as : List (QueueAct α)) {q : BlockQueue α} {pcs : List PopPc}
    (hrun : runSteps ops.next (new maxSize junk, List.replicate threads .outside) as = some (q, pcs))
    (hne : q.empty = false) :
    ∃ t, runSteps Trail.ops.next (Trail.new maxSize, List.replicate threads .outside) as = some (t, pcs) ∧
      (q.frontItem = q.take.2 ↔ t.Leads) := by
  have hstart : QueueOps.Beside Follows (new maxSize junk, List.replicate threads .outside)
      (Trail.new maxSize, List.replicate threads .outside) := ⟨new_follows h junk, rfl⟩
  obtain ⟨⟨t, pcs'⟩, ht, hfollows, hpcs⟩ := follows_simulates.runSteps hstart as hrun
  cases hpcs
  exact ⟨t, ht, hfollows.frontItem_iff hne⟩

theorem blockQueue_front_iff_popped :
    ∃ (q : BlockQueue Nat) (t : Trail Nat),
      runSteps ops.next (new 2 fun _ => 0, [.outside]) [.push 0 7, .pop 0, .push 0 7] = some (q, [.outside]) ∧
        runSteps Trail.ops.next (Trail.new 2, [.outside]) [.push 0 7, .pop 0, .push 0 7] = some (t, [.outside]) ∧
        (q.frontItem = q.take.2 ↔ t.Leads) := by
  obtain ⟨t, ht, hiff⟩ := blockQueue_front_iff (by decide : (1 : Int) ≤ 2) (fun _ => 0) 1
    [.push 0 7, .pop 0, .push 0 7] rfl rfl
  exact ⟨_, t, rfl, ht, hiff⟩

/-- After one push into a new queue, front reads m_array[-1]. -/
theorem blockQueue_front_not_always_oldest :
    ¬ ∀ (maxSize : Int) (junk : Int → Nat) (threads : Nat) (as : List (QueueAct Nat)) (q : BlockQueue Nat)
      (pcs : List PopPc), 1 ≤ maxSize →
      runSteps ops.next (new maxSize junk, List.replicate threads .outside) as = some (q, pcs) → q.empty = false →
      q.frontItem = q.take.2 := by
  intro h
  have hfront := h 2 (fun _ => 0) 1 [.push 0 7] _ _ (by decide) rfl rfl
  cases hfront

end BlockQueue

end CppInAction
