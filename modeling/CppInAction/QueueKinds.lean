import CppInAction.TailRuns

namespace CppInAction

namespace TailQueues

open TailMem

/-- What a list reads as in a memory whose links are those of the tail queues. -/
theorem Holds.links {Q : TailQueues} {n m : TailMem} {h : Nat} {L : List Nat} (hQ : Q.Holds m) (hL : Q h = some L)
    (hlink : n.link = m.link) : n.first h = L.head? ∧ n.empty h = L.isEmpty ∧ (∀ A x B, A ++ x :: B = L → n.next x = B.head?) ∧
      ∀ turns, L.length ≤ turns → n.foreach turns h = some L := by
  have hr := hQ.ring h L hL
  have hfirst : n.first h = L.head? := (congrFun hlink _).trans (first_ring hr)
  have hnext : n.next = m.next := funext fun x => congrFun hlink _
  refine ⟨hfirst, ?_, ?_, fun turns hturns => ?_⟩
  · rw [TailMem.empty, hfirst]
    cases L <;> simp
  · rintro A x B rfl
    rw [hnext]
    exact next_ring hr
  · have heach := hQ.foreach hL hturns
    rw [TailMem.foreach, first_ring hr] at heach
    rw [TailMem.foreach, hnext, hfirst]
    exact heach

end TailQueues

namespace TailMem

/-- The memories have the same links, and the same second fields in the slots that count. -/
structure View (counts : TailSlot → Bool) (m m' : TailMem) : Prop where
  link : m.link = m'.link
  back : ∀ s, counts s = true → m.back s = m'.back s

variable {counts : TailSlot → Bool} {m m' : TailMem} {s : TailSlot}

theorem View.refl (m : TailMem) : View counts m m := ⟨rfl, fun _ _ => rfl⟩

theorem View.setLink (hv : View counts m m') (s : TailSlot) (p : Option Nat) :
    View counts (m.setLink s p) (m'.setLink s p) where
  link := by rw [link_setLink, link_setLink, hv.link]
  back := hv.back

theorem View.setBack (hv : View counts m m') (s t : TailSlot) : View counts (m.setBack s t) (m'.setBack s t) where
  link := hv.link
  back r hr := by
    by_cases hrs : r = s
    · subst hrs
      simp
    · simp [Function.update_of_ne hrs, hv.back r hr]

/-- A second field that does not count is set. -/
theorem View.skip (hv : View counts m m') (hs : counts s = false) (t : TailSlot) : View counts m (m'.setBack s t) where
  link := hv.link
  back r hr := by
    have hrs : r ≠ s := fun heq => by rw [heq, hs] at hr; cases hr
    simp [Function.update_of_ne hrs, hv.back r hr]

theorem View.next (hv : View counts m m') (x : Nat) : m.next x = m'.next x := congrFun hv.link _

theorem View.first (hv : View counts m m') (h : Nat) : m.first h = m'.first h := congrFun hv.link _

end TailMem

namespace ListQ

open TailMem

-- the slots of a list are those of a tail queue, but a head has no second field

/-- LIST_INIT. -/
def init (m : TailMem) (h : Nat) : TailMem := m.setLink (.head h) none

/-- LIST_INSERT_AFTER. -/
def insertAfter (m : TailMem) (y x : Nat) : TailMem :=
  let n := m.next y
  let m := m.setLink (.elm x) n
  let m := match n with
    | some a => m.setBack (.elm a) (.elm x)
    | none => m
  let m := m.setLink (.elm y) (some x)
  m.setBack (.elm x) (.elm y)

/-- LIST_INSERT_HEAD. -/
def insertHead (m : TailMem) (h x : Nat) : TailMem :=
  let n := m.first h
  let m := m.setLink (.elm x) n
  let m := match n with
    | some a => m.setBack (.elm a) (.elm x)
    | none => m
  let m := m.setLink (.head h) (some x)
  m.setBack (.elm x) (.head h)

/-- LIST_REMOVE. -/
def remove (m : TailMem) (x : Nat) : TailMem :=
  let m := match m.next x with
    | some a => m.setBack (.elm a) (m.back (.elm x))
    | none => m
  m.setLink (m.back (.elm x)) (m.next x)

/-- The end of LIST_SWAP, for either head. -/
def settle (m : TailMem) (h : Nat) : TailMem :=
  match m.first h with
  | some a => m.setBack (.elm a) (.head h)
  | none => m

/-- LIST_SWAP. -/
def swap (m : TailMem) (h k : Nat) : TailMem :=
  let swapTmp := m.first h
  let m := m.setLink (.head h) (m.first k)
  let m := m.setLink (.head k) swapTmp
  settle (settle m h) k

/-- The functions of a list; none for those that only a tail queue has. LIST_INSERT_BEFORE is
TAILQ_INSERT_BEFORE. -/
def call (m : TailMem) : TailCall → Option TailMem
  | .init h => some (init m h)
  | .insertHead h x => some (insertHead m h x)
  | .insertAfter _ y x => some (insertAfter m y x)
  | .insertBefore y x => some (m.insertBefore y x)
  | .remove _ x => some (remove m x)
  | .swap h k => some (swap m h k)
  | .insertTail _ _ | .concat _ _ => none

/-- The second fields of the elements count; a head has none. -/
def counts : TailSlot → Bool
  | .head _ => false
  | .elm _ => true

variable {m m' n : TailMem}

theorem settle_view (hv : View counts m m') (h : Nat) : View counts (ListQ.settle m h) (m'.settle h) := by
  unfold ListQ.settle TailMem.settle
  rw [hv.first h]
  cases m'.first h with
  | none => exact hv.skip rfl _
  | some a => exact hv.setBack _ _

theorem insertHead_view (hv : View counts m m') (h x : Nat) : View counts (ListQ.insertHead m h x) (m'.insertHead h x) := by
  simp only [ListQ.insertHead, TailMem.insertHead, hv.first h]
  cases m'.first h with
  | none => exact (((hv.setLink _ _).skip rfl _).setLink _ _).setBack _ _
  | some a => exact (((hv.setLink _ _).setBack _ _).setLink _ _).setBack _ _

theorem insertAfter_view (hv : View counts m m') (h y x : Nat) : View counts (ListQ.insertAfter m y x) (m'.insertAfter h y x) := by
  simp only [ListQ.insertAfter, TailMem.insertAfter, hv.next y]
  cases m'.next y with
  | none => exact (((hv.setLink _ _).skip rfl _).setLink _ _).setBack _ _
  | some a => exact (((hv.setLink _ _).setBack _ _).setLink _ _).setBack _ _

theorem insertBefore_view (hv : View counts m m') (y x : Nat) : View counts (m.insertBefore y x) (m'.insertBefore y x) := by
  have hfirst := hv.setBack (.elm x) (m'.back (.elm y))
  have hsecond := hfirst.setLink (.elm x) (some y)
  simp only [TailMem.insertBefore, hv.back (.elm y) rfl, hsecond.back (.elm y) rfl]
  exact (hsecond.setLink _ _).setBack _ _

theorem remove_view (hv : View counts m m') (h x : Nat) : View counts (ListQ.remove m x) (m'.remove h x) := by
  simp only [ListQ.remove, TailMem.remove, hv.next x, hv.back (.elm x) rfl]
  cases m'.next x with
  | none =>
    have hhead := hv.skip (s := .head h) rfl (m'.back (.elm x))
    rw [← hhead.back (.elm x) rfl, ← hhead.next x]
    exact hhead.setLink _ _
  | some a =>
    have hset := hv.setBack (.elm a) (m'.back (.elm x))
    rw [hset.back (.elm x) rfl, hset.next x]
    exact hset.setLink _ _

theorem swap_view (hv : View counts m m') (h k : Nat) : View counts (ListQ.swap m h k) (m'.swap h k) := by
  have hfirst := (hv.setLink (.head h) (m'.first k)).skip (s := .head h) rfl (m'.back (.head k))
  have hsecond := (hfirst.setLink (.head k) (m'.first h)).skip (s := .head k) rfl (m'.back (.head h))
  simp only [ListQ.swap, hv.first h, hv.first k]
  exact settle_view (settle_view hsecond h) k

/-- Every function of a list does to its memory what that of the tail queue does. -/
theorem call_view {c : TailCall} (hv : View counts m m') (hc : ListQ.call m c = some n) : View counts n (m'.call c) := by
  cases c with
  | init h =>
    cases Option.some.inj hc
    exact (hv.setLink _ _).skip rfl _
  | insertHead h x =>
    cases Option.some.inj hc
    exact insertHead_view hv h x
  | insertAfter h y x =>
    cases Option.some.inj hc
    exact insertAfter_view hv h y x
  | insertBefore y x =>
    cases Option.some.inj hc
    exact insertBefore_view hv y x
  | remove h x =>
    cases Option.some.inj hc
    exact remove_view hv h x
  | swap h k =>
    cases Option.some.inj hc
    exact swap_view hv h k
  | insertTail => cases hc
  | concat => cases hc

/-- The functions that a list has. -/
def Has : TailCall → Prop
  | .insertTail _ _ | .concat _ _ => False
  | _ => True

theorem call_isSome {c : TailCall} (hc : Has c) (m : TailMem) : ∃ n, call m c = some n := by
  cases c with
  | insertTail => exact hc.elim
  | concat => exact hc.elim
  | _ => exact ⟨_, rfl⟩

theorem run_view : ∀ {calls : List TailCall} {m m' : TailMem}, View counts m m' → (∀ c ∈ calls, Has c) →
    ∃ n, calls.foldlM ListQ.call m = some n ∧ View counts n (calls.foldl TailMem.call m')
  | [], m, _, hv, _ => ⟨m, rfl, hv⟩
  | c :: calls, m, m', hv, hhas => by
    obtain ⟨hc, hcalls⟩ := List.forall_mem_cons.mp hhas
    obtain ⟨n, hn⟩ := call_isSome hc m
    obtain ⟨n', hrun, hv'⟩ := run_view (call_view hv hn) hcalls
    refine ⟨n', ?_, hv'⟩
    rw [List.foldlM_cons, hn]
    exact hrun

/-- After any run of the functions of a list every list reads as the elements that the calls
have put into it, although no head knows its end. -/
theorem list_run_from_init (m : TailMem) {calls : List TailCall} {h : Nat} {L : List Nat}
    (hc : TailQueues.AllowsAll (fun _ => none) calls) (hhas : ∀ c ∈ calls, Has c)
    (hL : calls.foldl TailQueues.call (fun _ => none) h = some L) :
    ∃ n, calls.foldlM ListQ.call m = some n ∧ n.first h = L.head? ∧ n.empty h = L.isEmpty ∧
      (∀ A x B, A ++ x :: B = L → n.next x = B.head?) ∧ ∀ turns, L.length ≤ turns → n.foreach turns h = some L := by
  obtain ⟨n, hrun, hv⟩ := run_view (.refl m) hhas
  exact ⟨n, hrun, ((TailQueues.holds_none (m := m)).run hc).links hL hv.link⟩

/-- Two lists; LIST_INSERT_BEFORE works on both of them, and an element goes from between two others. -/
theorem list_run_from_init_eight :
    ∃ n, [TailCall.init 0, .init 1, .insertHead 0 3, .insertAfter 0 3 4, .insertBefore 3 1, .insertHead 1 5,
        .insertBefore 5 6, .remove 0 3].foldlM ListQ.call (TailMem.mk (fun _ => none) id) = some n ∧
      n.foreach 2 0 = some [1, 4] ∧ n.foreach 2 1 = some [6, 5] := by
  have hallows : TailQueues.AllowsAllIn [0, 1] (fun _ => none) [.init 0, .init 1, .insertHead 0 3, .insertAfter 0 3 4,
      .insertBefore 3 1, .insertHead 1 5, .insertBefore 5 6, .remove 0 3] := by decide
  have hall := hallows.allowsAll fun _ _ => rfl
  obtain ⟨n, hrun, _, _, _, heach⟩ := list_run_from_init (h := 0) (L := [1, 4]) (TailMem.mk (fun _ => none) id) hall
    (by simp [Has]) (by decide)
  obtain ⟨n', hrun', _, _, _, heach'⟩ := list_run_from_init (h := 1) (L := [6, 5]) (TailMem.mk (fun _ => none) id) hall
    (by simp [Has]) (by decide)
  cases Option.some.inj (hrun.symm.trans hrun')
  exact ⟨n, hrun, heach 2 (Nat.le_refl 2), heach' 2 (Nat.le_refl 2)⟩

end ListQ

namespace StailQ

open TailMem

-- an element has no second field here

/-- STAILQ_INSERT_AFTER. -/
def insertAfter (m : TailMem) (h y x : Nat) : TailMem :=
  let n := m.next y
  let m := m.setLink (.elm x) n
  let m := match n with
    | some _ => m
    | none => m.setBack (.head h) (.elm x)
  m.setLink (.elm y) (some x)

/-- STAILQ_INSERT_HEAD. -/
def insertHead (m : TailMem) (h x : Nat) : TailMem :=
  let n := m.first h
  let m := m.setLink (.elm x) n
  let m := match n with
    | some _ => m
    | none => m.setBack (.head h) (.elm x)
  m.setLink (.head h) (some x)

/-- STAILQ_INSERT_TAIL. -/
def insertTail (m : TailMem) (h x : Nat) : TailMem :=
  let m := m.setLink (.elm x) none
  let m := m.setLink (m.back (.head h)) (some x)
  m.setBack (.head h) (.elm x)

/-- STAILQ_REMOVE_HEAD; none is a use of the null pointer. -/
def removeHead (m : TailMem) (h : Nat) : Option TailMem := do
  let a ← m.first h
  let n := m.next a
  let m := m.setLink (.head h) n
  some (if n = none then m.setBack (.head h) (.head h) else m)

/-- STAILQ_REMOVE_AFTER. -/
def removeAfter (m : TailMem) (h y : Nat) : Option TailMem := do
  let a ← m.next y
  let n := m.next a
  let m := m.setLink (.elm y) n
  some (if n = none then m.setBack (.head h) (.elm y) else m)

/-- The loop of STAILQ_REMOVE for the element in front of x. -/
def before (next : Nat → Option Nat) (x : Nat) : Nat → Option Nat → Option Nat
  | _, none => none
  | 0, some _ => none
  | turns + 1, some y => if next y = some x then some y else before next x turns (next y)

/-- STAILQ_REMOVE. -/
def remove (turns : Nat) (m : TailMem) (h x : Nat) : Option TailMem :=
  if m.first h = some x then removeHead m h
  else do
    let y ← before m.next x turns (m.first h)
    removeAfter m h y

/-- STAILQ_CONCAT. -/
def concat (m : TailMem) (h k : Nat) : TailMem :=
  match m.first k with
  | none => m
  | some a =>
    let m := m.setLink (m.back (.head h)) (some a)
    let m := m.setBack (.head h) (m.back (.head k))
    m.init k

/-- The end of STAILQ_SWAP, for either head. -/
def settle (m : TailMem) (h : Nat) : TailMem := if m.empty h then m.setBack (.head h) (.head h) else m

/-- STAILQ_SWAP. -/
def swap (m : TailMem) (h k : Nat) : TailMem :=
  let swapFirst := m.first h
  let swapLast := m.back (.head h)
  let m := m.setLink (.head h) (m.first k)
  let m := m.setBack (.head h) (m.back (.head k))
  let m := m.setLink (.head k) swapFirst
  let m := m.setBack (.head k) swapLast
  settle (settle m h) k

/-- STAILQ_LAST: the element around the link that stqh_last leads to. -/
def last (m : TailMem) (h : Nat) : Option Nat :=
  if m.empty h then none
  else match m.back (.head h) with
    | .elm x => some x
    | .head _ => none

/-- The functions of a singly-linked tail queue, with the turns that the loop of STAILQ_REMOVE may take. -/
def call (turns : Nat) (m : TailMem) : TailCall → Option TailMem
  | .init h => some (m.init h)
  | .insertHead h x => some (insertHead m h x)
  | .insertTail h x => some (insertTail m h x)
  | .insertAfter h y x => some (insertAfter m h y x)
  | .insertBefore _ _ => none
  | .remove h x => remove turns m h x
  | .concat h k => some (concat m h k)
  | .swap h k => some (swap m h k)

def Has : TailCall → Prop
  | .insertBefore _ _ => False
  | _ => True

/-- The second fields of the heads count; an element has none. -/
def counts : TailSlot → Bool
  | .head _ => true
  | .elm _ => false

variable {m m' : TailMem} {h x y : Nat} {A B L : List Nat}

theorem insertHead_view (hv : View counts m m') (h x : Nat) : View counts (StailQ.insertHead m h x) (m'.insertHead h x) := by
  simp only [StailQ.insertHead, TailMem.insertHead, hv.first h]
  cases m'.first h with
  | none => exact (((hv.setLink _ _).setBack _ _).setLink _ _).skip rfl _
  | some a => exact (((hv.setLink _ _).skip rfl _).setLink _ _).skip rfl _

theorem insertAfter_view (hv : View counts m m') (h y x : Nat) : View counts (StailQ.insertAfter m h y x) (m'.insertAfter h y x) := by
  simp only [StailQ.insertAfter, TailMem.insertAfter, hv.next y]
  cases m'.next y with
  | none => exact (((hv.setLink _ _).setBack _ _).setLink _ _).skip rfl _
  | some a => exact (((hv.setLink _ _).skip rfl _).setLink _ _).skip rfl _

theorem linkLast_view (hv : View counts m m') (h : Nat) (p : Option Nat) :
    View counts (m.setLink (m.back (.head h)) p) (m'.setLink (m'.back (.head h)) p) := by
  rw [hv.back (.head h) rfl]
  exact hv.setLink _ _

theorem copyLast_view (hv : View counts m m') (h k : Nat) :
    View counts (m.setBack (.head h) (m.back (.head k))) (m'.setBack (.head h) (m'.back (.head k))) := by
  rw [hv.back (.head k) rfl]
  exact hv.setBack _ _

theorem insertTail_view (hv : View counts m m') (h x : Nat) : View counts (StailQ.insertTail m h x) (m'.insertTail h x) := by
  have hfirst := (hv.setLink (.elm x) none).skip (s := .elm x) rfl (m'.back (.head h))
  exact (linkLast_view hfirst h (some x)).setBack _ _

theorem concat_view (hv : View counts m m') (h k : Nat) : View counts (StailQ.concat m h k) (m'.concat h k) := by
  simp only [StailQ.concat, TailMem.concat, hv.first k]
  cases m'.first k with
  | none => exact hv
  | some a =>
    exact ((copyLast_view ((linkLast_view hv h (some a)).skip (s := .elm a) rfl _) h k).setLink _ _).setBack _ _

theorem settle_view (hv : View counts m m') (h : Nat) : View counts (StailQ.settle m h) (m'.settle h) := by
  unfold StailQ.settle TailMem.settle TailMem.empty
  rw [hv.first h]
  cases m'.first h with
  | none => exact hv.setBack _ _
  | some a => exact hv.skip rfl _

theorem swap_view (hv : View counts m m') (h k : Nat) : View counts (StailQ.swap m h k) (m'.swap h k) := by
  have hfirst := copyLast_view (hv.setLink (.head h) (m'.first k)) h k
  have hsecond := (hfirst.setLink (.head k) (m'.first h)).setBack (.head k) (m'.back (.head h))
  simp only [StailQ.swap, hv.first h, hv.first k, hv.back (.head h) rfl]
  exact settle_view (settle_view hsecond h) k

theorem before_ring (hr : Ring m h L) (hd : L.Nodup) : ∀ {K C : List Nat} {turns : Nat}, C ++ (K ++ y :: x :: B) = L →
    K.length < turns → before m.next x turns (K ++ y :: x :: B).head? = some y
  | [], C, turns, hcut, hturns => by
    obtain ⟨n, rfl⟩ := Nat.exists_eq_succ_of_ne_zero (Nat.ne_of_gt hturns)
    subst hcut
    exact if_pos (next_ring hr)
  | z :: K, C, turns, hcut, hturns => by
    obtain ⟨n, rfl⟩ := Nat.exists_eq_succ_of_ne_zero (Nat.ne_of_gt (Nat.lt_of_le_of_lt (Nat.zero_le _) hturns))
    have hnext : m.next z = (K ++ y :: x :: B).head? := by
      subst hcut
      exact next_ring hr
    have hne : (K ++ y :: x :: B).head? ≠ some x := by
      subst hcut
      have hK := hd.of_append_right.of_cons
      cases K with
      | nil =>
        have hyx : y ≠ x := fun heq => (List.nodup_cons.mp hK).1 (heq ▸ List.mem_cons_self)
        simpa using hyx
      | cons k K =>
        have hkx : k ≠ x := fun heq => (List.nodup_cons.mp hK).1 (heq ▸ by simp)
        simpa using hkx
    show (if m.next z = some x then some z else before m.next x n (m.next z)) = some y
    rw [hnext, if_neg hne]
    exact before_ring hr hd (K := K) (C := C ++ [z]) (by rw [← hcut]; simp) (Nat.lt_of_succ_lt_succ hturns)

theorem unlink_view (hv : View counts m m') (h : Nat) (s : TailSlot) (n : Option Nat) :
    View counts (if n = none then (m.setLink s n).setBack (.head h) s else m.setLink s n) ((m'.setBack (backSlot h n) s).setLink s n) := by
  cases n with
  | none => exact (hv.setLink s none).setBack (.head h) s
  | some a => exact (hv.skip (s := .elm a) rfl s).setLink s (some a)

/-- STAILQ_REMOVE finds by its loop the link that TAILQ_REMOVE has the address of. -/
theorem remove_view (hv : View counts m m') (hr : Ring m' h L) (hd : L.Nodup) (hx : x ∈ L) :
    ∃ n, (∀ turns, L.length ≤ turns → StailQ.remove turns m h x = some n) ∧ View counts n (m'.remove h x) := by
  obtain ⟨A, B, rfl⟩ := List.append_of_mem hx
  have hnext : m.next x = B.head? := (hv.next x).trans (next_ring hr)
  have hfirst : m.first h = (A ++ x :: B).head? := (hv.first h).trans (first_ring hr)
  rw [remove_eq hr hd]
  refine ⟨_, fun turns hturns => ?_, unlink_view hv h (behind h A) B.head?⟩
  rcases List.eq_nil_or_concat A with rfl | ⟨K, y, rfl⟩
  · have hhead : m.first h = some x := hfirst
    simp [StailQ.remove, removeHead, hhead, hnext]
  · rw [List.concat_eq_append] at hr hd hfirst hturns ⊢
    have hne : m.first h ≠ some x := by
      rw [hfirst]
      intro heq
      have hmem : x ∈ K ++ [y] := List.mem_of_head? (by simpa [List.head?_append] using heq)
      exact (List.nodup_append.mp hd).2.2 x hmem x List.mem_cons_self rfl
    have hfront : before m.next x turns (m.first h) = some y := by
      rw [hfirst, funext hv.next, List.append_assoc]
      have hlen : K.length < turns := by
        simp only [List.length_append, List.length_cons] at hturns
        omega
      exact before_ring (C := []) hr hd (by simp) hlen
    have hy : m.next y = some x := (hv.next y).trans (next_ring (A := K) (B := x :: B) (by simpa using hr))
    simp [StailQ.remove, removeAfter, hne, hfront, hy, hnext]

/-- Every function does to its memory what that of the tail queue does. -/
theorem call_view {Q : TailQueues} {c : TailCall} (hv : View counts m m') (hQ : Q.Holds m') (hc : Q.Allows c) (hhas : Has c) :
    ∃ n bound, (∀ turns, bound ≤ turns → StailQ.call turns m c = some n) ∧ View counts n (m'.call c) := by
  cases c with
  | init h => exact ⟨_, 0, fun _ _ => rfl, (hv.setLink _ _).setBack _ _⟩
  | insertHead h x => exact ⟨_, 0, fun _ _ => rfl, insertHead_view hv h x⟩
  | insertTail h x => exact ⟨_, 0, fun _ _ => rfl, insertTail_view hv h x⟩
  | insertAfter h y x => exact ⟨_, 0, fun _ _ => rfl, insertAfter_view hv h y x⟩
  | insertBefore => exact hhas.elim
  | remove h x =>
    obtain ⟨L, hL, hx⟩ := hc
    obtain ⟨n, hcall, hview⟩ := remove_view hv (hQ.ring h L hL) (hQ.nodup h L hL) hx
    exact ⟨n, L.length, hcall, hview⟩
  | concat h k => exact ⟨_, 0, fun _ _ => rfl, concat_view hv h k⟩
  | swap h k => exact ⟨_, 0, fun _ _ => rfl, swap_view hv h k⟩

theorem run_view : ∀ {calls : List TailCall} {Q : TailQueues} {m m' : TailMem}, View counts m m' → Q.Holds m' → Q.AllowsAll calls →
    (∀ c ∈ calls, Has c) →
    ∃ n bound, (∀ turns, bound ≤ turns → calls.foldlM (StailQ.call turns) m = some n) ∧ View counts n (calls.foldl TailMem.call m')
  | [], _, m, _, hv, _, _, _ => ⟨m, 0, fun _ _ => rfl, hv⟩
  | c :: calls, Q, m, m', hv, hQ, ⟨hc, hcalls⟩, hhas => by
    obtain ⟨hhas, hall⟩ := List.forall_mem_cons.mp hhas
    obtain ⟨n, bound, hcall, hview⟩ := call_view hv hQ hc hhas
    obtain ⟨n', bound', hrun, hview'⟩ := run_view hview (hQ.call hc) hcalls hall
    refine ⟨n', max bound bound', fun turns hturns => ?_, hview'⟩
    obtain ⟨hfirst, hrest⟩ := Nat.max_le.mp hturns
    rw [List.foldlM_cons, hcall turns hfirst]
    exact hrun turns hrest

theorem last_ring (hv : View counts m m') (hr : Ring m' h L) : StailQ.last m h = L.getLast? := by
  have hback : m.back (.head h) = behind h L := (hv.back (.head h) rfl).trans (back_ring hr)
  have hempty : m.empty h = L.isEmpty := by
    rw [TailMem.empty, (hv.first h).trans (first_ring hr)]
    cases L <;> simp
  rw [StailQ.last, hback, hempty]
  rcases List.eq_nil_or_concat L with rfl | ⟨K, a, rfl⟩
  · rfl
  · simp

/-- After any run of the functions of a singly-linked tail queue every queue reads as the
elements that the calls have put into it, when the loop of STAILQ_REMOVE may take enough turns. -/
theorem stailq_run_from_init (m : TailMem) {calls : List TailCall} {L : List Nat}
    (hc : TailQueues.AllowsAll (fun _ => none) calls) (hhas : ∀ c ∈ calls, Has c)
    (hL : calls.foldl TailQueues.call (fun _ => none) h = some L) :
    ∃ n bound, (∀ turns, bound ≤ turns → calls.foldlM (StailQ.call turns) m = some n) ∧ StailQ.last n h = L.getLast? ∧
      n.first h = L.head? ∧ n.empty h = L.isEmpty ∧
      (∀ A x B, A ++ x :: B = L → n.next x = B.head?) ∧ ∀ turns, L.length ≤ turns → n.foreach turns h = some L := by
  have hnone := TailQueues.holds_none (m := m)
  obtain ⟨n, bound, hrun, hv⟩ := run_view (.refl m) hnone hc hhas
  have hQ := hnone.run hc
  exact ⟨n, bound, hrun, last_ring hv (hQ.ring h L hL), hQ.links hL hv.link⟩

/-- The loop of STAILQ_REMOVE goes to the last element, and STAILQ_CONCAT goes by what it leaves. -/
theorem stailq_run_from_init_concat :
    ∃ n bound, (∀ turns, bound ≤ turns → [TailCall.init 0, .init 1, .insertTail 0 1, .insertTail 0 2, .insertTail 0 3,
        .insertHead 1 4, .remove 0 3, .concat 0 1].foldlM (StailQ.call turns) (TailMem.mk (fun _ => none) id) = some n) ∧
      StailQ.last n 0 = some 4 ∧ n.foreach 3 0 = some [1, 2, 4] := by
  have hallows : TailQueues.AllowsAllIn [0, 1] (fun _ => none) [.init 0, .init 1, .insertTail 0 1, .insertTail 0 2,
      .insertTail 0 3, .insertHead 1 4, .remove 0 3, .concat 0 1] := by decide
  obtain ⟨n, bound, hrun, hlast, _, _, _, heach⟩ := stailq_run_from_init (h := 0) (L := [1, 2, 4])
    (TailMem.mk (fun _ => none) id) (hallows.allowsAll fun _ _ => rfl) (by simp [Has]) (by decide)
  exact ⟨n, bound, hrun, hlast, heach 3 (Nat.le_refl 3)⟩

end StailQ

end CppInAction
