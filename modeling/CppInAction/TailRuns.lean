import CppInAction.TailRing

namespace CppInAction

/-- A use of one of the tail queue functions that change something. -/
inductive TailCall
  | init (h : Nat)
  | insertHead (h x : Nat)
  | insertTail (h x : Nat)
  | insertAfter (h y x : Nat)
  | insertBefore (y x : Nat)
  | remove (h x : Nat)
  | concat (h k : Nat)
  | swap (h k : Nat)
deriving DecidableEq, Repr

/-- The queues by their heads; none for a head that was not initialized. -/
abbrev TailQueues := Nat → Option (List Nat)

namespace TailMem

def call (m : TailMem) : TailCall → TailMem
  | .init h => m.init h
  | .insertHead h x => m.insertHead h x
  | .insertTail h x => m.insertTail h x
  | .insertAfter h y x => m.insertAfter h y x
  | .insertBefore y x => m.insertBefore y x
  | .remove h x => m.remove h x
  | .concat h k => m.concat h k
  | .swap h k => m.swap h k

end TailMem

namespace TailQueues

/-- The elements K instead of y. -/
def put (y : Nat) (K L : List Nat) : List Nat := L.flatMap fun z => if z = y then K else [z]

def call (Q : TailQueues) : TailCall → TailQueues
  | .init h => Function.update Q h (some [])
  | .insertHead h x => Function.update Q h ((Q h).map (x :: ·))
  | .insertTail h x => Function.update Q h ((Q h).map (· ++ [x]))
  | .insertAfter h y x => Function.update Q h ((Q h).map (put y [y, x]))
  | .insertBefore y x => fun h => (Q h).map (put y [x, y])
  | .remove h x => Function.update Q h ((Q h).map (·.erase x))
  | .concat h k => Function.update (Function.update Q h ((Q h).bind fun L => (Q k).map (L ++ ·))) k (some [])
  | .swap h k => Function.update (Function.update Q h (Q k)) k (Q h)

/-- The element is in no queue. -/
def Free (Q : TailQueues) (x : Nat) : Prop := ∀ h L, Q h = some L → x ∉ L

/-- What the caller sees to: heads are initialized, new elements are in no queue, and the
others are in the queue that is named with them. -/
def Allows (Q : TailQueues) : TailCall → Prop
  | .init _ => True
  | .insertHead h x | .insertTail h x => Q h ≠ none ∧ Q.Free x
  | .insertAfter h y x => (∃ L, Q h = some L ∧ y ∈ L) ∧ Q.Free x
  | .insertBefore y x => (∃ h L, Q h = some L ∧ y ∈ L) ∧ Q.Free x
  | .remove h x => ∃ L, Q h = some L ∧ x ∈ L
  | .concat h k => h ≠ k ∧ Q h ≠ none ∧ Q k ≠ none
  | .swap h k => Q h ≠ none ∧ Q k ≠ none

def AllowsAll : TailQueues → List TailCall → Prop
  | _, [] => True
  | Q, c :: calls => Q.Allows c ∧ AllowsAll (Q.call c) calls

/-- The same as a test, when the queues in use have these heads. -/
def AllowsIn (H : List Nat) (Q : TailQueues) : TailCall → Prop
  | .init h => h ∈ H
  | .insertHead h x | .insertTail h x => Q h ≠ none ∧ ∀ j ∈ H, x ∉ (Q j).getD []
  | .insertAfter h y x => y ∈ (Q h).getD [] ∧ ∀ j ∈ H, x ∉ (Q j).getD []
  | .insertBefore y x => (∃ j ∈ H, y ∈ (Q j).getD []) ∧ ∀ j ∈ H, x ∉ (Q j).getD []
  | .remove h x => x ∈ (Q h).getD []
  | .concat h k => h ≠ k ∧ Q h ≠ none ∧ Q k ≠ none
  | .swap h k => Q h ≠ none ∧ Q k ≠ none

def AllowsAllIn (H : List Nat) : TailQueues → List TailCall → Prop
  | _, [] => True
  | Q, c :: calls => AllowsIn H Q c ∧ AllowsAllIn H (Q.call c) calls

instance decidableAllowsIn (H : List Nat) (Q : TailQueues) (c : TailCall) : Decidable (AllowsIn H Q c) :=
  match c with
  | .init h => inferInstanceAs (Decidable (h ∈ H))
  | .insertHead _ _ | .insertTail _ _ | .insertAfter _ _ _ | .insertBefore _ _ | .concat _ _ | .swap _ _ =>
    inferInstanceAs (Decidable (_ ∧ _))
  | .remove h x => inferInstanceAs (Decidable (x ∈ (Q h).getD []))

instance decidableAllowsAllIn (H : List Nat) : (Q : TailQueues) → (calls : List TailCall) → Decidable (AllowsAllIn H Q calls)
  | _, [] => .isTrue trivial
  | Q, c :: calls =>
    have := decidableAllowsAllIn H (Q.call c) calls
    inferInstanceAs (Decidable (_ ∧ _))

/-- The memory has these queues, and no element is in two places. -/
structure Holds (Q : TailQueues) (m : TailMem) : Prop where
  ring : ∀ h L, Q h = some L → m.Ring h L
  nodup : ∀ h L, Q h = some L → L.Nodup
  apart : ∀ h k L M, Q h = some L → Q k = some M → h ≠ k → ∀ a ∈ L, a ∉ M

open TailMem

variable {Q : TailQueues} {m : TailMem} {h k x y : Nat} {A B L : List Nat}

theorem Free.update (hx : Q.Free x) (hL : x ∉ L) : Free (Function.update Q h (some L)) x := by
  intro j M hM
  by_cases hj : j = h
  · subst hj
    rw [Function.update_self] at hM
    exact Option.some.inj hM ▸ hL
  · rw [Function.update_of_ne hj] at hM
    exact hx j M hM

theorem exists_of_mem_getD (hy : y ∈ (Q h).getD []) : ∃ L, Q h = some L ∧ y ∈ L := by
  cases hL : Q h with
  | none => simp [hL] at hy
  | some L => exact ⟨L, rfl, by simpa [hL] using hy⟩

/-- The test is right, and only queues with these heads come into use. -/
theorem AllowsIn.allows {H : List Nat} {c : TailCall} (hc : AllowsIn H Q c) (hQ : ∀ j ∉ H, Q j = none) :
    Q.Allows c ∧ ∀ j ∉ H, Q.call c j = none := by
  have hfree : ∀ x, (∀ j ∈ H, x ∉ (Q j).getD []) → Q.Free x := by
    intro x hx j L hL
    by_cases hj : j ∈ H
    · simpa [hL] using hx j hj
    · cases (hQ j hj).symm.trans hL
  have hused : ∀ h, Q h ≠ none → h ∈ H := fun h hh => by
    by_contra hno
    exact hh (hQ h hno)
  have hother : ∀ h R, h ∈ H → ∀ j ∉ H, Function.update Q h R j = none := by
    intro h R hh j hj
    have hne : j ≠ h := fun heq => hj (heq ▸ hh)
    rw [Function.update_of_ne hne, hQ j hj]
  cases c with
  | init h => exact ⟨trivial, hother h _ hc⟩
  | insertHead h x => exact ⟨⟨hc.1, hfree x hc.2⟩, hother h _ (hused h hc.1)⟩
  | insertTail h x => exact ⟨⟨hc.1, hfree x hc.2⟩, hother h _ (hused h hc.1)⟩
  | insertAfter h y x =>
    obtain ⟨L, hL, hy⟩ := exists_of_mem_getD hc.1
    exact ⟨⟨⟨L, hL, hy⟩, hfree x hc.2⟩, hother h _ (hused h (by simp [hL]))⟩
  | insertBefore y x =>
    obtain ⟨h, _, hy⟩ := hc.1
    refine ⟨⟨⟨h, exists_of_mem_getD hy⟩, hfree x hc.2⟩, fun j hj => ?_⟩
    simp [call, hQ j hj]
  | remove h x =>
    obtain ⟨L, hL, hx⟩ := exists_of_mem_getD (y := x) hc
    exact ⟨⟨L, hL, hx⟩, hother h _ (hused h (by simp [hL]))⟩
  | concat h k =>
    refine ⟨hc, fun j hj => ?_⟩
    have hk : j ≠ k := fun heq => hj (heq ▸ hused k hc.2.2)
    simp only [call, Function.update_of_ne hk]
    exact hother h _ (hused h hc.2.1) j hj
  | swap h k =>
    refine ⟨hc, fun j hj => ?_⟩
    have hk : j ≠ k := fun heq => hj (heq ▸ hused k hc.2)
    simp only [call, Function.update_of_ne hk]
    exact hother h _ (hused h hc.1) j hj

theorem AllowsAllIn.allowsAll {H : List Nat} {calls : List TailCall} (hc : AllowsAllIn H Q calls)
    (hQ : ∀ j ∉ H, Q j = none) : Q.AllowsAll calls := by
  induction calls generalizing Q with
  | nil => trivial
  | cons c calls ih =>
    obtain ⟨hallows, hnone⟩ := hc.1.allows hQ
    exact ⟨hallows, ih hc.2 hnone⟩

theorem put_of_notMem {K : List Nat} (hy : y ∉ L) : put y K L = L := by
  induction L with
  | nil => rfl
  | cons z L ih =>
    rw [List.mem_cons, not_or] at hy
    simp only [put, List.flatMap_cons, if_neg (Ne.symm hy.1)]
    exact congrArg (z :: ·) (ih hy.2)

theorem put_split {K : List Nat} (hd : (A ++ y :: B).Nodup) : put y K (A ++ y :: B) = A ++ K ++ B := by
  have hA : y ∉ A := fun hmem => (List.nodup_append.mp hd).2.2 y hmem y List.mem_cons_self rfl
  have hB : y ∉ B := (List.nodup_cons.mp hd.of_append_right).1
  have hsplit : put y K (A ++ y :: B) = put y K A ++ K ++ put y K B := by simp [put]
  rw [hsplit, put_of_notMem hA, put_of_notMem hB]

/-- The queues of some heads change, and only their elements move. -/
theorem Holds.change {Q' : TailQueues} {m' : TailMem} (hQ : Q.Holds m) (H K : List Nat)
    (hnew : ∀ j ∈ H, ∀ L, Q' j = some L → m'.Ring j L ∧ L.Nodup ∧ ∀ a ∈ L, a ∈ K) (hold : ∀ j ∉ H, Q' j = Q j)
    (hown : ∀ a ∈ K, ∀ j ∉ H, ∀ M, Q j = some M → a ∉ M)
    (hapart : ∀ i ∈ H, ∀ j ∈ H, i ≠ j → ∀ L M, Q' i = some L → Q' j = some M → ∀ a ∈ L, a ∉ M)
    (hagree : m.Agree m' H K) : Q'.Holds m' where
  ring := by
    intro j L hL
    by_cases hj : j ∈ H
    · exact (hnew j hj L hL).1
    · rw [hold j hj] at hL
      refine (hQ.ring j L hL).congr (hagree _ ?_ (by simp)) fun a ha => hagree _ (by simp) ?_
      · rintro i hi ⟨⟩
        exact hj hi
      · rintro b hb ⟨⟩
        exact hown _ hb j hj L hL ha
  nodup := by
    intro j L hL
    by_cases hj : j ∈ H
    · exact (hnew j hj L hL).2.1
    · exact hQ.nodup j L (hold j hj ▸ hL)
  apart := by
    intro i j L M hL hM hne a haL haM
    by_cases hi : i ∈ H
    · by_cases hj : j ∈ H
      · exact hapart i hi j hj hne L M hL hM a haL haM
      · rw [hold j hj] at hM
        exact hown a ((hnew i hi L hL).2.2 a haL) j hj M hM haM
    · rw [hold i hi] at hL
      by_cases hj : j ∈ H
      · exact hown a ((hnew j hj M hM).2.2 a haM) i hi L hL haL
      · rw [hold j hj] at hM
        exact hQ.apart i j L M hL hM hne a haL haM

theorem Holds.splice {m' : TailMem} (hQ : Q.Holds m) (hL : Q h = some (A ++ B)) (hx : Q.Free x)
    (hs : m.Splices h (behind h A) x m') : Holds (Function.update Q h (some (A ++ x :: B))) m' := by
  have hr := hQ.ring h _ hL
  have hd := hQ.nodup h _ hL
  have hxL := hx h _ hL
  refine hQ.change [h] (x :: (A ++ B)) ?_ ?_ ?_ ?_ (hs.agree hr)
  · intro j hj L hL'
    obtain rfl : j = h := by simpa using hj
    obtain rfl : A ++ x :: B = L := by simpa using hL'
    refine ⟨hs.ring hr hd hxL, List.nodup_middle.mpr (List.nodup_cons.mpr ⟨hxL, hd⟩), ?_⟩
    intro a ha
    simp only [List.mem_append, List.mem_cons] at ha ⊢
    tauto
  · intro j hj
    exact Function.update_of_ne (by simpa using hj) _ _
  · intro a ha j hj M hM
    rcases List.mem_cons.mp ha with rfl | ha
    · exact hx j M hM
    · exact hQ.apart h j _ M hL hM (by simpa [eq_comm] using hj) a ha
  · intro i hi j hj hne
    simp_all

theorem Holds.exists_split (hQ : Q.Holds m) (hL : Q h = some L) (hy : y ∈ L) :
    ∃ A B, L = A ++ y :: B ∧ m.next y = B.head? ∧ m.back (.elm y) = behind h A ∧ m.link (behind h A) = some y := by
  obtain ⟨A, B, rfl⟩ := List.append_of_mem hy
  have hr := hQ.ring h _ hL
  have hcut := hr A (y :: B) rfl
  exact ⟨A, B, rfl, next_ring hr, hcut.2, hcut.1⟩

theorem Holds.notMem_others {M : List Nat} (hQ : Q.Holds m) (hL : Q h = some L) (hM : Q k = some M) :
    ∀ a ∈ L ++ M, ∀ j ∉ [h, k], ∀ N, Q j = some N → a ∉ N := by
  intro a ha j hj N hN
  obtain ⟨hjh, hjk⟩ : j ≠ h ∧ j ≠ k := by simpa using hj
  rcases List.mem_append.mp ha with ha | ha
  · exact hQ.apart h j L N hL hN hjh.symm a ha
  · exact hQ.apart k j M N hM hN hjk.symm a ha

theorem apart_pair (hne : h ≠ k) (hd : ∀ L M, Q h = some L → Q k = some M → ∀ a ∈ L, a ∉ M) :
    ∀ i ∈ [h, k], ∀ j ∈ [h, k], i ≠ j → ∀ L M, Q i = some L → Q j = some M → ∀ a ∈ L, a ∉ M := by
  intro i hi j hj hij L M hL hM a haL haM
  rcases List.mem_pair.mp hi with rfl | rfl <;> rcases List.mem_pair.mp hj with rfl | rfl
  · exact hij rfl
  · exact hd L M hL hM a haL haM
  · exact hd M L hM hL a haM haL
  · exact hij rfl

theorem Holds.call {c : TailCall} (hQ : Q.Holds m) (hc : Q.Allows c) : (Q.call c).Holds (m.call c) := by
  cases c with
  | init h =>
    refine hQ.change [h] [] ?_ ?_ (by simp) ?_ ?_
    · intro j hj L hL
      obtain rfl : j = h := by simpa using hj
      obtain rfl : [] = L := by simpa [TailQueues.call] using hL
      exact ⟨init_ring, List.nodup_nil, by simp⟩
    · intro j hj
      exact Function.update_of_ne (by simpa using hj) _ _
    · intro i hi j hj hne
      simp_all
    · intro t ht _
      simp_all [TailMem.call, TailMem.init]
  | insertHead h x =>
    obtain ⟨hne, hx⟩ := hc
    obtain ⟨L, hL⟩ := Option.ne_none_iff_exists'.mp hne
    have hr := hQ.ring h L hL
    have hfirst : m.first h ≠ some x := by
      rw [first_ring hr]
      exact fun heq => hx h L hL (List.mem_of_head? heq)
    have hholds := hQ.splice (A := []) hL hx (insertHead_splices hfirst)
    simpa [TailQueues.call, TailMem.call, hL] using hholds
  | insertTail h x =>
    obtain ⟨hne, hx⟩ := hc
    obtain ⟨L, hL⟩ := Option.ne_none_iff_exists'.mp hne
    obtain ⟨hlink, hback⟩ := hQ.ring h L hL L [] (List.append_nil L)
    rw [List.head?_nil, backSlot_none] at hback
    have hs := insertTail_splices (m := m) (h := h) (x := x) (hback ▸ behind_ne_elm (hx h L hL)) (hback ▸ hlink)
    rw [hback] at hs
    have hholds := hQ.splice (A := L) (B := []) (by rwa [List.append_nil]) hx hs
    simpa [TailQueues.call, TailMem.call, hL] using hholds
  | insertAfter h y x =>
    obtain ⟨⟨L, hL, hy⟩, hx⟩ := hc
    obtain ⟨A, B, rfl, hnext, _, _⟩ := hQ.exists_split hL hy
    have hxL := hx h _ hL
    simp only [List.mem_append, List.mem_cons, not_or] at hxL
    have hs := insertAfter_splices (m := m) (h := h) (Ne.symm hxL.2.1)
      (by rw [hnext]; exact fun heq => hxL.2.2 (List.mem_of_head? heq))
    have hholds := hQ.splice (A := A ++ [y]) (B := B) (by simpa using hL) hx (by rwa [behind_concat])
    simpa [TailQueues.call, TailMem.call, hL, put_split (hQ.nodup h _ hL)] using hholds
  | insertBefore y x =>
    obtain ⟨⟨h, L, hL, hy⟩, hx⟩ := hc
    obtain ⟨A, B, rfl, _, hback, hlink⟩ := hQ.exists_split hL hy
    have hxL := hx h _ hL
    simp only [List.mem_append, List.mem_cons, not_or] at hxL
    have hs := insertBefore_splices (m := m) (h := h) (Ne.symm hxL.2.1) (hback ▸ behind_ne_elm hxL.1) (hback ▸ hlink)
    rw [hback] at hs
    have hholds := hQ.splice (A := A) (B := y :: B) hL hx hs
    have hcall : Q.call (.insertBefore y x) = Function.update Q h (some (A ++ x :: y :: B)) := by
      funext j
      by_cases hj : j = h
      · subst hj
        simp [TailQueues.call, hL, put_split (hQ.nodup j _ hL)]
      · rw [Function.update_of_ne hj]
        cases hM : Q j with
        | none => simp [TailQueues.call, hM]
        | some M =>
          have hyM := hQ.apart h j _ M hL hM (Ne.symm hj) y (by simp)
          simp [TailQueues.call, hM, put_of_notMem hyM]
    rw [hcall]
    exact hholds
  | remove h x =>
    obtain ⟨L, hL, hx⟩ := hc
    obtain ⟨A, B, rfl⟩ := List.append_of_mem hx
    have hd := hQ.nodup h _ hL
    obtain ⟨hr, hagree⟩ := remove_ring (hQ.ring h _ hL) hd
    have hxA : x ∉ A := fun hmem => (List.nodup_append.mp hd).2.2 x hmem x List.mem_cons_self rfl
    have herase : (A ++ x :: B).erase x = A ++ B := by
      rw [List.erase_append_right _ hxA, List.erase_cons_head]
    refine hQ.change [h] (A ++ x :: B) ?_ ?_ ?_ ?_ hagree
    · intro j hj L hL'
      obtain rfl : j = h := by simpa using hj
      obtain rfl : A ++ B = L := by simpa [TailQueues.call, hL, herase] using hL'
      refine ⟨hr, hd.sublist ((List.sublist_cons_self x B).append_left A), ?_⟩
      exact fun a ha => ((List.sublist_cons_self x B).append_left A).subset ha
    · intro j hj
      exact Function.update_of_ne (by simpa using hj) _ _
    · intro a ha j hj M hM
      exact hQ.apart h j _ M hL hM (by simpa [eq_comm] using hj) a ha
    · intro i hi j hj hne
      simp_all
  | concat h k =>
    obtain ⟨hne, hh, hk⟩ := hc
    obtain ⟨L, hL⟩ := Option.ne_none_iff_exists'.mp hh
    obtain ⟨M, hM⟩ := Option.ne_none_iff_exists'.mp hk
    have hd : (L ++ M).Nodup := (hQ.nodup h L hL).append (hQ.nodup k M hM) (hQ.apart h k L M hL hM hne)
    obtain ⟨hrh, hrk, hagree⟩ := concat_ring hne (hQ.ring h L hL) (hQ.ring k M hM) hd
    have hcallh : Q.call (.concat h k) h = some (L ++ M) := by simp [TailQueues.call, hne, hL, hM]
    have hcallk : Q.call (.concat h k) k = some [] := by simp [TailQueues.call]
    refine hQ.change [h, k] (L ++ M) ?_ ?_ (hQ.notMem_others hL hM) ?_ hagree
    · intro j hj K hK
      rcases List.mem_pair.mp hj with rfl | rfl
      · obtain rfl := Option.some.inj (hcallh.symm.trans hK)
        exact ⟨hrh, hd, fun a ha => ha⟩
      · obtain rfl := Option.some.inj (hcallk.symm.trans hK)
        exact ⟨hrk, List.nodup_nil, by simp⟩
    · intro j hj
      obtain ⟨hjh, hjk⟩ : j ≠ h ∧ j ≠ k := by simpa using hj
      simp [TailQueues.call, hjh, hjk]
    · refine apart_pair hne fun K N hK hN a _ => ?_
      obtain rfl := Option.some.inj (hcallk.symm.trans hN)
      exact List.not_mem_nil
  | swap h k =>
    obtain ⟨hh, hk⟩ := hc
    obtain ⟨L, hL⟩ := Option.ne_none_iff_exists'.mp hh
    obtain ⟨M, hM⟩ := Option.ne_none_iff_exists'.mp hk
    by_cases hne : h = k
    · subst hne
      have hcall : Q.call (.swap h h) = Q := by simp [TailQueues.call]
      rw [hcall, show m.call (.swap h h) = m from swap_self (hQ.ring h L hL)]
      exact hQ
    · obtain ⟨hrh, hrk, hagree⟩ := swap_ring hne (hQ.ring h L hL) (hQ.ring k M hM) (hQ.nodup h L hL) (hQ.nodup k M hM)
        (hQ.apart h k L M hL hM hne)
      have hcallh : Q.call (.swap h k) h = some M := by simp [TailQueues.call, hne, hM]
      have hcallk : Q.call (.swap h k) k = some L := by simp [TailQueues.call, hL]
      refine hQ.change [h, k] (L ++ M) ?_ ?_ (hQ.notMem_others hL hM) ?_ hagree
      · intro j hj K hK
        rcases List.mem_pair.mp hj with rfl | rfl
        · obtain rfl := Option.some.inj (hcallh.symm.trans hK)
          exact ⟨hrh, hQ.nodup _ _ hM, fun a ha => List.mem_append_right L ha⟩
        · obtain rfl := Option.some.inj (hcallk.symm.trans hK)
          exact ⟨hrk, hQ.nodup _ _ hL, fun a ha => List.mem_append_left M ha⟩
      · intro j hj
        obtain ⟨hjh, hjk⟩ : j ≠ h ∧ j ≠ k := by simpa using hj
        simp [TailQueues.call, hjh, hjk]
      · refine apart_pair hne fun K N hK hN a haK haN => ?_
        obtain rfl := Option.some.inj (hcallh.symm.trans hK)
        obtain rfl := Option.some.inj (hcallk.symm.trans hN)
        exact hQ.apart h k _ _ hL hM hne a haN haK

theorem Holds.run : ∀ {calls : List TailCall} {Q : TailQueues} {m : TailMem}, Q.Holds m → Q.AllowsAll calls →
    Holds (calls.foldl TailQueues.call Q) (calls.foldl TailMem.call m)
  | [], _, _, hQ, _ => hQ
  | _ :: _, _, _, hQ, ⟨hc, hcalls⟩ => (hQ.call hc).run hcalls

theorem holds_none : Holds (fun _ => none) m where
  ring := nofun
  nodup := nofun
  apart := nofun

theorem walk_steps {step : Nat → Option Nat} : ∀ {L : List Nat} {turns : Nat},
    (∀ A x B, A ++ x :: B = L → step x = B.head?) → L.length ≤ turns → TailMem.walk step turns L.head? = some L
  | [], _, _, _ => by simp [TailMem.walk]
  | x :: L, turns, hstep, hturns => by
    obtain ⟨n, rfl⟩ : ∃ n, turns = n + 1 := ⟨turns - 1, by simp at hturns; omega⟩
    have hx : step x = L.head? := hstep [] x L rfl
    have hrest : TailMem.walk step n L.head? = some L :=
      walk_steps (fun A y B heq => hstep (x :: A) y B (by rw [← heq]; rfl)) (by simpa using hturns)
    simp [TailMem.walk, hx, hrest]

theorem Holds.foreach (hQ : Q.Holds m) (hL : Q h = some L) {turns : Nat} (hturns : L.length ≤ turns) :
    m.foreach turns h = some L := by
  have hr := hQ.ring h L hL
  rw [TailMem.foreach, first_ring hr]
  refine walk_steps (fun A x B heq => ?_) hturns
  exact next_ring (A := A) (heq ▸ hr)

theorem Holds.foreachReverse (hQ : Q.Holds m) (hL : Q h = some L) {turns : Nat} (hturns : L.length ≤ turns) :
    m.foreachReverse turns h = some L.reverse := by
  have hr := hQ.ring h L hL
  rw [TailMem.foreachReverse, last_ring hr, ← List.head?_reverse]
  refine walk_steps (fun A x B heq => ?_) (by simpa using hturns)
  have hcut : B.reverse ++ x :: A.reverse = L := by
    rw [← List.reverse_inj, ← heq]
    simp
  rw [prev_ring (A := B.reverse) (hcut ▸ hr), List.getLast?_reverse]

theorem Holds.move {M : List Nat} (hQ : Q.Holds m) (hne : h ≠ k) (hL : Q h = some (A ++ x :: B)) (hM : Q k = some M) :
    Holds (Function.update (Function.update Q h (some (A ++ B))) k (some (M ++ [x]))) ((m.remove h x).insertTail k x) := by
  have hd := hQ.nodup h _ hL
  have hxA : x ∉ A := fun hmem => (List.nodup_append.mp hd).2.2 x hmem x List.mem_cons_self rfl
  have hxB : x ∉ B := (List.nodup_cons.mp hd.of_append_right).1
  have hremove := hQ.call (c := .remove h x) ⟨_, hL, by simp⟩
  have hcall : Q.call (.remove h x) = Function.update Q h (some (A ++ B)) := by
    simp [TailQueues.call, hL, List.erase_append_right _ hxA]
  rw [hcall] at hremove
  have hk : Function.update Q h (some (A ++ B)) k = some M := by rw [Function.update_of_ne hne.symm, hM]
  have hfree : Free (Function.update Q h (some (A ++ B))) x := by
    intro j N hN hx
    by_cases hj : j = h
    · subst hj
      obtain rfl : A ++ B = N := by simpa using hN
      exact (List.mem_append.mp hx).elim hxA hxB
    · rw [Function.update_of_ne hj] at hN
      exact hQ.apart h j _ N hL hN (Ne.symm hj) x (by simp) hx
  have htail := hremove.call (c := .insertTail k x) ⟨by simp [hk], hfree⟩
  simpa [TailQueues.call, TailMem.call, hne.symm, hM] using htail

theorem Holds.moveLoop (pick : Nat → Bool) (hne : h ≠ k) : ∀ {B A M : List Nat} {Q : TailQueues} {m : TailMem} {turns : Nat},
    Q.Holds m → Q h = some (A ++ B) → Q k = some M → B.length ≤ turns →
    ∃ m', TailMem.moveLoop pick h k turns m B.head? = some m' ∧
      Holds (Function.update (Function.update Q h (some (A ++ B.filter (!pick ·)))) k (some (M ++ B.filter pick))) m'
  | [], A, M, Q, m, turns, hQ, hL, hM, _ => by
    have hsame : Function.update (Function.update Q h (some (A ++ []))) k (some (M ++ [])) = Q := by
      rw [← hL, Function.update_eq_self, List.append_nil, ← hM, Function.update_eq_self]
    refine ⟨m, by simp [TailMem.moveLoop], ?_⟩
    rw [List.filter_nil, List.filter_nil, hsame]
    exact hQ
  | x :: B, A, M, Q, m, turns, hQ, hL, hM, hturns => by
    obtain ⟨n, rfl⟩ : ∃ n, turns = n + 1 := ⟨turns - 1, by simp at hturns; omega⟩
    have hnext : m.next x = B.head? := next_ring (hQ.ring h _ hL)
    have hn : B.length ≤ n := by simpa using hturns
    by_cases hx : pick x = true
    · obtain ⟨m', hloop, hholds⟩ := (hQ.move hne hL hM).moveLoop pick hne (B := B) (A := A) (M := M ++ [x])
        (by simp [hne]) (by simp) hn
      refine ⟨m', by simpa [TailMem.moveLoop, hx, hnext] using hloop, ?_⟩
      simpa [hx, Function.update_comm hne, Function.update_idem] using hholds
    · obtain ⟨m', hloop, hholds⟩ := hQ.moveLoop pick hne (B := B) (A := A ++ [x]) (M := M) (by simpa using hL) hM hn
      refine ⟨m', by simpa [TailMem.moveLoop, hx, hnext] using hloop, ?_⟩
      simpa [hx] using hholds

/-- After any run from memory in which nothing is set up, every queue reads as the list that
the calls have made of it, from either end and from any element on. -/
theorem tail_run_from_init (m : TailMem) {calls : List TailCall} (hc : AllowsAll (fun _ => none) calls)
    (hL : calls.foldl TailQueues.call (fun _ => none) h = some L) :
    L.Nodup ∧ (calls.foldl TailMem.call m).first h = L.head? ∧ (calls.foldl TailMem.call m).last h = L.getLast? ∧
      (calls.foldl TailMem.call m).empty h = L.isEmpty ∧
      (∀ A x B, A ++ x :: B = L → (calls.foldl TailMem.call m).next x = B.head? ∧
        (calls.foldl TailMem.call m).prev x = A.getLast?) ∧
      ∀ turns, L.length ≤ turns → (calls.foldl TailMem.call m).foreach turns h = some L ∧
        (calls.foldl TailMem.call m).foreachReverse turns h = some L.reverse := by
  have hQ := (holds_none (m := m)).run hc
  have hr := hQ.ring h L hL
  refine ⟨hQ.nodup h L hL, first_ring hr, last_ring hr, ?_, ?_, ?_⟩
  · rw [TailMem.empty, first_ring hr]
    cases L <;> simp
  · rintro A x B rfl
    exact ⟨next_ring hr, prev_ring hr⟩
  · intro turns hturns
    exact ⟨hQ.foreach hL hturns, hQ.foreachReverse hL hturns⟩

theorem tail_run_from_init_two : (TailMem.mk (fun _ => none) id |>.init 0 |>.insertTail 0 1 |>.insertBefore 1 2).foreach 2 0 = some [2, 1] := by
  have hallows : AllowsAllIn [0] (fun _ => none) [.init 0, .insertTail 0 1, .insertBefore 1 2] := by decide
  have hrun := tail_run_from_init (h := 0) (L := [2, 1]) (TailMem.mk (fun _ => none) id)
    (hallows.allowsAll fun _ _ => rfl) (by decide)
  exact (hrun.2.2.2.2.2 2 (by simp)).1

/-- The loop that moves elements visits each element of its queue once, and the other queue
gets them in their order. -/
theorem moveSafe_moves (pick : Nat → Bool) {M : List Nat} {turns : Nat} (hQ : Q.Holds m) (hne : h ≠ k)
    (hL : Q h = some L) (hM : Q k = some M) (hturns : L.length ≤ turns) :
    ∃ m', m.moveSafe pick turns h k = some m' ∧
      Holds (Function.update (Function.update Q h (some (L.filter (!pick ·)))) k (some (M ++ L.filter pick))) m' := by
  have hmove := hQ.moveLoop pick hne (A := []) hL hM hturns
  rw [TailMem.moveSafe, first_ring (hQ.ring h L hL)]
  exact hmove

/-- A queue of four elements and one of one. -/
def twoQueues : List TailCall :=
  [.init 0, .init 1, .insertTail 0 1, .insertTail 0 2, .insertTail 0 3, .insertTail 0 4, .insertTail 1 5]

/-- The even elements go over to the other queue. -/
theorem moveSafe_moves_even :
    ∃ m', (twoQueues.foldl TailMem.call (TailMem.mk (fun _ => none) id)).moveSafe (· % 2 = 0) 4 0 1 = some m' ∧
      m'.foreach 2 0 = some [1, 3] ∧ m'.foreach 3 1 = some [5, 2, 4] := by
  have hallows : AllowsAllIn [0, 1] (fun _ => none) twoQueues := by decide
  have hQ := (holds_none (m := TailMem.mk (fun _ => none) id)).run (hallows.allowsAll fun _ _ => rfl)
  obtain ⟨m', hmove, hholds⟩ := moveSafe_moves (· % 2 = 0) hQ (h := 0) (k := 1) (L := [1, 2, 3, 4]) (M := [5]) (by decide)
    (by decide) (by decide) (Nat.le_refl 4)
  exact ⟨m', hmove, hholds.foreach (L := [1, 3]) (by decide) (Nat.le_refl 2),
    hholds.foreach (L := [5, 2, 4]) (by decide) (Nat.le_refl 3)⟩

end TailQueues

end CppInAction
