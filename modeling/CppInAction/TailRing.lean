import CppInAction.TailQ

namespace CppInAction

namespace TailMem

variable {m m' : TailMem} {h k x y : Nat} {s t : TailSlot} {A B C L M : List Nat} {n : Option Nat}

/-- The slot whose link leads on behind a part of the queue h that starts at its head. -/
def behind (h : Nat) (A : List Nat) : TailSlot := (A.getLast?.map TailSlot.elm).getD (.head h)

/-- The slot whose second field leads back from an element of the queue h, or from its end. -/
def backSlot (h : Nat) (n : Option Nat) : TailSlot := (n.map TailSlot.elm).getD (.head h)

/-- The queue h with these elements: wherever it is cut, the link behind the first part
leads to the second, and the back pointer of the second to that link. -/
def Ring (m : TailMem) (h : Nat) (L : List Nat) : Prop :=
  ∀ A B, A ++ B = L → m.link (behind h A) = B.head? ∧ m.back (backSlot h B.head?) = behind h A

@[simp] theorem behind_nil : behind h [] = .head h := rfl

@[simp] theorem behind_concat : behind h (A ++ [x]) = .elm x := by simp [behind]

theorem behind_append (hC : C ≠ []) : behind h (A ++ C) = behind h C := by
  rw [behind, List.getLast?_append_of_ne_nil _ hC, behind]

@[simp] theorem backSlot_none : backSlot h none = .head h := rfl

@[simp] theorem backSlot_some : backSlot h (some x) = .elm x := rfl

theorem behind_cases : behind h A = .head h ∨ ∃ a ∈ A, behind h A = .elm a := by
  rcases List.eq_nil_or_concat A with rfl | ⟨K, a, rfl⟩
  · exact Or.inl rfl
  · exact Or.inr ⟨a, by simp, by rw [List.concat_eq_append, behind_concat]⟩

theorem backSlot_cases : backSlot h B.head? = .head h ∨ ∃ b ∈ B, backSlot h B.head? = .elm b := by
  cases B with
  | nil => exact Or.inl rfl
  | cons b B => exact Or.inr ⟨b, by simp, rfl⟩

theorem ne_behind (ht : t ≠ .head h) (hA : ∀ a ∈ A, t ≠ .elm a) : t ≠ behind h A := by
  rcases behind_cases (h := h) (A := A) with heq | ⟨a, ha, heq⟩
  · exact heq ▸ ht
  · exact heq ▸ hA a ha

theorem ne_backSlot (ht : t ≠ .head h) (hB : ∀ b ∈ B, t ≠ .elm b) : t ≠ backSlot h B.head? := by
  rcases backSlot_cases (h := h) (B := B) with heq | ⟨b, hb, heq⟩
  · exact heq ▸ ht
  · exact heq ▸ hB b hb

theorem behind_ne_elm (hx : x ∉ A) : behind h A ≠ .elm x :=
  (ne_behind (by simp) fun a ha => by
    rintro ⟨⟩
    exact hx ha).symm

theorem backSlot_ne_elm (hx : x ∉ B) : backSlot h B.head? ≠ .elm x :=
  (ne_backSlot (by simp) fun b hb => by
    rintro ⟨⟩
    exact hx hb).symm

theorem behind_injective (hd : (A ++ C).Nodup) (hC : C ≠ []) : behind h A ≠ behind h (A ++ C) := by
  obtain ⟨K, c, rfl⟩ := (List.eq_nil_or_concat C).resolve_left hC
  rw [List.concat_eq_append, ← List.append_assoc, behind_concat]
  refine behind_ne_elm fun hmem => ?_
  exact (List.nodup_append.mp hd).2.2 c hmem c (by simp) rfl

theorem backSlot_injective (hd : (C ++ B).Nodup) (hC : C ≠ []) : backSlot h B.head? ≠ backSlot h (C ++ B).head? := by
  cases C with
  | nil => exact absurd rfl hC
  | cons c C =>
    refine backSlot_ne_elm fun hmem => ?_
    simp only [List.cons_append, List.nodup_cons, List.mem_append, not_or] at hd
    exact hd.1.2 hmem

theorem Ring.congr (hr : Ring m h L) (hhead : m'.link (.head h) = m.link (.head h) ∧ m'.back (.head h) = m.back (.head h))
    (hsame : ∀ a ∈ L, m'.link (.elm a) = m.link (.elm a) ∧ m'.back (.elm a) = m.back (.elm a)) : Ring m' h L := by
  rintro A B rfl
  obtain ⟨hlink, hback⟩ := hr A B rfl
  constructor
  · rcases behind_cases (h := h) (A := A) with heq | ⟨a, ha, heq⟩
    · rw [heq, hhead.1, ← heq, hlink]
    · rw [heq, (hsame a (List.mem_append_left _ ha)).1, ← heq, hlink]
  · rcases backSlot_cases (h := h) (B := B) with heq | ⟨b, hb, heq⟩
    · rw [heq, hhead.2, ← heq, hback]
    · rw [heq, (hsame b (List.mem_append_right _ hb)).2, ← heq, hback]

/-- Only the slots of these heads and elements have changed. -/
def Agree (m m' : TailMem) (H K : List Nat) : Prop :=
  ∀ t, (∀ j ∈ H, t ≠ .head j) → (∀ a ∈ K, t ≠ .elm a) → m'.link t = m.link t ∧ m'.back t = m.back t

/-- What the four insertions do: x comes behind the link s. -/
structure Splices (m : TailMem) (h : Nat) (s : TailSlot) (x : Nat) (m' : TailMem) : Prop where
  link_new : m'.link (.elm x) = m.link s
  link_slot : m'.link s = some x
  link_same : ∀ t, t ≠ s → t ≠ .elm x → m'.link t = m.link t
  back_new : m'.back (.elm x) = s
  back_slot : m'.back (backSlot h (m.link s)) = .elm x
  back_same : ∀ t, t ≠ backSlot h (m.link s) → t ≠ .elm x → m'.back t = m.back t

theorem Splices.ring (hs : Splices m h (behind h A) x m') (hr : Ring m h (A ++ B)) (hd : (A ++ B).Nodup)
    (hx : x ∉ A ++ B) : Ring m' h (A ++ x :: B) := by
  obtain ⟨hxA, hxB⟩ := not_or.mp (mt List.mem_append.mpr hx)
  have hlink : m.link (behind h A) = B.head? := (hr A B rfl).1
  have hnew := hs.link_new
  have hbslot := hs.back_slot
  have hbsame := hs.back_same
  rw [hlink] at hnew hbslot hbsame
  have hat : m'.link (behind h A) = (x :: B).head? ∧ m'.back (backSlot h (x :: B).head?) = behind h A :=
    ⟨hs.link_slot, hs.back_new⟩
  intro A' B' heq
  rcases List.append_eq_append_iff.mp heq with ⟨C, rfl, rfl⟩ | ⟨C, rfl, hcons⟩
  · -- the cut is before the new element
    by_cases hC : C = []
    · subst hC
      simpa using hat
    · obtain ⟨hl, hb⟩ := hr A' (C ++ B) (by simp)
      have hxA' : x ∉ A' := fun hmem => hxA (List.mem_append_left _ hmem)
      have hxC : x ∉ C := fun hmem => hxA (List.mem_append_right _ hmem)
      have hhead : (C ++ x :: B).head? = (C ++ B).head? := by
        rw [List.head?_append_of_ne_nil _ hC, List.head?_append_of_ne_nil _ hC]
      rw [List.append_assoc] at hd
      rw [hhead]
      constructor
      · rw [hs.link_same _ (behind_injective (List.append_assoc A' C B ▸ hd).of_append_left hC) (behind_ne_elm hxA'), hl]
      · rw [hbsame _ (backSlot_injective hd.of_append_right hC).symm ?_, hb]
        exact backSlot_ne_elm fun hmem => (List.mem_append.mp hmem).elim hxC hxB
  · cases C with
    | nil =>
      obtain rfl : x :: B = B' := hcons
      simpa using hat
    | cons c C =>
      obtain ⟨rfl, rfl⟩ : x = c ∧ B = C ++ B' := by simpa using hcons
      by_cases hC : C = []
      · subst hC
        simpa using ⟨hnew, hbslot⟩
      · obtain ⟨hl, hb⟩ := hr (A ++ C) B' (by simp)
        have hbehind : behind h (A ++ x :: C) = behind h (A ++ C) := by
          rw [List.append_cons, behind_append hC, behind_append hC]
        rw [← List.append_assoc] at hd
        have hxC : x ∉ A ++ C := by
          simp only [List.mem_append, not_or] at hxB ⊢
          exact ⟨hxA, hxB.1⟩
        have hxB' : x ∉ B' := fun hmem => hxB (List.mem_append_right _ hmem)
        rw [hbehind]
        constructor
        · rw [hs.link_same _ (behind_injective hd.of_append_left hC).symm (behind_ne_elm hxC), hl]
        · rw [hbsame _ ?_ (backSlot_ne_elm hxB'), hb]
          rw [List.append_assoc] at hd
          exact backSlot_injective hd.of_append_right hC

theorem Splices.agree (hs : Splices m h (behind h A) x m') (hr : Ring m h (A ++ B)) :
    Agree m m' [h] (x :: (A ++ B)) := by
  intro t ht htK
  simp only [List.mem_cons, List.not_mem_nil, or_false, forall_eq_or_imp, forall_eq, List.mem_append] at ht htK
  have hlink := (hr A B rfl).1
  refine ⟨hs.link_same t (ne_behind ht fun a ha => htK.2 a (Or.inl ha)) htK.1, hs.back_same t ?_ htK.1⟩
  rw [hlink]
  exact ne_backSlot ht fun b hb => htK.2 b (Or.inr hb)

@[simp] theorem link_setLink : (m.setLink s n).link = Function.update m.link s n := rfl

@[simp] theorem back_setLink : (m.setLink s n).back = m.back := rfl

@[simp] theorem link_setBack : (m.setBack s t).link = m.link := rfl

@[simp] theorem back_setBack : (m.setBack s t).back = Function.update m.back s t := rfl

theorem splices_of_link (hs : s ≠ .elm x) (hx : m.link s ≠ some x) :
    Splices m h s x ((((m.setLink (.elm x) (m.link s)).setBack (backSlot h (m.link s)) (.elm x)).setLink s (some x)).setBack
      (.elm x) s) := by
  have hslot : backSlot h (m.link s) ≠ .elm x := by
    cases hn : m.link s with
    | none => simp
    | some a =>
      rw [hn] at hx
      simpa using hx
  constructor
  · simp [Function.update_of_ne hs.symm]
  · simp
  · intro t hts htx
    simp [Function.update_of_ne hts, Function.update_of_ne htx]
  · simp
  · simp [Function.update_of_ne hslot]
  · intro t hts htx
    simp [Function.update_of_ne hts, Function.update_of_ne htx]

theorem insertHead_splices (hx : m.first h ≠ some x) : Splices m h (.head h) x (m.insertHead h x) := by
  have hs := splices_of_link (h := h) (s := .head h) (by simp) hx
  simp only [insertHead, first]
  cases hn : m.link (.head h) with
  | none => simpa only [hn, backSlot_none] using hs
  | some a => simpa only [hn, backSlot_some] using hs

theorem insertAfter_splices (hyx : y ≠ x) (hx : m.next y ≠ some x) : Splices m h (.elm y) x (m.insertAfter h y x) := by
  have hs := splices_of_link (h := h) (s := .elm y) (by simpa using hyx) hx
  simp only [insertAfter, next]
  cases hn : m.link (.elm y) with
  | none => simpa only [hn, backSlot_none] using hs
  | some a => simpa only [hn, backSlot_some] using hs

theorem insertTail_splices (hs : m.back (.head h) ≠ .elm x) (hn : m.link (m.back (.head h)) = none) :
    Splices m h (m.back (.head h)) x (m.insertTail h x) := by
  constructor
  · simp [insertTail, hn, Function.update_of_ne hs.symm]
  · simp [insertTail]
  · intro t hts htx
    simp [insertTail, Function.update_of_ne htx, Function.update_of_ne hts]
  · simp [insertTail]
  · simp [insertTail, hn]
  · intro t hts htx
    rw [hn, backSlot_none] at hts
    simp [insertTail, Function.update_of_ne htx, Function.update_of_ne hts]

theorem insertBefore_splices (hyx : y ≠ x) (hs : m.back (.elm y) ≠ .elm x) (hn : m.link (m.back (.elm y)) = some y) :
    Splices m h (m.back (.elm y)) x (m.insertBefore y x) := by
  have hne : TailSlot.elm y ≠ .elm x := by simpa using hyx
  constructor
  · simp [insertBefore, hn, Function.update_of_ne hs.symm, Function.update_of_ne hne]
  · simp [insertBefore, Function.update_of_ne hne]
  · intro t hts htx
    simp [insertBefore, Function.update_of_ne htx, Function.update_of_ne hts, Function.update_of_ne hne]
  · simp [insertBefore, Function.update_of_ne hne.symm]
  · simp [insertBefore, hn]
  · intro t hts htx
    rw [hn, backSlot_some] at hts
    simp [insertBefore, Function.update_of_ne htx, Function.update_of_ne hts]

theorem remove_eq (hr : Ring m h (A ++ x :: B)) (hd : (A ++ x :: B).Nodup) :
    m.remove h x = (m.setBack (backSlot h B.head?) (behind h A)).setLink (behind h A) B.head? := by
  obtain ⟨_, hbackx⟩ := hr A (x :: B) rfl
  obtain ⟨hnext, _⟩ := hr (A ++ [x]) B (by simp)
  rw [behind_concat] at hnext
  rw [List.head?_cons, backSlot_some] at hbackx
  have hxB : x ∉ B := (List.nodup_cons.mp hd.of_append_right).1
  simp only [remove, next, hnext, hbackx]
  cases B with
  | nil => simp [hbackx, hnext]
  | cons b B =>
    have hbx : TailSlot.elm x ≠ .elm b := by
      rintro ⟨⟩
      exact hxB List.mem_cons_self
    simp [hbackx, hnext, Function.update_of_ne hbx]

theorem remove_ring (hr : Ring m h (A ++ x :: B)) (hd : (A ++ x :: B).Nodup) :
    Ring (m.remove h x) h (A ++ B) ∧ Agree m (m.remove h x) [h] (A ++ x :: B) := by
  have hmem := remove_eq hr hd
  have hlink : ∀ t, t ≠ behind h A → (m.remove h x).link t = m.link t := fun t ht => by
    rw [hmem]
    simp [Function.update_of_ne ht]
  have hback : ∀ t, t ≠ backSlot h B.head? → (m.remove h x).back t = m.back t := fun t ht => by
    rw [hmem]
    simp [Function.update_of_ne ht]
  have hat : (m.remove h x).link (behind h A) = B.head? ∧ (m.remove h x).back (backSlot h B.head?) = behind h A := by
    rw [hmem]
    simp
  constructor
  swap
  · intro t ht htK
    simp only [List.mem_cons, List.not_mem_nil, or_false, forall_eq, List.mem_append] at ht htK
    exact ⟨hlink t (ne_behind ht fun a ha => htK a (Or.inl ha)),
      hback t (ne_backSlot ht fun b hb => htK b (Or.inr (Or.inr hb)))⟩
  intro A' B' heq
  rcases List.append_eq_append_iff.mp heq with ⟨C, rfl, rfl⟩ | ⟨C, rfl, rfl⟩
  · by_cases hC : C = []
    · subst hC
      simpa using hat
    · obtain ⟨hl, hb⟩ := hr A' (C ++ x :: B) (by simp)
      have hhead : (C ++ x :: B).head? = (C ++ B).head? := by
        rw [List.head?_append_of_ne_nil _ hC, List.head?_append_of_ne_nil _ hC]
      rw [hhead] at hl hb
      have hsub : ((A' ++ C) ++ B).Nodup := hd.sublist ((List.sublist_cons_self x B).append_left _)
      rw [hlink _ (behind_injective hsub.of_append_left hC), hl]
      rw [List.append_assoc] at hsub
      rw [hback _ (backSlot_injective hsub.of_append_right hC).symm, hb]
      exact ⟨rfl, rfl⟩
  · by_cases hC : C = []
    · subst hC
      simpa using hat
    · obtain ⟨hl, hb⟩ := hr (A ++ x :: C) B' (by simp)
      have hbehind : behind h (A ++ x :: C) = behind h (A ++ C) := by
        rw [List.append_cons, behind_append hC, behind_append hC]
      rw [hbehind] at hl hb
      have hsub : (A ++ (C ++ B')).Nodup := hd.sublist ((List.sublist_cons_self x _).append_left _)
      have hsub' := hsub
      rw [← List.append_assoc] at hsub'
      rw [hlink _ (behind_injective hsub'.of_append_left hC).symm, hl, hback _ (backSlot_injective hsub.of_append_right hC), hb]
      exact ⟨rfl, rfl⟩

theorem init_ring : Ring (m.init h) h [] := by
  intro A B heq
  obtain ⟨rfl, rfl⟩ := List.append_eq_nil_iff.mp heq
  simp [init]

/-- A queue that goes to another head: the two fields of the head and the back pointer of
the first element are all that changes. -/
theorem Ring.rehead (hr : Ring m k M) (hd : M.Nodup) (hfirst : m'.link (.head h) = M.head?)
    (hback : m'.back (backSlot h M.head?) = .head h) (hlast : M ≠ [] → m'.back (.head h) = behind k M)
    (hlink : ∀ a ∈ M, m'.link (.elm a) = m.link (.elm a))
    (hsame : ∀ a ∈ M, M.head? ≠ some a → m'.back (.elm a) = m.back (.elm a)) : Ring m' h M := by
  rintro A B rfl
  obtain ⟨hl, hb⟩ := hr A B rfl
  by_cases hA : A = []
  · subst hA
    exact ⟨hfirst, hback⟩
  · obtain ⟨K, a, rfl⟩ := (List.eq_nil_or_concat A).resolve_left hA
    rw [List.concat_eq_append] at hl hb hd hlink hsame hlast ⊢
    rw [behind_concat] at hl hb ⊢
    refine ⟨(hlink a (by simp)).trans hl, ?_⟩
    cases B with
    | nil =>
      rw [List.append_nil] at hlast
      rw [List.head?_nil, backSlot_none, hlast (by simp), behind_concat]
    | cons b B =>
      rw [List.head?_cons, backSlot_some] at hb ⊢
      rw [hsame b (by simp) ?_, hb]
      intro hhead
      have hmem : b ∈ K ++ [a] := by
        rw [List.head?_append_of_ne_nil _ (by simp)] at hhead
        exact List.mem_of_head? hhead
      exact (List.nodup_append.mp hd).2.2 b hmem b List.mem_cons_self rfl

theorem first_ring (hr : Ring m h L) : m.first h = L.head? := (hr [] L rfl).1

theorem back_ring (hr : Ring m h L) : m.back (.head h) = behind h L := (hr L [] (List.append_nil L)).2

theorem back_first (hr : Ring m h L) : m.back (backSlot h L.head?) = .head h := (hr [] L rfl).2

theorem settle_eq : m.settle h = m.setBack (backSlot h (m.first h)) (.head h) := by
  unfold settle
  cases m.first h <;> rfl

theorem swap_self (hr : Ring m h L) : m.swap h h = m := by
  have hback := back_first hr
  have hfirst : m.link (.head h) = L.head? := first_ring hr
  simp only [swap, settle_eq, first, link_setBack, link_setLink, Function.update_self, hfirst]
  simp only [setLink, setBack, Function.update_idem]
  rw [← hfirst, Function.update_eq_self, Function.update_eq_self]
  congr
  rw [hfirst, ← hback, Function.update_eq_self]

theorem swap_ring (hne : h ≠ k) (hrh : Ring m h L) (hrk : Ring m k M) (hdh : L.Nodup) (hdk : M.Nodup)
    (hapart : ∀ a ∈ L, a ∉ M) : Ring (m.swap h k) h M ∧ Ring (m.swap h k) k L ∧ Agree m (m.swap h k) [h, k] (L ++ M) := by
  have hhk : TailSlot.head h ≠ .head k := by simpa using hne
  have hfirsth : m.link (.head h) = L.head? := first_ring hrh
  have hfirstk : m.link (.head k) = M.head? := first_ring hrk
  have hmem : ∃ m1 : TailMem, m.swap h k = (m1.setBack (backSlot h M.head?) (.head h)).setBack (backSlot k L.head?) (.head k) ∧
      m1.link (.head h) = M.head? ∧ m1.link (.head k) = L.head? ∧ m1.back (.head h) = behind k M ∧
      m1.back (.head k) = behind h L ∧ ∀ t, t ≠ .head h → t ≠ .head k → m1.link t = m.link t ∧ m1.back t = m.back t := by
    refine ⟨(((m.setLink (.head h) (m.first k)).setBack (.head h) (m.back (.head k))).setLink (.head k) (m.first h)).setBack
      (.head k) (m.back (.head h)), ?_, ?_, ?_, ?_, ?_, ?_⟩
    · simp [swap, settle_eq, first, hfirsth, hfirstk, Function.update_of_ne hhk]
    · simp [first, hfirstk, Function.update_of_ne hhk]
    · simp [first, hfirsth]
    · simp [back_ring hrk, Function.update_of_ne hhk]
    · simp [back_ring hrh]
    · intro t hth htk
      simp [Function.update_of_ne hth, Function.update_of_ne htk]
  obtain ⟨m1, hmem, hlinkh, hlinkk, hbackh, hbackk, hsame⟩ := hmem
  have hlink : ∀ a, m1.link (.elm a) = m.link (.elm a) := fun a => (hsame (.elm a) (by simp) (by simp)).1
  have hback : ∀ a, m1.back (.elm a) = m.back (.elm a) := fun a => (hsame (.elm a) (by simp) (by simp)).2
  have hslots : backSlot h M.head? ≠ backSlot k L.head? := by
    rcases backSlot_cases (h := h) (B := M) with heq | ⟨b, hb, heq⟩
    · exact heq ▸ ne_backSlot hhk (by simp)
    · exact heq ▸ (backSlot_ne_elm fun hmem => hapart b hmem hb).symm
  rw [hmem]
  refine ⟨?_, ?_, ?_⟩
  · refine hrk.rehead hdk hlinkh ?_ ?_ (fun a _ => hlink a) ?_
    · simp [Function.update_of_ne hslots]
    · intro hM
      have h1 : TailSlot.head h ≠ backSlot h M.head? := by
        cases M with
        | nil => exact absurd rfl hM
        | cons b M => simp
      have h2 : TailSlot.head h ≠ backSlot k L.head? := by
        cases L with
        | nil => exact hhk
        | cons b L => simp
      simp [Function.update_of_ne h1, Function.update_of_ne h2, hbackh]
    · intro a ha hhead
      have h1 : TailSlot.elm a ≠ backSlot h M.head? := by
        cases M with
        | nil => cases ha
        | cons b M => simpa [eq_comm] using hhead
      have h2 : TailSlot.elm a ≠ backSlot k L.head? := (backSlot_ne_elm fun hmem => hapart a hmem ha).symm
      simp [Function.update_of_ne h1, Function.update_of_ne h2, hback]
  · refine hrh.rehead hdh hlinkk (by simp) ?_ (fun a _ => hlink a) ?_
    · intro hL
      have h1 : TailSlot.head k ≠ backSlot k L.head? := by
        cases L with
        | nil => exact absurd rfl hL
        | cons b L => simp
      have h2 : TailSlot.head k ≠ backSlot h M.head? := by
        cases M with
        | nil => exact hhk.symm
        | cons b M => simp
      simp [Function.update_of_ne h1, Function.update_of_ne h2, hbackk]
    · intro a ha hhead
      have h1 : TailSlot.elm a ≠ backSlot k L.head? := by
        cases L with
        | nil => cases ha
        | cons b L => simpa [eq_comm] using hhead
      have h2 : TailSlot.elm a ≠ backSlot h M.head? := (backSlot_ne_elm (hapart a ha)).symm
      simp [Function.update_of_ne h1, Function.update_of_ne h2, hback]
  · intro t ht htK
    simp only [List.mem_cons, List.not_mem_nil, or_false, forall_eq_or_imp, forall_eq] at ht
    have h1 : t ≠ backSlot h M.head? := ne_backSlot ht.1 fun b hb => htK b (List.mem_append_right _ hb)
    have h2 : t ≠ backSlot k L.head? := ne_backSlot ht.2 fun b hb => htK b (List.mem_append_left _ hb)
    simpa [Function.update_of_ne h1, Function.update_of_ne h2] using hsame t ht.1 ht.2

theorem concat_ring (hne : h ≠ k) (hrh : Ring m h L) (hrk : Ring m k M) (hd : (L ++ M).Nodup) :
    Ring (m.concat h k) h (L ++ M) ∧ Ring (m.concat h k) k [] ∧ Agree m (m.concat h k) [h, k] (L ++ M) := by
  have hfirst := first_ring hrk
  cases M with
  | nil =>
    simp only [concat, hfirst, List.head?_nil, List.append_nil]
    exact ⟨hrh, hrk, fun _ _ _ => ⟨rfl, rfl⟩⟩
  | cons a M =>
    have hhk : TailSlot.head h ≠ .head k := by simpa using hne
    have hslot : behind h L ≠ .head k := (ne_behind hhk.symm (by simp)).symm
    have hnodup := List.nodup_append.mp hd
    have haL : a ∉ L := fun hmem => hnodup.2.2 a hmem a List.mem_cons_self rfl
    have hlink : (m.concat h k).link = Function.update (Function.update m.link (behind h L) (some a)) (.head k) none := by
      simp [concat, hfirst, init, back_ring hrh]
    have hback : (m.concat h k).back = Function.update (Function.update (Function.update m.back (.elm a) (behind h L))
        (.head h) (behind k (a :: M))) (.head k) (.head k) := by
      simp [concat, hfirst, init, back_ring hrh, back_ring hrk]
    refine ⟨?_, ?_, ?_⟩
    · intro A B heq
      rcases List.append_eq_append_iff.mp heq with ⟨C, rfl, rfl⟩ | ⟨C, rfl, hcons⟩
      · by_cases hC : C = []
        · subst hC
          rw [List.append_nil] at hslot hlink hback
          simp [hlink, hback, Function.update_of_ne hslot]
        · obtain ⟨hl, hb⟩ := hrh A C rfl
          have hA : behind h A ≠ behind h (A ++ C) := behind_injective hnodup.1 hC
          have hA' : behind h A ≠ .head k := (ne_behind hhk.symm (by simp)).symm
          cases C with
          | nil => exact absurd rfl hC
          | cons c C =>
            have hca : TailSlot.elm c ≠ .elm a := by
              rintro ⟨⟩
              exact haL (by simp)
            simpa [hlink, hback, Function.update_of_ne hA, Function.update_of_ne hA', Function.update_of_ne hca] using
              And.intro hl hb
      · by_cases hC : C = []
        · subst hC
          obtain rfl : a :: M = B := hcons
          simp [hlink, hback, Function.update_of_ne hslot]
        · obtain ⟨hl, hb⟩ := hrk C B hcons.symm
          obtain ⟨K, c, hK⟩ := (List.eq_nil_or_concat C).resolve_left hC
          rw [List.concat_eq_append] at hK
          have hcL : c ∉ L := fun hmem => hnodup.2.2 c hmem c (by rw [hcons, hK]; simp) rfl
          have hbehind : behind h (L ++ C) = .elm c := by rw [hK, ← List.append_assoc, behind_concat]
          rw [hK, behind_concat] at hl hb
          rw [hbehind]
          refine ⟨by simp [hlink, Function.update_of_ne (behind_ne_elm hcL).symm, hl], ?_⟩
          cases B with
          | nil =>
            have hend : behind k (a :: M) = .elm c := by rw [hcons, List.append_nil, hK, behind_concat]
            simp [hback, Function.update_of_ne hhk, hend]
          | cons b B =>
            have hba : TailSlot.elm b ≠ .elm a := by
              rintro ⟨⟩
              have hdM := hnodup.2.1
              rw [hcons] at hdM
              obtain ⟨c', C', rfl⟩ := List.exists_cons_of_ne_nil hC
              exact (List.nodup_append.mp hdM).2.2 _ List.mem_cons_self _ List.mem_cons_self (List.cons.inj hcons).1.symm
            simpa [hback, Function.update_of_ne hba] using hb
    · intro A B heq
      obtain ⟨rfl, rfl⟩ := List.append_eq_nil_iff.mp heq
      simp [hlink, hback]
    · intro t ht htK
      simp only [List.mem_cons, List.not_mem_nil, or_false, forall_eq_or_imp, forall_eq] at ht
      have h1 : t ≠ behind h L := ne_behind ht.1 fun b hb => htK b (List.mem_append_left _ hb)
      have h2 : t ≠ .elm a := htK a (by simp)
      simp [hlink, hback, Function.update_of_ne h1, Function.update_of_ne h2, Function.update_of_ne ht.1,
        Function.update_of_ne ht.2]

theorem next_ring (hr : Ring m h (A ++ x :: B)) : m.next x = B.head? := by
  have hcut := hr (A ++ [x]) B (by simp)
  rw [behind_concat] at hcut
  exact hcut.1

theorem link_back (hr : Ring m h L) (hcut : A ++ B = L) : m.link (m.back (behind h A)) = A.getLast? := by
  rcases List.eq_nil_or_concat A with rfl | ⟨K, a, rfl⟩
  · rw [behind_nil, back_ring hr]
    exact (hr L [] (List.append_nil L)).1
  · rw [List.concat_eq_append] at hcut ⊢
    have hb := (hr K (a :: B) (by simpa using hcut)).2
    have hl := (hr K (a :: B) (by simpa using hcut)).1
    rw [List.head?_cons, backSlot_some] at hb
    rw [behind_concat, hb, hl, List.getLast?_concat]
    rfl

theorem prev_ring (hr : Ring m h (A ++ x :: B)) : m.prev x = A.getLast? := by
  have hb := (hr A (x :: B) rfl).2
  rw [List.head?_cons, backSlot_some] at hb
  rw [prev, hb, link_back hr rfl]

theorem last_ring (hr : Ring m h L) : m.last h = L.getLast? := by
  rw [last, back_ring hr, link_back hr (List.append_nil L)]

end TailMem

end CppInAction
