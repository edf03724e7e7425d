import CppInAction.SharedPtrInv

namespace CppInAction

namespace Pointers

variable {s t : Pointers} {i j b n : Nat} {p : SharedPtr} {x : PtrSlot}

theorem Inv.step {a : PointerAct} (h : s.Inv) (ha : s.Counts a) (hs : s.step a = some t) : t.Inv := by
  cases a with
  | construct i null =>
    simp only [Pointers.step] at hs
    split at hs
    next hi => cases Option.some.inj hs; exact h.takeRaw hi (Or.inl rfl) null
    next => cases hs
  | copy i j =>
    simp only [Pointers.step] at hs
    split at hs
    next hi hj =>
      cases Option.some.inj hs
      refine h.copyFrom hi (Or.inl rfl) hj ?_
      rintro rfl
      rw [hi] at hj
      cases hj
    next => cases hs
  | add i =>
    simp only [Pointers.step] at hs
    split at hs
    next p j hi =>
      obtain ⟨b, hb, rfl⟩ := Option.map_eq_some_iff.mp hs
      exact h.finishCopy hi hb (ha p j b hi hb)
    next => cases hs
  | move i j =>
    simp only [Pointers.step] at hs
    split at hs
    next hi hj =>
      cases Option.some.inj hs
      refine h.moveFrom hi (Or.inl rfl) hj ?_
      rintro rfl
      rw [hi] at hj
      cases hj
    next => cases hs
  | copyAssign i j =>
    simp only [Pointers.step] at hs
    split at hs
    next hi hj =>
      cases Option.some.inj hs
      split
      next => exact h
      next hij =>
        exact (h.clean hi).1.copyFrom (h.clean_here hi) (Or.inr rfl) ((h.clean_other hi hij).trans hj) hij
    next => cases hs
  | moveAssign i j =>
    simp only [Pointers.step] at hs
    split at hs
    next hi hj =>
      cases Option.some.inj hs
      split
      next => exact h
      next hij =>
        exact (h.clean hi).1.moveFrom (h.clean_here hi) (Or.inr rfl) ((h.clean_other hi hij).trans hj) hij
    next => cases hs
  | reset i null =>
    simp only [Pointers.step] at hs
    split at hs
    next q hi =>
      cases Option.some.inj hs
      split
      next => exact (h.clean hi).1
      next => exact (h.clean hi).1.takeRaw (h.clean_here hi) (Or.inr rfl) false
    next => cases hs
  | swap i j =>
    simp only [Pointers.step] at hs
    split at hs
    next hi hj => cases Option.some.inj hs; exact h.swap hi hj
    next => cases hs
  | destroy i =>
    simp only [Pointers.step] at hs
    split at hs
    next hi => cases Option.some.inj hs; exact h.destroy hi
    next => cases hs

/-- A copy beyond INT_MAX references makes the count negative. -/
theorem Inv.wraps {a : PointerAct} (h : s.Inv) (ha : ¬ s.Counts a) (hs : s.step a = some t) : ¬ t.Sound := by
  cases a with
  | add i =>
    simp only [Counts, not_forall] at ha
    obtain ⟨p, j, b, hi, hb, hfull⟩ := ha
    have hbound := (h.slots.members i _ p hi rfl).2 b hb
    have hold := h.books.used b hbound
    have hsmall := hold.small
    have hcount : s.blocks b = some (2 ^ 31 - 1) := by
      rw [hold.counts, if_neg (by omega)]
      congr 1
      omega
    simp only [Pointers.step, hi, hb, Option.map_some, Option.some.injEq] at hs
    intro ht
    have hblock : t.blocks b = some (-2 ^ 31) := by
      rw [← hs, Pointers.finishCopy, Pointers.setSlot, Pointers.setSlot, Pointers.addCount, hcount]
      exact Function.update_self ..
    have hfresh : t.fresh = s.fresh := by
      rw [← hs]
      exact (addCount_objects s b).2
    rw [ht.counts b (by omega)] at hblock
    split at hblock
    next => cases hblock
    next =>
      have := Option.some.inj hblock
      omega
  | _ => exact absurd trivial ha

/-- The counts and deletions are right throughout a run exactly if no copy is made of a
resource that has INT_MAX references. -/
theorem sharedPtr_sound_iff (n : Nat) (as : List PointerAct) :
    Along step Sound (start n) as ↔ StepsMeet step Counts (start n) as :=
  along_iff_stepsMeet Inv (fun _ _ _ h ha hs => h.step ha hs) (fun _ h => h.sound)
    (fun _ _ _ h ha hs => h.wraps ha hs) as (start_inv n)

/-- All counts are values of an int. -/
def Ints (s : Pointers) : Prop := ∀ b count, s.blocks b = some count → count < 2 ^ 31

theorem Ints.addCount (h : s.Ints) (b : Nat) : (s.addCount b).Ints := by
  unfold Pointers.addCount
  split
  next => exact h
  next count hcount =>
    intro k v hv
    by_cases hk : k = b
    · subst hk
      have hv : Function.update s.blocks k _ k = some v := hv
      rw [Function.update_self] at hv
      rw [← Option.some.inj hv]
      exact toInt32_lt _
    · have hv : Function.update s.blocks b _ k = some v := hv
      rw [Function.update_of_ne hk] at hv
      exact h k v hv

/-- The first object is copied to the first place that is free. -/
theorem copyOnce {front rest : List PtrSlot} (hints : s.Ints) (hb : p.refCount = some b)
    (hobjects : s.objects = .idle p :: (front ++ .dead :: rest)) :
    ∃ t, runSteps step s [.copy (front.length + 1) 0, .add (front.length + 1)] = some t ∧
      t.objects = .idle p :: (front ++ .idle p :: rest) ∧ t.fresh = s.fresh ∧ t.Ints := by
  let u : Pointers := { s with objects := .lent p (front.length + 1) :: (front ++ .adding p 0 :: rest) }
  have hcopy : s.step (.copy (front.length + 1) 0) = some u := by
    simp [Pointers.step, Pointers.copyFrom, Pointers.setSlot, hobjects, hb, u]
  have hadd : u.step (.add (front.length + 1)) = some (u.finishCopy (front.length + 1) 0 p b) := by
    simp [Pointers.step, hb, u]
  obtain ⟨hsame, hfresh⟩ := addCount_objects u b
  refine ⟨u.finishCopy (front.length + 1) 0 p b, ?_, ?_, hfresh, ?_⟩
  · rw [runSteps_cons, hcopy, Option.bind_some, runSteps_cons, hadd]
    rfl
  · simp [Pointers.finishCopy, Pointers.setSlot, hsame, u]
  · have hu : u.Ints := hints
    exact hu.addCount b

theorem copyAll (r : Nat) (front : List PtrSlot) (hints : s.Ints) (hb : p.refCount = some b)
    (hobjects : s.objects = .idle p :: (front ++ List.replicate r .dead)) :
    ∃ as t, runSteps step s as = some t ∧ t.objects = .idle p :: (front ++ List.replicate r (.idle p)) ∧
      t.fresh = s.fresh ∧ t.Ints := by
  induction r generalizing s front with
  | zero => exact ⟨[], s, rfl, hobjects, rfl, hints⟩
  | succ r ih =>
    obtain ⟨u, hu, hou, hfu, hiu⟩ := copyOnce hints hb hobjects
    obtain ⟨as, t, ht, hot, hft, hit⟩ := ih (front ++ [.idle p]) hiu (by simpa using hou)
    refine ⟨[.copy (front.length + 1) 0, .add (front.length + 1)] ++ as, t, ?_, ?_, hft.trans hfu, hit⟩
    · rw [runSteps_append, hu, Option.bind_some, ht]
    · simpa [List.replicate_succ] using hot

/-- A run that copies one pointer until it has more references than an int can count. -/
theorem sharedPtr_not_always_sound : ¬ ∀ (n : Nat) (as : List PointerAct), Along step Sound (start n) as := by
  intro h
  obtain ⟨n, hn⟩ : ∃ n, n + 1 = 2 ^ 31 := ⟨2 ^ 31 - 1, by decide⟩
  let s : Pointers := (start (n + 1)).takeRaw 0 false
  have hs : runSteps step (start (n + 1)) [.construct 0 false] = some s := rfl
  have hints : s.Ints := by
    intro b count hcount
    by_cases hb : b = 0
    · subst hb
      cases Option.some.inj hcount
      decide
    · have hcount : Function.update (fun _ => none) 0 (some (1 : Int)) b = some count := hcount
      rw [Function.update_of_ne hb] at hcount
      cases hcount
  obtain ⟨as, t, ht, hobjects, hfresh, hints⟩ :=
    copyAll n (s := s) (p := ⟨some 0, some 0⟩) [] hints rfl rfl
  have hrun := h (n + 1) ([.construct 0 false] ++ as)
  have hsound := runSteps_along hrun (t := t) (by rw [runSteps_append, hs, Option.bind_some, ht])
  have hholders : t.holders 0 = n + 1 := by
    rw [holders, hobjects]
    simp [PtrSlot.holds, List.countP_replicate]
  have hcount := hsound.counts 0 (by rw [hfresh]; exact Nat.one_pos)
  rw [hholders, if_neg (Nat.succ_ne_zero n)] at hcount
  have hlt := hints 0 _ hcount
  omega

end Pointers

end CppInAction
