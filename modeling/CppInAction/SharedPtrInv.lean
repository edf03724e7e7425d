import CppInAction.SharedPtr

namespace CppInAction

/-- No operation is at work on the object. -/
def PtrSlot.free : PtrSlot → Bool
  | .dead | .idle _ => true
  | _ => false

/-- The two members of an object belong together and were handed out. -/
def SharedPtr.Within (fresh : Nat) (p : SharedPtr) : Prop :=
  p.ptr = p.refCount ∧ ∀ b, p.refCount = some b → b < fresh

theorem SharedPtr.null_within (fresh : Nat) : SharedPtr.null.Within fresh := by
  refine ⟨rfl, fun b hb => ?_⟩
  cases hb

theorem PtrSlot.idle_holds {p : SharedPtr} {b : Nat} (hb : p.refCount = some b) (k : Nat) :
    (PtrSlot.idle p).holds k = decide (b = k) := by
  simp [PtrSlot.holds, hb]

theorem PtrSlot.null_holds (b : Nat) : (PtrSlot.idle .null).holds b = false := rfl

/-- There is no object, or one without members. -/
def PtrSlot.Empty (x : PtrSlot) : Prop := x = .dead ∨ x = .idle .null

theorem PtrSlot.Empty.holds {x : PtrSlot} (h : x.Empty) (b : Nat) : x.holds b = false := by
  rcases h with rfl | rfl <;> rfl

theorem PtrSlot.Empty.free {x : PtrSlot} (h : x.Empty) : x.free = true := by
  rcases h with rfl | rfl <;> rfl

namespace Pointers

variable {s t : Pointers} {h : Nat → Nat} {i j b n : Nat} {p q : SharedPtr} {x y : PtrSlot}

/-- A control block with its holders: the count is their number, and the deletions have
happened if there are none. -/
structure Entry (s : Pointers) (b n : Nat) : Prop where
  counts : s.blocks b = if n = 0 then none else some (n : Int)
  freed : s.freed.count b = if n = 0 then 1 else 0
  released : s.released.count b = if n = 0 then 1 else 0
  small : n < 2 ^ 31

/-- Counts and deletions agree with the number of holders of each control block. -/
structure Books (s : Pointers) (h : Nat → Nat) : Prop where
  inside : s.fault = false
  used : ∀ b < s.fresh, s.Entry b (h b)
  unused : ∀ b, s.fresh ≤ b → h b = 0 ∧ s.freed.count b = 0 ∧ s.released.count b = 0

theorem Books.congr {h' : Nat → Nat} (hs : s.Books h) (heq : ∀ b, h' b = h b) : s.Books h' := by
  rw [show h' = h from funext heq]
  exact hs

theorem Books.setSlot (hs : s.Books h) (i : Nat) (x : PtrSlot) : (s.setSlot i x).Books h :=
  ⟨hs.inside, fun b hb => ⟨(hs.used b hb).counts, (hs.used b hb).freed, (hs.used b hb).released,
    (hs.used b hb).small⟩, hs.unused⟩

/-- A step that touches one control block. -/
theorem Books.touch (hs : s.Books h) (hfault : t.fault = s.fault) (hb : b ≤ s.fresh)
    (hfresh : t.fresh = max s.fresh (b + 1)) (hblocks : ∀ k, k ≠ b → t.blocks k = s.blocks k)
    (hfreed : ∀ k, k ≠ b → t.freed.count k = s.freed.count k)
    (hreleased : ∀ k, k ≠ b → t.released.count k = s.released.count k) (hentry : t.Entry b n) :
    t.Books (Function.update h b n) := by
  refine ⟨hfault.trans hs.inside, fun k hk => ?_, fun k hk => ?_⟩
  · by_cases hkb : k = b
    · subst hkb
      rw [Function.update_self]
      exact hentry
    · have hold := hs.used k (by omega)
      rw [Function.update_of_ne hkb]
      exact ⟨(hblocks k hkb).trans hold.counts, (hfreed k hkb).trans hold.freed,
        (hreleased k hkb).trans hold.released, hold.small⟩
  · have hkb : k ≠ b := by omega
    have hold := hs.unused k (by omega)
    rw [Function.update_of_ne hkb, hfreed k hkb, hreleased k hkb]
    exact hold

theorem Books.addCount (hs : s.Books h) (hb : b < s.fresh) (hpos : 0 < h b) (hroom : h b < 2 ^ 31 - 1) :
    (s.addCount b).Books (Function.update h b (h b + 1)) := by
  have hold := hs.used b hb
  have hcount : s.blocks b = some (h b : Int) := by rw [hold.counts, if_neg (by omega)]
  have hwrap : toInt32 ((h b : Int) + 1) = ((h b + 1 : Nat) : Int) := by
    rw [toInt32_of_nonneg (by omega) (by omega)]
    omega
  have hadd : s.addCount b = { s with blocks := Function.update s.blocks b (some ((h b + 1 : Nat) : Int)) } := by
    rw [Pointers.addCount, hcount]
    simp only [hwrap]
  rw [hadd]
  refine hs.touch rfl (by omega) ?_ (fun k hk => Function.update_of_ne hk _ _) (fun _ _ => rfl) (fun _ _ => rfl) ?_
  · change s.fresh = _
    omega
  · refine ⟨?_, ?_, ?_, by omega⟩
    · exact (Function.update_self ..).trans (if_neg (by omega)).symm
    · exact (hold.freed.trans (if_neg (by omega))).trans (if_neg (by omega)).symm
    · exact (hold.released.trans (if_neg (by omega))).trans (if_neg (by omega)).symm

theorem Books.minusCount (hs : s.Books h) (hb : b < s.fresh) (hpos : 0 < h b) :
    (s.minusCount b (some b)).Books (Function.update h b (h b - 1)) := by
  have hold := hs.used b hb
  have hsmall := hold.small
  have hcount : s.blocks b = some (h b : Int) := by rw [hold.counts, if_neg (by omega)]
  have hfreed : s.freed.count b = 0 := by rw [hold.freed, if_neg (by omega)]
  have hreleased : s.released.count b = 0 := by rw [hold.released, if_neg (by omega)]
  have hwrap : toInt32 ((h b : Int) - 1) = ((h b - 1 : Nat) : Int) := by
    rw [toInt32_of_nonneg (by omega) (by omega)]
    omega
  simp only [Pointers.minusCount, hcount, hwrap]
  by_cases hlast : h b = 1
  · rw [if_pos (by omega)]
    have hcons : ∀ (l : List Nat) (k : Nat), k ≠ b → (l ++ [b]).count k = l.count k := by
      intro l k hk
      simp [List.count_append, Ne.symm hk]
    refine hs.touch rfl (by omega) ?_ (fun k hk => Function.update_of_ne hk _ _) (fun k hk => hcons _ k hk)
      (fun k hk => hcons _ k hk) ?_
    · change s.fresh = _
      omega
    · refine ⟨?_, ?_, ?_, by omega⟩
      · exact (Function.update_self ..).trans (if_pos (by omega)).symm
      · simp [List.count_append, hfreed, hlast]
      · simp [List.count_append, hreleased, hlast]
  · rw [if_neg (by omega)]
    refine hs.touch rfl (by omega) ?_ (fun k hk => Function.update_of_ne hk _ _) (fun _ _ => rfl) (fun _ _ => rfl) ?_
    · change s.fresh = _
      omega
    · refine ⟨?_, ?_, ?_, by omega⟩
      · exact (Function.update_self ..).trans (if_neg (by omega)).symm
      · exact hfreed.trans (if_neg (by omega)).symm
      · exact hreleased.trans (if_neg (by omega)).symm

theorem Books.newCount (hs : s.Books h) :
    Books { s with blocks := Function.update s.blocks s.fresh (some 1), fresh := s.fresh + 1 }
      (Function.update h s.fresh 1) := by
  obtain ⟨_, hfreed, hreleased⟩ := hs.unused s.fresh (Nat.le_refl _)
  refine hs.touch rfl (Nat.le_refl _) ?_ (fun k hk => Function.update_of_ne hk _ _) (fun _ _ => rfl)
    (fun _ _ => rfl) ?_
  · change s.fresh + 1 = _
    omega
  · exact ⟨Function.update_self .., hfreed, hreleased, by decide⟩

def Members (objects : List PtrSlot) (fresh : Nat) : Prop :=
  ∀ (i : Nat) (x : PtrSlot) (p : SharedPtr), objects[i]? = some x → x.value = some p → p.Within fresh

theorem Members.set {objects : List PtrSlot} {fresh : Nat} (h : Members objects fresh)
    (hp : ∀ p, y.value = some p → p.Within fresh) : Members (objects.set i y) fresh := by
  intro k z p hk hz
  rcases set_at hk with ⟨_, rfl⟩ | ⟨_, hk⟩
  · exact hp p hz
  · exact h k z p hk hz

/-- A copy that waits for its increment has its source lent to it. -/
structure Slots (objects : List PtrSlot) (fresh : Nat) : Prop where
  members : Members objects fresh
  borrowed : ∀ (i : Nat) (p : SharedPtr) (j : Nat), objects[i]? = some (.adding p j) → objects[j]? = some (.lent p i)

/-- An object that is not in use gets other members. -/
theorem Slots.set {objects : List PtrSlot} {fresh : Nat} (hs : Slots objects fresh) (hi : objects[i]? = some x)
    (hx : x.free = true) (hy : y.free = true) (hp : ∀ p, y.value = some p → p.Within fresh) :
    Slots (objects.set i y) fresh := by
  refine ⟨hs.members.set hp, fun k p j hk => ?_⟩
  rcases set_at hk with ⟨_, rfl⟩ | ⟨_, hk⟩
  · exact absurd hy (by simp [PtrSlot.free])
  · have hj := hs.borrowed k p j hk
    have hji : j ≠ i := by
      rintro rfl
      rw [hi] at hj
      cases Option.some.inj hj
      exact absurd hx (by simp [PtrSlot.free])
    rw [List.getElem?_set_ne hji.symm]
    exact hj

structure Inv (s : Pointers) : Prop where
  books : s.Books s.holders
  slots : Slots s.objects s.fresh

theorem Inv.holders_pos (h : s.Inv) (hi : s.objects[i]? = some x) (hx : x.value = some p)
    (hb : p.refCount = some b) : 0 < s.holders b := by
  cases x with
  | dead => cases hx
  | idle q =>
    cases Option.some.inj hx
    exact countP_pos_of_at hi (decide_eq_true hb)
  | lent q k =>
    cases Option.some.inj hx
    exact countP_pos_of_at hi (decide_eq_true hb)
  | adding q k =>
    cases Option.some.inj hx
    exact countP_pos_of_at (h.slots.borrowed i p k hi) (decide_eq_true hb)

theorem Inv.sound (h : s.Inv) : s.Sound where
  inside := h.books.inside
  counts := fun b hb => (h.books.used b hb).counts
  freed := fun b hb => (h.books.used b hb).freed
  released := fun b hb => (h.books.used b hb).released
  refers := fun x hx p hp b hb => by
    obtain ⟨i, hi⟩ := List.mem_iff_getElem?.mp hx
    obtain ⟨heq, hbound⟩ := h.slots.members i x p hi hp
    rw [heq, or_self] at hb
    exact ⟨hbound b hb, Nat.pos_iff_ne_zero.mp (h.holders_pos hi hp hb)⟩

theorem start_inv (n : Nat) : (start n).Inv := by
  have hdead : ∀ (i : Nat) (x : PtrSlot), (start n).objects[i]? = some x → x = .dead := by
    intro i x hi
    exact (List.mem_replicate.mp (List.mem_of_getElem? hi)).2
  have hholders : ∀ b, (start n).holders b = 0 := by
    intro b
    refine List.countP_eq_zero.mpr fun x hx => ?_
    rw [(List.mem_replicate.mp hx).2]
    exact Bool.false_ne_true
  refine ⟨⟨rfl, fun b hb => absurd hb (Nat.not_lt_zero b), fun b _ => ⟨hholders b, rfl, rfl⟩⟩, ?_, ?_⟩
  · intro i x p hi hx
    rw [hdead i x hi] at hx
    cases hx
  · intro i p j hi
    cases hdead i _ hi

theorem update_succ (h : Nat → Nat) (b k : Nat) :
    Function.update h b (h b + 1) k = h k + (decide (b = k)).toNat := by
  by_cases hk : b = k
  · subst hk
    simp
  · simp [Function.update_of_ne (Ne.symm hk), hk]

theorem update_pred {h : Nat → Nat} {b : Nat} (hpos : 0 < h b) (k : Nat) :
    Function.update h b (h b - 1) k + (decide (b = k)).toNat = h k := by
  by_cases hk : b = k
  · subst hk
    simp only [Function.update_self, decide_true, Bool.toNat_true]
    omega
  · simp [Function.update_of_ne (Ne.symm hk), hk]

theorem holders_setSlot (hi : s.objects[i]? = some x) (y : PtrSlot) (b : Nat) :
    (s.setSlot i y).holders b + (x.holds b).toNat = s.holders b + (y.holds b).toNat :=
  countP_move _ hi y

theorem setSlot_other (x : PtrSlot) (hij : i ≠ j) : (s.setSlot i x).objects[j]? = s.objects[j]? :=
  List.getElem?_set_ne hij

/-- Objects are changed without a change of the numbers of holders. -/
theorem Inv.setSlot (h : s.Inv) (hi : s.objects[i]? = some x) (hholds : ∀ b, x.holds b = y.holds b)
    (hslots : Slots (s.setSlot i y).objects s.fresh) : (s.setSlot i y).Inv := by
  refine ⟨(h.books.setSlot i y).congr fun b => ?_, hslots⟩
  have hmove := holders_setSlot hi y b
  rw [hholds b] at hmove
  omega

theorem minusCount_objects (s : Pointers) (b : Nat) (ptr : Option Nat) :
    (s.minusCount b ptr).objects = s.objects ∧ (s.minusCount b ptr).fresh = s.fresh := by
  unfold minusCount
  split
  next => exact ⟨rfl, rfl⟩
  next => split <;> exact ⟨rfl, rfl⟩

theorem addCount_objects (s : Pointers) (b : Nat) :
    (s.addCount b).objects = s.objects ∧ (s.addCount b).fresh = s.fresh := by
  unfold addCount
  split <;> exact ⟨rfl, rfl⟩

theorem Inv.clean (h : s.Inv) (hi : s.objects[i]? = some (.idle q)) :
    (s.clean i q).Inv ∧ (s.clean i q).objects = s.objects.set i (.idle .null) := by
  obtain ⟨hptr, hbound⟩ := h.slots.members i _ q hi rfl
  unfold Pointers.clean
  split
  next hnone =>
    have hq : q = .null := by
      obtain ⟨ptr, refCount⟩ := q
      simp only at hnone hptr
      rw [hptr, hnone]
      rfl
    rw [hq] at hi
    refine ⟨h, ?_⟩
    obtain ⟨hlt, hget⟩ := List.getElem?_eq_some_iff.mp hi
    rw [← hget, List.set_getElem_self]
  next b hb =>
    obtain ⟨hobjects, hfresh⟩ := minusCount_objects s b q.ptr
    have hpos := h.holders_pos hi rfl hb
    have hbooks := (h.books.minusCount (hbound b hb) hpos).setSlot i (.idle .null)
    rw [hptr, hb] at hobjects hfresh ⊢
    refine ⟨⟨hbooks.congr fun k => ?_, ?_⟩, congrArg (fun objects => objects.set i (.idle .null)) hobjects⟩
    · have hmove := holders_setSlot hi (.idle .null) k
      have hpred := update_pred hpos k
      have hnew : ((s.minusCount b (some b)).setSlot i (.idle .null)).holders k =
          (s.setSlot i (.idle .null)).holders k := by
        rw [holders, Pointers.setSlot, hobjects]
        rfl
      rw [PtrSlot.idle_holds hb, PtrSlot.null_holds, Bool.toNat_false] at hmove
      omega
    · have hslots := h.slots.set hi rfl (y := .idle .null) rfl fun p hp => by
        cases Option.some.inj hp
        exact SharedPtr.null_within _
      change Slots ((s.minusCount b (some b)).objects.set i _) (s.minusCount b (some b)).fresh
      rw [hobjects, hfresh]
      exact hslots

theorem Slots.mono {objects : List PtrSlot} {fresh fresh' : Nat} (hs : Slots objects fresh) (hle : fresh ≤ fresh') :
    Slots objects fresh' := by
  refine ⟨fun i x p hi hx => ?_, hs.borrowed⟩
  obtain ⟨hptr, hbound⟩ := hs.members i x p hi hx
  exact ⟨hptr, fun b hb => Nat.lt_of_lt_of_le (hbound b hb) hle⟩

theorem Slots.setIdle {objects : List PtrSlot} {fresh : Nat} (hs : Slots objects fresh) (hi : objects[i]? = some x)
    (hx : x.free = true) (hp : p.Within fresh) : Slots (objects.set i (.idle p)) fresh := by
  refine hs.set hi hx rfl fun q hq => ?_
  cases Option.some.inj hq
  exact hp

theorem Inv.takeRaw (h : s.Inv) (hi : s.objects[i]? = some x) (hx : x.Empty) (null : Bool) :
    (s.takeRaw i null).Inv := by
  cases null with
  | true =>
    refine h.setSlot hi (fun b => ?_) (h.slots.setIdle hi hx.free (SharedPtr.null_within _))
    rw [hx.holds]
    rfl
  | false =>
    have hbooks := (h.books.newCount).setSlot i (.idle ⟨some s.fresh, some s.fresh⟩)
    refine ⟨hbooks.congr fun k => ?_, ?_⟩
    · have hmove := holders_setSlot hi (.idle ⟨some s.fresh, some s.fresh⟩) k
      have hsucc := update_succ s.holders s.fresh k
      rw [(h.books.unused s.fresh (Nat.le_refl _)).1] at hsucc
      rw [hx.holds, PtrSlot.idle_holds rfl, Bool.toNat_false] at hmove
      exact hmove.trans hsucc.symm
    · refine (h.slots.mono (Nat.le_succ _)).setIdle hi hx.free ⟨rfl, fun b hb => ?_⟩
      cases Option.some.inj hb
      exact Nat.lt_succ_self _

theorem Inv.moveFrom (h : s.Inv) (hi : s.objects[i]? = some x) (hx : x.Empty)
    (hj : s.objects[j]? = some (.idle p)) (hij : i ≠ j) : (s.moveFrom i j p).Inv := by
  have hj' : (s.setSlot i (.idle p)).objects[j]? = some (.idle p) := (setSlot_other _ hij).trans hj
  have hp := h.slots.members j _ p hj rfl
  have hslots := (h.slots.setIdle hi hx.free hp).setIdle hj' rfl (SharedPtr.null_within _)
  refine ⟨((h.books.setSlot i _).setSlot j _).congr fun b => ?_, hslots⟩
  have hmove := holders_setSlot hi (.idle p) b
  have hmove' := holders_setSlot hj' (.idle .null) b
  rw [hx.holds] at hmove
  rw [PtrSlot.null_holds] at hmove'
  change ((s.setSlot i (.idle p)).setSlot j (.idle .null)).holders b = s.holders b
  omega

theorem Inv.swap (h : s.Inv) (hi : s.objects[i]? = some (.idle q)) (hj : s.objects[j]? = some (.idle p)) :
    ((s.setSlot i (.idle p)).setSlot j (.idle q)).Inv := by
  have hp := h.slots.members j _ p hj rfl
  have hq := h.slots.members i _ q hi rfl
  have hj' : (s.setSlot i (.idle p)).objects[j]? = some (.idle p) := by
    by_cases hij : i = j
    · subst hij
      exact List.getElem?_set_self (List.getElem?_eq_some_iff.mp hi).1
    · exact (setSlot_other _ hij).trans hj
  have hslots := (h.slots.setIdle hi rfl hp).setIdle hj' rfl hq
  refine ⟨((h.books.setSlot i _).setSlot j _).congr fun b => ?_, hslots⟩
  have hmove := holders_setSlot hi (.idle p) b
  have hmove' := holders_setSlot hj' (.idle q) b
  omega

/-- The source is lent to the copy. -/
theorem Slots.lend {objects : List PtrSlot} {fresh : Nat} (hs : Slots objects fresh) (hi : objects[i]? = some x)
    (hx : x.free = true) (hj : objects[j]? = some (.idle p)) (hij : i ≠ j) :
    Slots ((objects.set i (.adding p j)).set j (.lent p i)) fresh := by
  have hp := hs.members j _ p hj rfl
  have hj' : (objects.set i (.adding p j))[j]? = some (.idle p) := by
    rw [← hj]
    exact List.getElem?_set_ne hij
  have hsame : ∀ r, some p = some r → r.Within fresh := by
    intro r hr
    cases Option.some.inj hr
    exact hp
  refine ⟨(hs.members.set (y := .adding p j) hsame).set (y := .lent p i) hsame, fun k r l hk => ?_⟩
  rcases set_at hk with ⟨_, hne⟩ | ⟨_, hk⟩
  · cases hne
  · rcases set_at hk with ⟨rfl, heq⟩ | ⟨_, hk⟩
    · cases heq
      exact List.getElem?_set_self (List.getElem?_eq_some_iff.mp hj').1
    · have hl := hs.borrowed k r l hk
      have hlj : l ≠ j := by
        rintro rfl
        rw [hj] at hl
        cases hl
      have hli : l ≠ i := by
        rintro rfl
        rw [hi] at hl
        cases Option.some.inj hl
        exact absurd hx (by simp [PtrSlot.free])
      rw [List.getElem?_set_ne hlj.symm, List.getElem?_set_ne hli.symm]
      exact hl

theorem Inv.copyFrom (h : s.Inv) (hi : s.objects[i]? = some x) (hx : x.Empty)
    (hj : s.objects[j]? = some (.idle p)) (hij : i ≠ j) : (s.copyFrom i j p).Inv := by
  unfold Pointers.copyFrom
  split
  next hnone =>
    refine h.setSlot hi (fun b => ?_) (h.slots.setIdle hi hx.free (h.slots.members j _ p hj rfl))
    rw [hx.holds]
    simp [PtrSlot.holds, hnone]
  next =>
    have hj' : (s.setSlot i (.adding p j)).objects[j]? = some (.idle p) := (setSlot_other _ hij).trans hj
    refine ⟨((h.books.setSlot i _).setSlot j _).congr fun b => ?_, h.slots.lend hi hx.free hj hij⟩
    have hmove := holders_setSlot hi (.adding p j) b
    have hmove' := holders_setSlot hj' (.lent p i) b
    rw [hx.holds] at hmove
    have hadding : (PtrSlot.adding p j).holds b = false := rfl
    have hlent : (PtrSlot.lent p i).holds b = (PtrSlot.idle p).holds b := rfl
    rw [hadding] at hmove
    rw [hlent] at hmove'
    omega

/-- The copy is complete, and its source is given back. -/
theorem Slots.giveBack {objects : List PtrSlot} {fresh : Nat} (hs : Slots objects fresh)
    (hi : objects[i]? = some (.adding p j)) : Slots ((objects.set i (.idle p)).set j (.idle p)) fresh := by
  have hj := hs.borrowed i p j hi
  have hp := hs.members i _ p hi rfl
  have hsame : ∀ r, some p = some r → r.Within fresh := by
    intro r hr
    cases Option.some.inj hr
    exact hp
  refine ⟨(hs.members.set (y := .idle p) hsame).set (y := .idle p) hsame, fun k r l hk => ?_⟩
  rcases set_at hk with ⟨_, hne⟩ | ⟨_, hk⟩
  · cases hne
  · rcases set_at hk with ⟨_, hne⟩ | ⟨hki, hk⟩
    · cases hne
    · have hl := hs.borrowed k r l hk
      have hlj : l ≠ j := by
        rintro rfl
        rw [hj] at hl
        cases Option.some.inj hl
        exact hki rfl
      have hli : l ≠ i := by
        rintro rfl
        rw [hi] at hl
        cases hl
      rw [List.getElem?_set_ne hlj.symm, List.getElem?_set_ne hli.symm]
      exact hl

theorem Inv.finishCopy (h : s.Inv) (hi : s.objects[i]? = some (.adding p j)) (hb : p.refCount = some b)
    (hroom : s.holders b < 2 ^ 31 - 1) : (s.finishCopy i j p b).Inv := by
  obtain ⟨hobjects, hfresh⟩ := addCount_objects s b
  have hj := h.slots.borrowed i p j hi
  have hij : i ≠ j := by
    rintro rfl
    rw [hi] at hj
    cases hj
  have hbound := (h.slots.members i _ p hi rfl).2 b hb
  have hbooks := h.books.addCount hbound (h.holders_pos hi rfl hb) hroom
  refine ⟨((hbooks.setSlot i _).setSlot j _).congr fun k => ?_, ?_⟩
  · have hj' : (s.setSlot i (.idle p)).objects[j]? = some (.lent p i) := (setSlot_other _ hij).trans hj
    have hmove := holders_setSlot hi (.idle p) k
    have hmove' := holders_setSlot hj' (.idle p) k
    have hsucc := update_succ s.holders b k
    have hnew : (s.finishCopy i j p b).holders k = ((s.setSlot i (.idle p)).setSlot j (.idle p)).holders k := by
      rw [holders, Pointers.finishCopy, Pointers.setSlot, Pointers.setSlot, hobjects]
      rfl
    have hlent : (PtrSlot.lent p i).holds k = (PtrSlot.idle p).holds k := rfl
    have hadding : (PtrSlot.adding p j).holds k = false := rfl
    rw [hlent] at hmove'
    rw [hadding, PtrSlot.idle_holds hb, Bool.toNat_false] at hmove
    omega
  · change Slots (((s.addCount b).objects.set i _).set j _) (s.addCount b).fresh
    rw [hobjects, hfresh]
    exact h.slots.giveBack hi

theorem Inv.clean_here (h : s.Inv) (hi : s.objects[i]? = some (.idle q)) :
    (s.clean i q).objects[i]? = some (.idle .null) := by
  rw [(h.clean hi).2]
  exact List.getElem?_set_self (List.getElem?_eq_some_iff.mp hi).1

theorem Inv.clean_other (h : s.Inv) (hi : s.objects[i]? = some (.idle q)) (hij : i ≠ j) :
    (s.clean i q).objects[j]? = s.objects[j]? := by
  rw [(h.clean hi).2]
  exact List.getElem?_set_ne hij

theorem Inv.destroy (h : s.Inv) (hi : s.objects[i]? = some (.idle q)) : ((s.clean i q).setSlot i .dead).Inv := by
  have hclean := (h.clean hi).1
  have hi' := h.clean_here hi
  refine hclean.setSlot hi' (fun b => rfl) (hclean.slots.set hi' rfl rfl fun p hp => ?_)
  cases hp

end Pointers

end CppInAction
