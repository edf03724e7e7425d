import Mathlib.Data.BitVec
import Mathlib.Tactic.Ring

namespace CppInAction

namespace Alloc

def eAlign128 : BitVec 64 := 8
def eAlign256 : BitVec 64 := 16
def eAlign512 : BitVec 64 := 32
def eAlign1024 : BitVec 64 := 64
def eAlign2048 : BitVec 64 := 128
def eAlign4096 : BitVec 64 := 256

def eSmallObjectBytes : Nat := 4096

def eFreeListsNumber : Nat := 56

/-- alloc::M_align. -/
def align (bytes : BitVec 64) : BitVec 64 :=
  if bytes ≤ 512 then
    if bytes ≤ 256 then if bytes ≤ 128 then eAlign128 else eAlign256
    else eAlign512
  else if bytes ≤ 2048 then if bytes ≤ 1024 then eAlign1024 else eAlign2048
  else eAlign4096

/-- alloc::M_round_up. -/
def roundUp (bytes : BitVec 64) : BitVec 64 := (bytes + align bytes - 1) &&& ~~~(align bytes - 1)

/-- alloc::M_freelist_index. -/
def freelistIndex (bytes : BitVec 64) : BitVec 64 :=
  if bytes ≤ 512 then
    if bytes ≤ 256 then
      if bytes ≤ 128 then (bytes + eAlign128 - 1) / eAlign128 - 1
      else 15 + (bytes + eAlign256 - 129) / eAlign256
    else 23 + (bytes + eAlign512 - 257) / eAlign512
  else if bytes ≤ 2048 then
    if bytes ≤ 1024 then 31 + (bytes + eAlign1024 - 513) / eAlign1024
    else 39 + (bytes + eAlign2048 - 1025) / eAlign2048
  else 47 + (bytes + eAlign4096 - 2049) / eAlign4096

/-- The size of the blocks in a free list: sixteen lists for the sizes up to 128, and eight for
each power of two behind it. -/
def blockSize (i : Nat) : Nat :=
  if i < 16 then 8 * (i + 1) else 2 ^ (i / 8 + 5) + 2 ^ (i / 8 + 2) * (i % 8 + 1)

variable {n : BitVec 64}

theorem toNat_and_not (x m : BitVec 64) {k : Nat} (hm : m.toNat = 2 ^ k - 1) :
    (x &&& ~~~m).toNat = x.toNat / 2 ^ k * 2 ^ k := by
  have hlow : (x &&& m).toNat = x.toNat % 2 ^ k := by
    rw [BitVec.toNat_and, hm, Nat.and_two_pow_sub_one_eq_mod]
  have hparts : (x &&& ~~~m) ||| (x &&& m) = x := by
    ext i hi
    simp only [BitVec.getElem_or, BitVec.getElem_and, BitVec.getElem_not]
    cases x[i] <;> cases m[i] <;> rfl
  have hdisjoint : (x &&& ~~~m) &&& (x &&& m) = 0#64 := by
    ext i hi
    simp only [BitVec.getElem_and, BitVec.getElem_not, BitVec.getElem_zero]
    cases x[i] <;> cases m[i] <;> rfl
  have hsum : (x &&& ~~~m) = x - (x &&& m) := by
    rw [BitVec.eq_sub_iff_add_eq, BitVec.add_eq_or_of_and_eq_zero _ _ hdisjoint, hparts]
  have hle : (x &&& m).toNat ≤ x.toNat := hlow ▸ Nat.mod_le _ _
  rw [hsum, BitVec.toNat_sub_of_le (BitVec.le_def.mpr hle), hlow]
  have := Nat.div_add_mod' x.toNat (2 ^ k)
  omega

/-- The list of a size and the sizes that it is for. -/
structure InList (n : BitVec 64) (i k : Nat) : Prop where
  index : (freelistIndex n).toNat = i
  align : (align n).toNat = 2 ^ k
  small : k ≤ 8
  lt : i < eFreeListsNumber
  dvd : 2 ^ k ∣ blockSize i
  le : n.toNat ≤ blockSize i
  near : blockSize i < n.toNat + 2 ^ k
  below : ∀ j, i = j + 1 → blockSize j < n.toNat

theorem blockSize_first {i : Nat} (hi : i < 16) : blockSize i = 8 * (i + 1) := if_pos hi

theorem blockSize_group (g : Nat) {q : Nat} (hq : q < 8) : blockSize (16 + 8 * g + q) = 2 ^ (g + 7) + 2 ^ (g + 4) * (q + 1) := by
  have hdiv : (16 + 8 * g + q) / 8 = g + 2 := by omega
  have hmod : (16 + 8 * g + q) % 8 = q := by omega
  rw [blockSize, if_neg (by omega), hdiv, hmod]

theorem inList_first (h0 : 0 < n.toNat) (h : n.toNat ≤ 128) : InList n ((n.toNat - 1) / 8) 3 := by
  have hindex : (freelistIndex n).toNat = (n.toNat - 1) / 8 := by
    unfold freelistIndex
    rw [if_pos (by bv_omega), if_pos (by bv_omega), if_pos (by bv_omega), eAlign128]
    simp [BitVec.toNat_sub, BitVec.toNat_add, BitVec.toNat_udiv]
    omega
  have halign : (align n).toNat = 2 ^ 3 := by
    unfold align
    rw [if_pos (by bv_omega), if_pos (by bv_omega), if_pos (by bv_omega), eAlign128]
    rfl
  have hi : (n.toNat - 1) / 8 < 16 := by omega
  refine ⟨hindex, halign, by omega, by unfold eFreeListsNumber; omega, ?_, ?_, ?_, ?_⟩
  · exact (blockSize_first hi).symm ▸ Dvd.intro _ rfl
  · rw [blockSize_first hi]
    omega
  · rw [blockSize_first hi]
    omega
  · intro j hj
    rw [blockSize_first (by omega)]
    omega

/-- The lists for the sizes from a power of two to the next. -/
theorem inList_group {g : Nat} (hg : g < 5) (hlow : 2 ^ (g + 7) < n.toNat) (hhigh : n.toNat ≤ 2 ^ (g + 8))
    (hindex : (freelistIndex n).toNat = 16 + 8 * g + (n.toNat - 2 ^ (g + 7) - 1) / 2 ^ (g + 4))
    (halign : (align n).toNat = 2 ^ (g + 4)) :
    InList n (16 + 8 * g + (n.toNat - 2 ^ (g + 7) - 1) / 2 ^ (g + 4)) (g + 4) := by
  have hseven : 2 ^ (g + 7) = 8 * 2 ^ (g + 4) := by ring
  have height : 2 ^ (g + 8) = 16 * 2 ^ (g + 4) := by ring
  have hpos : 0 < 2 ^ (g + 4) := Nat.two_pow_pos _
  have hparts := Nat.div_add_mod (n.toNat - 2 ^ (g + 7) - 1) (2 ^ (g + 4))
  have hmod := Nat.mod_lt (n.toNat - 2 ^ (g + 7) - 1) hpos
  have hq : (n.toNat - 2 ^ (g + 7) - 1) / 2 ^ (g + 4) < 8 := by
    rw [Nat.div_lt_iff_lt_mul hpos]
    omega
  generalize (n.toNat - 2 ^ (g + 7) - 1) / 2 ^ (g + 4) = q at hparts hindex hq ⊢
  have hsize := blockSize_group g hq
  rw [Nat.mul_succ] at hsize
  refine ⟨hindex, halign, by omega, by unfold eFreeListsNumber; omega, ?_, by omega, by omega, ?_⟩
  · rw [hsize, hseven]
    exact Dvd.intro (8 + q + 1) (by ring)
  · intro j hj
    cases q with
    | succ q =>
      have hbefore := blockSize_group g (q := q) (by omega)
      have hj' : j = 16 + 8 * g + q := by omega
      rw [hj', hbefore]
      omega
    | zero =>
      cases g with
      | zero =>
        rw [blockSize_first (by omega)]
        omega
      | succ g =>
        have hbefore := blockSize_group g (q := 7) (by omega)
        have hnext : 2 ^ (g + 1 + 7) = 2 ^ (g + 7) + 2 ^ (g + 4) * (7 + 1) := by ring
        have hj' : j = 16 + 8 * g + 7 := by omega
        rw [hj', hbefore]
        omega

theorem exists_inList (h0 : 0 < n.toNat) (h : n.toNat ≤ eSmallObjectBytes) : ∃ i k, InList n i k := by
  unfold eSmallObjectBytes at h
  by_cases h128 : n.toNat ≤ 128
  · exact ⟨_, _, inList_first h0 h128⟩
  by_cases h256 : n.toNat ≤ 256
  · refine ⟨_, _, inList_group (g := 0) (by omega) (by omega) (by omega) ?_ ?_⟩
    · unfold freelistIndex
      rw [if_pos (by bv_omega), if_pos (by bv_omega), if_neg (by bv_omega), eAlign256]
      simp [BitVec.toNat_sub, BitVec.toNat_add, BitVec.toNat_udiv]
      omega
    · unfold align
      rw [if_pos (by bv_omega), if_pos (by bv_omega), if_neg (by bv_omega), eAlign256]
      rfl
  by_cases h512 : n.toNat ≤ 512
  · refine ⟨_, _, inList_group (g := 1) (by omega) (by omega) (by omega) ?_ ?_⟩
    · unfold freelistIndex
      rw [if_pos (by bv_omega), if_neg (by bv_omega), eAlign512]
      simp [BitVec.toNat_sub, BitVec.toNat_add, BitVec.toNat_udiv]
      omega
    · unfold align
      rw [if_pos (by bv_omega), if_neg (by bv_omega), eAlign512]
      rfl
  by_cases h1024 : n.toNat ≤ 1024
  · refine ⟨_, _, inList_group (g := 2) (by omega) (by omega) (by omega) ?_ ?_⟩
    · unfold freelistIndex
      rw [if_neg (by bv_omega), if_pos (by bv_omega), if_pos (by bv_omega), eAlign1024]
      simp [BitVec.toNat_sub, BitVec.toNat_add, BitVec.toNat_udiv]
      omega
    · unfold align
      rw [if_neg (by bv_omega), if_pos (by bv_omega), if_pos (by bv_omega), eAlign1024]
      rfl
  by_cases h2048 : n.toNat ≤ 2048
  · refine ⟨_, _, inList_group (g := 3) (by omega) (by omega) (by omega) ?_ ?_⟩
    · unfold freelistIndex
      rw [if_neg (by bv_omega), if_pos (by bv_omega), if_neg (by bv_omega), eAlign2048]
      simp [BitVec.toNat_sub, BitVec.toNat_add, BitVec.toNat_udiv]
      omega
    · unfold align
      rw [if_neg (by bv_omega), if_pos (by bv_omega), if_neg (by bv_omega), eAlign2048]
      rfl
  · refine ⟨_, _, inList_group (g := 4) (by omega) (by omega) (by omega) ?_ ?_⟩
    · unfold freelistIndex
      rw [if_neg (by bv_omega), if_neg (by bv_omega), eAlign4096]
      simp [BitVec.toNat_sub, BitVec.toNat_add, BitVec.toNat_udiv]
      omega
    · unfold align
      rw [if_neg (by bv_omega), if_neg (by bv_omega), eAlign4096]
      rfl

theorem InList.roundUp {i k : Nat} (h : InList n i k) (hn : n.toNat ≤ eSmallObjectBytes) :
    (roundUp n).toNat = blockSize i := by
  have hsmall : 2 ^ k ≤ 2 ^ 8 := Nat.pow_le_pow_right Nat.two_pos h.small
  have hpos : 0 < 2 ^ k := Nat.two_pow_pos k
  unfold eSmallObjectBytes at hn
  have halign := h.align
  have hmask : (Alloc.align n - 1).toNat = 2 ^ k - 1 := by
    rw [BitVec.toNat_sub_of_le (BitVec.le_def.mpr (by rw [halign]; exact hpos)), halign]
    rfl
  have hsum : (n + Alloc.align n - 1).toNat = n.toNat + 2 ^ k - 1 := by
    simp only [BitVec.toNat_sub, BitVec.toNat_add, halign]
    simp
    omega
  rw [Alloc.roundUp, toNat_and_not _ _ hmask, hsum]
  -- the block size is the only multiple there is from the size on
  obtain ⟨c, hc⟩ := h.dvd
  have hle := h.le
  have hnear := h.near
  have hdiv : (n.toNat + 2 ^ k - 1) / 2 ^ k = c := by
    apply Nat.div_eq_of_lt_le
    · rw [Nat.mul_comm]
      omega
    · rw [Nat.succ_mul, Nat.mul_comm]
      omega
  rw [hdiv, hc, Nat.mul_comm]

theorem blockSize_lt {i : Nat} (hi : i + 1 < eFreeListsNumber) : blockSize i < blockSize (i + 1) := by
  have hall : ∀ i < 55, blockSize i < blockSize (i + 1) := by decide
  exact hall i (by unfold eFreeListsNumber at hi; omega)

theorem blockSize_mono {i j : Nat} (hij : i ≤ j) (hj : j < eFreeListsNumber) : blockSize i ≤ blockSize j := by
  induction j, hij using Nat.le_induction with
  | base => exact Nat.le_refl _
  | succ j hij ih => exact (ih (Nat.lt_of_succ_lt hj)).trans (blockSize_lt hj).le

theorem freelistIndex_first (n : BitVec 64) (h0 : 0 < n.toNat) (h : n.toNat ≤ eSmallObjectBytes) :
    (freelistIndex n).toNat < eFreeListsNumber ∧ (roundUp n).toNat = blockSize (freelistIndex n).toNat ∧
      ∀ i < eFreeListsNumber, (freelistIndex n).toNat ≤ i ↔ n.toNat ≤ blockSize i := by
  obtain ⟨j, k, hlist⟩ := exists_inList h0 h
  rw [hlist.index]
  refine ⟨hlist.lt, hlist.roundUp h, fun i hi => ⟨fun hle => hlist.le.trans (blockSize_mono hle hi), fun hle => ?_⟩⟩
  by_contra hlt
  obtain ⟨j', rfl⟩ : ∃ j', j = j' + 1 := ⟨j - 1, by omega⟩
  have hbelow := hlist.below j' rfl
  have hmono := blockSize_mono (i := i) (j := j') (by omega) (Nat.lt_of_succ_lt hlist.lt)
  omega

theorem blockSize_injective {i j : Nat} (hi : i < eFreeListsNumber) (hj : j < eFreeListsNumber)
    (h : blockSize i = blockSize j) : i = j := by
  rcases Nat.lt_trichotomy i j with hlt | heq | hlt
  · exact absurd h ((blockSize_lt (Nat.lt_of_le_of_lt hlt hj)).trans_le (blockSize_mono hlt hj)).ne
  · exact heq
  · exact absurd h ((blockSize_lt (Nat.lt_of_le_of_lt hlt hi)).trans_le (blockSize_mono hlt hi)).ne'

theorem freelistIndex_roundUp (h0 : 0 < n.toNat) (h : n.toNat ≤ eSmallObjectBytes) :
    0 < (roundUp n).toNat ∧ (roundUp n).toNat ≤ eSmallObjectBytes ∧ freelistIndex (roundUp n) = freelistIndex n := by
  obtain ⟨hlt, hround, hfirst⟩ := freelistIndex_first n h0 h
  have hle : n.toNat ≤ (roundUp n).toNat := hround ▸ (hfirst _ hlt).mp (Nat.le_refl _)
  have hmax : (roundUp n).toNat ≤ eSmallObjectBytes := by
    rw [hround]
    exact blockSize_mono (j := 55) (Nat.le_of_lt_succ hlt) (by decide)
  obtain ⟨hlt', _, hfirst'⟩ := freelistIndex_first _ (h0.trans_le hle) hmax
  refine ⟨h0.trans_le hle, hmax, BitVec.eq_of_toNat_eq (Nat.le_antisymm ?_ ?_)⟩
  · exact (hfirst' _ hlt).mpr hround.le
  · exact (hfirst _ hlt').mpr (hle.trans ((hfirst' _ hlt').mp (Nat.le_refl _)))

/-- The list of a size is the first one whose blocks are large enough, and its blocks have the
rounded size. Two sizes share a list exactly when they are rounded to the same size, so a block
that is put back for one of them is large enough for the other; and a rounded size stays in its list. -/
theorem freelistIndex_eq_iff (m n : BitVec 64) (hm0 : 0 < m.toNat) (hm : m.toNat ≤ eSmallObjectBytes) (hn0 : 0 < n.toNat)
    (hn : n.toNat ≤ eSmallObjectBytes) :
    (freelistIndex n).toNat < eFreeListsNumber ∧ (roundUp n).toNat = blockSize (freelistIndex n).toNat ∧
      (∀ i < eFreeListsNumber, (freelistIndex n).toNat ≤ i ↔ n.toNat ≤ blockSize i) ∧
      (freelistIndex m = freelistIndex n ↔ roundUp m = roundUp n) ∧
      freelistIndex (roundUp n) = freelistIndex n ∧ roundUp (roundUp n) = roundUp n := by
  obtain ⟨hltm, hroundm, _⟩ := freelistIndex_first m hm0 hm
  obtain ⟨hltn, hroundn, hfirst⟩ := freelistIndex_first n hn0 hn
  obtain ⟨hpos, hmax, hindex⟩ := freelistIndex_roundUp hn0 hn
  refine ⟨hltn, hroundn, hfirst, ⟨fun heq => ?_, fun heq => ?_⟩, hindex, ?_⟩
  · apply BitVec.eq_of_toNat_eq
    rw [hroundm, hroundn, heq]
  · apply BitVec.eq_of_toNat_eq
    apply blockSize_injective hltm hltn
    rw [← hroundm, ← hroundn, heq]
  · apply BitVec.eq_of_toNat_eq
    rw [(freelistIndex_first _ hpos hmax).2.1, hindex, hroundn]

theorem freelistIndex_eq_iff_small : ((freelistIndex 144).toNat ≤ 3 ↔ 144 ≤ blockSize 3) ∧
    (freelistIndex 130 = freelistIndex 144 ↔ roundUp 130 = roundUp 144) :=
  have h := freelistIndex_eq_iff 130 144 (by decide) (by decide) (by decide) (by decide)
  ⟨h.2.2.1 3 (by decide), h.2.2.2.1⟩

end Alloc

end CppInAction
