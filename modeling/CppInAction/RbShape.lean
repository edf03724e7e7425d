import CppInAction.RbHeap
import Mathlib.Algebra.Ring.Nat

namespace CppInAction

open BinaryTree

namespace RbTree

/-- The color of the root; an empty tree counts as black. -/
def rootColor : BinaryTree (Nat × RbColor) → RbColor
  | nil => .black
  | node b _ _ => b.2

/-- No red node has a red child, and every way down has n black nodes. -/
def Shape : BinaryTree (Nat × RbColor) → Nat → Prop
  | nil, n => n = 0
  | node (_, .red) l r, n => rootColor l = .black ∧ rootColor r = .black ∧ Shape l n ∧ Shape r n
  | node (_, .black) l r, n => 0 < n ∧ Shape l (n - 1) ∧ Shape r (n - 1)

structure RedBlack (t : BinaryTree (Nat × RbColor)) : Prop where
  root : rootColor t = .black
  shape : ∃ n, Shape t n

/-- The subtrees that the path takes at its end: their black height and the color of their root. -/
def Takes : List (Frame (Nat × RbColor)) → Nat → RbColor → Prop
  | [], _, c => c = .black
  | ⟨_, (_, .black), u⟩ :: p, n, _ => Shape u n ∧ Takes p (n + 1) .black
  | ⟨_, (_, .red), u⟩ :: p, n, c => c = .black ∧ rootColor u = .black ∧ Shape u n ∧ Takes p n .red

def blackened : BinaryTree (Nat × RbColor) → BinaryTree (Nat × RbColor)
  | nil => nil
  | node b l r => node (b.1, .black) l r

/-- A subtree that would have black height n + 1 with its root made black, or misses one level. -/
def Short (t : BinaryTree (Nat × RbColor)) (n : Nat) : Prop :=
  match rootColor t with
  | .black => Shape t n
  | .red => Shape (blackened t) (n + 1)

variable {t l r u v w near far : BinaryTree (Nat × RbColor)} {p q : List (Frame (Nat × RbColor))} {s : Side} {a n : Nat}
  {b : Nat × RbColor} {c d : RbColor}

@[simp] theorem rootColor_nil : rootColor nil = .black := rfl

@[simp] theorem rootColor_node : rootColor (node b l r) = b.2 := rfl

@[simp] theorem rootColor_join : rootColor (join s b near far) = b.2 := by
  cases s <;> rfl

@[simp] theorem blackened_join : blackened (join s b near far) = join s (b.1, .black) near far := by
  cases s <;> rfl

@[simp] theorem rootColor_blackened : rootColor (blackened t) = .black := by
  cases t <;> rfl

theorem shape_red : Shape (join s (a, .red) near far) n ↔
    rootColor near = .black ∧ rootColor far = .black ∧ Shape near n ∧ Shape far n := by
  cases s
  · rfl
  · simp only [join, Shape]
    tauto

theorem shape_black : Shape (join s (a, .black) near far) (n + 1) ↔ Shape near n ∧ Shape far n := by
  cases s <;> simp only [join, Shape, Nat.add_sub_cancel, Nat.zero_lt_succ, true_and]
  exact and_comm

theorem Shape.black (h : Shape (join s (a, .black) near far) n) : ∃ m, n = m + 1 ∧ Shape near m ∧ Shape far m := by
  obtain ⟨m, rfl⟩ : ∃ m, n = m + 1 := by
    cases s <;> exact ⟨n - 1, by have := h.1; omega⟩
  exact ⟨m, rfl, shape_black.mp h⟩

/-- A tree that some black height is missing in is not empty. -/
theorem Shape.exists_join (h : Shape t (n + 1)) (s : Side) : ∃ b near far, t = join s b near far := by
  cases t with
  | nil => cases h
  | node b l r =>
    cases s
    · exact ⟨b, l, r, rfl⟩
    · exact ⟨b, r, l, rfl⟩

theorem exists_join_of_red (h : rootColor t = .red) (s : Side) : ∃ a near far, t = join s (a, .red) near far := by
  cases t with
  | nil => cases h
  | node b l r =>
    obtain ⟨a, c⟩ := b
    obtain rfl : c = .red := h
    cases s
    · exact ⟨a, l, r, rfl⟩
    · exact ⟨a, r, l, rfl⟩

theorem Takes.weaken (h : Takes p n .red) : Takes p n .black := by
  cases p with
  | nil => cases h
  | cons f p =>
    obtain ⟨s, ⟨a, c⟩, u⟩ := f
    cases c with
    | black => exact h
    | red => cases h.1

theorem redBlack_plug : RedBlack (plug p t) ↔ ∃ n, Shape t n ∧ Takes p n (rootColor t) := by
  induction p generalizing t with
  | nil =>
    constructor
    · rintro ⟨hc, n, hs⟩
      exact ⟨n, hs, hc⟩
    · rintro ⟨n, hs, hc⟩
      exact ⟨hc, n, hs⟩
  | cons f p ih =>
    obtain ⟨s, ⟨a, c⟩, u⟩ := f
    simp only [plug, ih, rootColor_join]
    cases c with
    | black =>
      constructor
      · rintro ⟨n, hs, hp⟩
        obtain ⟨m, rfl, ht, hu⟩ := hs.black
        exact ⟨m, ht, hu, hp⟩
      · rintro ⟨n, ht, hu, hp⟩
        exact ⟨n + 1, shape_black.mpr ⟨ht, hu⟩, hp⟩
    | red =>
      constructor
      · rintro ⟨n, hs, hp⟩
        obtain ⟨hct, hcu, ht, hu⟩ := shape_red.mp hs
        exact ⟨n, ht, hct, hcu, hu, hp⟩
      · rintro ⟨n, ht, hct, hcu, hu, hp⟩
        exact ⟨n, shape_red.mpr ⟨hct, hcu, ht, hu⟩, hp⟩

theorem Shape.blackened (h : Shape t n) : RedBlack (blackened t) := by
  refine ⟨rootColor_blackened, ?_⟩
  cases t with
  | nil => exact ⟨n, h⟩
  | node b l r =>
    obtain ⟨a, c⟩ := b
    cases c with
    | black => exact ⟨n, h⟩
    | red => exact ⟨n + 1, (shape_black (s := .left)).mpr ⟨h.2.2.1, h.2.2.2⟩⟩

theorem Shape.short (h : Shape t n) : Short t n := by
  unfold Short
  cases t with
  | nil => exact h
  | node b l r =>
    obtain ⟨a, c⟩ := b
    cases c with
    | black => exact h
    | red => exact (shape_black (s := .left)).mpr ⟨h.2.2.1, h.2.2.2⟩

/-- What a path takes does not depend on the elements of its nodes. -/
theorem takes_relabel {a' : Nat} :
    Takes (q ++ ⟨s, (a', c), u⟩ :: p) n d ↔ Takes (q ++ ⟨s, (a, c), u⟩ :: p) n d := by
  induction q generalizing n d with
  | nil => cases c <;> rfl
  | cons f q ih =>
    obtain ⟨s', ⟨b, c'⟩, v⟩ := f
    cases c' with
    | black => exact and_congr_right fun _ => ih
    | red => exact and_congr_right fun _ => and_congr_right fun _ => and_congr_right fun _ => ih

theorem Shape.height_le (h : Shape t n) : t.height ≤ 2 * n + (if rootColor t = .red then 1 else 0) := by
  induction t generalizing n with
  | nil => simp
  | node b l r ihl ihr =>
    obtain ⟨a, c⟩ := b
    cases c with
    | red =>
      have hl := ihl h.2.2.1
      have hr := ihr h.2.2.2
      simp only [h.1, h.2.1, reduceCtorEq, if_false] at hl hr
      simp only [height, rootColor_node, if_true]
      omega
    | black =>
      have hl := ihl h.2.1
      have hr := ihr h.2.2
      have hn := h.1
      have hone : ∀ c : RbColor, (if c = .red then 1 else 0) ≤ 1 := by
        intro c
        split <;> omega
      have := hone (rootColor l)
      have := hone (rootColor r)
      simp only [height, rootColor_node, reduceCtorEq, if_false]
      omega

theorem Shape.pow_le (h : Shape t n) : 2 ^ n ≤ t.numNodes + 1 := by
  induction t generalizing n with
  | nil =>
    obtain rfl : n = 0 := h
    simp
  | node b l r ihl ihr =>
    obtain ⟨a, c⟩ := b
    cases c with
    | red =>
      have hl := ihl h.2.2.1
      simp only [numNodes]
      omega
    | black =>
      obtain ⟨m, rfl, hl, hr⟩ := Shape.black (s := .left) h
      have hl := ihl hl
      have hr := ihr hr
      simp only [numNodes]
      rw [Nat.pow_succ]
      omega

/-- The height is at most twice the logarithm of the number of nodes and one. -/
theorem RedBlack.height_le (h : RedBlack t) : t.height ≤ 2 * Nat.log 2 (t.numNodes + 1) := by
  obtain ⟨n, hs⟩ := h.shape
  have hheight := hs.height_le
  have hlog := Nat.le_log_of_pow_le (by omega) hs.pow_le
  simp only [h.root, reduceCtorEq, if_false] at hheight
  omega

/-- What is left where a node of the color, with one subtree, was taken out. -/
def Hole (p : List (Frame (Nat × RbColor))) (u : BinaryTree (Nat × RbColor)) : RbColor → Prop
  | .black => ∃ n, Short u n ∧ Takes p (n + 1) .black
  | .red => RedBlack (plug p u)

theorem RedBlack.hole (h : RedBlack (plug p (join s (a, c) nil u))) : Hole p u c := by
  obtain ⟨n, hs, hp⟩ := redBlack_plug.mp h
  rw [rootColor_join] at hp
  cases c with
  | black =>
    obtain ⟨m, rfl, _, hu⟩ := hs.black
    exact ⟨m, hu.short, hp⟩
  | red =>
    obtain ⟨_, hcu, _, hu⟩ := shape_red.mp hs
    exact redBlack_plug.mpr ⟨n, hu, hcu ▸ hp.weaken⟩

theorem RedBlack.relabel {a' : Nat} (h : RedBlack (plug (q ++ ⟨s, (a, c), u⟩ :: p) t)) :
    RedBlack (plug (q ++ ⟨s, (a', c), u⟩ :: p) t) := by
  obtain ⟨n, hs, hp⟩ := redBlack_plug.mp h
  exact redBlack_plug.mpr ⟨n, hs, takes_relabel.mpr hp⟩

/-- Two black subtrees of the height that the path takes, below a node in place of its last. -/
theorem Takes.mended {x : Nat} (h : Takes (⟨s, (a, c), w⟩ :: p) n .black) (hv : Shape v n) (hcv : rootColor v = .black)
    (hu : Shape u n) (hcu : rootColor u = .black) : RedBlack (plug p (join s (x, c) v u)) := by
  refine redBlack_plug (p := ⟨s, (x, c), u⟩ :: p).mpr ⟨n, hv, ?_⟩
  rw [hcv]
  cases c with
  | black => exact ⟨hu, h.2⟩
  | red => exact ⟨rfl, hcu, hu, h.2.2.2⟩

theorem Takes.shape_sibling (h : Takes (⟨s, (a, c), u⟩ :: p) n .black) : Shape u n := by
  cases c with
  | black => exact h.1
  | red => exact h.2.2.1

theorem Shape.ne_nil (h : Shape t (n + 1)) : t ≠ nil := by
  rintro rfl
  cases h

theorem short_of_black (hc : rootColor t = .black) : Short t n ↔ Shape t n := by
  rw [Short, hc]

theorem short_of_red (hc : rootColor t = .red) : Short t n ↔ Shape (blackened t) (n + 1) := by
  rw [Short, hc]

/-- With its sibling made red, the parent of a hole is the next hole. -/
theorem Takes.short (h : Takes (⟨s, (a, c), v⟩ :: p) (n + 1) .black) (ht : Shape t n) (hu : Shape u n) :
    ∃ m, Short (join s (a, c) t u) m ∧ Takes p (m + 1) .black := by
  have hs : Shape (join s (a, .black) t u) (n + 1) := shape_black.mpr ⟨ht, hu⟩
  cases c with
  | black => exact ⟨n + 1, (short_of_black rootColor_join).mpr hs, h.2⟩
  | red => exact ⟨n, (short_of_red rootColor_join).mpr (by rwa [blackened_join]), h.2.2.2.weaken⟩

end RbTree

end CppInAction
