import Mathlib.Data.Tree.Basic
import Mathlib.Data.List.Nodup
import Mathlib.Data.List.Perm.Basic
import Mathlib.Data.Nat.Log

inductive Side
  | left
  | right
deriving DecidableEq, Repr

def Side.other : Side → Side
  | .left => .right
  | .right => .left

theorem Side.eq_or_other (s t : Side) : t = s ∨ t = s.other := by
  cases s <;> cases t <;> simp [Side.other]

@[simp] theorem Side.other_other (s : Side) : s.other.other = s := by
  cases s <;> rfl

namespace BinaryTree

variable {β : Type}

def inorder : BinaryTree β → List β
  | nil => []
  | node b l r => l.inorder ++ b :: r.inorder

def top : BinaryTree β → Option β
  | nil => none
  | node b _ _ => some b

/-- A node with its subtree on the given side first. -/
def join (s : Side) (b : β) (near far : BinaryTree β) : BinaryTree β :=
  match s with
  | .left => node b near far
  | .right => node b far near

/-- A node above a subtree: the side the subtree is on, and the other subtree. -/
structure Frame (β : Type) where
  side : Side
  label : β
  sibling : BinaryTree β
deriving DecidableEq, Repr

/-- The tree that has t at the place to which the frames lead, the lowest frame first. -/
def plug : List (Frame β) → BinaryTree β → BinaryTree β
  | [], t => t
  | f :: p, t => plug p (join f.side f.label t f.sibling)

def before : List (Frame β) → List β
  | [] => []
  | ⟨.left, _, _⟩ :: p => before p
  | ⟨.right, b, u⟩ :: p => before p ++ u.inorder ++ [b]

def after : List (Frame β) → List β
  | [] => []
  | ⟨.left, b, u⟩ :: p => b :: u.inorder ++ after p
  | ⟨.right, _, _⟩ :: p => after p

variable {s : Side} {b c : β} {t l r near far : BinaryTree β} {p q : List (Frame β)} {f : Frame β}

@[simp] theorem inorder_nil : (nil : BinaryTree β).inorder = [] := rfl

@[simp] theorem inorder_node : (node b l r).inorder = l.inorder ++ b :: r.inorder := rfl

@[simp] theorem top_nil : (nil : BinaryTree β).top = none := rfl

@[simp] theorem top_node : (node b l r).top = some b := rfl

@[simp] theorem top_join : (join s b near far).top = some b := by
  cases s <;> rfl

theorem join_other : join s.other b near far = join s b far near := by
  cases s <;> rfl

theorem mem_inorder_join {x : β} :
    x ∈ (join s b near far).inorder ↔ x = b ∨ x ∈ near.inorder ∨ x ∈ far.inorder := by
  cases s <;> simp [join] <;> tauto

@[simp] theorem numNodes_join : (join s b near far).numNodes = near.numNodes + far.numNodes + 1 := by
  cases s
  · rfl
  · simp [join, Nat.add_comm far.numNodes]

theorem height_join_lt (s : Side) (b : β) (near far : BinaryTree β) : near.height < (join s b near far).height := by
  cases s <;> simp only [join, height] <;> omega

theorem length_inorder : t.inorder.length = t.numNodes := by
  induction t with
  | nil => rfl
  | node b l r ihl ihr => simp [ihl, ihr]; omega

theorem inorder_eq_nil : t.inorder = [] ↔ t = nil := by
  cases t <;> simp

theorem inorder_rotate {a u v : BinaryTree β} :
    (join s c (join s b a u) v).inorder = (join s b a (join s c u v)).inorder := by
  cases s <;> simp [join]

theorem inorder_plug : (plug p t).inorder = before p ++ t.inorder ++ after p := by
  induction p generalizing t with
  | nil => simp [plug, before, after]
  | cons f p ih =>
    obtain ⟨s, b, u⟩ := f
    cases s <;> simp [plug, before, after, ih, join]

theorem plug_other : plug (⟨s.other, b, l⟩ :: p) t = plug (⟨s, b, t⟩ :: p) l := by
  rw [plug, plug, join_other]

theorem plug_append : plug (p ++ q) t = plug q (plug p t) := by
  induction p generalizing t with
  | nil => rfl
  | cons f p ih => exact ih

theorem join_perm : (join s b near far).inorder.Perm (b :: (near.inorder ++ far.inorder)) := by
  cases s
  · exact List.perm_middle
  · exact List.perm_middle.trans (List.perm_append_comm.cons _)

/-- The labels of a path and of its other subtrees. -/
def around (p : List (Frame β)) : List β := before p ++ after p

theorem around_cons_perm : (around (f :: p)).Perm (f.label :: (f.sibling.inorder ++ around p)) := by
  obtain ⟨s, b, u⟩ := f
  cases s
  · simp only [around, before, after, List.cons_append]
    refine List.perm_middle.trans (List.Perm.cons _ ?_)
    rw [← List.append_assoc, ← List.append_assoc]
    exact List.perm_append_comm.append_right _
  · simp only [around, before, after, List.append_assoc, List.singleton_append]
    rw [← List.append_assoc]
    refine List.perm_middle.trans (List.Perm.cons _ ?_)
    rw [← List.append_assoc]
    exact List.perm_append_comm.append_right _

theorem plug_perm : (plug p t).inorder.Perm (around p ++ t.inorder) := by
  rw [inorder_plug, around, List.append_assoc, List.append_assoc]
  exact List.perm_append_comm.append_left _

theorem plug_eq_nil : plug p t = nil ↔ p = [] ∧ t = nil := by
  induction p generalizing t with
  | nil => simp [plug]
  | cons f p ih =>
    obtain ⟨s, b, u⟩ := f
    cases s <;> simp [plug, ih, join]

theorem exists_plug {b : β} (hb : b ∈ t.inorder) : ∃ p l r, t = plug p (node b l r) := by
  induction t with
  | nil => cases hb
  | node c l r ihl ihr =>
    rcases List.mem_append.mp hb with hl | hb
    · obtain ⟨p, u, v, rfl⟩ := ihl hl
      exact ⟨p ++ [⟨.left, c, r⟩], u, v, by rw [plug_append]; rfl⟩
    · rcases List.mem_cons.mp hb with rfl | hr
      · exact ⟨[], l, r, rfl⟩
      · obtain ⟨p, u, v, rfl⟩ := ihr hr
        exact ⟨p ++ [⟨.right, c, l⟩], u, v, by rw [plug_append]; rfl⟩

theorem length_path_le : p.length + t.height ≤ (plug p t).height := by
  induction p generalizing t with
  | nil => simp [plug]
  | cons f p ih =>
    have h := ih (t := join f.side f.label t f.sibling)
    have hj : t.height + 1 ≤ (join f.side f.label t f.sibling).height := by
      cases f.side <;> simp only [join, height] <;> omega
    simp only [plug, List.length_cons]
    omega

theorem before_left (hp : ∀ f ∈ p, f.side = .left) : before p = [] := by
  induction p with
  | nil => rfl
  | cons f p ih =>
    obtain ⟨s, b, u⟩ := f
    obtain rfl : s = .left := hp _ List.mem_cons_self
    exact ih fun f hf => hp f (List.mem_cons_of_mem _ hf)

theorem after_right (hp : ∀ f ∈ p, f.side = .right) : after p = [] := by
  induction p with
  | nil => rfl
  | cons f p ih =>
    obtain ⟨s, b, u⟩ := f
    obtain rfl : s = .right := hp _ List.mem_cons_self
    exact ih fun f hf => hp f (List.mem_cons_of_mem _ hf)

theorem join_induction {motive : BinaryTree β → Prop} (s : Side) (empty : motive nil)
    (step : ∀ b near far, motive near → motive (join s b near far)) (t : BinaryTree β) : motive t := by
  induction t with
  | nil => exact empty
  | node b l r ihl ihr =>
    cases s with
    | left => exact step b l r ihl
    | right => exact step b r l ihr

theorem exists_extreme (s : Side) (ht : t ≠ nil) :
    ∃ p c far, t = plug p (join s c nil far) ∧ ∀ f ∈ p, f.side = s := by
  induction t using join_induction s with
  | empty => exact absurd rfl ht
  | step b near far ih =>
    by_cases hnear : near = nil
    · subst hnear
      exact ⟨[], b, far, rfl, by simp⟩
    · obtain ⟨p, c, v, rfl, hp⟩ := ih hnear
      refine ⟨p ++ [⟨s, b, far⟩], c, v, by rw [plug_append]; rfl, ?_⟩
      intro f hf
      rcases List.mem_append.mp hf with hf | hf
      · exact hp f hf
      · rw [List.mem_singleton.mp hf]

end BinaryTree
