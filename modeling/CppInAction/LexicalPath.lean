import Mathlib.Data.List.Basic
import Mathlib.Data.List.Infix
import Mathlib.Data.List.Induction

namespace CppInAction

/-- A component of a path: the directory itself, its parent, or an entry. -/
inductive Component (ν : Type)
  | here | up
  | name (n : ν)
deriving DecidableEq, Repr

/-- A path reduced by its text alone: so many levels up, then down through names. -/
structure Walk (ν : Type) where
  above : Nat
  names : List ν
deriving DecidableEq, Repr

/-- A place in the file system, seen from its root or from the current directory. -/
inductive Location (ν : Type)
  | rooted (names : List ν)
  | relative (above : Nat) (names : List ν)
deriving DecidableEq, Repr

variable {ν : Type}

def Walk.step (w : Walk ν) : Component ν → Walk ν
  | .here => w
  | .up => if w.names = [] then ⟨w.above + 1, []⟩ else ⟨w.above, w.names.dropLast⟩
  | .name n => ⟨w.above, w.names ++ [n]⟩

def walk (cs : List (Component ν)) : Walk ν := cs.foldl Walk.step ⟨0, []⟩

/-- The second walk from where the first one ends: it climbs through names of the first one first. -/
def Walk.next (u v : Walk ν) : Walk ν :=
  ⟨u.above + (v.above - u.names.length), u.names.take (u.names.length - v.above) ++ v.names⟩

/-- The lexical resolution of a path; the root is its own parent. -/
def resolve (absolute : Bool) (cs : List (Component ν)) : Location ν :=
  if absolute then .rooted (walk cs).names else .relative (walk cs).above (walk cs).names

def Location.below : Location ν → List ν → Location ν
  | .rooted names, rest => .rooted (names ++ rest)
  | .relative above names, rest => .relative above (names ++ rest)

/-- The one directory is a directory prefix of the other place. -/
def Location.Contains (l m : Location ν) : Prop := ∃ rest, m = l.below rest

section Reduction

variable {u v : Walk ν} {as bs : List (Component ν)}

theorem Walk.step_up_nil (h : u.names = []) : u.step .up = ⟨u.above + 1, []⟩ := if_pos h

theorem Walk.step_up (h : u.names ≠ []) : u.step .up = ⟨u.above, u.names.dropLast⟩ := if_neg h

theorem Walk.next_up (hv : v.names = []) : (u.next v).step .up = u.next ⟨v.above + 1, []⟩ := by
  have hnames : (u.next v).names = u.names.take (u.names.length - v.above) := by simp [Walk.next, hv]
  by_cases hlt : v.above < u.names.length
  · have hne : (u.next v).names ≠ [] := by
      intro hnil
      have hlen := congrArg List.length (hnames.symm.trans hnil)
      rw [List.length_take, List.length_nil] at hlen
      omega
    rw [Walk.step_up hne, hnames, List.dropLast_eq_take, List.length_take, List.take_take]
    simp only [Walk.next, List.append_nil]
    congr 1
    · omega
    · congr 1
      omega
  · have hall : u.names.length - v.above = 0 ∧ u.names.length - (v.above + 1) = 0 := by omega
    rw [hall.1, List.take_zero] at hnames
    rw [Walk.step_up_nil hnames]
    simp only [Walk.next, hall.2, List.take_zero, List.append_nil]
    congr 1
    omega

theorem Walk.next_step (c : Component ν) : (u.next v).step c = u.next (v.step c) := by
  cases c with
  | here => rfl
  | name n => simp [Walk.next, Walk.step]
  | up =>
    by_cases hv : v.names = []
    · rw [Walk.step_up_nil hv]
      exact Walk.next_up hv
    · have hne : (u.next v).names ≠ [] := by simp [Walk.next, hv]
      rw [Walk.step_up hv, Walk.step_up hne]
      simp only [Walk.next, List.dropLast_append_of_ne_nil hv]

theorem walk_concat (cs : List (Component ν)) (c : Component ν) : walk (cs ++ [c]) = (walk cs).step c := by
  rw [walk, List.foldl_append]
  rfl

/-- A walk through two lists is the walk through the second from the end of the first. -/
theorem walk_append (as bs : List (Component ν)) : walk (as ++ bs) = (walk as).next (walk bs) := by
  induction bs using List.reverseRecOn with
  | nil => simp [walk, Walk.next]
  | append_singleton bs c ih => rw [← List.append_assoc, walk_concat, walk_concat, ih, Walk.next_step]

theorem take_append_eq_iff {xs ys : List ν} {n : Nat} :
    (∃ rest, xs.take n ++ ys = xs ++ rest) ↔ xs.drop n <+: ys := by
  constructor
  · rintro ⟨rest, h⟩
    nth_rewrite 2 [← List.take_append_drop n xs] at h
    rw [List.append_assoc] at h
    exact ⟨rest, (List.append_cancel_left h).symm⟩
  · rintro ⟨rest, rfl⟩
    exact ⟨rest, by rw [← List.append_assoc, List.take_append_drop]⟩

/-- A path that goes on stays in the directory if and only if what is added climbs no further than
the names of the directory, and goes down again through those it has climbed. -/
theorem contains_append_iff (absolute : Bool) (as bs : List (Component ν)) :
    (resolve absolute as).Contains (resolve absolute (as ++ bs)) ↔
      (absolute = true ∨ (walk bs).above ≤ (walk as).names.length) ∧
        (walk as).names.drop ((walk as).names.length - (walk bs).above) <+: (walk bs).names := by
  rw [← take_append_eq_iff]
  cases absolute with
  | true => simp [resolve, Location.Contains, Location.below, walk_append, Walk.next]
  | false =>
    simp [resolve, Location.Contains, Location.below, walk_append, Walk.next, Nat.sub_eq_zero_iff_le]

theorem contains_append_of_down (absolute : Bool) (as : List (Component ν)) (h : (walk bs).above = 0) :
    (resolve absolute as).Contains (resolve absolute (as ++ bs)) := by
  rw [contains_append_iff, h]
  simp

end Reduction

section Text

variable {α : Type} [DecidableEq α]

/-- A stretch of a path between two separators. -/
def component (dot : α) (s : List α) : Component (List α) :=
  if s = [] ∨ s = [dot] then .here
  else if s = [dot, dot] then .up
  else .name s

def components (sep dot : α) (s : List α) : List (Component (List α)) := (s.splitOn sep).map (component dot)

variable {sep dot : α}

theorem components_append (as bs : List α) :
    components sep dot (as ++ sep :: bs) = components sep dot as ++ components sep dot bs := by
  rw [components, List.splitOn_append_cons_self, List.map_append]
  rfl

theorem components_nil : components sep dot [] = [.here] := by
  simp [components, component]

theorem walk_slash (s : List α) : walk (components sep dot (sep :: s)) = walk (components sep dot s) := by
  have hsplit := @components_append _ _ sep dot [] s
  rw [List.nil_append, components_nil] at hsplit
  rw [hsplit]
  rfl

/-- One name that is not hidden goes down. -/
theorem walk_entry {s : List α} (hsep : sep ∉ s) (hdot : s.head? ≠ some dot) : (walk (components sep dot s)).above = 0 := by
  rw [components, List.splitOn_eq_singleton hsep]
  have hup : s ≠ [dot, dot] := by
    rintro rfl
    exact hdot rfl
  unfold component
  simp only [List.map_cons, List.map_nil, if_neg hup]
  split <;> rfl

end Text

end CppInAction
