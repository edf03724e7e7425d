import Mathlib.Data.List.Basic
import Mathlib.Data.List.Chain
import Mathlib.Data.List.Nodup
import Mathlib.Data.Finset.Card
import Mathlib.Data.Finset.Range

namespace CppInAction

section Paths

variable {α : Type}

/-- Following next from p visits exactly the listed nodes and then is at q. -/
def Path (next : α → Option α) : Option α → List α → Option α → Prop
  | p, [], q => p = q
  | p, a :: as, q => p = some a ∧ Path next (next a) as q

variable {next next' : α → Option α} {p q r : Option α} {as bs : List α}

theorem path_append : Path next p (as ++ bs) q ↔ ∃ r, Path next p as r ∧ Path next r bs q := by
  induction as generalizing p with
  | nil => simp [Path]
  | cons a as ih => simp [Path, ih, and_assoc]

theorem Path.congr (h : Path next p as q) (hn : ∀ a ∈ as, next' a = next a) : Path next' p as q := by
  induction as generalizing p with
  | nil => exact h
  | cons a as ih =>
    refine ⟨h.1, ?_⟩
    rw [hn a (by simp)]
    exact ih h.2 fun b hb => hn b (by simp [hb])

/-- A store to a node off the path keeps it. -/
theorem Path.update [DecidableEq α] (h : Path next p as q) {a : α} (ha : a ∉ as) (v : Option α) :
    Path (Function.update next a v) p as q :=
  h.congr fun b hb => Function.update_of_ne (by rintro rfl; exact ha hb) _ _

theorem Path.concat {a : α} : Path next p (as ++ [a]) q ↔ Path next p as (some a) ∧ next a = q := by
  rw [path_append]
  constructor
  · rintro ⟨r, h, rfl, hq⟩
    exact ⟨h, hq⟩
  · rintro ⟨h, hq⟩
    exact ⟨some a, h, rfl, hq⟩

theorem Path.start (h : Path next p as none) : p = as.head? := by
  cases as with
  | nil => exact h
  | cons a as => exact h.1

/-- Only one list of nodes leads from a node to the end. -/
theorem Path.unique (h : Path next p as none) (h' : Path next p bs none) : as = bs := by
  induction as generalizing p bs with
  | nil =>
    cases bs with
    | nil => rfl
    | cons b bs => cases h.symm.trans h'.1
  | cons a as ih =>
    cases bs with
    | nil => cases h.1.symm.trans h'
    | cons b bs =>
      obtain rfl := Option.some.inj (h.1.symm.trans h'.1)
      rw [ih h.2 h'.2]

/-- A path that ends visits no node twice. -/
theorem Path.nodup (h : Path next p as none) : as.Nodup := by
  induction as generalizing p with
  | nil => exact List.nodup_nil
  | cons a as ih =>
    refine List.nodup_cons.mpr ⟨fun hmem => ?_, ih h.2⟩
    obtain ⟨l, r, rfl⟩ := List.append_of_mem hmem
    obtain ⟨q, _, hq⟩ := path_append.mp h.2
    have hstart : Path next (some a) (a :: r) none := ⟨rfl, hq.2⟩
    have hwhole : Path next (some a) (a :: (l ++ a :: r)) none := ⟨rfl, h.2⟩
    have hlen := congrArg List.length (hstart.unique hwhole)
    simp only [List.length_cons, List.length_append] at hlen
    omega

end Paths

theorem length_le_of_lt {as : List Nat} {n : Nat} (hd : as.Nodup) (h : ∀ a ∈ as, a < n) :
    as.length ≤ n := by
  have hsub : as.toFinset ⊆ Finset.range n := fun a ha => by simpa using h a (by simpa using ha)
  have hcard := Finset.card_le_card hsub
  rwa [List.toFinset_card_of_nodup hd, Finset.card_range] at hcard

end CppInAction
