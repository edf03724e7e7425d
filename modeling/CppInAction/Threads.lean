import Mathlib.Algebra.Ring.Nat
import Mathlib.Data.List.Perm.Basic

namespace CppInAction

section Threads

variable {σ τ : Type} {ts : List σ} {i : Nat} {a : σ}

/-- When one thread moves, the others are where they were. -/
theorem threads_move (h : ts[i]? = some a) (b : σ) :
    ∃ rest, ts.Perm (a :: rest) ∧ (ts.set i b).Perm (b :: rest) := by
  obtain ⟨hi, ha⟩ := List.getElem?_eq_some_iff.mp h
  refine ⟨ts.eraseIdx i, ?_, List.set_perm_cons_eraseIdx hi b⟩
  have hp := List.getElem_cons_eraseIdx_perm hi
  rw [ha] at hp
  exact hp.symm

theorem countP_move (p : σ → Bool) (h : ts[i]? = some a) (b : σ) :
    (ts.set i b).countP p + (p a).toNat = ts.countP p + (p b).toNat := by
  obtain ⟨rest, ha, hb⟩ := threads_move h b
  rw [ha.countP_eq, hb.countP_eq, List.countP_cons, List.countP_cons]
  cases p a <;> cases p b <;> simp

theorem sum_move (f : σ → Nat) (h : ts[i]? = some a) (b : σ) :
    ((ts.set i b).map f).sum + f a = (ts.map f).sum + f b := by
  obtain ⟨rest, ha, hb⟩ := threads_move h b
  rw [(ha.map f).sum_nat, (hb.map f).sum_nat, List.map_cons, List.map_cons, List.sum_cons, List.sum_cons]
  omega

theorem countP_pos_of_at {p : σ → Bool} (h : ts[i]? = some a) (ha : p a = true) : 0 < ts.countP p :=
  List.countP_pos_iff.mpr ⟨a, List.mem_of_getElem? h, ha⟩

theorem filterMap_move (f : σ → Option τ) (h : ts[i]? = some a) (b : σ) :
    ∃ rest, (ts.filterMap f).Perm ((f a).toList ++ rest) ∧
      ((ts.set i b).filterMap f).Perm ((f b).toList ++ rest) := by
  obtain ⟨rest, ha, hb⟩ := threads_move h b
  refine ⟨rest.filterMap f, (ha.filterMap f).trans ?_, (hb.filterMap f).trans ?_⟩
  · cases hf : f a <;> simp [hf]
  · cases hf : f b <;> simp [hf]

theorem set_at {b x : σ} {j : Nat} (h : (ts.set i b)[j]? = some x) : j = i ∧ x = b ∨ j ≠ i ∧ ts[j]? = some x := by
  rw [List.getElem?_set] at h
  split at h
  next hij =>
    split at h
    next => exact Or.inl ⟨hij.symm, (Option.some.inj h).symm⟩
    next => cases h
  next hij => exact Or.inr ⟨fun heq => hij heq.symm, h⟩

end Threads

end CppInAction
