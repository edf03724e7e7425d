import CppInAction.LinkedPath

namespace CppInAction

section DoublyLinked

variable {α : Type}

/-- Each listed node points forward to the one behind it, which points back. -/
def Linked (next prev : α → Option α) (as : List α) : Prop :=
  as.IsChain fun a b => next a = some b ∧ prev b = some a

variable {next prev : α → Option α} {as bs : List α} {a b x : α}

theorem Linked.path (h : Linked next prev (a :: as ++ [b])) : Path next (next a) as (some b) := by
  induction as generalizing a with
  | nil => exact (List.isChain_cons_cons.mp h).1.1
  | cons c as ih =>
    obtain ⟨hac, h⟩ := List.isChain_cons_cons.mp h
    exact ⟨hac.1, ih h⟩

/-- Reading a doubly linked list from its end is reading it in the other direction. -/
theorem Linked.reverse (h : Linked next prev as) : Linked prev next as.reverse := by
  rw [Linked, List.isChain_reverse]
  exact h.imp fun _ _ hab => ⟨hab.2, hab.1⟩

theorem Linked.path_reverse (h : Linked next prev (a :: as ++ [b])) : Path prev (prev b) as.reverse (some a) := by
  have hrev : (a :: as ++ [b]).reverse = b :: as.reverse ++ [a] := by simp
  have h := h.reverse
  rw [hrev] at h
  exact h.path

theorem Linked.congr {next' prev' : α → Option α} (h : Linked next prev as) (hnext : ∀ c ∈ as, next' c = next c)
    (hprev : ∀ c ∈ as, prev' c = prev c) : Linked next' prev' as := by
  refine List.IsChain.imp_of_mem_imp (fun c d hc hd hcd => ?_) h
  rw [hnext c hc, hprev d hd]
  exact hcd

variable [DecidableEq α]

/-- A store to a link that leaves a part of the list must not touch its nodes, except for
the forward link of its last node. -/
theorem Linked.update_next {v : Option α} (h : Linked next prev (as ++ [a])) (ha : a ∉ as) :
    Linked (Function.update next a v) prev (as ++ [a]) := by
  induction as with
  | nil => exact List.isChain_singleton a
  | cons c as ih =>
    have has : a ∉ as := fun hm => ha (List.mem_cons_of_mem c hm)
    have hc : c ≠ a := fun hca => ha (hca ▸ List.mem_cons_self)
    have htail := ih (List.IsChain.tail h) has
    refine List.IsChain.cons htail fun d hd => ?_
    rw [Function.update_of_ne hc]
    exact (List.isChain_cons.mp h).1 d hd

theorem Linked.update_prev {v : Option α} (h : Linked next prev (b :: bs)) (hb : b ∉ bs) :
    Linked next (Function.update prev b v) (b :: bs) := by
  have h := h.reverse
  rw [List.reverse_cons] at h
  have h := (Linked.update_next (v := v) h (by simpa using hb)).reverse
  rwa [List.reverse_append, List.reverse_reverse, List.reverse_singleton] at h

/-- A new node between the first two. -/
theorem Linked.insert (h : Linked next prev (a :: b :: bs)) (hd : (a :: b :: bs).Nodup) (hx : x ∉ a :: b :: bs) :
    Linked (Function.update (Function.update next x (some b)) a (some x))
      (Function.update (Function.update prev x (some a)) b (some x)) (a :: x :: b :: bs) := by
  obtain ⟨ha, hd⟩ := List.nodup_cons.mp hd
  obtain ⟨hb, _⟩ := List.nodup_cons.mp hd
  have hxa : x ≠ a := fun hxa => hx (hxa ▸ List.mem_cons_self)
  have hx : x ∉ b :: bs := fun hm => hx (List.mem_cons_of_mem a hm)
  have hxb : x ≠ b := fun hxb => hx (hxb ▸ List.mem_cons_self)
  have hab : a ≠ b := fun hab => ha (hab ▸ List.mem_cons_self)
  refine List.isChain_cons_cons.mpr ⟨⟨?_, ?_⟩, List.isChain_cons_cons.mpr ⟨⟨?_, ?_⟩, ?_⟩⟩
  · exact Function.update_self ..
  · rw [Function.update_of_ne hxb, Function.update_self]
  · rw [Function.update_of_ne hxa, Function.update_self]
  · exact Function.update_self ..
  · refine Linked.congr (Linked.update_prev (v := some x) (List.isChain_cons_cons.mp h).2 hb) (fun c hc => ?_)
      (fun c hc => ?_)
    · have hca : c ≠ a := fun hca => ha (hca ▸ hc)
      have hcx : c ≠ x := fun hcx => hx (hcx ▸ hc)
      rw [Function.update_of_ne hca, Function.update_of_ne hcx]
    · have hcx : c ≠ x := fun hcx => hx (hcx ▸ hc)
      by_cases hcb : c = b
      · rw [hcb, Function.update_self, Function.update_self]
      · rw [Function.update_of_ne hcb, Function.update_of_ne hcx, Function.update_of_ne hcb]

/-- A node is taken out by joining its two neighbours. -/
theorem Linked.remove (h : Linked next prev (as ++ a :: x :: b :: bs)) (hd : (as ++ a :: x :: b :: bs).Nodup) :
    Linked (Function.update next a (some b)) (Function.update prev b (some a)) (as ++ a :: b :: bs) := by
  obtain ⟨has, hax, hxs⟩ := List.isChain_append_cons_cons.mp h
  have hbs := (List.isChain_cons_cons.mp hxs).2
  have hd' := hd
  rw [List.nodup_append] at hd'
  obtain ⟨_, hright, hdisj⟩ := hd'
  obtain ⟨ha, hright⟩ := List.nodup_cons.mp hright
  obtain ⟨hx, hright⟩ := List.nodup_cons.mp hright
  obtain ⟨hb, _⟩ := List.nodup_cons.mp hright
  have haas : a ∉ as := fun hm => hdisj a hm a List.mem_cons_self rfl
  have hab : a ≠ b := fun hab => ha (by simp [hab])
  refine List.isChain_append_cons_cons.mpr ⟨?_, ⟨Function.update_self .., Function.update_self ..⟩, ?_⟩
  · refine Linked.congr (Linked.update_next (v := some b) has haas) (fun c _ => rfl) (fun c hc => ?_)
    refine Function.update_of_ne (fun hcb => ?_) _ _
    subst hcb
    rcases List.mem_append.mp hc with hc | hc
    · exact hdisj c hc c (by simp) rfl
    · exact hab (List.mem_singleton.mp hc).symm
  · refine Linked.congr (Linked.update_prev (v := some a) hbs hb) (fun c hc => ?_) (fun c _ => rfl)
    refine Function.update_of_ne (fun hca => ?_) _ _
    subst hca
    exact ha (List.mem_cons_of_mem x hc)

end DoublyLinked

end CppInAction
