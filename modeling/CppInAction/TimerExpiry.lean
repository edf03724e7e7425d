import CppInAction.TimerOrder

namespace CppInAction

namespace TimerList

variable {l l' : TimerList} {a t : Nat} {c : UtilTimer} {as : List Nat}

theorem WellFormed.delete (h : l.WellFormed as) (ht : t ∉ as) (hc : l.cells t = some c) :
    ∃ l', l.delete t = .ok l' ∧ l'.WellFormed as ∧ l'.tail = l.tail ∧ l'.cells t = none ∧
      ∀ a, a ≠ t → l'.data a = l.data a := by
  have hcell : ∀ a, a ≠ t → Function.update l.cells t none a = l.cells a := fun a ha => Function.update_of_ne ha _ _
  have hne : ∀ a ∈ as, a ≠ t := fun a ha heq => ht (heq ▸ ha)
  refine ⟨_, delete_of_cell hc, ?_, rfl, Function.update_self .., fun a ha => ?_⟩
  · refine ⟨?_, h.head, h.tail, fun a ha => ?_, fun a ha => ?_, h.nodup, fun a ha => ?_, fun a ha => ?_⟩
    · refine h.linked.congr (fun a ha => ?_) (fun a ha => ?_)
      · simp only [next, hcell a (hne a ha)]
      · simp only [prev, hcell a (hne a ha)]
    · have hold := h.first a ha
      simpa only [prev, hcell a (hne a (List.mem_of_mem_head? ha))] using hold
    · have hold := h.last a ha
      simpa only [next, hcell a (hne a (List.mem_of_mem_getLast? ha))] using hold
    · simpa only [hcell a (hne a ha)] using h.live a ha
    · by_cases hat : a = t
      · subst hat
        simp at ha
      · exact h.bound a (by simpa only [hcell a hat] using ha)
  · simp only [data, hcell a ha]

/-- The head is taken out: the next timer becomes the head and has nothing before it. -/
theorem WellFormed.unlink_head {rest : List Nat} (h : l.WellFormed (t :: rest)) (hc : l.cells t = some c) :
    ∃ l', { l with head := c.next }.clearPrev c.next = .ok l' ∧ l'.WellFormed rest ∧ l'.tail = l.tail ∧
      l'.data = l.data := by
  obtain ⟨hout, hnd⟩ := List.nodup_cons.mp h.nodup
  cases rest with
  | nil =>
    have hnone : c.next = none := (cell_next hc).trans (h.last t (by simp))
    refine ⟨{ l with head := none }, by rw [hnone]; rfl, ?_, rfl, rfl⟩
    exact h.relink rfl rfl (by simp) List.nodup_nil List.isChain_nil rfl (by simp) (by simp) (by simp)
  | cons n rest =>
    obtain ⟨hn, _⟩ := List.nodup_cons.mp hnd
    obtain ⟨⟨hnext, _⟩, hlinked⟩ := List.isChain_cons_cons.mp h.linked
    have hsome : c.next = some n := (cell_next hc).trans hnext
    have hlive : (({ l with head := some n } : TimerList).cells n).isSome := h.live n (by simp)
    obtain ⟨l1, h1, k1⟩ := setPrev_links hlive none
    refine ⟨l1, by rw [hsome]; exact h1, ?_, k1.tail, k1.data⟩
    refine h.relink k1.data k1.fresh (fun a ha => h.live a (List.mem_cons_of_mem t ha)) hnd ?_ k1.head ?_ ?_ ?_
    · rw [k1.next, k1.prev]
      exact Linked.update_prev hlinked hn
    · intro _
      rw [k1.tail]
      exact (h.tail (by simp)).trans List.getLast?_cons_cons
    · rintro a ⟨⟩
      rw [k1.prev, Function.update_self]
    · intro a ha
      rw [k1.next]
      exact h.last a (by rwa [List.getLast?_cons_cons])

/-- An inner timer is taken out by joining its neighbours. -/
theorem WellFormed.unlink_inner {front rest : List Nat} {f n : Nat}
    (h : l.WellFormed (front ++ f :: t :: n :: rest)) :
    ∃ l1 l2, l.setNext (some f) (some n) = .ok l1 ∧ l.Links l1 (Function.update l.next f (some n)) l.prev ∧
      l1.setPrev (some n) (some f) = .ok l2 ∧ l2.WellFormed (front ++ f :: n :: rest) ∧ l2.tail = l.tail ∧
      l2.data = l.data := by
  have hsub : (front ++ f :: n :: rest).Sublist (front ++ f :: t :: n :: rest) :=
    (List.Sublist.refl front).append ((List.sublist_cons_self t (n :: rest)).cons_cons f)
  have hnd := hsub.nodup h.nodup
  obtain ⟨_, hndf, hdisj⟩ := List.nodup_append.mp hnd
  obtain ⟨hf, hndn⟩ := List.nodup_cons.mp hndf
  obtain ⟨hn, _⟩ := List.nodup_cons.mp hndn
  obtain ⟨l1, h1, k1⟩ := setNext_links (h.live f (by simp)) (some n)
  obtain ⟨l2, h2, k2⟩ := setPrev_links (l := l1) (a := n)
    (by rw [live_of_data k1.data]; exact h.live n (by simp)) (some f)
  have hnext : l2.next = Function.update l.next f (some n) := k2.next.trans k1.next
  have hprev : l2.prev = Function.update l.prev n (some f) := by rw [k2.prev, k1.prev]
  have htail : l2.tail = l.tail := k2.tail.trans k1.tail
  have hdata := k2.data.trans k1.data
  refine ⟨l1, l2, h1, k1, h2, ?_, htail, hdata⟩
  refine h.relink hdata (k2.fresh.trans k1.fresh) (fun a ha => h.live a (hsub.subset ha)) hnd ?_ ?_ ?_ ?_ ?_
  · rw [hnext, hprev]
    exact h.linked.remove h.nodup
  · rw [k2.head, k1.head, h.head]
    cases front <;> rfl
  · intro _
    rw [htail, h.tail (by simp)]
    simp
  · intro a ha
    have han : a ≠ n := by
      rintro rfl
      cases front with
      | nil =>
        cases ha
        exact hf List.mem_cons_self
      | cons b front =>
        cases ha
        exact hdisj a List.mem_cons_self a (by simp) rfl
    rw [hprev, Function.update_of_ne han]
    refine h.first a ?_
    cases front <;> exact ha
  · intro a ha
    have hlast : a ∈ (n :: rest).getLast? := by simpa using ha
    have haf : a ≠ f := fun heq => hf (heq ▸ List.mem_of_mem_getLast? hlast)
    rw [hnext, Function.update_of_ne haf]
    exact h.last a (by simpa using hlast)

/-- del_timer frees the timer and leaves the others, still linked, in their order. -/
def DeletesOnly (l : TimerList) (as : List Nat) (t : Nat) : Prop :=
  ∃ l', l.delTimer t = .ok l' ∧ l'.WellFormed (as.erase t) ∧ l'.tail = (as.erase t).getLast? ∧ l'.cells t = none ∧
    ∀ a, a ≠ t → l'.data a = l.data a

theorem WellFormed.delTimer_only (h : l.WellFormed [t]) : l.DeletesOnly [t] t := by
  obtain ⟨c, hc⟩ := h.cell List.mem_cons_self
  have hempty : ({ l with head := none } : TimerList).WellFormed [] :=
    h.relink rfl rfl (by simp) List.nodup_nil List.isChain_nil rfl (by simp) (by simp) (by simp)
  obtain ⟨l1, h1, hwf, _, hfree, hdata⟩ := hempty.delete (t := t) (by simp) hc
  have hsame : l.head = l.tail := h.head.trans (h.tail (by simp)).symm
  have hdel : l.delete t = .ok { l1 with head := l.head } := by
    rw [delete_of_cell hc]
    rw [delete_of_cell (l := { l with head := none }) hc] at h1
    rw [← Except.ok.inj h1]
  refine ⟨{ l1 with head := none, tail := none }, ?_, ?_, ?_, hfree, hdata⟩
  · simp only [delTimer, hsame, or_true, if_true, hdel, bind, Except.bind]
  · rw [List.erase_cons_head]
    exact ⟨List.isChain_nil, rfl, by simp, by simp, by simp, List.nodup_nil, by simp, hwf.bound⟩
  · rw [List.erase_cons_head]
    rfl

theorem WellFormed.head_ne_tail {n : Nat} {rest : List Nat} (h : l.WellFormed (a :: n :: rest)) :
    l.head ≠ l.tail := by
  intro hsame
  have hlast : some a = (n :: rest).getLast? := by
    rw [← List.getLast?_cons_cons (a := a), ← h.tail (by simp), ← hsame]
    exact h.head.symm
  exact (List.nodup_cons.mp h.nodup).1 (List.mem_of_mem_getLast? hlast.symm)

theorem WellFormed.delTimer_head {n : Nat} {rest : List Nat} (h : l.WellFormed (t :: n :: rest)) :
    l.DeletesOnly (t :: n :: rest) t := by
  obtain ⟨c, hc⟩ := h.cell List.mem_cons_self
  have hhead : l.head = some t := h.head
  have hnext : c.next = some n := (cell_next hc).trans (List.isChain_cons_cons.mp h.linked).1.1
  obtain ⟨hout, _⟩ := List.nodup_cons.mp h.nodup
  obtain ⟨l1, h1, hwf, htail, hdata⟩ := h.unlink_head hc
  obtain ⟨c1, hc1, _⟩ := cell_of_data hc hdata
  obtain ⟨l2, h2, hwf2, htail2, hfree, hdata2⟩ := hwf.delete hout hc1
  refine ⟨l2, ?_, ?_, ?_, hfree, fun a ha => (hdata2 a ha).trans (congrFun hdata a)⟩
  · have hne : some t ≠ l.tail := hhead ▸ h.head_ne_tail
    simp only [hnext, clearPrev] at h1
    simp only [delTimer, hhead, true_or, if_true, hne, if_false, deref_some hc, bind, Except.bind, hnext, h1, h2]
  · rw [List.erase_cons_head]
    exact hwf2
  · rw [List.erase_cons_head, htail2, htail, h.tail (by simp), List.getLast?_cons_cons]

theorem WellFormed.head_ne_inner {front rest : List Nat} {f : Nat} (h : l.WellFormed (front ++ f :: t :: rest)) :
    l.head ≠ some t ∧ l.head ≠ l.tail := by
  obtain ⟨_, hnd, hdisj⟩ := List.nodup_append.mp h.nodup
  obtain ⟨hf, _⟩ := List.nodup_cons.mp hnd
  cases front with
  | nil =>
    have hhead : l.head = some f := h.head
    refine ⟨fun heq => ?_, h.head_ne_tail⟩
    cases hhead.symm.trans heq
    exact hf List.mem_cons_self
  | cons b front =>
    have hhead : l.head = some b := h.head
    refine ⟨fun heq => ?_, ?_⟩
    · cases hhead.symm.trans heq
      exact hdisj t List.mem_cons_self t (by simp) rfl
    · obtain ⟨n, more, hmore⟩ : ∃ n more, front ++ f :: t :: rest = n :: more :=
        List.exists_cons_of_ne_nil (by simp)
      rw [List.cons_append, hmore] at h
      exact h.head_ne_tail

theorem WellFormed.delTimer_inner {front rest : List Nat} {f n : Nat} (h : l.WellFormed (front ++ f :: t :: n :: rest)) :
    l.DeletesOnly (front ++ f :: t :: n :: rest) t := by
  obtain ⟨c, hc⟩ := h.cell (a := t) (by simp)
  obtain ⟨_, ⟨hft, hft'⟩, htn⟩ := List.isChain_append_cons_cons.mp h.linked
  have hnext : c.next = some n := (cell_next hc).trans (List.isChain_cons_cons.mp htn).1.1
  have hprev : c.prev = some f := (cell_prev hc).trans hft'
  obtain ⟨_, hnd, hdisj⟩ := List.nodup_append.mp h.nodup
  obtain ⟨hf, hndt⟩ := List.nodup_cons.mp hnd
  obtain ⟨hn, _⟩ := List.nodup_cons.mp hndt
  have htf : t ≠ f := fun heq => hf (heq ▸ List.mem_cons_self)
  have hfront : t ∉ front := fun hm => hdisj t hm t (by simp) rfl
  have hout : t ∉ front ++ f :: n :: rest := by
    simp only [List.mem_append, List.mem_cons, not_or]
    exact ⟨hfront, htf, fun heq => hn (heq ▸ List.mem_cons_self), fun hm => hn (List.mem_cons_of_mem n hm)⟩
  have herase : (front ++ f :: t :: n :: rest).erase t = front ++ f :: n :: rest := by
    rw [List.erase_append_right _ hfront, List.erase_cons_tail (by simpa using Ne.symm htf), List.erase_cons_head]
  obtain ⟨l1, l2, h1, k1, h2, hwf, htail, hdata⟩ := h.unlink_inner
  obtain ⟨c1, hc1, _⟩ := cell_of_data hc k1.data
  have hnext1 : c1.next = some n := by
    rw [cell_next hc1, k1.next, Function.update_of_ne htf, ← cell_next hc, hnext]
  have hprev1 : c1.prev = some f := by rw [cell_prev hc1, k1.prev, ← cell_prev hc, hprev]
  obtain ⟨c2, hc2, _⟩ := cell_of_data hc hdata
  obtain ⟨l3, h3, hwf3, htail3, hfree, hdata3⟩ := hwf.delete hout hc2
  obtain ⟨hhead, hends⟩ := h.head_ne_inner
  refine ⟨l3, ?_, herase ▸ hwf3, ?_, hfree, fun a ha => (hdata3 a ha).trans (congrFun hdata a)⟩
  · simp only [delTimer, hhead, hends, or_self, if_false, deref_some hc, bind, Except.bind, hprev, hnext, h1,
      deref_some hc1, hnext1, hprev1, h2, h3]
  · rw [herase, htail3, htail, h.tail (by simp)]
    simp

/-- The tail is treated like an inner timer, so its missing successor is dereferenced. -/
theorem WellFormed.delTimer_tail {front : List Nat} {f : Nat} (h : l.WellFormed (front ++ [f, t])) :
    l.delTimer t = .error .nullDeref := by
  obtain ⟨c, hc⟩ := h.cell (a := t) (by simp)
  have hnext : c.next = none := (cell_next hc).trans (h.last t (by simp))
  have hprev : c.prev = some f := (cell_prev hc).trans (List.isChain_append_cons_cons.mp h.linked).2.1.2
  obtain ⟨hf, _⟩ := List.nodup_cons.mp (List.nodup_append.mp h.nodup).2.1
  have htf : t ≠ f := fun heq => hf (heq ▸ List.mem_cons_self)
  obtain ⟨l1, h1, k1⟩ := setNext_links (h.live f (by simp)) none
  obtain ⟨c1, hc1, _⟩ := cell_of_data hc k1.data
  have hnext1 : c1.next = none := by
    rw [cell_next hc1, k1.next, Function.update_of_ne htf, ← cell_next hc, hnext]
  obtain ⟨hhead, hends⟩ := h.head_ne_inner
  have h2 : l1.setPrev none c1.prev = .error .nullDeref := rfl
  simp only [delTimer, hhead, hends, or_self, if_false, deref_some hc, bind, Except.bind, hprev, hnext, h1,
    deref_some hc1, hnext1, h2]

/-- Every timer can be deleted but the last of several. -/
theorem timerList_deletes_iff (l : TimerList) (as : List Nat) (t : Nat) (h : l.WellFormed as) (ht : t ∈ as) :
    l.DeletesOnly as t ↔ as = [t] ∨ l.tail ≠ some t := by
  obtain ⟨front, back, rfl⟩ := List.append_of_mem ht
  have htail := h.tail (by simp)
  cases back with
  | nil =>
    rcases List.eq_nil_or_concat front with rfl | ⟨front, f, rfl⟩
    · exact iff_of_true h.delTimer_only (Or.inl rfl)
    · rw [List.concat_eq_append, List.append_assoc] at h htail ⊢
      refine iff_of_false ?_ ?_
      · rintro ⟨l', hdel, _⟩
        cases h.delTimer_tail.symm.trans hdel
      · rintro (hone | hne)
        · simpa using congrArg List.length hone
        · exact hne (htail.trans (by simp))
  | cons n rest =>
    have hne : l.tail ≠ some t := by
      rw [htail, List.getLast?_append_cons, List.getLast?_cons_cons]
      intro hlast
      have hout := (List.nodup_cons.mp (List.nodup_append.mp h.nodup).2.1).1
      exact hout (List.mem_of_mem_getLast? hlast)
    rcases List.eq_nil_or_concat front with rfl | ⟨front, f, rfl⟩
    · exact iff_of_true h.delTimer_head (Or.inr hne)
    · rw [List.concat_eq_append, List.append_assoc] at h ⊢
      exact iff_of_true h.delTimer_inner (Or.inr hne)

theorem timerList_deletes_iff_threeTimers : (threeTimers 3).DeletesOnly [0, 1] 0 :=
  (timerList_deletes_iff _ _ 0 (threeTimers_wellFormed 3) (by decide)).mpr (Or.inr (by decide))

/-- The second of two timers cannot be deleted. -/
theorem timerList_not_always_deletes : ¬ ∀ (l : TimerList) (as : List Nat) (t : Nat), l.WellFormed as → t ∈ as →
    l.DeletesOnly as t := by
  intro h
  obtain ⟨l', hdel, _⟩ := h _ _ 1 (threeTimers_wellFormed 3) (by decide)
  have hend : (threeTimers 3).WellFormed ([] ++ [0, 1]) := threeTimers_wellFormed 3
  cases hend.delTimer_tail.symm.trans hdel

/-- The timer is due by now. -/
def due (l : TimerList) (now : Int) (a : Nat) : Bool := (l.expire a).any (decide <| · ≤ now)

theorem WellFormed.popTimer {rest : List Nat} (h : l.WellFormed (t :: rest)) (hc : l.cells t = some c) :
    ∃ l', l.popTimer t c = .ok l' ∧ l'.WellFormed rest ∧ l'.tail = l.tail ∧ l'.cells t = none ∧
      ∀ a, a ≠ t → l'.data a = l.data a := by
  obtain ⟨l1, h1, hwf, htail, hdata⟩ := h.unlink_head hc
  obtain ⟨c1, hc1, _⟩ := cell_of_data hc hdata
  obtain ⟨l2, h2, hwf2, htail2, hfree, hdata2⟩ := hwf.delete (List.nodup_cons.mp h.nodup).1 hc1
  refine ⟨l2, ?_, hwf2, htail2.trans htail, hfree, fun a ha => (hdata2 a ha).trans (congrFun hdata a)⟩
  simp only [TimerList.popTimer, bind, Except.bind, h1, h2]

theorem expired_none (now : Int) (h : l.head = none) : l.expired now = .ok none := by simp only [expired, h]

theorem expired_head {now : Int} (h : l.head = some t) (hc : l.cells t = some c) :
    l.expired now = .ok (if now < c.expire then none else some (t, c)) := by
  simp only [expired, h, deref_some hc, bind, Except.bind]
  split <;> rfl

/-- What tick leaves and whom it has called: the due timers are called in order and
freed, and the rest of the list stays. -/
structure Ticked (l : TimerList) (as : List Nat) (now : Int) (l' : TimerList) (calls : List Nat) : Prop where
  called : calls.map some = (as.filter (l.due now)).map l.owner
  remain : l'.WellFormed (as.filter (!l.due now ·))
  ascending : l'.Ascending (as.filter (!l.due now ·))
  tail : l'.tail = l.tail
  freed : ∀ a ∈ as, l.due now a → l'.cells a = none
  kept : ∀ a, a ∉ as ∨ l.due now a = false → l'.data a = l.data a

theorem due_of_data {now : Int} (h : l'.data a = l.data a) : l'.due now a = l.due now a := by
  unfold due
  rw [expire_at h]

theorem Ascending.none_due {now : Int} {rest : List Nat} (h : l.Ascending (t :: rest)) (hc : l.cells t = some c)
    (hlt : now < c.expire) : ∀ a ∈ t :: rest, l.due now a = false := by
  intro a ha
  have hle := h.head_le hc a ha
  cases hx : l.expire a with
  | none => simp [due, hx]
  | some x =>
    have := hle x hx
    simp only [due, hx, Option.any_some, decide_eq_false_iff_not]
    omega

theorem Ticked.none_due {now : Int} (h : l.WellFormed as) (hasc : l.Ascending as)
    (hnone : ∀ a ∈ as, l.due now a = false) : l.Ticked as now l [] := by
  have hkeep : as.filter (!l.due now ·) = as := List.filter_eq_self.mpr fun a ha => by simp [hnone a ha]
  have hcalled : as.filter (l.due now) = [] := List.filter_eq_nil_iff.mpr fun a ha => by simp [hnone a ha]
  refine ⟨by rw [hcalled]; rfl, by rw [hkeep]; exact h, by rw [hkeep]; exact hasc, rfl, fun a ha hdue => ?_,
    fun _ _ => rfl⟩
  rw [hnone a ha] at hdue
  cases hdue

theorem Ticked.cons {now : Int} {rest calls : List Nat} {l1 : TimerList} (ht : t ∉ rest)
    (hc : l.cells t = some c) (hle : c.expire ≤ now) (hfree : l1.cells t = none) (htail : l1.tail = l.tail)
    (hdata : ∀ a, a ≠ t → l1.data a = l.data a) (h : l1.Ticked rest now l' calls) :
    l.Ticked (t :: rest) now l' (c.userData :: calls) := by
  have hdue : l.due now t = true := by
    unfold due
    rw [expire_cell hc]
    simpa using hle
  have hsame : ∀ a ∈ rest, l1.due now a = l.due now a := fun a ha =>
    due_of_data (hdata a fun heq => ht (heq ▸ ha))
  have hremain : (t :: rest).filter (!l.due now ·) = rest.filter (!l1.due now ·) := by
    rw [List.filter_cons_of_neg (by simp [hdue])]
    exact List.filter_congr fun a ha => by rw [hsame a ha]
  have hcalled : (t :: rest).filter (l.due now) = t :: rest.filter (l1.due now) := by
    rw [List.filter_cons_of_pos hdue]
    congr 1
    exact List.filter_congr fun a ha => (hsame a ha).symm
  have howner : ∀ a ∈ rest.filter (l1.due now), l1.owner a = l.owner a := by
    intro a ha
    exact owner_at (hdata a fun heq => ht (heq ▸ (List.mem_filter.mp ha).1))
  refine ⟨?_, by rw [hremain]; exact h.remain, by rw [hremain]; exact h.ascending, h.tail.trans htail, ?_, ?_⟩
  · rw [hcalled, List.map_cons, List.map_cons, h.called, List.map_congr_left howner]
    congr 1
    simp [owner, hc]
  · intro a ha hadue
    rcases List.mem_cons.mp ha with rfl | ha
    · have hkept := h.kept a (Or.inl ht)
      simpa [data, hfree] using hkept
    · exact h.freed a ha (by rwa [hsame a ha])
  · intro a ha
    have hat : a ≠ t := by
      rintro rfl
      rcases ha with ha | ha
      · exact ha List.mem_cons_self
      · rw [hdue] at ha
        cases ha
    refine (h.kept a ?_).trans (hdata a hat)
    rw [due_of_data (hdata a hat)]
    exact ha.imp_left fun hout hm => hout (List.mem_cons_of_mem t hm)

theorem WellFormed.tickLoop {now : Int} {fuel : Nat} (calls : List Nat) (h : l.WellFormed as)
    (hasc : l.Ascending as) (hfuel : as.length < fuel) :
    ∃ l' new, tickLoop now fuel l calls = .ok (l', calls ++ new) ∧ l.Ticked as now l' new := by
  induction as generalizing l fuel calls with
  | nil =>
    obtain ⟨fuel, rfl⟩ := Nat.exists_eq_succ_of_ne_zero (Nat.pos_iff_ne_zero.mp hfuel)
    refine ⟨l, [], ?_, Ticked.none_due h hasc (by simp)⟩
    rw [List.append_nil]
    simp only [TimerList.tickLoop, expired_none now h.head, bind, Except.bind]
  | cons t rest ih =>
    obtain ⟨fuel, rfl⟩ := Nat.exists_eq_succ_of_ne_zero (Nat.pos_iff_ne_zero.mp (Nat.zero_lt_of_lt hfuel))
    obtain ⟨c, hc⟩ := h.cell List.mem_cons_self
    obtain ⟨hout, _⟩ := List.nodup_cons.mp h.nodup
    by_cases hlt : now < c.expire
    · refine ⟨l, [], ?_, Ticked.none_due h hasc (hasc.none_due hc hlt)⟩
      rw [List.append_nil]
      simp only [TimerList.tickLoop, expired_head h.head hc, hlt, if_true, bind, Except.bind]
    · obtain ⟨l1, h1, hwf, htail, hfree, hdata⟩ := h.popTimer hc
      have hasc1 := Ascending.of_data (List.pairwise_cons.mp hasc).2 fun a ha =>
        hdata a fun heq => hout (heq ▸ ha)
      obtain ⟨l', new, hloop, hticked⟩ := ih (calls ++ [c.userData]) hwf hasc1
        (by simpa using hfuel)
      refine ⟨l', c.userData :: new, ?_, Ticked.cons hout hc (Int.not_lt.mp hlt) hfree htail hdata hticked⟩
      simp only [TimerList.tickLoop, expired_head h.head hc, hlt, if_false, bind, Except.bind, h1, hloop,
        List.append_assoc, List.singleton_append]

/-- tick ends, calls and frees the due timers in order, and keeps the others. -/
theorem timerList_ticks (l : TimerList) (as : List Nat) (now : Int) (h : l.WellFormed as) (hasc : l.Ascending as) :
    ∃ l' calls, l.tick now = .ok (l', calls) ∧ l.Ticked as now l' calls := by
  have hlen : as.length ≤ l.fresh := length_le_of_lt h.nodup fun a ha => h.bound a (h.live a ha)
  exact h.tickLoop [] hasc (Nat.lt_succ_of_le hlen)

theorem timerList_ticks_threeTimers :
    ∃ l' calls, (threeTimers 3).tick 5 = .ok (l', calls) ∧ (threeTimers 3).Ticked [0, 1] 5 l' calls :=
  timerList_ticks _ _ 5 (threeTimers_wellFormed 3) (threeTimers_ascending 3)

end TimerList

end CppInAction
