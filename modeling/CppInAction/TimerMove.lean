import CppInAction.TimerChain

namespace CppInAction

namespace TimerList

variable {l l' : TimerList} {t : Nat} {c : UtilTimer} {as : List Nat}

/-- A timer due at e stays where it is, or can be taken out safely and belongs at the end. -/
def Movable (l : TimerList) (t : Nat) (e : Int) : Prop :=
  (∀ n, l.next t = some n → ∀ x, l.expire n = some x → e < x) ∨
    ((l.head = some t ∨ l.prev t ≠ some t) ∧
      ∀ a ∈ (l.order.erase t).tail, ∀ x, l.expire a = some x → x ≤ e)

instance (l : TimerList) (t : Nat) (e : Int) : Decidable (l.Movable t e) :=
  inferInstanceAs (Decidable ((∀ n ∈ l.next t, ∀ x ∈ l.expire n, e < x) ∨
    (l.head = some t ∨ l.prev t ≠ some t) ∧ ∀ a ∈ (l.order.erase t).tail, ∀ x ∈ l.expire a, x ≤ e))

/-- The stores that take the head out. -/
theorem Chain.unlink_head {n : Nat} {rest : List Nat} (h : l.Chain (t :: n :: rest) none) :
    ∃ l1 l2, { l with head := some n }.setPrev (some n) none = .ok l1 ∧
      l1.setNext (some t) none = .ok l2 ∧ l2.Chain (n :: rest) (some t) ∧ l2.data = l.data ∧
      l2.head = some n := by
  have hnd := List.nodup_cons.mp h.nodup
  have hnd' := List.nodup_cons.mp hnd.2
  have hlive : ∀ b, (({ l with head := some n } : TimerList).cells b).isSome = (l.cells b).isSome :=
    fun _ => rfl
  obtain ⟨l1, h1, k1⟩ := setPrev_links (l := { l with head := some n }) (a := n)
    (by rw [hlive, h.live]; simp) none
  obtain ⟨l2, h2, k2⟩ := setNext_links (l := l1) (a := t)
    (by rw [live_of_data k1.data, hlive, h.live]; simp) none
  have hdata : l2.data = l.data := k2.data.trans k1.data
  have hnext : l2.next = Function.update l.next t none := by rw [k2.next, k1.next]; rfl
  have hprev : l2.prev = Function.update l.prev n none := by rw [k2.prev, k1.prev]; rfl
  have hhead : l2.head = some n := by rw [k2.head, k1.head]
  refine ⟨l1, l2, h1, h2, ?_, hdata, hhead⟩
  refine h.relink hdata (k2.fresh.trans k1.fresh) ?_ ?_ hnd.2 ?_ ?_ ?_
  · intro b
    simp [eq_comm, or_comm]
  · rw [hhead, hnext]
    exact Path.update (h.path.2.1 ▸ h.path.2) hnd.1 none
  · intro _
    rw [k2.tail, k1.tail]
    exact (h.tail (by simp)).trans List.getLast?_cons_cons
  · have hback := back_update none hnd'.1 (List.isChain_cons.mp h.back).2
    rw [← hprev] at hback
    exact hback
  · rintro b ⟨⟩
    exact hnd.1

/-- The stores that take an inner timer out, when its prev is right. -/
theorem Chain.unlink_inner {front rest : List Nat} {f n : Nat}
    (h : l.Chain (front ++ f :: t :: n :: rest) none) :
    ∃ l1 l2, l.setNext (some f) (some n) = .ok l1 ∧ l.Links l1 (Function.update l.next f (some n)) l.prev ∧
      l1.setPrev (some n) (some f) = .ok l2 ∧ l2.Chain (front ++ f :: n :: rest) (some t) ∧
      l2.data = l.data := by
  have hsome : ∀ b ∈ front ++ f :: t :: n :: rest, (l.cells b).isSome := fun b hb =>
    (h.live b).mpr (Or.inl hb)
  have hnd := List.nodup_append.mp h.nodup
  have hndf := List.nodup_cons.mp hnd.2.1
  have hndt := List.nodup_cons.mp hndf.2
  have hndn := List.nodup_cons.mp hndt.2
  obtain ⟨l1, e1, k1⟩ := setNext_links (hsome f (by simp)) (some n)
  obtain ⟨l2, e2, k2⟩ := setPrev_links (l := l1) (a := n)
    (by rw [live_of_data k1.data]; exact hsome n (by simp)) (some f)
  have hdata := k2.data.trans k1.data
  have hnext := k2.next.trans k1.next
  have hprev : l2.prev = Function.update l.prev n (some f) := by rw [k2.prev, k1.prev]
  refine ⟨l1, l2, e1, k1, e2, ?_, hdata⟩
  obtain ⟨r, hfront, rfl, _, htn, hrest⟩ := path_append.mp h.path
  refine h.relink hdata (k2.fresh.trans k1.fresh) ?_ ?_ ?_ ?_ ?_ ?_
  · intro b
    simp [eq_comm, or_comm, or_left_comm]
  · rw [hnext, k2.head, k1.head, path_append]
    refine ⟨some f, hfront.update (fun hf => hnd.2.2 f hf f (by simp) rfl) _, rfl, ?_⟩
    rw [Function.update_self]
    have hpn : Path l.next (some n) (n :: rest) none := ⟨rfl, hrest⟩
    exact hpn.update (fun hf => hndf.1 (List.mem_cons_of_mem _ hf)) _
  · have hsub : (front ++ f :: n :: rest).Sublist (front ++ f :: t :: n :: rest) :=
      (List.Sublist.refl front).append ((List.sublist_cons_self t (n :: rest)).cons_cons f)
    exact hsub.nodup h.nodup
  · intro _
    rw [k2.tail, k1.tail, h.tail (by simp)]
    simp
  · have hkeep : ∀ y, y ≠ n → l2.prev y = l.prev y := fun y hy => by
      rw [hprev, Function.update_of_ne hy]
    obtain ⟨hbf, hbr, hbj⟩ := List.isChain_append.mp h.back
    have hbr' := (List.isChain_cons.mp (List.isChain_cons.mp hbr).2).2
    have hnf : f ≠ n := by rintro rfl; exact hndf.1 (by simp)
    refine List.isChain_append.mpr ⟨List.IsChain.imp_of_mem_imp ?_ hbf, ?_, ?_⟩
    · intro x y _ hy hxy
      rw [hkeep y (by rintro rfl; exact hnd.2.2 y hy y (by simp) rfl)]
      exact hxy
    · refine List.IsChain.cons_cons (Or.inr (by rw [hprev, Function.update_self])) ?_
      have hback := back_update (some f) hndn.1 hbr'
      rw [← hprev] at hback
      exact hback
    · rintro x hx y ⟨⟩
      rw [hkeep f hnf]
      exact hbj x hx f rfl
  · rintro b ⟨⟩ hb
    rcases List.mem_append.mp hb with hb | hb
    · exact hnd.2.2 t hb t (by simp) rfl
    · rcases List.mem_cons.mp hb with rfl | hb
      · exact hndf.1 (by simp)
      · exact hndt.1 hb

theorem Chain.renew_put (h : l.Chain as none) (hc : l.cells t = some c) (e : Int) :
    (l.put t { c with expire := e }).Chain as none := by
  have hn : (l.put t { c with expire := e }).next = l.next := by
    rw [put_next, show c.next = l.next t by simp [next, hc], Function.update_eq_self]
  have hp : (l.put t { c with expire := e }).prev = l.prev := by
    rw [put_prev, show c.prev = l.prev t by simp [prev, hc], Function.update_eq_self]
  have hl : ∀ b, ((l.put t { c with expire := e }).cells b).isSome = (l.cells b).isSome := by
    intro b
    by_cases hb : b = t
    · subst hb
      simp [put_cells_self, hc]
    · rw [put_cells_ne hb]
  refine ⟨?_, h.nodup, fun b => ?_, fun b hb => h.bound b (hl b ▸ hb), h.tail, ?_, h.outside⟩
  · rw [hn]
    exact h.path
  · rw [hl, h.live]
  · rw [hp]
    exact h.back

theorem cell_next (hc : l.cells t = some c) : c.next = l.next t := by simp [next, hc]

theorem cell_prev (hc : l.cells t = some c) : c.prev = l.prev t := by simp [prev, hc]

theorem cell_of_data (hc : l.cells t = some c) (hd : l'.data = l.data) :
    ∃ c', l'.cells t = some c' ∧ c'.expire = c.expire := by
  have ht := congrFun hd t
  simp only [data, hc, Option.map_some, Option.map_eq_some_iff] at ht
  obtain ⟨c', hc', he⟩ := ht
  exact ⟨c', hc', (Prod.mk.inj he).1⟩

/-- Taken out of the list, a timer that is due last goes to the end. -/
theorem Chain.reappend (h : l'.Chain as (some t)) (hne : as ≠ []) (hc : l.cells t = some c)
    (hd : l'.data = l.data) (hlate : ∀ a ∈ as.tail, ∀ x, l.expire a = some x → x ≤ c.expire) :
    ∃ l2, l'.addAfter t l'.head = .ok l2 ∧ l2.Chain (as ++ [t]) none ∧ l2.data = l.data := by
  obtain ⟨c', hc', he⟩ := cell_of_data hc hd
  obtain ⟨l2, hadd, hch, hd2⟩ := h.addAfter_last hne hc' (by
    rw [expire_of_data hd, he]
    exact hlate)
  exact ⟨l2, hadd, hch, hd2.trans hd⟩

/-- moveTimer on a timer that can be taken out safely and belongs at the end. -/
theorem Chain.moveTimer {n : Nat} (h : l.Chain as none) (ht : t ∈ as) (hc : l.cells t = some c)
    (hn : c.next = some n) (hsafe : l.head = some t ∨ l.prev t ≠ some t)
    (hlate : ∀ a ∈ (as.erase t).tail, ∀ x, l.expire a = some x → x ≤ c.expire) :
    ∃ l', l.moveTimer t c = .ok l' ∧ l'.Chain (as.erase t ++ [t]) none ∧ l'.data = l.data := by
  have hnext := (cell_next hc).symm.trans hn
  obtain ⟨front, back, rfl⟩ := List.append_of_mem ht
  obtain ⟨r, hfront, rfl, hback⟩ := path_append.mp h.path
  rw [hnext] at hback
  obtain ⟨rest, rfl⟩ : ∃ rest, back = n :: rest := by
    cases back with
    | nil => cases hback
    | cons b rest => exact ⟨rest, by rw [Option.some.inj hback.1]⟩
  have hnd := List.nodup_append.mp h.nodup
  have hout : t ∉ front := fun hf => hnd.2.2 t hf t (by simp) rfl
  have herase : (front ++ t :: n :: rest).erase t = front ++ n :: rest := by
    rw [List.erase_append_right _ hout, List.erase_cons_head]
  rw [herase] at hlate ⊢
  unfold TimerList.moveTimer
  rcases List.eq_nil_or_concat front with rfl | ⟨front, f, rfl⟩
  · have hhead : l.head = some t := hfront
    obtain ⟨l1, l2, h1, h2, hch, hd, hhead2⟩ := h.unlink_head
    obtain ⟨l3, h3, hch3, hd3⟩ := hch.reappend (by simp) hc hd hlate
    refine ⟨l3, ?_, hch3, hd3⟩
    simp only [hhead, if_true, hn, bind, Except.bind, h1, h2, h3]
  · rw [List.concat_eq_append, List.append_assoc] at h hlate
    have hft : f ≠ t := by
      rintro rfl
      exact hout (by simp)
    have hhead : l.head ≠ some t := by
      intro he
      have hst := h.path.start
      rw [he] at hst
      exact hout (List.mem_of_mem_head? (by
        rw [List.concat_eq_append]
        simpa [List.head?_append] using hst.symm))
    have hprev : l.prev t = some f := by
      have hb := (List.isChain_cons.mp (List.isChain_append.mp h.back).2.1).1 t (by simp)
      exact hb.resolve_left (hsafe.resolve_left hhead)
    obtain ⟨l1, l2, h1, k1, h2, hch, hd⟩ := h.unlink_inner
    obtain ⟨l3, h3, hch3, hd3⟩ := hch.reappend (by simp) hc hd hlate
    obtain ⟨c1, hc1, _⟩ := cell_of_data hc k1.data
    have hn1 : c1.next = some n := by
      rw [cell_next hc1, k1.next, Function.update_of_ne (Ne.symm hft), hnext]
    have hp1 : c1.prev = some f := by rw [cell_prev hc1, k1.prev, hprev]
    refine ⟨l3, ?_, by simpa using hch3, hd3⟩
    simp only [hhead, if_false, (cell_prev hc).trans hprev, hn, bind, Except.bind, h1, deref_some hc1, hn1,
      hp1, h2, h3]

/-- The client_data index each live timer was made for. -/
def owner (l : TimerList) (a : Nat) : Option Nat := (l.cells a).map UtilTimer.userData

theorem owner_at {a : Nat} (h : l'.data a = l.data a) : l'.owner a = l.owner a := by
  have ha := congrArg (Option.map Prod.snd) h
  simp only [data, Option.map_map] at ha
  exact ha

theorem owner_of_data (h : l'.data = l.data) : l'.owner = l.owner :=
  funext fun a => owner_at (congrFun h a)

theorem newTimer_owner (e : Int) (u b : Nat) :
    (l.newTimer e u).1.owner b = if b = l.fresh then some u else l.owner b := by
  split
  next hb =>
    subst hb
    simp [owner, newTimer, put_cells_self]
  next hb => simp [owner, newTimer, put_cells_ne hb]

/-- A timer made and added at one end of the list. -/
theorem Chain.addNew {e : Int} (h : l.Chain as none) (hends : l.Ends e) (u : Nat) :
    ∃ l' bs, (l.newTimer e u).1.addTimer l.fresh = .ok l' ∧ l'.Chain bs none ∧ bs.Perm (l.fresh :: as) ∧
      l'.owner = Function.update l.owner l.fresh (some u) := by
  have hnew := h.newTimer e u
  have hfresh := hnew.outside l.fresh rfl
  have hexpire : ∀ b ∈ as, (l.newTimer e u).1.expire b = l.expire b := by
    intro b hb
    have hne : b ≠ l.fresh := fun heq => hfresh (heq ▸ hb)
    simp [expire, TimerList.newTimer, put_cells_ne hne]
  have hends' : (l.newTimer e u).1.Ends e := by
    rw [Ends, h.order_eq] at hends
    rw [Ends, hnew.order_eq]
    refine hends.imp (fun hf b hb => ?_) (fun hf b hb => ?_)
    · rw [hexpire b (List.mem_of_mem_head? hb)]
      exact hf b hb
    · rw [hexpire b (List.mem_of_mem_tail hb)]
      exact hf b hb
  obtain ⟨l', bs, hadd, hch, hperm, hd⟩ := hnew.addTimer (c := ⟨e, u, none, none⟩) put_cells_self rfl hends'
  refine ⟨l', bs, hadd, hch, hperm, ?_⟩
  rw [owner_of_data hd]
  funext b
  rw [newTimer_owner, Function.update_apply]

theorem put_expire_owner (hc : l.cells t = some c) (e : Int) :
    (l.put t { c with expire := e }).owner = l.owner := by
  funext b
  by_cases hb : b = t
  · subst hb
    simp [owner, put_cells_self, hc]
  · simp [owner, put_cells_ne hb]

theorem put_expire_ne {b : Nat} (hb : b ≠ t) : (l.put t c).expire b = l.expire b := by
  simp [expire, put_cells_ne hb]

theorem adjustTimer_eq (hc : l.cells t = some c) {n : Nat} {cn : UtilTimer} (hn : c.next = some n)
    (hcn : l.cells n = some cn) (hlt : ¬ c.expire < cn.expire) (hne : ¬ (l.head = some t ∧ l.tail = some t)) :
    l.adjustTimer t = l.moveTimer t c := by
  simp only [adjustTimer, hne, if_false, deref_some hc, bind, Except.bind, hn, deref_some hcn, hlt]

theorem adjustTimer_stay (hc : l.cells t = some c)
    (hstay : ∀ n, c.next = some n → ∃ cn, l.cells n = some cn ∧ c.expire < cn.expire) :
    l.adjustTimer t = .ok l := by
  unfold adjustTimer
  split
  next => rfl
  next =>
    simp only [deref_some hc, bind, Except.bind]
    cases hn : c.next with
    | none => rfl
    | some n =>
      obtain ⟨cn, hcn, hlt⟩ := hstay n hn
      simp only [deref_some hcn, hlt, if_true]

/-- WebServer::adjust_timer keeps the list, if the timer stays or can be moved. -/
theorem Chain.renew {now : Int} (h : l.Chain as none) (ht : t ∈ as)
    (hmov : l.Movable t (now + 3 * timeslot)) :
    ∃ l' bs, l.renew t now = .ok l' ∧ l'.Chain bs none ∧ bs.Perm as ∧ l'.owner = l.owner := by
  obtain ⟨c, hc⟩ := h.cell ht
  have h0 := h.renew_put hc (now + 3 * timeslot)
  have hc0 : (l.put t { c with expire := now + 3 * timeslot }).cells t =
    some { c with expire := now + 3 * timeslot } := put_cells_self
  have hown := put_expire_owner hc (now + 3 * timeslot)
  have hrenew : l.renew t now = (l.put t { c with expire := now + 3 * timeslot }).adjustTimer t := by
    simp only [TimerList.renew, deref_some hc, bind, Except.bind]
  by_cases hstay : ∀ n, c.next = some n → ∃ cn,
      (l.put t { c with expire := now + 3 * timeslot }).cells n = some cn ∧
        now + 3 * timeslot < cn.expire
  · exact ⟨_, as, hrenew.trans (adjustTimer_stay hc0 hstay), h0, List.Perm.refl as, hown⟩
  · obtain ⟨n, hstay⟩ := not_forall.mp hstay
    obtain ⟨hn, hstay⟩ := Classical.not_imp.mp hstay
    have hnext : l.next t = some n := (cell_next hc).symm.trans hn
    have hlive : ∃ cn, l.cells n = some cn ∧ n ∈ as ∧ n ≠ t := by
      obtain ⟨front, back, rfl⟩ := List.append_of_mem ht
      obtain ⟨r, _, rfl, hback⟩ := path_append.mp h.path
      rw [hnext] at hback
      cases back with
      | nil => cases hback
      | cons b rest =>
        cases Option.some.inj hback.1
        obtain ⟨cn, hcn⟩ := h.cell (a := n) (by simp)
        refine ⟨cn, hcn, by simp, ?_⟩
        rintro rfl
        exact (List.nodup_cons.mp (List.nodup_append.mp h.nodup).2.1).1 (by simp)
    obtain ⟨cn, hcn, hmem, hnt⟩ := hlive
    have hcn0 : (l.put t { c with expire := now + 3 * timeslot }).cells n = some cn :=
      (put_cells_ne hnt).trans hcn
    have hlt : ¬ now + 3 * timeslot < cn.expire := fun hlt => hstay ⟨cn, hcn0, hlt⟩
    obtain ⟨hsafe, hlate⟩ := hmov.resolve_left fun hm => hlt (hm n hnext cn.expire (by simp [expire, hcn]))
    rw [h.order_eq] at hlate
    have hne : ¬ ((l.put t { c with expire := now + 3 * timeslot }).head = some t ∧
        (l.put t { c with expire := now + 3 * timeslot }).tail = some t) := by
      rintro ⟨_, htail⟩
      have hlast := (h.tail (List.ne_nil_of_mem ht)).symm.trans htail
      obtain ⟨front, hsplit⟩ := List.getLast?_eq_some_iff.mp hlast
      have hp := h.path
      rw [hsplit, Path.concat, hnext] at hp
      cases hp.2
    have hprev : (l.put t { c with expire := now + 3 * timeslot }).prev t = l.prev t := by
      rw [put_prev, Function.update_self, cell_prev hc]
    obtain ⟨l', hmove, hch, hd⟩ := h0.moveTimer ht hc0 hn (by rw [hprev]; exact hsafe) (by
      intro a ha x hx
      refine hlate a ha x ?_
      rwa [put_expire_ne] at hx
      rintro rfl
      exact (List.Nodup.not_mem_erase h.nodup) (List.mem_of_mem_tail ha))
    refine ⟨l', _, (hrenew.trans (adjustTimer_eq hc0 hn hcn0 hlt hne)).trans hmove, hch, ?_,
      (owner_of_data hd).trans hown⟩
    exact List.perm_append_comm.trans (List.perm_cons_erase ht).symm

theorem delete_of_cell (hc : l.cells t = some c) :
    l.delete t = .ok { l with cells := Function.update l.cells t none } := by
  simp only [delete, hc]

/-- Freeing a timer outside the list. -/
theorem Chain.delete (h : l.Chain as (some t)) :
    ∃ l', l.delete t = .ok l' ∧ l'.Chain as none ∧ l'.cells t = none ∧
      ∀ a, a ≠ t → l'.owner a = l.owner a := by
  obtain ⟨c, hc⟩ := h.loose_cell
  have hout := h.outside t rfl
  refine ⟨_, delete_of_cell hc, ?_, Function.update_self _ _ _, ?_⟩
  · have hcell : ∀ a ∈ as, Function.update l.cells t none a = l.cells a := fun a ha =>
      Function.update_of_ne (by rintro rfl; exact hout ha) _ _
    refine ⟨?_, h.nodup, fun a => ?_, fun a ha => ?_, h.tail, ?_, by simp⟩
    · exact h.path.congr fun a ha => by simp only [next, hcell a ha]
    · by_cases ha : a = t
      · subst ha
        simpa using hout
      · have := h.live a
        simp only [Option.some.injEq, Ne.symm ha, or_false] at this
        simp [Function.update_of_ne ha, this]
    · by_cases hat : a = t
      · subst hat
        simp at ha
      · exact h.bound a (by simpa [Function.update_of_ne hat] using ha)
    · refine List.IsChain.imp_of_mem_imp ?_ h.back
      intro x y _ hy hxy
      simp only [prev, hcell y hy]
      exact hxy
  · intro a ha
    simp [owner, Function.update_of_ne ha]

/-- tick takes the head out of the list. -/
theorem Chain.clearPrev {rest : List Nat} (h : l.Chain (t :: rest) none) (hc : l.cells t = some c) :
    ∃ l', { l with head := c.next }.clearPrev c.next = .ok l' ∧ l'.Chain rest (some t) ∧ l'.data = l.data := by
  have hnext := cell_next hc
  have hnd := List.nodup_cons.mp h.nodup
  have hpath : Path l.next c.next rest none := hnext ▸ h.path.2
  cases rest with
  | nil =>
    have hnone : c.next = none := hpath
    refine ⟨{ l with head := none }, by rw [hnone]; rfl, ?_, rfl⟩
    refine h.relink rfl rfl (by simp [eq_comm]) rfl List.nodup_nil (by simp) List.IsChain.nil (by simp)
  | cons n rest =>
    have hsome : c.next = some n := hpath.1
    have hlive : (({ l with head := some n } : TimerList).cells n).isSome :=
      (h.live n).mpr (Or.inl (by simp))
    obtain ⟨l1, h1, k1⟩ := setPrev_links hlive none
    refine ⟨l1, by rw [hsome]; exact h1, ?_, k1.data⟩
    have hprev : l1.prev = Function.update l.prev n none := k1.prev
    refine h.relink k1.data k1.fresh ?_ ?_ hnd.2 ?_ ?_ ?_
    · intro a
      simp [eq_comm, or_comm]
    · rw [k1.next, k1.head]
      exact hsome ▸ hpath
    · intro _
      rw [k1.tail]
      exact (h.tail (by simp)).trans List.getLast?_cons_cons
    · have hback := back_update none (List.nodup_cons.mp hnd.2).1 (List.isChain_cons.mp h.back).2
      rw [← hprev] at hback
      exact hback
    · rintro a ⟨⟩
      exact hnd.1

/-- tick takes the head out and frees it. -/
theorem Chain.popTimer {rest : List Nat} (h : l.Chain (t :: rest) none) (hc : l.cells t = some c) :
    ∃ l', l.popTimer t c = .ok l' ∧ l'.Chain rest none ∧ l'.cells t = none ∧
      ∀ a, a ≠ t → l'.owner a = l.owner a := by
  obtain ⟨l1, h1, hch, hd⟩ := h.clearPrev hc
  obtain ⟨l2, h2, hch2, hnone, hown⟩ := hch.delete
  refine ⟨l2, ?_, hch2, hnone, fun a ha => (hown a ha).trans (congrFun (owner_of_data hd) a)⟩
  simp only [TimerList.popTimer, bind, Except.bind, h1, h2]

theorem delete_cells (h : l.delete t = .ok l') : l'.cells t = none := by
  unfold TimerList.delete at h
  split at h
  next => cases h
  next =>
    cases Except.ok.inj h
    exact Function.update_self _ _ _

theorem bind_ok {α β : Type} {x : Except TimerFault α} {f : α → Except TimerFault β} {r : β}
    (h : x >>= f = .ok r) : ∃ a, x = .ok a ∧ f a = .ok r := by
  cases x with
  | error e => cases h
  | ok a => exact ⟨a, rfl, h⟩

/-- SortTimeLst::del_timer frees the timer whenever it returns. -/
theorem delTimer_frees (h : l.delTimer t = .ok l') : l'.cells t = none := by
  unfold delTimer at h
  split at h
  next hin =>
    split at h
    next =>
      obtain ⟨l1, hdel, h⟩ := bind_ok h
      cases Except.ok.inj h
      have hfree := delete_cells hdel
      exact hfree
    next hne =>
      rw [if_pos (hin.resolve_right hne)] at h
      obtain ⟨_, _, h⟩ := bind_ok h
      obtain ⟨_, _, h⟩ := bind_ok h
      exact delete_cells h
  next =>
    obtain ⟨_, _, h⟩ := bind_ok h
    obtain ⟨_, _, h⟩ := bind_ok h
    obtain ⟨_, _, h⟩ := bind_ok h
    obtain ⟨_, _, h⟩ := bind_ok h
    exact delete_cells h

/-- WebServer::del_timer frees the timer twice, or fails before. -/
theorem dropTimer_faults (l : TimerList) (t : Nat) : ∃ f, l.dropTimer t = .error f := by
  cases h : l.dropTimer t with
  | error f => exact ⟨f, rfl⟩
  | ok l2 =>
    obtain ⟨l1, h1, h⟩ := bind_ok h
    simp [TimerList.delete, delTimer_frees h1] at h

end TimerList

end CppInAction
