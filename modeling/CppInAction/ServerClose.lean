import CppInAction.ServerTimers

namespace CppInAction

/-- The worker has no answer and runs close_conn. -/
def WorkerAt.fails : WorkerAt → ProcessResult → Bool
  | .running _ _ .processing, .failed => true
  | _, _ => false

namespace Server

variable {s t : Server} {fd k : Nat} {live : List Nat}

/-- Every connection is open or was closed, once and by a call that was meant for it. -/
structure Ledger (s : Server) : Prop where
  hits : ∀ c ∈ s.closes, c.hit = c.meant
  once : (s.closes.map Close.meant).Nodup
  known : ∀ c ∈ s.closes, ∃ k, k < s.nextConn ∧ c.meant = some k
  still : ∀ c ∈ s.conns, c.2 < s.nextConn ∧ some c.2 ∉ s.closes.map Close.meant
  all : ∀ k, k < s.nextConn → k ∈ s.conns.map Prod.snd ∨ some k ∈ s.closes.map Close.meant

/-- Every open connection has a timer of its own in the list. -/
def Due (s : Server) : Prop :=
  ∀ c ∈ s.conns, ∃ a ∈ s.timers.order, s.timers.owner a = some c.1 ∧ s.madeFor a = c.2

def ClosesOnce (s : Server) : Prop := s.Ledger ∧ s.Due

theorem Ledger.closeFd (h : s.Ledger) (hfds : s.fds.Nodup) (hids : (s.conns.map Prod.snd).Nodup)
    (hmem : (fd, k) ∈ s.conns) : (s.closeFd fd (some k)).Ledger := by
  have howner := owner_of_mem hfds hmem
  have hmeant : (s.closeFd fd (some k)).closes.map Close.meant = s.closes.map Close.meant ++ [some k] := by
    simp [Server.closeFd]
  have hk := h.still _ hmem
  refine ⟨?_, ?_, ?_, ?_, ?_⟩
  · intro c hc
    rcases List.mem_append.mp hc with hc | hc
    · exact h.hits c hc
    · rw [List.mem_singleton.mp hc]
      exact howner
  · rw [hmeant]
    exact List.nodup_append.mpr ⟨h.once, List.nodup_singleton _, by
      rintro a ha b hb rfl
      exact hk.2 (List.mem_singleton.mp hb ▸ ha)⟩
  · intro c hc
    rcases List.mem_append.mp hc with hc | hc
    · exact h.known c hc
    · rw [List.mem_singleton.mp hc]
      exact ⟨k, hk.1, rfl⟩
  · intro c hc
    obtain ⟨hc, hne⟩ := List.mem_filter.mp hc
    refine ⟨(h.still c hc).1, ?_⟩
    rw [hmeant, List.mem_append, List.mem_singleton]
    rintro (hin | heq)
    · exact (h.still c hc).2 hin
    · have hsame := List.inj_on_of_nodup_map hids hc hmem (Option.some.inj heq)
      simp [hsame] at hne
  · intro j hj
    rw [hmeant, List.mem_append, List.mem_singleton]
    rcases h.all j hj with hin | hin
    · obtain ⟨c, hc, rfl⟩ := List.mem_map.mp hin
      by_cases hfd : c.1 = fd
      · have hsame : c = (fd, k) := List.inj_on_of_nodup_map hfds hc hmem hfd
        rw [hsame]
        exact Or.inr (Or.inr rfl)
      · exact Or.inl (List.mem_map_of_mem (List.mem_filter.mpr ⟨hc, by simp [hfd]⟩))
    · exact Or.inr (Or.inl hin)

/-- A connection that the server turns away is closed at once. -/
theorem Ledger.refuse (h : s.Ledger) : Ledger
    { s with nextConn := s.nextConn + 1, closes := s.closes ++ [⟨some s.nextConn, some s.nextConn⟩] } := by
  have hnew : some s.nextConn ∉ s.closes.map Close.meant := by
    intro hin
    obtain ⟨c, hc, heq⟩ := List.mem_map.mp hin
    obtain ⟨k, hk, hm⟩ := h.known c hc
    rw [hm] at heq
    cases heq
    exact Nat.lt_irrefl _ hk
  have hmeant : (s.closes ++ [(⟨some s.nextConn, some s.nextConn⟩ : Close)]).map Close.meant =
      s.closes.map Close.meant ++ [some s.nextConn] := by simp
  refine ⟨?_, ?_, ?_, ?_, ?_⟩
  · intro c hc
    rcases List.mem_append.mp hc with hc | hc
    · exact h.hits c hc
    · rw [List.mem_singleton.mp hc]
  · rw [hmeant]
    exact List.nodup_append.mpr ⟨h.once, List.nodup_singleton _, by
      rintro a ha b hb rfl
      exact hnew (List.mem_singleton.mp hb ▸ ha)⟩
  · intro c hc
    rcases List.mem_append.mp hc with hc | hc
    · obtain ⟨k, hk, hm⟩ := h.known c hc
      exact ⟨k, Nat.lt_succ_of_lt hk, hm⟩
    · rw [List.mem_singleton.mp hc]
      exact ⟨s.nextConn, Nat.lt_succ_self _, rfl⟩
  · intro c hc
    obtain ⟨hlt, hout⟩ := h.still c hc
    refine ⟨Nat.lt_succ_of_lt hlt, ?_⟩
    rw [hmeant, List.mem_append, List.mem_singleton]
    rintro (hin | heq)
    · exact hout hin
    · exact Nat.ne_of_lt hlt (Option.some.inj heq)
  · intro j hj
    rw [hmeant, List.mem_append, List.mem_singleton]
    rcases Nat.lt_succ_iff_lt_or_eq.mp hj with hlt | rfl
    · exact (h.all j hlt).imp_right Or.inl
    · exact Or.inr (Or.inr rfl)

theorem Ledger.admitted (h : s.Ledger) (a : Nat) (l : TimerList) : (s.admitted fd a l).Ledger := by
  have hold : ∀ {j}, some j ∈ s.closes.map Close.meant → j < s.nextConn := by
    intro j hin
    obtain ⟨c, hc, heq⟩ := List.mem_map.mp hin
    obtain ⟨k, hk, hm⟩ := h.known c hc
    rw [hm] at heq
    exact Option.some.inj heq ▸ hk
  refine ⟨h.hits, h.once, ?_, ?_, ?_⟩
  · intro c hc
    obtain ⟨k, hk, hm⟩ := h.known c hc
    exact ⟨k, Nat.lt_succ_of_lt hk, hm⟩
  · intro c hc
    rcases List.mem_cons.mp hc with rfl | hc
    · exact ⟨Nat.lt_succ_self _, fun hin => Nat.lt_irrefl _ (hold hin)⟩
    · exact ⟨Nat.lt_succ_of_lt (h.still c hc).1, (h.still c hc).2⟩
  · intro j hj
    rcases Nat.lt_succ_iff_lt_or_eq.mp hj with hlt | rfl
    · exact (h.all j hlt).imp_left (List.mem_cons_of_mem _)
    · exact Or.inl List.mem_cons_self

/-- Between the calls of del_timer the timers in the list are those of the open
connections, and events come only for these. -/
structure Kept (s : Server) (live : List Nat) : Prop where
  ledger : s.Ledger
  chain : s.timers.Chain live none
  fds : s.fds.Nodup
  ids : (s.conns.map Prod.snd).Nodup
  timer : ∀ c ∈ s.conns, ∃ a ∈ live, s.clientData c.1 = ⟨c.1, some a⟩ ∧ s.timers.owner a = some c.1 ∧
    s.madeFor a = c.2
  back : ∀ a ∈ live, ∃ fd, s.timers.owner a = some fd ∧ (fd, s.madeFor a) ∈ s.conns ∧
    (s.clientData fd).timer = some a
  watched : ∀ fd, s.Watched fd → fd ∈ s.fds
  tick : ∀ cur, s.main = .ticking cur → s.pending = []

theorem start_kept (reactor : Bool) : (start reactor).Kept [] where
  ledger := ⟨nofun, List.nodup_nil, nofun, nofun, nofun⟩
  chain := TimerList.chain_empty
  fds := List.nodup_nil
  ids := List.nodup_nil
  timer := nofun
  back := nofun
  watched := by
    rintro fd (h | h | ⟨pc, h⟩)
    · cases h
    · cases h
    · cases h
  tick := fun _ _ => rfl

theorem Kept.due (h : s.Kept live) : s.Due := by
  intro c hc
  obtain ⟨a, ha, -, howner, hmade⟩ := h.timer c hc
  exact ⟨a, h.chain.order_eq ▸ ha, howner, hmade⟩

/-- The step leaves the connections and what was closed. -/
structure SameConns (s t : Server) : Prop where
  conns : t.conns = s.conns
  closes : t.closes = s.closes

theorem Ledger.same (h : s.Ledger) (hnext : t.nextConn = s.nextConn) (hc : s.SameConns t) : t.Ledger := by
  refine ⟨?_, ?_, ?_, ?_, ?_⟩
  · rw [hc.closes]; exact h.hits
  · rw [hc.closes]; exact h.once
  · rw [hc.closes, hnext]; exact h.known
  · rw [hc.closes, hc.conns, hnext]; exact h.still
  · rw [hc.closes, hc.conns, hnext]; exact h.all

theorem ClosesOnce.same (h : s.ClosesOnce) (ha : s.Aside t) (hc : s.SameConns t) : t.ClosesOnce := by
  refine ⟨h.1.same ha.nextConn hc, ?_⟩
  rw [Due, hc.conns, ha.timers, ha.madeFor]
  exact h.2

theorem Kept.same (h : s.Kept live) (ha : s.Aside t) (hc : s.SameConns t) : t.Kept live where
  ledger := h.ledger.same ha.nextConn hc
  chain := ha.timers ▸ h.chain
  fds := by rw [Server.fds, hc.conns]; exact h.fds
  ids := by rw [hc.conns]; exact h.ids
  timer := by rw [hc.conns, ha.timers, ha.clientData, ha.madeFor]; exact h.timer
  back := by rw [hc.conns, ha.timers, ha.clientData, ha.madeFor]; exact h.back
  watched := by rw [Server.fds, hc.conns]; exact fun fd hfd => h.watched fd (ha.watched fd hfd)
  tick := fun cur hm => (ha.tick cur hm).elim id fun hs => hs.2.trans (h.tick cur hs.1)

theorem write_sameConns (s : Server) (fd : Nat) (w : WriteResult) : s.SameConns (s.write fd w) := by
  cases w <;> exact ⟨rfl, rfl⟩

theorem append_sameConns (s : Server) (fd : Nat) (state : Option Ev) (next : MainAt) :
    s.SameConns (s.append fd state next) := by
  unfold append
  split
  next => exact ⟨rfl, rfl⟩
  next => cases state <;> exact ⟨rfl, rfl⟩

theorem handler_sameConns {r : Choice} {pc : MainPc} (hrenew : pc.renews = false)
    (hremove : pc.removes = false) : s.SameConns (s.handler fd r pc) := by
  cases pc with
  | renewFirst ev => cases hrenew
  | renewLast => cases hrenew
  | remove ev => cases hremove
  | removeLast => cases hremove
  | append ev => exact s.append_sameConns fd (some ev) _
  | appendP => exact s.append_sameConns fd none _
  | write => exact ⟨(s.write_sameConns fd r.write).conns, (s.write_sameConns fd r.write).closes⟩
  | read => exact ⟨rfl, rfl⟩
  | poll ev => exact ⟨rfl, rfl⟩
  | sawImprov ev => exact ⟨rfl, rfl⟩
  | clearFlag ev => cases ev <;> exact ⟨rfl, rfl⟩
  | clearImprov ev => cases ev <;> exact ⟨rfl, rfl⟩

theorem workerMoves_sameConns {i : Nat} {r : Choice} (h : s.WorkerMoves i r t)
    (hr : (s.workers i).fails r.process = false) : s.SameConns t := by
  cases h with
  | write hw => exact ⟨(s.write_sameConns _ r.write).conns, (s.write_sameConns _ r.write).closes⟩
  | close hw hp hfd => rw [hw, hp] at hr; cases hr
  | _ => exact ⟨rfl, rfl⟩

theorem Kept.renew {now : Int} {pc : MainPc} {main : MainAt} (h : s.Kept live)
    (hm : s.main = .handling fd pc) (hmain : main = .idle ∨ ∃ next, main = .handling fd next)
    (hmov : ∀ a, (s.clientData fd).timer = some a → s.timers.Movable a (now + 3 * timeslot)) :
    ∃ live', (s.renew fd now main).Kept live' := by
  have hopen := h.watched fd (Or.inr (Or.inr ⟨pc, hm⟩))
  obtain ⟨c, hc, rfl⟩ := List.mem_map.mp hopen
  obtain ⟨a, ha, hdata, -⟩ := h.timer c hc
  have htimer : (s.clientData c.1).timer = some a := by rw [hdata]
  obtain ⟨l, live', heq, hl, hperm, howner⟩ := renew_ok h.chain htimer ha (hmov a htimer)
  have hgo := h.same (Aside.handling hm hmain) ⟨rfl, rfl⟩
  refine ⟨live', ?_⟩
  rw [heq]
  exact { hgo with
    chain := hl
    ledger := hgo.ledger.same rfl ⟨rfl, rfl⟩
    timer := by
      simp only [howner, hperm.mem_iff]
      exact hgo.timer
    back := by
      simp only [howner, hperm.mem_iff]
      exact hgo.back }

/-- cb_func for a timer of the list closes its connection and no other. -/
theorem Kept.cbFunc {a : Nat} (h : s.Kept live) (hmem : (fd, k) ∈ s.conns)
    (hdata : s.clientData fd = ⟨fd, some a⟩) (hmade : s.madeFor a = k) :
    (s.cbFunc (s.clientData fd) a).Ledger := by
  have hledger := h.ledger.closeFd h.fds h.ids hmem
  rw [Server.cbFunc, hdata, hmade]
  exact hledger.same rfl ⟨rfl, rfl⟩

theorem Kept.delTimer {pc : MainPc} (h : s.Kept live) (hm : s.main = .handling fd pc) (next : MainAt) :
    (s.delTimer fd next).ClosesOnce ∧ ∃ a, (s.delTimer fd next).main = .unlink a next := by
  have hopen := h.watched fd (Or.inr (Or.inr ⟨pc, hm⟩))
  obtain ⟨⟨fd, k⟩, hc, rfl⟩ := List.mem_map.mp hopen
  obtain ⟨a, ha, hdata, -, hmade⟩ := h.timer _ hc
  obtain ⟨c, hcell⟩ := h.chain.cell ha
  have heq : s.delTimer fd next = { s.cbFunc (s.clientData fd) a with main := .unlink a next } := by
    simp only [Server.delTimer, hdata, TimerList.deref_some hcell]
  rw [heq]
  refine ⟨⟨(h.cbFunc hc hdata hmade).same rfl ⟨rfl, rfl⟩, ?_⟩, a, rfl⟩
  intro d hd
  exact h.due d (List.mem_filter.mp hd).1

theorem Kept.tickStep {cur : Int} (h : s.Kept live) (hm : s.main = .ticking cur) :
    ∃ live', (s.tickStep cur).Kept live' := by
  rcases tickStep_ok cur h.chain with heq | ⟨a, u, rest, l, rfl, hu, heq, hl, howner⟩
  · rw [heq]
    refine ⟨live, { h with ledger := h.ledger.same rfl ⟨rfl, rfl⟩, watched := ?_, tick := nofun }⟩
    rintro n (hn | hn | ⟨pc, hn⟩)
    · exact h.watched n (Or.inl hn)
    · exact h.watched n (Or.inr (Or.inl hn))
    · cases hn
  · obtain ⟨fd, hfd, hconn, htimer⟩ := h.back a List.mem_cons_self
    cases Option.some.inj (hu.symm.trans hfd)
    obtain ⟨b, -, hdata, -⟩ := h.timer _ hconn
    have hab : b = a := Option.some.inj (by rw [← htimer, hdata])
    subst hab
    have hsock : (s.clientData u).sockfd = u := by rw [hdata]
    have hnd := List.nodup_cons.mp h.chain.nodup
    have hne : ∀ x ∈ rest, x ≠ b := fun x hx hxb => hnd.1 (hxb ▸ hx)
    have hconns : ∀ d, d ∈ (s.cbFunc (s.clientData u) b).conns ↔ d ∈ s.conns ∧ d.1 ≠ u := by
      intro d
      simp [Server.cbFunc, Server.closeFd, hsock]
    rw [heq]
    refine ⟨rest, ?_, hl, ?_, ?_, ?_, ?_, ?_, h.tick⟩
    · exact (h.cbFunc hconn hdata rfl).same rfl ⟨rfl, rfl⟩
    · exact h.fds.sublist (List.filter_sublist.map _)
    · exact h.ids.sublist (List.filter_sublist.map _)
    · intro d hd
      obtain ⟨hd, hdu⟩ := (hconns d).mp hd
      obtain ⟨x, hx, hxd, hxo, hxm⟩ := h.timer d hd
      have hxb : x ≠ b := by
        rintro rfl
        exact hdu (Option.some.inj (hxo.symm.trans hu))
      exact ⟨x, List.mem_of_ne_of_mem hxb hx, hxd, (howner x hxb).trans hxo, hxm⟩
    · intro x hx
      obtain ⟨f, hxo, hxc, hxt⟩ := h.back x (List.mem_cons_of_mem _ hx)
      have hfu : f ≠ u := by
        rintro rfl
        exact hne x hx (Option.some.inj (hxt.symm.trans htimer))
      exact ⟨f, (howner x (hne x hx)).trans hxo, (hconns _).mpr ⟨hxc, hfu⟩, hxt⟩
    · rintro n (hn | hn | ⟨pc, hn⟩)
      · obtain ⟨hnu, hreg⟩ := closeFd_isSome none hn
        obtain ⟨d, hd, rfl⟩ := List.mem_map.mp (h.watched n (Or.inl hreg))
        exact List.mem_map_of_mem ((hconns d).mpr ⟨hd, hsock ▸ hnu⟩)
      · change n ∈ s.pending.map Prod.fst at hn
        rw [h.tick cur hm] at hn
        cases hn
      · change s.main = _ at hn
        rw [hm] at hn
        cases hn

theorem Kept.admitted {l : TimerList} {live' : List Nat} (h : s.Kept live) (hm : s.main = .idle)
    (hfd : fd ∉ s.fds) (hl : l.Chain live' none) (hperm : live'.Perm (s.timers.fresh :: live))
    (howner : l.owner = Function.update s.timers.owner s.timers.fresh (some fd)) :
    (s.admitted fd s.timers.fresh l).Kept live' := by
  have hfresh : ∀ a ∈ live, a ≠ s.timers.fresh := by
    rintro a ha rfl
    exact Nat.lt_irrefl _ (h.chain.bound _ ((h.chain.live _).mpr (Or.inl ha)))
  have hother : ∀ c ∈ s.conns, c.1 ≠ fd := fun c hc heq => hfd (heq ▸ List.mem_map_of_mem hc)
  refine ⟨h.ledger.admitted _ l, hl, List.nodup_cons.mpr ⟨hfd, h.fds⟩, ?_, ?_, ?_, ?_, ?_⟩
  · refine List.nodup_cons.mpr ⟨fun hin => ?_, h.ids⟩
    obtain ⟨c, hc, heq⟩ := List.mem_map.mp hin
    exact Nat.ne_of_lt (h.ledger.still c hc).1 heq
  · intro c hc
    rcases List.mem_cons.mp hc with rfl | hc
    · refine ⟨s.timers.fresh, hperm.mem_iff.mpr List.mem_cons_self, ?_⟩
      simp [Server.admitted, howner]
    · obtain ⟨a, ha, hdata, hown, hmade⟩ := h.timer c hc
      refine ⟨a, hperm.mem_iff.mpr (List.mem_cons_of_mem _ ha), ?_⟩
      simp [Server.admitted, howner, Function.update_of_ne (hother c hc), Function.update_of_ne (hfresh a ha),
        hdata, hown, hmade]
  · intro a ha
    rcases List.mem_cons.mp (hperm.mem_iff.mp ha) with rfl | ha
    · exact ⟨fd, by simp [Server.admitted, howner]⟩
    · obtain ⟨f, hown, hconn, htimer⟩ := h.back a ha
      refine ⟨f, ?_⟩
      simp [Server.admitted, howner, Function.update_of_ne (hother _ hconn),
        Function.update_of_ne (hfresh a ha), hown, hconn, htimer]
  · intro n hn
    by_cases hne : n = fd
    · subst hne
      exact List.mem_cons_self
    · have hold : s.Watched n := by
        simpa [Watched, Server.admitted, Function.update_of_ne hne] using hn
      exact List.mem_cons_of_mem _ (h.watched n hold)
  · simp [Server.admitted, hm]

theorem Kept.accept {others : List Nat} {now : Int} (h : s.Kept live) (hm : s.main = .idle)
    (hends : s.timers.Ends (now + 3 * timeslot)) (hfd : lowestFree (others ++ s.fds) < maxFd) :
    ∃ live', (s.accept others now).Kept live' := by
  unfold Server.accept
  split
  next => exact ⟨live, { h with ledger := h.ledger.refuse }⟩
  next =>
    obtain ⟨l, live', heq, hl, hperm, howner⟩ := timer_eq h.chain hends hfd
    have hnew : lowestFree (others ++ s.fds) ∉ s.fds := fun hin =>
      lowestFree_not_mem _ (List.mem_append_right others hin)
    exact ⟨live', heq ▸ h.admitted hm hnew hl hperm howner⟩

/-- The step does not run close_conn in a worker, and leaves the list of timers whole:
they are only added or moved to an end of it, and for descriptors within the tables. -/
def CloseSafe (s : Server) : Act → Prop
  | .accept others now => s.timers.Ends (now + 3 * timeslot) ∧ lowestFree (others ++ s.fds) < maxFd
  | .main r => s.Renewable r.now s.main
  | .worker i r => (s.workers i).fails r.process = false
  | _ => True

instance (s : Server) (a : Act) : Decidable (s.CloseSafe a) :=
  match a with
  | .accept _ now => inferInstanceAs (Decidable (s.timers.Ends (now + 3 * timeslot) ∧ _))
  | .fetch _ => .isTrue trivial
  | .tick _ => .isTrue trivial
  | .main r => inferInstanceAs (Decidable (s.Renewable r.now s.main))
  | .worker _ _ => inferInstanceAs (Decidable (_ = false))

/-- The connections are as they should be, or del_timer has closed one and is about to fault. -/
def ClosingInv (s : Server) : Prop :=
  s.ClosesOnce ∧ (s.fault = none → (∃ live, s.Kept live) ∨ ∃ a next, s.main = .unlink a next)

theorem Kept.closingInv (h : s.Kept live) : s.ClosingInv :=
  ⟨⟨h.ledger, h.due⟩, fun _ => Or.inl ⟨live, h⟩⟩

theorem ClosingInv.worker {i : Nat} {r : Choice} (h : s.ClosingInv) (hf : s.fault = none)
    (hr : (s.workers i).fails r.process = false) (hw : s.WorkerMoves i r t) : t.ClosingInv := by
  have ha := workerMoves_aside hw
  have hc := workerMoves_sameConns hw hr
  refine ⟨h.1.same ha hc, fun _ => (h.2 hf).imp ?_ ?_⟩
  · rintro ⟨live, hk⟩
    exact ⟨live, hk.same ha hc⟩
  · rintro ⟨a, next, hm⟩
    exact ⟨a, next, (workerMoves_main hw).trans hm⟩

theorem Kept.handle {r : Choice} {pc : MainPc} (h : s.Kept live) (hm : s.main = .handling fd pc)
    (hmov : pc.renews = true → ∀ a ∈ (s.clientData fd).timer, s.timers.Movable a (r.now + 3 * timeslot)) :
    (s.handler fd r pc).ClosingInv := by
  have hremove : ∀ next, (s.delTimer fd next).ClosingInv := by
    intro next
    obtain ⟨hc, a, hu⟩ := h.delTimer hm next
    exact ⟨hc, fun _ => Or.inr ⟨a, next, hu⟩⟩
  have hrenew : ∀ main, (main = .idle ∨ ∃ next, main = .handling fd next) → pc.renews = true →
      (s.renew fd r.now main).ClosingInv := by
    intro main hmain hpc
    obtain ⟨live', hk⟩ := h.renew hm hmain (hmov hpc)
    exact hk.closingInv
  cases pc with
  | renewFirst ev => exact hrenew _ (Or.inr ⟨_, rfl⟩) rfl
  | renewLast => exact hrenew _ (Or.inl rfl) rfl
  | remove ev => exact hremove _
  | removeLast => exact hremove _
  | _ => exact (h.same (handler_aside hm rfl rfl) (handler_sameConns rfl rfl)).closingInv

theorem ClosingInv.step {a : Act} (h : s.ClosingInv) (hsafe : s.CloseSafe a) (hs : s.step a = some t) :
    t.ClosingInv := by
  obtain ⟨hf, hs⟩ := step_moves hs
  by_cases hu : ∃ a next, s.main = .unlink a next
  · obtain ⟨b, next, hu⟩ := hu
    cases hs with
    | unlink hm f => exact ⟨⟨h.1.1.same rfl ⟨rfl, rfl⟩, h.1.2⟩, nofun⟩
    | worker hw => exact h.worker hf hsafe (workerStep_moves hw)
    | accept hm => rw [hm] at hu; cases hu
    | fetch hm => rw [hm] at hu; cases hu
    | tick hm => rw [hm] at hu; cases hu
    | take hm => rw [hm] at hu; cases hu
    | handle hm => rw [hm] at hu; cases hu
    | ticking hm => rw [hm] at hu; cases hu
  · obtain ⟨live, hk⟩ := (h.2 hf).resolve_right hu
    cases hs with
    | accept hm =>
      obtain ⟨live', hk'⟩ := hk.accept hm hsafe.1 hsafe.2
      exact hk'.closingInv
    | fetch hm hp hc => exact (hk.same (fetch_aside hm hc) ⟨rfl, rfl⟩).closingInv
    | tick hm hp => exact (hk.same (tick_aside hp) ⟨rfl, rfl⟩).closingInv
    | take hm hp => exact (hk.same (take_aside hp _) ⟨rfl, rfl⟩).closingInv
    | handle hm =>
      rw [CloseSafe, hm] at hsafe
      exact hk.handle hm hsafe
    | unlink hm f => exact absurd ⟨_, _, hm⟩ hu
    | ticking hm =>
      obtain ⟨live', hk'⟩ := hk.tickStep hm
      exact hk'.closingInv
    | worker hw => exact h.worker hf hsafe (workerStep_moves hw)

/-- In a run in which no worker runs close_conn and the list of timers stays whole,
every close hits the connection it is meant for, and none is closed twice or lost. -/
theorem closesOnce_of_closeSafe (reactor : Bool) (as : List Act)
    (h : StepsMeet step CloseSafe (start reactor) as) : Along step ClosesOnce (start reactor) as :=
  along_of_invariant ClosingInv (fun _ _ _ => ClosingInv.step) (fun _ => And.left)
    (start_kept reactor).closingInv h

/-- A client is served, another hangs up. -/
def servedAndGone : List Act :=
  let r : Choice := ⟨2, true, .finished, .responded⟩
  [.accept [0, 1, 2] 0, .accept [0, 1, 2] 1, .fetch [(3, .readable), (4, .hangup)], .main r, .main r, .main r,
    .main r, .worker 0 r, .worker 0 r, .worker 0 r, .main r, .main r, .main r]

theorem closesOnce_of_closeSafe_servedAndGone :
    StepsMeet step CloseSafe (start false) servedAndGone ∧ Along step ClosesOnce (start false) servedAndGone :=
  ⟨by decide, closesOnce_of_closeSafe false servedAndGone (by decide)⟩

/-- A worker closes a connection whose response fails; its number goes to the next
client, and the timer that was left in the list closes that one. -/
theorem closesOnce_not_always :
    ¬ ∀ (reactor : Bool) (as : List Act), Along step ClosesOnce (start reactor) as := by
  intro h
  let r : Choice := ⟨0, true, .finished, .failed⟩
  have hhits := (h false [.accept [0, 1, 2] 0, .fetch [(3, .readable)], .main r, .main r, .main r, .main r,
    .worker 0 r, .worker 0 r, .worker 0 r, .worker 0 r, .worker 0 r, .accept [0, 1, 2] 14,
    .tick 15, .main r]).imp fun _ hs => hs.1.hits
  exact absurd hhits (by decide)

end Server

end CppInAction
