import CppInAction.ServerStep

namespace CppInAction

/-- The statements that call adjust_timer. -/
def MainPc.renews : MainPc → Bool
  | .renewFirst _ => true
  | .renewLast => true
  | _ => false

/-- The statements that call WebServer::del_timer. -/
def MainPc.removes : MainPc → Bool
  | .remove _ => true
  | .removeLast => true
  | _ => false

def MainAt.removes : MainAt → Bool
  | .handling _ pc => pc.removes
  | _ => false

namespace Server

variable {s t : Server} {fd : Nat} {live : List Nat}

theorem timer_eq {now : Int} (hch : s.timers.Chain live none) (hends : s.timers.Ends (now + 3 * timeslot))
    (hfd : fd < maxFd) :
    ∃ l live', s.timer fd now = s.admitted fd s.timers.fresh l ∧ l.Chain live' none ∧
      live'.Perm (s.timers.fresh :: live) ∧
      l.owner = Function.update s.timers.owner s.timers.fresh (some fd) := by
  obtain ⟨l, live', hadd, hl, hperm, howner⟩ := hch.addNew hends fd
  refine ⟨l, live', ?_, hl, hperm, howner⟩
  have hadd' : (s.timers.newTimer (now + 3 * timeslot) fd).1.addTimer
      (s.timers.newTimer (now + 3 * timeslot) fd).2 = .ok l := hadd
  simp only [timer, if_neg (Nat.not_le.mpr hfd), hadd']
  rfl

theorem renew_ok {a : Nat} {now : Int} {next : MainAt} (hch : s.timers.Chain live none)
    (ha : (s.clientData fd).timer = some a) (hmem : a ∈ live)
    (hmov : s.timers.Movable a (now + 3 * timeslot)) :
    ∃ l live', s.renew fd now next = { s with timers := l, main := next } ∧ l.Chain live' none ∧
      live'.Perm live ∧ l.owner = s.timers.owner := by
  obtain ⟨l, live', hr, hl, hperm, howner⟩ := hch.renew hmem hmov
  refine ⟨l, live', ?_, hl, hperm, howner⟩
  simp only [Server.renew, ha, hr]

/-- A round of tick ends the loop, or closes for the first timer and frees it. -/
theorem tickStep_ok (cur : Int) (hch : s.timers.Chain live none) :
    s.tickStep cur = { s with main := .idle } ∨
      ∃ a u rest l, live = a :: rest ∧ s.timers.owner a = some u ∧
        s.tickStep cur = { s.cbFunc (s.clientData u) a with timers := l } ∧ l.Chain rest none ∧
        ∀ b, b ≠ a → l.owner b = s.timers.owner b := by
  cases live with
  | nil =>
    have hhead : s.timers.head = none := hch.path
    left
    simp only [tickStep, TimerList.expired, hhead]
  | cons a rest =>
    have hhead : s.timers.head = some a := hch.path.1
    obtain ⟨c, hc⟩ := hch.cell (List.mem_cons_self (a := a) (l := rest))
    by_cases hcur : cur < c.expire
    · left
      simp only [tickStep, TimerList.expired, hhead, TimerList.deref_some hc, bind, Except.bind, if_pos hcur]
    · right
      obtain ⟨l, hpop, hl, -, howner⟩ := hch.popTimer hc
      refine ⟨a, c.userData, rest, l, rfl, by simp [TimerList.owner, hc], ?_, hl, howner⟩
      have hpop : (s.cbFunc (s.clientData c.userData) a).timers.popTimer a c = .ok l := hpop
      simp only [tickStep, TimerList.expired, hhead, TimerList.deref_some hc, bind, Except.bind, if_neg hcur, hpop]

/-- The descriptors for which an event may come or is being handled. -/
def Watched (s : Server) (fd : Nat) : Prop :=
  (s.epoll fd).isSome ∨ fd ∈ s.pending.map Prod.fst ∨ ∃ pc, s.main = .handling fd pc

/-- A step that leaves the timers and brings no event for another descriptor. -/
structure Aside (s t : Server) : Prop where
  timers : t.timers = s.timers
  clientData : t.clientData = s.clientData
  madeFor : t.madeFor = s.madeFor
  nextConn : t.nextConn = s.nextConn
  fault : t.fault = s.fault
  watched : ∀ fd, t.Watched fd → s.Watched fd
  linked : ∀ a next, t.main = .unlink a next → s.main = .unlink a next
  tick : ∀ cur, t.main = .ticking cur → t.pending = [] ∨ s.main = .ticking cur ∧ t.pending = s.pending

theorem modfd_isSome (fd : Int) (ev : Ev) (n : Nat) :
    ((s.modfd fd ev).epoll n).isSome = (s.epoll n).isSome := by
  simp only [modfd]
  split
  next h => exact h.2.symm
  next => rfl

theorem write_isSome (s : Server) (fd : Nat) (w : WriteResult) (n : Nat) :
    ((s.write fd w).epoll n).isSome = (s.epoll n).isSome := by
  cases w with
  | failed => rfl
  | _ => exact modfd_isSome _ _ n

theorem closeFd_isSome (meant : Option Nat) {n : Nat} (h : ((s.closeFd fd meant).epoll n).isSome) :
    n ≠ fd ∧ (s.epoll n).isSome := by
  by_cases hne : n = fd
  · simp [closeFd, hne] at h
  · exact ⟨hne, by simpa [closeFd, Function.update_of_ne hne] using h⟩

theorem canFetch_isSome {events : List (Nat × Event)} (h : s.canFetch events = true) {e : Nat × Event}
    (he : e ∈ events) : (s.epoll e.1).isSome := by
  simp only [canFetch, Bool.and_eq_true, List.all_eq_true] at h
  have he := h.2 e he
  cases hreg : s.epoll e.1 with
  | none => simp [hreg] at he
  | some o => rfl

theorem fetch_aside {events : List (Nat × Event)} (hm : s.main = .idle) (h : s.canFetch events = true) :
    s.Aside (s.fetch events) where
  timers := rfl
  clientData := rfl
  madeFor := rfl
  nextConn := rfl
  fault := rfl
  watched := by
    have hreg : ∀ fd ∈ events.map Prod.fst, (s.epoll fd).isSome := by
      intro fd hfd
      obtain ⟨e, he, rfl⟩ := List.mem_map.mp hfd
      exact canFetch_isSome h he
    rintro fd (hfd | hfd | ⟨pc, hpc⟩)
    · by_cases hmem : fd ∈ events.map Prod.fst
      · exact Or.inl (hreg fd hmem)
      · simp only [fetch, if_neg hmem] at hfd
        exact Or.inl hfd
    · exact Or.inl (hreg fd hfd)
    · simp [fetch, hm] at hpc
  linked := by simp [fetch, hm]
  tick := by simp [fetch, hm]

theorem tick_aside {cur : Int} (hp : s.pending = []) : s.Aside { s with main := .ticking cur } where
  timers := rfl
  clientData := rfl
  madeFor := rfl
  nextConn := rfl
  fault := rfl
  watched := by
    rintro fd (hfd | hfd | ⟨pc, hpc⟩)
    · exact Or.inl hfd
    · exact Or.inr (Or.inl hfd)
    · cases hpc
  linked := by simp
  tick := fun _ _ => Or.inl hp

theorem take_aside {e : Event} {rest : List (Nat × Event)} (hp : s.pending = (fd, e) :: rest) (pc : MainPc) :
    s.Aside { s with pending := rest, main := .handling fd pc } where
  timers := rfl
  clientData := rfl
  madeFor := rfl
  nextConn := rfl
  fault := rfl
  watched := by
    rintro n (hn | hn | ⟨pc, hpc⟩)
    · exact Or.inl hn
    · right; left
      rw [hp]
      exact List.mem_cons_of_mem _ hn
    · cases hpc
      right; left
      simp [hp]
  linked := by simp
  tick := by simp

/-- A step of a handler that only moves the main thread on. -/
theorem Aside.handling {pc : MainPc} {main : MainAt} (hm : s.main = .handling fd pc)
    (hmain : main = .idle ∨ ∃ next, main = .handling fd next) : s.Aside { s with main := main } where
  timers := rfl
  clientData := rfl
  madeFor := rfl
  nextConn := rfl
  fault := rfl
  watched := by
    rintro n (hn | hn | ⟨next, hn⟩)
    · exact Or.inl hn
    · exact Or.inr (Or.inl hn)
    · rcases hmain with rfl | ⟨_, rfl⟩
      · cases hn
      · cases hn
        exact Or.inr (Or.inr ⟨pc, hm⟩)
  linked := by rcases hmain with rfl | ⟨_, rfl⟩ <;> simp
  tick := by rcases hmain with rfl | ⟨_, rfl⟩ <;> simp

/-- What the steps beside the timers may change. -/
theorem Aside.edit {u : Server} (h : s.Aside t) (htimers : u.timers = t.timers)
    (hdata : u.clientData = t.clientData) (hmade : u.madeFor = t.madeFor) (hnext : u.nextConn = t.nextConn)
    (hfault : u.fault = t.fault) (hreg : ∀ n, (u.epoll n).isSome → (t.epoll n).isSome)
    (hmain : u.main = t.main) (hpending : u.pending = t.pending) : s.Aside u where
  timers := htimers.trans h.timers
  clientData := hdata.trans h.clientData
  madeFor := hmade.trans h.madeFor
  nextConn := hnext.trans h.nextConn
  fault := hfault.trans h.fault
  watched := fun n hn => h.watched n (by
    rw [Watched, hmain, hpending] at hn
    exact hn.imp_left (hreg n))
  linked := by rw [hmain]; exact h.linked
  tick := by rw [hmain, hpending]; exact h.tick

theorem Aside.refl : s.Aside s where
  timers := rfl
  clientData := rfl
  madeFor := rfl
  nextConn := rfl
  fault := rfl
  watched := fun _ hn => hn
  linked := fun _ _ h => h
  tick := fun _ h => Or.inr ⟨h, rfl⟩

theorem append_aside {pc : MainPc} (hm : s.main = .handling fd pc) (state : Option Ev) (next : MainPc) :
    s.Aside (s.append fd state (.handling fd next)) := by
  have h := Aside.handling hm (Or.inr ⟨next, rfl⟩)
  unfold append
  split
  next => exact h.edit rfl rfl rfl rfl rfl (fun _ hn => hn) rfl rfl
  next => cases state <;> exact h.edit rfl rfl rfl rfl rfl (fun _ hn => hn) rfl rfl

theorem handler_aside {r : Choice} {pc : MainPc} (hm : s.main = .handling fd pc) (hrenew : pc.renews = false)
    (hremove : pc.removes = false) : s.Aside (s.handler fd r pc) := by
  have hgo := fun next => Aside.handling hm (Or.inr ⟨next, rfl⟩)
  have hflags : ∀ next f, s.Aside { s.setFlags fd f with main := (Option.map (.handling fd) next).getD .idle } := by
    intro next f
    have h : s.Aside { s with main := (Option.map (MainAt.handling fd) next).getD .idle } := by
      cases next with
      | none => exact Aside.handling hm (Or.inl rfl)
      | some next => exact hgo next
    exact h.edit rfl rfl rfl rfl rfl (fun _ hn => hn) rfl rfl
  cases pc with
  | renewFirst ev => cases hrenew
  | renewLast => cases hrenew
  | remove ev => cases hremove
  | removeLast => cases hremove
  | append ev => exact append_aside hm (some ev) (.poll ev)
  | appendP => exact append_aside hm none .renewLast
  | read => exact hgo _
  | write =>
    have hw := s.write_isSome fd r.write
    cases hwr : r.write <;> simp only [handler, hwr] <;> rw [hwr] at hw <;>
      exact (hgo _).edit rfl rfl rfl rfl rfl (fun n hn => hw n ▸ hn) rfl rfl
  | poll ev => exact hflags _ _
  | sawImprov ev => exact hflags _ _
  | clearFlag ev => cases ev <;> exact hflags _ _
  | clearImprov ev => cases ev <;> exact hflags _ _

theorem workerMoves_aside {i : Nat} {r : Choice} (h : s.WorkerMoves i r t) : s.Aside t := by
  cases h with
  | write hw =>
    rename_i fd conn
    have hw := s.write_isSome fd r.write
    cases hwr : r.write <;> rw [hwr] at hw <;>
      exact Aside.refl.edit rfl rfl rfl rfl rfl (fun n hn => hw n ▸ hn) rfl rfl
  | rearm hw => exact Aside.refl.edit rfl rfl rfl rfl rfl (fun n hn => modfd_isSome _ _ n ▸ hn) rfl rfl
  | close hw hr hfd =>
    exact Aside.refl.edit rfl rfl rfl rfl rfl (fun n hn => (closeFd_isSome none hn).2) rfl rfl
  | _ => exact Aside.refl.edit rfl rfl rfl rfl rfl (fun _ hn => hn) rfl rfl

/-- The timers in the list are all there are, and every event finds its own there. -/
structure Owned (s : Server) (live : List Nat) : Prop where
  chain : s.timers.Chain live none
  sockfd : ∀ a ∈ live, ∀ u, s.timers.owner a = some u → (s.clientData u).sockfd = u
  held : ∀ fd, s.Watched fd → ∃ a ∈ live, (s.clientData fd).timer = some a ∧ s.timers.owner a = some fd
  linked : ∀ a next, s.main ≠ .unlink a next
  tick : ∀ cur, s.main = .ticking cur → s.pending = []

theorem start_owned (reactor : Bool) : (start reactor).Owned [] where
  chain := TimerList.chain_empty
  sockfd := by simp
  held := by
    rintro fd (h | h | ⟨pc, h⟩)
    · cases h
    · cases h
    · cases h
  linked := nofun
  tick := fun _ _ => rfl

theorem Owned.aside (h : s.Owned live) (ha : s.Aside t) : t.Owned live where
  chain := ha.timers ▸ h.chain
  sockfd := by
    rw [ha.timers, ha.clientData]
    exact h.sockfd
  held := by
    rw [ha.timers, ha.clientData]
    exact fun fd hfd => h.held fd (ha.watched fd hfd)
  linked := fun a next hm => h.linked a next (ha.linked a next hm)
  tick := fun cur hm => (ha.tick cur hm).elim id fun hs => hs.2.trans (h.tick cur hs.1)

theorem Owned.admitted {l : TimerList} {live' : List Nat} (h : s.Owned live) (hm : s.main = .idle)
    (hl : l.Chain live' none) (hperm : live'.Perm (s.timers.fresh :: live))
    (howner : l.owner = Function.update s.timers.owner s.timers.fresh (some fd)) :
    (s.admitted fd s.timers.fresh l).Owned live' := by
  have hfresh : ∀ a ∈ live, a ≠ s.timers.fresh := by
    rintro a ha rfl
    exact Nat.lt_irrefl _ (h.chain.bound _ ((h.chain.live _).mpr (Or.inl ha)))
  refine ⟨hl, ?_, ?_, ?_, ?_⟩
  · intro a ha u hu
    simp only [Server.admitted, howner, Function.update_apply] at hu ⊢
    split
    next huf => exact huf.symm
    next huf =>
      rcases List.mem_cons.mp (hperm.mem_iff.mp ha) with rfl | hlive
      · simp only [if_true, Option.some.injEq] at hu
        exact absurd hu.symm huf
      · rw [if_neg (hfresh a hlive)] at hu
        exact h.sockfd a hlive u hu
  · intro n hn
    by_cases hne : n = fd
    · subst hne
      exact ⟨s.timers.fresh, hperm.mem_iff.mpr List.mem_cons_self, by simp [Server.admitted],
        by simp [Server.admitted, howner]⟩
    · have hold : s.Watched n := by
        simpa [Watched, Server.admitted, Function.update_of_ne hne] using hn
      obtain ⟨a, ha, htimer, hown⟩ := h.held n hold
      refine ⟨a, hperm.mem_iff.mpr (List.mem_cons_of_mem _ ha), ?_, ?_⟩
      · simpa [Server.admitted, Function.update_of_ne hne] using htimer
      · simpa [Server.admitted, howner, Function.update_of_ne (hfresh a ha)] using hown
  · simp [Server.admitted, hm]
  · simp [Server.admitted, hm]

theorem Owned.accept {others : List Nat} {now : Int} (h : s.Owned live) (hm : s.main = .idle)
    (hends : s.timers.Ends (now + 3 * timeslot)) :
    ∃ live', (s.accept others now).Owned live' := by
  unfold Server.accept
  split
  next => exact ⟨live, h.chain, h.sockfd, h.held, h.linked, h.tick⟩
  next =>
    by_cases hfd : lowestFree (others ++ s.fds) < maxFd
    · obtain ⟨l, live', heq, hl, hperm, howner⟩ := timer_eq h.chain hends hfd
      exact ⟨live', heq ▸ h.admitted hm hl hperm howner⟩
    · rw [timer, if_pos (Nat.le_of_not_lt hfd)]
      exact ⟨live, h.chain, h.sockfd, h.held, h.linked, h.tick⟩

theorem Owned.renew {now : Int} {pc : MainPc} {main : MainAt} (h : s.Owned live)
    (hm : s.main = .handling fd pc) (hmain : main = .idle ∨ ∃ next, main = .handling fd next)
    (hmov : ∀ a, (s.clientData fd).timer = some a → s.timers.Movable a (now + 3 * timeslot)) :
    ∃ live', (s.renew fd now main).Owned live' ∧ (s.renew fd now main).fault = s.fault := by
  obtain ⟨a, ha, htimer, -⟩ := h.held fd (Or.inr (Or.inr ⟨pc, hm⟩))
  obtain ⟨l, live', heq, hl, hperm, howner⟩ := renew_ok h.chain htimer ha (hmov a htimer)
  have hgo := h.aside (Aside.handling hm hmain)
  refine ⟨live', ?_, by rw [heq]⟩
  rw [heq]
  refine ⟨hl, ?_, ?_, hgo.linked, hgo.tick⟩
  · simp only [howner, hperm.mem_iff]
    exact hgo.sockfd
  · simp only [howner, hperm.mem_iff]
    exact hgo.held

theorem Owned.tickStep {cur : Int} (h : s.Owned live) (hm : s.main = .ticking cur) :
    ∃ live', (s.tickStep cur).Owned live' ∧ (s.tickStep cur).fault = s.fault := by
  rcases tickStep_ok cur h.chain with heq | ⟨a, u, rest, l, rfl, hu, heq, hl, howner⟩
  · rw [heq]
    refine ⟨live, ⟨h.chain, h.sockfd, ?_, nofun, nofun⟩, rfl⟩
    rintro n (hn | hn | ⟨pc, hn⟩)
    · exact h.held n (Or.inl hn)
    · exact h.held n (Or.inr (Or.inl hn))
    · cases hn
  · rw [heq]
    have hnd := List.nodup_cons.mp h.chain.nodup
    have hne : ∀ b ∈ rest, b ≠ a := fun b hb hba => hnd.1 (hba ▸ hb)
    refine ⟨rest, ⟨hl, ?_, ?_, ?_, h.tick⟩, rfl⟩
    · intro b hb v hv
      exact h.sockfd b (List.mem_cons_of_mem _ hb) v ((howner b (hne b hb)).symm.trans hv)
    · rintro n (hn | hn | ⟨pc, hn⟩)
      · obtain ⟨hnu, hreg⟩ := closeFd_isSome none hn
        obtain ⟨b, hb, htimer, hown⟩ := h.held n (Or.inl hreg)
        have hba : b ≠ a := by
          rintro rfl
          rw [h.sockfd b hb u hu] at hnu
          exact hnu (Option.some.inj (hown.symm.trans hu))
        exact ⟨b, List.mem_of_ne_of_mem hba hb, htimer, (howner b hba).trans hown⟩
      · change n ∈ s.pending.map Prod.fst at hn
        rw [h.tick cur hm] at hn
        cases hn
      · change s.main = _ at hn
        rw [hm] at hn
        cases hn
    · intro b next hb
      change s.main = _ at hb
      rw [hm] at hb
      cases hb

/-- A renewal that is due leaves the timer in its place or puts it at the end of the list. -/
def Renewable (s : Server) (now : Int) : MainAt → Prop
  | .handling fd pc => pc.renews = true →
      ∀ a ∈ (s.clientData fd).timer, s.timers.Movable a (now + 3 * timeslot)
  | _ => True

instance (s : Server) (now : Int) (m : MainAt) : Decidable (s.Renewable now m) :=
  match m with
  | .idle => .isTrue trivial
  | .handling _ _ => inferInstanceAs (Decidable (_ → _))
  | .unlink _ _ => .isTrue trivial
  | .ticking _ => .isTrue trivial

/-- No call of WebServer::del_timer, and timers are only added or moved to an end of the list. -/
def TimerSafe (s : Server) : Act → Prop
  | .accept _ now => s.timers.Ends (now + 3 * timeslot)
  | .main r => s.main.removes = false ∧ s.Renewable r.now s.main
  | _ => True

instance (s : Server) (a : Act) : Decidable (s.TimerSafe a) :=
  match a with
  | .accept _ now => inferInstanceAs (Decidable (s.timers.Ends (now + 3 * timeslot)))
  | .fetch _ => .isTrue trivial
  | .tick _ => .isTrue trivial
  | .main r => inferInstanceAs (Decidable (_ ∧ s.Renewable r.now s.main))
  | .worker _ _ => .isTrue trivial

/-- No access to a freed timer so far, and every timer that is not freed is in the
list, where tick will free it. -/
def TimersOwned (s : Server) : Prop :=
  (∀ f, s.fault ≠ some (.timer f)) ∧ ∀ a, (s.timers.cells a).isSome → a ∈ s.timers.order

theorem Owned.timersOwned (h : s.Owned live) (hf : ∀ f, s.fault ≠ some (.timer f)) : s.TimersOwned := by
  refine ⟨hf, fun a ha => ?_⟩
  rw [h.chain.order_eq]
  simpa using (h.chain.live a).mp ha

theorem accept_fault {others : List Nat} {now : Int} (h : s.Owned live) (hf : s.fault = none)
    (hends : s.timers.Ends (now + 3 * timeslot)) (f : TimerFault) :
    (s.accept others now).fault ≠ some (.timer f) := by
  unfold Server.accept
  split
  next => simp [hf]
  next =>
    by_cases hfd : lowestFree (others ++ s.fds) < maxFd
    · obtain ⟨l, live', heq, -⟩ := timer_eq h.chain hends hfd
      simp [heq, admitted, hf]
    · simp [timer, if_pos (Nat.le_of_not_lt hfd)]

theorem Owned.step {a : Act} (h : s.Owned live) (hsafe : s.TimerSafe a) (hs : s.step a = some t) :
    (∃ live', t.Owned live') ∧ ∀ f, t.fault ≠ some (.timer f) := by
  obtain ⟨hf, hs⟩ := step_moves hs
  have hfault : ∀ {u : Server}, u.fault = s.fault → ∀ f, u.fault ≠ some (.timer f) := by
    intro u hu f
    simp [hu, hf]
  have haside : ∀ {u : Server}, s.Aside u → (∃ live', u.Owned live') ∧ ∀ f, u.fault ≠ some (.timer f) :=
    fun ha => ⟨⟨live, h.aside ha⟩, hfault ha.fault⟩
  cases hs with
  | accept hm => exact ⟨h.accept hm hsafe, accept_fault h hf hsafe⟩
  | fetch hm hp hc => exact haside (fetch_aside hm hc)
  | tick hm hp => exact haside (tick_aside hp)
  | take hm hp => exact haside (take_aside hp _)
  | handle hm =>
    rename_i r fd pc
    simp only [TimerSafe, hm, MainAt.removes, Renewable] at hsafe
    by_cases hrenew : pc.renews = true
    · have hrun : ∀ main, (main = .idle ∨ ∃ next, main = .handling fd next) →
          (∃ live', (s.renew fd r.now main).Owned live') ∧
            ∀ f, (s.renew fd r.now main).fault ≠ some (.timer f) := by
        intro main hmain
        obtain ⟨live', ho, hr⟩ := h.renew hm hmain (hsafe.2 hrenew)
        exact ⟨⟨live', ho⟩, hfault hr⟩
      cases pc with
      | renewFirst ev => exact hrun _ (Or.inr ⟨_, rfl⟩)
      | renewLast => exact hrun _ (Or.inl rfl)
      | _ => cases hrenew
    · exact haside (handler_aside hm (Bool.not_eq_true _ ▸ hrenew) hsafe.1)
  | unlink hm f => exact absurd hm (h.linked _ _)
  | ticking hm =>
    obtain ⟨live', ho, hr⟩ := h.tickStep hm
    exact ⟨⟨live', ho⟩, hfault hr⟩
  | worker hw => exact haside (workerMoves_aside (workerStep_moves hw))

/-- In a run that never calls WebServer::del_timer and only puts timers at the ends
of the list, no freed timer is touched and none is lost. -/
theorem timersOwned_of_timerSafe (reactor : Bool) (as : List Act)
    (h : StepsMeet step TimerSafe (start reactor) as) : Along step TimersOwned (start reactor) as := by
  refine along_of_invariant (fun s => (∃ live, s.Owned live) ∧ ∀ f, s.fault ≠ some (.timer f))
    ?_ ?_ ⟨⟨[], start_owned reactor⟩, nofun⟩ h
  · rintro s a t ⟨⟨live, ho⟩, -⟩ hsafe hs
    exact ho.step hsafe hs
  · rintro s ⟨⟨live, ho⟩, hf⟩
    exact ho.timersOwned hf

/-- Two clients, one of them served, and both dropped by tick later. -/
def twoClients : List Act :=
  let r : Choice := ⟨2, true, .finished, .responded⟩
  [.accept [0, 1, 2] 0, .accept [0, 1, 2] 1, .fetch [(3, .readable)], .main r, .main r, .main r, .main r,
    .worker 0 r, .worker 0 r, .worker 0 r, .tick 100, .main r, .main r, .main r]

theorem timersOwned_of_timerSafe_twoClients :
    StepsMeet step TimerSafe (start false) twoClients ∧ Along step TimersOwned (start false) twoClients :=
  ⟨by decide, timersOwned_of_timerSafe false twoClients (by decide)⟩

/-- A client that hangs up: its timer is freed twice. -/
theorem timersOwned_not_always :
    ¬ ∀ (reactor : Bool) (as : List Act), Along step TimersOwned (start reactor) as := by
  intro h
  let r : Choice := ⟨0, true, .finished, .responded⟩
  have hfault := (h false [.accept [0, 1, 2] 0, .fetch [(3, .hangup)], .main r, .main r, .main r]).imp
    fun _ hs => hs.1 .doubleFree
  exact absurd hfault (by decide)

end Server

end CppInAction
