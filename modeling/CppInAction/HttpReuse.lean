import CppInAction.HttpFrame

namespace CppInAction

/-- The members that init leaves as they were, taken from s. -/
def HttpConn.withStale (c s : HttpConn) : HttpConn :=
  { c with
    string := s.string
    fileAddress := s.fileAddress
    fileStat := s.fileStat
    iovec0 := s.iovec0
    iovec1 := s.iovec1
    iovecCount := s.iovecCount }

theorem HttpConn.init_withStale (c s : HttpConn) (fd : Int) (root : List UInt8) (trigMode : Int) :
    (s.init fd root trigMode).1 = (c.init fd root trigMode).1.withStale s := rfl

theorem HttpConn.deliver_withStale (c s : HttpConn) (p : List UInt8) :
    (c.withStale s).deliver p = (c.deliver p).map (·.withStale s) := by
  unfold HttpConn.deliver
  change (c.readBuf.blit c.readIdx.toNat p).bind _ = _
  cases c.readBuf.blit c.readIdx.toNat p <;> rfl

/-- The stale members that do_request sees: a parsed body replaces m_string. -/
def staleOf (d s : HttpConn) : HttpConn :=
  if d.checkState = .content then { s with string := d.string } else s

/-- The same end of process_read on an object with other stale members. -/
def ReadExit.withStale (s : HttpConn) : ReadExit → ReadExit
  | .returns c code => .returns (c.withStale s) code
  | .doRequest d => .doRequest (d.withStale (staleOf d s))
  | .flowsOff c => .flowsOff (c.withStale s)
  | .undefined => .undefined

/-- The parser leaves the members that are not its own. -/
theorem HttpConn.processRead_self {c : HttpConn} {fuel : Nat} {e : ReadExit}
    (h : c.processRead fuel = some e) : e.over c = e := by
  have hself := HttpConn.processRead_over c c fuel
  rw [HttpConn.over_self, h] at hself
  exact (Option.some.inj hself).symm

theorem HttpConn.over_withStale {c b : HttpConn} (s : HttpConn) (h : c.over b = c) :
    c.over (b.withStale s) = c.withStale s := by
  rw [← h]
  rfl

theorem HttpConn.processRead_withStale (c s : HttpConn) (fuel : Nat) :
    (c.withStale s).processRead fuel = (c.processRead fuel).map (ReadExit.withStale s) := by
  have hover : (c.withStale s).processRead fuel = _ := HttpConn.processRead_over c (c.withStale s) fuel
  rw [hover]
  cases h : c.processRead fuel with
  | none => rfl
  | some e =>
    have hself := HttpConn.processRead_self h
    simp only [Option.map_some, Option.some.injEq]
    cases e with
    | returns c' code =>
      have hc := (ReadExit.returns.inj hself).1
      simp only [ReadExit.over, ReadExit.withStale, HttpConn.over_withStale s hc]
    | flowsOff c' =>
      have hc := ReadExit.flowsOff.inj hself
      simp only [ReadExit.over, ReadExit.withStale, HttpConn.over_withStale s hc]
    | undefined => rfl
    | doRequest d =>
      have hd := ReadExit.doRequest.inj hself
      simp only [ReadExit.over, ReadExit.withStale, HttpConn.reuse, staleOf] at hd ⊢
      split at hd
      next hs =>
        rw [if_pos hs, if_pos hs]
        congr 1
        rw [← hd]
        rfl
      next hs => rw [if_neg hs, if_neg hs, HttpConn.over_withStale s hd]

/-- The ends of the process_read calls made while chunks arrive: another call
follows only when the last one asked for more. -/
def HttpConn.Reads (c : HttpConn) : List (List UInt8) → ReadExit → Prop
  | [], _ => False
  | p :: rest, e => ∃ fuel c1 e1, c.deliver p = some c1 ∧ c1.processRead fuel = some e1 ∧
      (e = e1 ∨ ∃ c2, e1 = .returns c2 .noRequest ∧ c2.Reads rest e)

theorem HttpConn.reads_withStale {c : HttpConn} (s : HttpConn) {chunks : List (List UInt8)} {e : ReadExit}
    (h : c.Reads chunks e) : (c.withStale s).Reads chunks (e.withStale s) := by
  induction chunks generalizing c with
  | nil => exact h
  | cons p rest ih =>
    obtain ⟨fuel, c1, e1, hd, hr, hcase⟩ := h
    refine ⟨fuel, c1.withStale s, e1.withStale s, ?_, ?_, ?_⟩
    · rw [HttpConn.deliver_withStale, hd]; rfl
    · rw [HttpConn.processRead_withStale, hr]; rfl
    · rcases hcase with rfl | ⟨c2, rfl, hrest⟩
      · exact Or.inl rfl
      · exact Or.inr ⟨c2.withStale s, rfl, ih hrest⟩

/-- What a call with stale members ends with comes from the clean object. -/
theorem HttpConn.reads_of_withStale {c s : HttpConn} {chunks : List (List UInt8)} {e' : ReadExit}
    (h : (c.withStale s).Reads chunks e') : ∃ e, c.Reads chunks e ∧ e' = e.withStale s := by
  induction chunks generalizing c with
  | nil => exact h.elim
  | cons p rest ih =>
    obtain ⟨fuel, c1', e1', hd, hr, hcase⟩ := h
    rw [HttpConn.deliver_withStale] at hd
    obtain ⟨c1, hd1, rfl⟩ := Option.map_eq_some_iff.mp hd
    rw [HttpConn.processRead_withStale] at hr
    obtain ⟨e1, hr1, rfl⟩ := Option.map_eq_some_iff.mp hr
    rcases hcase with rfl | ⟨c2', heq, hrest⟩
    · exact ⟨e1, ⟨fuel, c1, e1, hd1, hr1, Or.inl rfl⟩, rfl⟩
    · cases e1 with
      | returns c2 code =>
        cases heq
        obtain ⟨e, he, rfl⟩ := ih hrest
        exact ⟨e, ⟨fuel, c1, _, hd1, hr1, Or.inr ⟨c2, rfl, he⟩⟩, rfl⟩
      | doRequest d => cases heq
      | flowsOff c2 => cases heq
      | undefined => cases heq

/-- At most one call of a request reaches do_request, with one object. -/
theorem HttpConn.reads_doRequest_unique {c d d' : HttpConn} {chunks : List (List UInt8)}
    (h : c.Reads chunks (.doRequest d)) (h' : c.Reads chunks (.doRequest d')) : d = d' := by
  induction chunks generalizing c with
  | nil => exact h.elim
  | cons p rest ih =>
    obtain ⟨fuel, c1, e1, hd, hr, hcase⟩ := h
    obtain ⟨fuel', c1', e1', hd', hr', hcase'⟩ := h'
    cases Option.some.inj (hd.symm.trans hd')
    cases HttpConn.processRead_unique hr hr'
    rcases hcase with rfl | ⟨c2, rfl, hrest⟩
    · rcases hcase' with heq | ⟨c2', heq, _⟩
      · exact (ReadExit.doRequest.inj heq).symm
      · cases heq
    · rcases hcase' with heq | ⟨c2', heq, hrest'⟩
      · cases heq
      · cases heq
        exact ih hrest hrest'

end CppInAction
