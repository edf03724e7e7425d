import CppInAction.MultiProcess

namespace CppInAction

namespace MultiProcess

variable {s t : System} {first c c' : Proc} {children : List Proc} {failed p n : Nat}

/-- The steps a process has still before it, and those of the children it will fork. -/
def Proc.ahead (c : Proc) : Nat :=
  match c.pc with
  | .forking => 3 * (threadNum - c.i) + 8
  | .summing => 2
  | .left => if c.i < threadNum then 1 else 7
  | .reaping n => 6 - n
  | .printing => 1
  | .exited | .printed _ => 0

def System.ahead (s : System) : Nat := (s.procs.map Proc.ahead).sum

theorem Inv.summing (h : Inv s) (hc : s.procs[p]? = some c) (hpc : c.pc = .summing) : c.i < threadNum := by
  obtain ⟨first, children, hprocs, hforked⟩ := h
  rw [hprocs] at hc
  cases p with
  | zero =>
    obtain rfl := Option.some.inj hc
    exact absurd hpc hforked.main.not_summing
  | succ k => exact (hforked.child c (List.mem_of_getElem? hc)).small

theorem Inv.reaping (h : Inv s) (hc : s.procs[p]? = some c) (hpc : c.pc = .reaping n)
    (hd : s.procs[q]? = some d) (hparent : d.parent = some p) : p ≠ q ∧ n < threadNum := by
  obtain ⟨first, children, hprocs, hforked⟩ := h
  rw [hprocs] at hc hd
  cases p with
  | zero =>
    obtain rfl := Option.some.inj hc
    refine ⟨?_, hforked.main.reaping hpc⟩
    rintro rfl
    obtain rfl := Option.some.inj hd
    rw [hforked.main.parent] at hparent
    cases hparent
  | succ k => exact absurd hpc ((hforked.child c (List.mem_of_getElem? hc)).not_main.2.1 n)

theorem set_ahead (hc : s.procs[p]? = some c) (hlt : c'.ahead < c.ahead) : (s.set p c').ahead < s.ahead := by
  have hmove := sum_move Proc.ahead hc c'
  show ((s.procs.set p c').map Proc.ahead).sum < (s.procs.map Proc.ahead).sum
  omega

theorem step_ahead {a : Act} (h : Inv s) (hs : step s a = some t) : t.ahead < s.ahead := by
  cases a with
  | fork p ok =>
    obtain ⟨c, hc, hs⟩ := Option.bind_eq_some_iff.mp hs
    obtain ⟨⟨hpc, hi⟩, hs⟩ := Option.ite_none_right_eq_some.mp hs
    have hnext : Proc.ahead { c with i := c.i + 1 } + 3 = c.ahead := by
      simp only [Proc.ahead, hpc]
      omega
    have hmove := sum_move Proc.ahead hc { c with i := c.i + 1 }
    cases ok with
    | true =>
      cases Option.some.inj hs
      have hchild : (c.child p).ahead = 2 := rfl
      show ((s.procs.set p { c with i := c.i + 1 } ++ [c.child p]).map Proc.ahead).sum < (s.procs.map Proc.ahead).sum
      rw [List.map_append, List.sum_append, List.map_singleton, List.sum_singleton]
      omega
    | false =>
      cases Option.some.inj hs
      show ((s.procs.set p { c with i := c.i + 1 }).map Proc.ahead).sum < (s.procs.map Proc.ahead).sum
      omega
  | leave p =>
    obtain ⟨c, hc, hs⟩ := Option.bind_eq_some_iff.mp hs
    obtain ⟨⟨hpc, hi⟩, ⟨⟩⟩ := Option.ite_none_right_eq_some.mp hs
    refine set_ahead hc ?_
    simp only [Proc.ahead, hpc, hi, if_false]
    omega
  | add p =>
    obtain ⟨c, hc, hs⟩ := Option.bind_eq_some_iff.mp hs
    obtain ⟨hpc, ⟨⟩⟩ := Option.ite_none_right_eq_some.mp hs
    refine set_ahead hc ?_
    simp only [Proc.ahead, hpc, h.summing hc hpc, if_true]
    decide
  | branch p =>
    obtain ⟨c, hc, hs⟩ := Option.bind_eq_some_iff.mp hs
    obtain ⟨hpc, ⟨⟩⟩ := Option.ite_none_right_eq_some.mp hs
    refine set_ahead hc ?_
    by_cases hi : c.i < threadNum
    · simp [Proc.ahead, hpc, hi]
    · simp [Proc.ahead, hpc, hi]
  | reap p q =>
    obtain ⟨c, hc, hs⟩ := Option.bind_eq_some_iff.mp hs
    obtain ⟨d, hd, hs⟩ := Option.bind_eq_some_iff.mp hs
    split at hs
    next n hpc =>
      obtain ⟨⟨hparent, -, -⟩, ⟨⟩⟩ := Option.ite_none_right_eq_some.mp hs
      obtain ⟨hne, hn⟩ := h.reaping hc hpc hd hparent
      have hsame : (s.set q { d with reaped := true }).ahead = s.ahead :=
        congrArg List.sum (map_set_same Proc.ahead hd rfl)
      have hc' : (s.set q { d with reaped := true }).procs[p]? = some c := by
        simp only [System.set, List.getElem?_set_ne hne.symm, hc]
      rw [← hsame]
      refine set_ahead hc' ?_
      have hfive : threadNum = 5 := rfl
      by_cases hlast : n + 1 = threadNum
      · simp only [Proc.ahead, hpc, hlast, ne_eq, not_true_eq_false, if_false]
        omega
      · simp only [Proc.ahead, hpc, hlast, ne_eq, not_false_eq_true, if_true]
        omega
    next => cases hs
  | print p =>
    obtain ⟨c, hc, hs⟩ := Option.bind_eq_some_iff.mp hs
    obtain ⟨hpc, ⟨⟩⟩ := Option.ite_none_right_eq_some.mp hs
    refine set_ahead hc ?_
    simp only [Proc.ahead, hpc]
    decide

/-- Where no process can move, every child has ended and has been counted. -/
theorem Forked.all_reaped (hprocs : s.procs = first :: children) (h : Forked first children s.failed)
    (hpc : first.pc = .reaping n) (hend : ∀ a, step s a = none) : ∀ c ∈ children, c.reaped = true := by
  intro c hc
  obtain ⟨k, hk⟩ := List.mem_iff_getElem?.mp hc
  have hget : s.procs[k + 1]? = some c := by rw [hprocs, List.getElem?_cons_succ, hk]
  have hfirst : s.procs[0]? = some first := by rw [hprocs, List.getElem?_cons_zero]
  rcases (h.child c hc).pc_cases with hpc' | hpc' | hpc'
  · have hadd := hend (.add (k + 1))
    simp [step, hget, hpc'] at hadd
  · have hbranch := hend (.branch (k + 1))
    simp [step, hget, hpc'] at hbranch
  · by_contra hreaped
    have hreap := hend (.reap 0 (k + 1))
    simp [step, hget, hfirst, hpc, hpc', hreaped, (h.child c hc).parent, Pc.ended] at hreap

/-- The first process comes to its printf if and only if no fork has failed; else it calls
waitpid for ever. -/
theorem Forked.ends (hprocs : s.procs = first :: children) (h : Forked first children s.failed)
    (hend : ∀ a, step s a = none) : first.pc = .printed 0 ↔ s.failed = 0 := by
  have hfirst : s.procs[0]? = some first := by rw [hprocs, List.getElem?_cons_zero]
  have hcount := h.count
  have hreclaimed := h.reclaimed
  rcases h.main.at' with ⟨hpc, hi⟩ | ⟨hi, hpc | ⟨n, hn, hpc⟩ | hpc | hpc⟩
  · by_cases hlt : first.i < threadNum
    · have hfork := hend (.fork 0 true)
      simp [step, hfirst, hpc, hlt] at hfork
    · have hleave := hend (.leave 0)
      simp [step, hfirst, hpc, hlt] at hleave
  · have hbranch := hend (.branch 0)
    simp [step, hfirst, hpc] at hbranch
  · have hall : children.countP (·.reaped) = children.length :=
      List.countP_eq_length.mpr (h.all_reaped hprocs hpc hend)
    rw [hpc, hall] at hreclaimed
    simp only [Pc.reclaimed] at hreclaimed
    constructor
    · intro hprinted
      cases hpc.symm.trans hprinted
    · omega
  · have hprint := hend (.print 0)
    simp [step, hfirst, hpc] at hprint
  · have hle : children.countP (·.reaped) ≤ children.length := List.countP_le_length
    rw [hreclaimed, hpc] at hle
    simp only [Pc.reclaimed] at hle
    refine ⟨fun _ => ?_, fun _ => hpc⟩
    omega

/-- Behind the printf every part of the sum has been made, each in the memory of a child that
has ended. -/
theorem Forked.printed {x : BitVec 64} (h : Forked first children failed) (hpc : first.pc = .printed x) :
    x = 0 ∧ children.map (·.totalSum) = (List.range threadNum).map getIntervalSum := by
  have hi := h.main.past (by rw [hpc]; nofun)
  have hcount := h.count
  have hle : children.countP (·.reaped) ≤ children.length := List.countP_le_length
  have hreclaimed : children.countP (·.reaped) = threadNum := by
    rw [h.reclaimed, hpc]
    rfl
  have hfull : children.countP (·.reaped) = children.length := by omega
  have hall : ∀ c ∈ children, c.reaped = true := List.countP_eq_length.mp hfull
  have hparts : children.map (·.i) = List.range threadNum := by
    refine (hi ▸ h.parts).eq_of_length ?_
    rw [List.length_map, List.length_range]
    omega
  refine ⟨h.main.printed hpc, ?_⟩
  rw [← hparts, List.map_map]
  apply List.map_congr_left
  intro c hc
  have hchild := h.child c hc
  rcases hchild.at' with ⟨hpc', -⟩ | ⟨-, htotal⟩
  · rw [hchild.reaped (hall c hc)] at hpc'
    cases hpc'
  · exact htotal

theorem sum_parts (n : Nat) : ((List.range n).map getIntervalSum).sum = MultiThreadCal.squares 0 (n * 20000) := by
  induction n with
  | zero => simp [MultiThreadCal.squares]
  | succ n ih =>
    rw [List.range_succ, List.map_append, List.sum_append, ih, List.map_singleton, List.sum_singleton, getIntervalSum_eq,
      MultiThreadCal.squares_append (Nat.zero_le _) (Nat.le_add_right _ _), Nat.succ_mul]

/-- In every order of steps main forks five processes at most and ends after 23 steps at most,
but for calls of waitpid that return nothing. Only the first process prints a sum, if and
only if no fork fails; and it prints 0, while the sums of the others make up the whole. -/
theorem multi_process_prints {as : List Act} (h : runSteps step start as = some s) :
    as.length ≤ 23 ∧ s.procs.length ≤ threadNum + 1 ∧
      (∀ p c x, s.procs[p]? = some c → c.pc = .printed x →
        p = 0 ∧ x = 0 ∧ (s.procs.tail.map (·.totalSum)).sum = MultiThreadCal.squares 0 (threadNum * 20000)) ∧
      ((∀ a, step s a = none) → ((∃ c ∈ s.procs, ∃ x, c.pc = .printed x) ↔ s.failed = 0)) := by
  obtain ⟨hinv, hlen⟩ := runSteps_length_le Inv System.ahead (fun _ _ _ hs hstep => hs.step hstep)
    (fun _ _ _ hs hstep => step_ahead hs hstep) start_inv h
  obtain ⟨first, children, hprocs, hforked⟩ := hinv
  have hcount := hforked.count
  have hi : first.i ≤ threadNum := by
    rcases hforked.main.at' with ⟨-, hle⟩ | ⟨heq, -⟩
    · exact hle
    · exact Nat.le_of_eq heq
  have hchild : ∀ c ∈ children, ∀ x, c.pc ≠ .printed x := fun c hc => (hforked.child c hc).not_main.2.2.2
  refine ⟨?_, ?_, fun p c x hc hpc => ?_, fun hend => ?_⟩
  · have hstart : start.ahead = 23 := rfl
    omega
  · rw [hprocs, List.length_cons]
    omega
  · rw [hprocs] at hc ⊢
    cases p with
    | zero =>
      obtain rfl := Option.some.inj hc
      obtain ⟨hx, hparts⟩ := hforked.printed hpc
      exact ⟨rfl, hx, by rw [List.tail_cons, hparts, sum_parts]⟩
    | succ k => exact absurd hpc (hchild c (List.mem_of_getElem? hc) x)
  · rw [← hforked.ends hprocs hend, hprocs]
    constructor
    · rintro ⟨c, hc, x, hpc⟩
      rcases List.mem_cons.mp hc with rfl | hc
      · rw [hpc, (hforked.printed hpc).1]
      · exact absurd hpc (hchild c hc x)
    · exact fun hpc => ⟨first, List.mem_cons_self, 0, hpc⟩

/-- Five forks, the ends of the five children, and the first process down to its printf. -/
def fiveForks : List Act :=
  [.fork 0 true, .fork 0 true, .add 2, .fork 0 true, .fork 0 true, .add 1, .branch 2, .fork 0 true, .leave 0, .branch 0,
    .reap 0 2, .branch 1, .reap 0 1, .add 3, .add 4, .add 5, .branch 5, .reap 0 5, .branch 3, .branch 4, .reap 0 3,
    .reap 0 4, .print 0]

/-- The children have the parts of the sum, and the first process prints 0. -/
theorem multi_process_prints_five :
    ∃ s, runSteps step start fiveForks = some s ∧ (∀ a, step s a = none) ∧ (∃ c ∈ s.procs, c.pc = .printed 0) ∧
      (s.procs.tail.map (·.totalSum)).sum = MultiThreadCal.squares 0 (threadNum * 20000) := by
  obtain ⟨s, hrun, c, hc, hpc⟩ : ∃ s, runSteps step start fiveForks = some s ∧ ∃ c, s.procs[0]? = some c ∧ c.pc = .printed 0 :=
    ⟨_, rfl, _, rfl, rfl⟩
  obtain ⟨_, _, hprints, _⟩ := multi_process_prints hrun
  refine ⟨s, hrun, fun a => ?_, ⟨c, List.mem_of_getElem? hc, hpc⟩, (hprints 0 c 0 hc hpc).2.2⟩
  cases ht : step s a with
  | none => rfl
  | some t =>
    have hmore : runSteps step start (fiveForks ++ [a]) = some t := by
      rw [runSteps_append, hrun, Option.bind_some, runSteps_cons, ht]
      rfl
    exact absurd (multi_process_prints hmore).1 (by simp [fiveForks])

end MultiProcess

end CppInAction
