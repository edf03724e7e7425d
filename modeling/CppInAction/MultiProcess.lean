import CppInAction.MultiThreadCal
import CppInAction.Run
import CppInAction.Threads

namespace CppInAction

namespace MultiProcess

def threadNum : Nat := 5

/-- The sum of the squares of 20000 numbers; start is 0 to 4, so that no int overflows. -/
def getIntervalSum (start : Nat) : BitVec 64 :=
  let start := start * 20000
  let stop := start + 20000
  (List.range' start (stop - start)).foldl (fun temp i => temp + MultiThreadCal.square i) 0

/-- Where a process is in main: at the test of the loop, behind a fork that returned 0, behind
the loop, in the loop over waitpid with reclaim_num, before printf, and at one of the two ends. -/
inductive Pc
  | forking | summing | left | reaping (reclaimNum : Nat) | printing | exited | printed (totalSum : BitVec 64)
deriving DecidableEq

/-- A process with its own variables, the process that forked it, and whether that one has got
it from waitpid. -/
structure Proc where
  pc : Pc
  i : Nat
  totalSum : BitVec 64
  parent : Option Nat
  reaped : Bool
deriving DecidableEq

/-- The processes in the order of their forks, and the number of forks that failed. -/
structure System where
  procs : List Proc
  failed : Nat
deriving DecidableEq

inductive Act
  /-- fork of process p succeeds or returns -1. -/
  | fork (p : Nat) (ok : Bool)
  | leave (p : Nat)
  | add (p : Nat)
  | branch (p : Nat)
  /-- waitpid of process p returns process q; where it returns nothing the state is the same. -/
  | reap (p q : Nat)
  | print (p : Nat)
deriving DecidableEq

/-- What fork makes of the memory of c. -/
def Proc.child (c : Proc) (p : Nat) : Proc where
  pc := .summing
  i := c.i
  totalSum := c.totalSum
  parent := some p
  reaped := false

def Pc.ended : Pc → Bool
  | .exited | .printed _ => true
  | _ => false

def System.set (s : System) (p : Nat) (c : Proc) : System := { s with procs := s.procs.set p c }

/-- One action; none where it cannot be taken. -/
def step (s : System) : Act → Option System
  | .fork p ok => do
    let c ← s.procs[p]?
    if c.pc = .forking ∧ c.i < threadNum then
      let next := { c with i := c.i + 1 }
      if ok then some { s with procs := s.procs.set p next ++ [c.child p] }
      else some { procs := s.procs.set p next, failed := s.failed + 1 }
    else none
  | .leave p => do
    let c ← s.procs[p]?
    if c.pc = .forking ∧ ¬c.i < threadNum then some (s.set p { c with pc := .left }) else none
  | .add p => do
    let c ← s.procs[p]?
    if c.pc = .summing then
      some (s.set p { c with pc := .left, totalSum := c.totalSum + getIntervalSum c.i })
    else none
  | .branch p => do
    let c ← s.procs[p]?
    if c.pc = .left then some (s.set p { c with pc := if c.i < threadNum then .exited else .reaping 0 }) else none
  | .reap p q => do
    let c ← s.procs[p]?
    let d ← s.procs[q]?
    match c.pc with
    | .reaping reclaimNum =>
      if d.parent = some p ∧ d.pc.ended = true ∧ d.reaped = false then
        let reclaimNum := reclaimNum + 1
        some ((s.set q { d with reaped := true }).set p
          { c with pc := if reclaimNum ≠ threadNum then .reaping reclaimNum else .printing })
      else none
    | _ => none
  | .print p => do
    let c ← s.procs[p]?
    if c.pc = .printing then some (s.set p { c with pc := .printed c.totalSum }) else none

def start : System where
  procs := [{ pc := .forking, i := 0, totalSum := 0, parent := none, reaped := false }]
  failed := 0

/-- How many children a process has got from waitpid. -/
def Pc.reclaimed : Pc → Nat
  | .reaping reclaimNum => reclaimNum
  | .printing | .printed _ => threadNum
  | _ => 0

/-- A child adds its own part to its own copy of total_sum. -/
structure Child (c : Proc) : Prop where
  parent : c.parent = some 0
  small : c.i < threadNum
  at' : (c.pc = .summing ∧ c.totalSum = 0) ∨ ((c.pc = .left ∨ c.pc = .exited) ∧ c.totalSum = getIntervalSum c.i)
  reaped : c.reaped = true → c.pc = .exited

/-- The first process, whose total_sum no child can reach. -/
structure First (c : Proc) : Prop where
  parent : c.parent = none
  total : c.totalSum = 0
  at' : (c.pc = .forking ∧ c.i ≤ threadNum) ∨
    (c.i = threadNum ∧ (c.pc = .left ∨ (∃ n < threadNum, c.pc = .reaping n) ∨ c.pc = .printing ∨ c.pc = .printed 0))

/-- One child for each value of i, but for the forks that failed; and the first process has
counted those it has got. -/
structure Forked (first : Proc) (children : List Proc) (failed : Nat) : Prop where
  main : First first
  child : ∀ c ∈ children, Child c
  parts : (children.map (·.i)).Sublist (List.range first.i)
  count : children.length + failed = first.i
  reclaimed : children.countP (·.reaped) = first.pc.reclaimed

def Inv (s : System) : Prop := ∃ first children, s.procs = first :: children ∧ Forked first children s.failed

variable {s t : System} {first c c' : Proc} {children : List Proc} {failed p q k n : Nat}

theorem getIntervalSum_eq (i : Nat) : getIntervalSum i = MultiThreadCal.squares (i * 20000) (i * 20000 + 20000) := by
  have hfold : ∀ (n a : Nat) (temp : BitVec 64),
      (List.range' a n).foldl (fun temp i => temp + MultiThreadCal.square i) temp =
        temp + MultiThreadCal.squares a (a + n) := by
    intro n
    induction n with
    | zero =>
      intro a temp
      simp [MultiThreadCal.squares]
    | succ n ih =>
      intro a temp
      have hfirst : MultiThreadCal.squares a (a + 1 + n) =
          MultiThreadCal.square a + MultiThreadCal.squares (a + 1) (a + 1 + n) :=
        Finset.sum_eq_sum_Ico_succ_bot (by omega) _
      rw [List.range'_succ, List.foldl_cons, ih, show a + (n + 1) = a + 1 + n by omega, hfirst, add_assoc]
  rw [getIntervalSum, hfold, Nat.add_sub_cancel_left, zero_add]

/-- What stays the same of a process stays the same of all. -/
theorem map_set_same {α : Type} (f : Proc → α) (h : children[k]? = some c) (hf : f c' = f c) :
    (children.set k c').map f = children.map f := by
  rw [List.map_set, hf]
  apply List.ext_getElem?
  intro j
  rw [List.getElem?_set]
  split
  next hj =>
    subst hj
    rw [List.getElem?_map, h]
    split
    next => rfl
    next hlen => exact absurd (by simpa using (List.getElem?_eq_some_iff.mp h).1) hlen
  next => rfl

theorem start_inv : Inv start := by
  refine ⟨_, [], rfl, ⟨rfl, rfl, Or.inl ⟨rfl, Nat.zero_le _⟩⟩, nofun, List.Sublist.refl _, rfl, rfl⟩

theorem Child.pc_cases (h : Child c) : c.pc = .summing ∨ c.pc = .left ∨ c.pc = .exited := by
  rcases h.at' with ⟨hpc, -⟩ | ⟨hpc, -⟩
  · exact Or.inl hpc
  · exact Or.inr hpc

/-- Only the first process forks, waits and prints. -/
theorem Child.not_main (h : Child c) :
    c.pc ≠ .forking ∧ (∀ n, c.pc ≠ .reaping n) ∧ c.pc ≠ .printing ∧ ∀ x, c.pc ≠ .printed x := by
  rcases h.pc_cases with hpc | hpc | hpc
  all_goals
    rw [hpc]
    exact ⟨nofun, nofun, nofun, nofun⟩

/-- Behind its loop the first process has called fork for each value of i. -/
theorem First.past (h : First c) (hpc : c.pc ≠ .forking) : c.i = threadNum := by
  rcases h.at' with ⟨hforking, -⟩ | ⟨hi, -⟩
  · exact absurd hforking hpc
  · exact hi

theorem First.reaping (h : First c) (hpc : c.pc = .reaping n) : n < threadNum := by
  rcases h.at' with ⟨hpc', -⟩ | ⟨-, hpc' | ⟨m, hm, hpc'⟩ | hpc' | hpc'⟩
  case inr.inr.inl =>
    rw [hpc] at hpc'
    exact Pc.reaping.inj hpc' ▸ hm
  all_goals
    rw [hpc] at hpc'
    cases hpc'

theorem First.printed {x : BitVec 64} (h : First c) (hpc : c.pc = .printed x) : x = 0 := by
  rcases h.at' with ⟨hpc', -⟩ | ⟨-, hpc' | ⟨m, -, hpc'⟩ | hpc' | hpc'⟩
  case inr.inr.inr.inr =>
    rw [hpc] at hpc'
    exact Pc.printed.inj hpc'
  all_goals
    rw [hpc] at hpc'
    cases hpc'

theorem Forked.child_step (h : Forked first children failed) (hc : children[k]? = some c) (hc' : Child c')
    (hi : c'.i = c.i) (hreaped : c'.reaped = c.reaped) : Forked first (children.set k c') failed := by
  refine ⟨h.main, fun d hd => ?_, ?_, ?_, ?_⟩
  · rcases List.mem_or_eq_of_mem_set hd with hd | rfl
    · exact h.child d hd
    · exact hc'
  · rw [map_set_same (·.i) hc hi]
    exact h.parts
  · rw [List.length_set]
    exact h.count
  · have hmove := countP_move (·.reaped) hc c'
    rw [hreaped] at hmove
    rw [← h.reclaimed]
    omega

theorem Forked.fork (h : Forked first children failed) (hpc : first.pc = .forking) (hi : first.i < threadNum) :
    Forked { first with i := first.i + 1 } (children ++ [first.child 0]) failed ∧
      Forked { first with i := first.i + 1 } children (failed + 1) := by
  have hmain : First { first with i := first.i + 1 } := ⟨h.main.parent, h.main.total, Or.inl ⟨hpc, hi⟩⟩
  have hparts : (List.range (first.i + 1)) = List.range first.i ++ [first.i] := List.range_succ
  have hcount := h.count
  refine ⟨⟨hmain, fun d hd => ?_, ?_, ?_, ?_⟩, hmain, h.child, ?_, ?_, h.reclaimed⟩
  · rcases List.mem_append.mp hd with hd | hd
    · exact h.child d hd
    · obtain rfl := List.mem_singleton.mp hd
      exact ⟨rfl, hi, Or.inl ⟨rfl, h.main.total⟩, nofun⟩
  · rw [List.map_append, hparts]
    exact h.parts.append (List.Sublist.refl _)
  · show (children ++ [first.child 0]).length + failed = first.i + 1
    rw [List.length_append, List.length_singleton]
    omega
  · show (children ++ [first.child 0]).countP (·.reaped) = first.pc.reclaimed
    rw [List.countP_append, h.reclaimed]
    rfl
  · rw [hparts]
    exact h.parts.trans (List.sublist_append_left _ _)
  · show children.length + (failed + 1) = first.i + 1
    omega

theorem Forked.main_step (h : Forked first children failed) (hmain : First c') (hi : c'.i = first.i)
    (hreclaimed : c'.pc.reclaimed = first.pc.reclaimed) : Forked c' children failed :=
  ⟨hmain, h.child, hi ▸ h.parts, hi ▸ h.count, hreclaimed ▸ h.reclaimed⟩

theorem Forked.reap (h : Forked first children failed) (hpc : first.pc = .reaping n) (hc : children[k]? = some c)
    (hended : c.pc.ended = true) (hreaped : c.reaped = false) :
    Forked { first with pc := if n + 1 ≠ threadNum then .reaping (n + 1) else .printing }
      (children.set k { c with reaped := true }) failed := by
  have hchild := h.child c (List.mem_of_getElem? hc)
  have hexited : c.pc = .exited := by
    rcases hchild.pc_cases with hpc | hpc | hpc
    · rw [hpc] at hended
      cases hended
    · rw [hpc] at hended
      cases hended
    · exact hpc
  have hi := h.main.past (by rw [hpc]; nofun)
  have hn := h.main.reaping hpc
  have hmove := countP_move (·.reaped) hc { c with reaped := true }
  have hcount := h.reclaimed
  rw [hpc] at hcount
  simp only [hreaped, Bool.toNat_false, Bool.toNat_true, Pc.reclaimed] at hmove hcount
  have hchild' : Child { c with reaped := true } := ⟨hchild.parent, hchild.small, hchild.at', fun _ => hexited⟩
  refine ⟨⟨h.main.parent, h.main.total, Or.inr ⟨hi, ?_⟩⟩, fun d hd => ?_, ?_, ?_, ?_⟩
  · by_cases hlast : n + 1 = threadNum
    · simp [hlast]
    · simp [hlast]
      omega
  · rcases List.mem_or_eq_of_mem_set hd with hd | rfl
    · exact h.child d hd
    · exact hchild'
  · have hmap : (children.set k { c with reaped := true }).map (·.i) = children.map (·.i) := map_set_same (·.i) hc rfl
    rw [hmap]
    exact h.parts
  · rw [List.length_set]
    exact h.count
  · by_cases hlast : n + 1 = threadNum
    · simp only [hlast, ne_eq, not_true_eq_false, if_false, Pc.reclaimed]
      omega
    · simp only [hlast, ne_eq, not_false_eq_true, if_true, Pc.reclaimed]
      omega

theorem First.not_summing (h : First c) : c.pc ≠ .summing := by
  rcases h.at' with ⟨hpc, -⟩ | ⟨-, hpc | ⟨m, -, hpc⟩ | hpc | hpc⟩
  all_goals
    rw [hpc]
    nofun

theorem Inv.fork {ok : Bool} (h : Inv s) (hs : step s (.fork p ok) = some t) : Inv t := by
  obtain ⟨first, children, hprocs, hforked⟩ := h
  obtain ⟨c, hc, hs⟩ := Option.bind_eq_some_iff.mp hs
  obtain ⟨⟨hpc, hi⟩, hs⟩ := Option.ite_none_right_eq_some.mp hs
  rw [hprocs] at hc
  cases p with
  | zero =>
    obtain rfl := Option.some.inj hc
    cases ok with
    | true =>
      cases Option.some.inj hs
      refine ⟨_, _, ?_, (hforked.fork hpc hi).1⟩
      show s.procs.set 0 { first with i := first.i + 1 } ++ [first.child 0] = _
      rw [hprocs]
      rfl
    | false =>
      cases Option.some.inj hs
      refine ⟨_, _, ?_, (hforked.fork hpc hi).2⟩
      show s.procs.set 0 { first with i := first.i + 1 } = _
      rw [hprocs]
      rfl
  | succ k =>
    exact absurd hpc (hforked.child c (List.mem_of_getElem? hc)).not_main.1

/-- A step that changes one process and no part of i. -/
theorem Inv.set (h : Inv s) (hc : s.procs[p]? = some c) (hi : c'.i = c.i) (hreaped : c'.reaped = c.reaped)
    (hmain : First c → First c' ∧ c'.pc.reclaimed = c.pc.reclaimed) (hchild : Child c → Child c') :
    Inv (s.set p c') := by
  obtain ⟨first, children, hprocs, hforked⟩ := h
  rw [hprocs] at hc
  cases p with
  | zero =>
    obtain rfl := Option.some.inj hc
    obtain ⟨hfirst, hreclaimed⟩ := hmain hforked.main
    refine ⟨c', children, ?_, hforked.main_step hfirst hi hreclaimed⟩
    rw [System.set, hprocs]
    rfl
  | succ k =>
    have hc : children[k]? = some c := hc
    have hnext := hchild (hforked.child c (List.mem_of_getElem? hc))
    refine ⟨first, children.set k c', ?_, hforked.child_step hc hnext hi hreaped⟩
    rw [System.set, hprocs]
    rfl

theorem Inv.leave (h : Inv s) (hs : step s (.leave p) = some t) : Inv t := by
  obtain ⟨c, hc, hs⟩ := Option.bind_eq_some_iff.mp hs
  obtain ⟨⟨hpc, hi⟩, ⟨⟩⟩ := Option.ite_none_right_eq_some.mp hs
  refine h.set hc rfl rfl (fun hfirst => ?_) fun hchild => ?_
  · rcases hfirst.at' with ⟨-, hle⟩ | ⟨heq, -⟩
    · exact ⟨⟨hfirst.parent, hfirst.total, Or.inr ⟨by show c.i = threadNum; omega, Or.inl rfl⟩⟩, by rw [hpc]; rfl⟩
    · exact ⟨⟨hfirst.parent, hfirst.total, Or.inr ⟨heq, Or.inl rfl⟩⟩, by rw [hpc]; rfl⟩
  · exact absurd hchild.small hi

theorem Inv.add (h : Inv s) (hs : step s (.add p) = some t) : Inv t := by
  obtain ⟨c, hc, hs⟩ := Option.bind_eq_some_iff.mp hs
  obtain ⟨hpc, ⟨⟩⟩ := Option.ite_none_right_eq_some.mp hs
  refine h.set hc rfl rfl (fun hfirst => absurd hpc hfirst.not_summing) fun hchild => ?_
  have htotal : c.totalSum = 0 := by
    rcases hchild.at' with ⟨-, htotal⟩ | ⟨hpc' | hpc', -⟩
    · exact htotal
    · rw [hpc] at hpc'
      cases hpc'
    · rw [hpc] at hpc'
      cases hpc'
  have hreaped : ¬c.reaped = true := fun hreaped => by
    have hexited := hchild.reaped hreaped
    rw [hpc] at hexited
    cases hexited
  refine ⟨hchild.parent, hchild.small, Or.inr ⟨Or.inl rfl, ?_⟩, fun hr => absurd hr hreaped⟩
  show c.totalSum + getIntervalSum c.i = getIntervalSum c.i
  rw [htotal, zero_add]

theorem Inv.branch (h : Inv s) (hs : step s (.branch p) = some t) : Inv t := by
  obtain ⟨c, hc, hs⟩ := Option.bind_eq_some_iff.mp hs
  obtain ⟨hpc, ⟨⟩⟩ := Option.ite_none_right_eq_some.mp hs
  refine h.set hc rfl rfl (fun hfirst => ?_) fun hchild => ?_
  · have hi := hfirst.past (by rw [hpc]; nofun)
    have hnot : ¬c.i < threadNum := by omega
    simp only [hnot, if_false]
    exact ⟨⟨hfirst.parent, hfirst.total, Or.inr ⟨hi, Or.inr (Or.inl ⟨0, by decide, rfl⟩)⟩⟩, by rw [hpc]; rfl⟩
  · have htotal : c.totalSum = getIntervalSum c.i := by
      rcases hchild.at' with ⟨hpc', -⟩ | ⟨-, htotal⟩
      · rw [hpc] at hpc'
        cases hpc'
      · exact htotal
    simp only [hchild.small, if_true]
    exact ⟨hchild.parent, hchild.small, Or.inr ⟨Or.inr rfl, htotal⟩, fun _ => rfl⟩

theorem Inv.reap (h : Inv s) (hs : step s (.reap p q) = some t) : Inv t := by
  obtain ⟨first, children, hprocs, hforked⟩ := h
  obtain ⟨c, hc, hs⟩ := Option.bind_eq_some_iff.mp hs
  obtain ⟨d, hd, hs⟩ := Option.bind_eq_some_iff.mp hs
  rw [hprocs] at hc hd
  split at hs
  next n hpc =>
    obtain ⟨⟨hparent, hended, hreaped⟩, ⟨⟩⟩ := Option.ite_none_right_eq_some.mp hs
    cases p with
    | zero =>
      obtain rfl := Option.some.inj hc
      cases q with
      | zero =>
        obtain rfl := Option.some.inj hd
        rw [hforked.main.parent] at hparent
        cases hparent
      | succ k =>
        have hd : children[k]? = some d := hd
        refine ⟨_, _, ?_, hforked.reap hpc hd hended hreaped⟩
        simp only [System.set, hprocs]
        rfl
    | succ k => exact absurd hpc ((hforked.child c (List.mem_of_getElem? hc)).not_main.2.1 n)
  next => cases hs

theorem Inv.print (h : Inv s) (hs : step s (.print p) = some t) : Inv t := by
  obtain ⟨c, hc, hs⟩ := Option.bind_eq_some_iff.mp hs
  obtain ⟨hpc, ⟨⟩⟩ := Option.ite_none_right_eq_some.mp hs
  refine h.set hc rfl rfl (fun hfirst => ?_) fun hchild => ?_
  · have hi := hfirst.past (by rw [hpc]; nofun)
    refine ⟨⟨hfirst.parent, hfirst.total, Or.inr ⟨hi, Or.inr (Or.inr (Or.inr ?_))⟩⟩, by rw [hpc]; rfl⟩
    rw [hfirst.total]
  · exact absurd hpc hchild.not_main.2.2.1

theorem Inv.step {a : Act} (h : Inv s) (hs : step s a = some t) : Inv t := by
  cases a with
  | fork p ok => exact h.fork hs
  | leave p => exact h.leave hs
  | add p => exact h.add hs
  | branch p => exact h.branch hs
  | reap p q => exact h.reap hs
  | print p => exact h.print hs

end MultiProcess

end CppInAction
