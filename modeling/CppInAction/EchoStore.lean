import CppInAction.Run
import CppInAction.Threads
import Mathlib.Algebra.Order.BigOperators.Group.List
import Mathlib.Algebra.Order.Ring.Nat

namespace CppInAction

namespace EchoStore

def bufSize : Nat := 30

/-- The reads of the process that stores. -/
def storeReads : Nat := 10

/-- Where a child is: in read, between read and the write to the client, between the two
writes, or behind the loop. -/
inductive ChildPc
  | reading | echoing (buf : List UInt8) | passing (buf : List UInt8) | left
deriving DecidableEq, Repr

/-- A child and its client: what has arrived and is not read yet, whether the client has
closed, all that it has sent and all that was written back. -/
structure Child where
  pc : ChildPc
  inbox : List UInt8
  closed : Bool
  sent : List UInt8
  echoed : List UInt8
deriving DecidableEq, Repr

/-- The children in the order of their clients, the pipe fds, the writes to it so far with the
child that made each, and the process that stores: the file and the reads it has made. -/
structure System where
  children : List Child
  pipe : List UInt8
  writes : List (Nat × List UInt8)
  file : List UInt8
  reads : Nat
deriving DecidableEq, Repr

inductive Act
  | accept
  | arrive (i : Nat) (bytes : List UInt8)
  | close (i : Nat)
  /-- read(clnt_sock, buf, BUF_SIZE) returns so many bytes; 0 at the end of the stream. -/
  | read (i n : Nat)
  | echo (i : Nat)
  /-- write(fds[1], buf, str_len). -/
  | pass (i : Nat)
  /-- read(fds[0], msg_buf, BUF_SIZE) and fwrite. -/
  | store
deriving DecidableEq, Repr

def newChild : Child where
  pc := .reading
  inbox := []
  closed := false
  sent := []
  echoed := []

namespace Child

def arrive (c : Child) (bytes : List UInt8) : Option Child :=
  if c.closed then none else some { c with inbox := c.inbox ++ bytes, sent := c.sent ++ bytes }

def close (c : Child) : Option Child := some { c with closed := true }

def read (c : Child) (n : Nat) : Option Child :=
  if c.pc = .reading then
    if n = 0 then if c.inbox = [] ∧ c.closed = true then some { c with pc := .left } else none
    else if n ≤ c.inbox.length ∧ n ≤ bufSize then
      some { c with pc := .echoing (c.inbox.take n), inbox := c.inbox.drop n }
    else none
  else none

def echo (c : Child) : Option Child :=
  match c.pc with
  | .echoing buf => some { c with pc := .passing buf, echoed := c.echoed ++ buf }
  | _ => none

end Child

def System.child (s : System) (i : Nat) (f : Child → Option Child) : Option System := do
  let c ← s.children[i]?
  let c' ← f c
  some { s with children := s.children.set i c' }

/-- One action; none where it cannot be taken. A write of at most BUF_SIZE bytes to the pipe
is not divided, and waits until there is room for it. -/
def step (capacity : Nat) (s : System) : Act → Option System
  | .accept => some { s with children := s.children ++ [newChild] }
  | .arrive i bytes => s.child i (·.arrive bytes)
  | .close i => s.child i (·.close)
  | .read i n => s.child i (·.read n)
  | .echo i => s.child i (·.echo)
  | .pass i => do
    let c ← s.children[i]?
    match c.pc with
    | .passing buf =>
      if s.pipe.length + buf.length ≤ capacity then
        some { s with
          children := s.children.set i { c with pc := .reading }
          pipe := s.pipe ++ buf
          writes := s.writes ++ [(i, buf)] }
      else none
    | _ => none
  | .store =>
    if s.reads < storeReads ∧ s.pipe ≠ [] then
      some { s with pipe := s.pipe.drop bufSize, file := s.file ++ s.pipe.take bufSize, reads := s.reads + 1 }
    else none

def start : System where
  children := []
  pipe := []
  writes := []
  file := []
  reads := 0

/-- What a child has read and not written to the pipe yet. -/
def Child.inHand (c : Child) : List UInt8 :=
  match c.pc with
  | .echoing buf | .passing buf => buf
  | _ => []

/-- What a child has written to its client and not to the pipe yet. -/
def Child.ahead (c : Child) : List UInt8 :=
  match c.pc with
  | .passing buf => buf
  | _ => []

/-- The bytes that the writes of one child have put into the pipe. -/
def writtenBy (i : Nat) (writes : List (Nat × List UInt8)) : List UInt8 := ((writes.filter (·.1 = i)).map (·.2)).flatten

def written (writes : List (Nat × List UInt8)) : List UInt8 := (writes.map (·.2)).flatten

/-- The bytes of a client are at one place each and in their order: in the pipe or behind it,
with the child, or not read yet. -/
structure Child.Accounts (c : Child) (w : List UInt8) : Prop where
  sent : c.sent = w ++ c.inHand ++ c.inbox
  echoed : c.echoed = w ++ c.ahead
  small : c.inHand.length ≤ bufSize

structure System.Accounts (capacity : Nat) (s : System) : Prop where
  child : ∀ i (c : Child), s.children[i]? = some c → c.Accounts (writtenBy i s.writes)
  stored : s.file ++ s.pipe = written s.writes
  file : s.file.length ≤ bufSize * s.reads
  reads : s.reads ≤ storeReads
  pipe : s.pipe.length ≤ capacity
  owner : ∀ w ∈ s.writes, w.1 < s.children.length

variable {capacity : Nat} {s t : System} {c c' : Child} {w : List UInt8} {i n : Nat}

theorem writtenBy_append (i : Nat) (ws : List (Nat × List UInt8)) (j : Nat) (buf : List UInt8) :
    writtenBy i (ws ++ [(j, buf)]) = writtenBy i ws ++ if j = i then buf else [] := by
  by_cases hj : j = i
  · simp [writtenBy, hj]
  · simp [writtenBy, hj]

theorem written_append (ws : List (Nat × List UInt8)) (i : Nat) (buf : List UInt8) :
    written (ws ++ [(i, buf)]) = written ws ++ buf := by
  simp [written]

theorem writtenBy_of_lt {ws : List (Nat × List UInt8)} (h : ∀ w ∈ ws, w.1 < i) : writtenBy i ws = [] := by
  have hnone : ws.filter (·.1 = i) = [] := by
    apply List.filter_eq_nil_iff.mpr
    intro w hw
    have := h w hw
    simp
    omega
  rw [writtenBy, hnone]
  rfl

theorem Child.Accounts.arrive {bytes : List UInt8} (h : c.Accounts w) (hs : c.arrive bytes = some c') : c'.Accounts w := by
  obtain ⟨_, ⟨⟩⟩ := Option.ite_none_left_eq_some.mp hs
  refine ⟨?_, h.echoed, h.small⟩
  show c.sent ++ bytes = w ++ c.inHand ++ (c.inbox ++ bytes)
  rw [h.sent, List.append_assoc]

theorem Child.Accounts.read (h : c.Accounts w) (hs : c.read n = some c') : c'.Accounts w := by
  obtain ⟨hpc, hs⟩ := Option.ite_none_right_eq_some.mp hs
  have hsent := h.sent
  have hechoed := h.echoed
  simp only [Child.inHand, Child.ahead, hpc, List.append_nil] at hsent hechoed
  split at hs
  next =>
    obtain ⟨_, ⟨⟩⟩ := Option.ite_none_right_eq_some.mp hs
    exact ⟨by simpa [Child.inHand] using hsent, by simpa [Child.ahead] using hechoed, by simp [Child.inHand]⟩
  next =>
    obtain ⟨⟨hle, hbuf⟩, ⟨⟩⟩ := Option.ite_none_right_eq_some.mp hs
    refine ⟨?_, by simpa [Child.ahead] using hechoed, Nat.le_trans (List.length_take_le _ _) hbuf⟩
    show c.sent = w ++ c.inbox.take n ++ c.inbox.drop n
    rw [List.append_assoc, List.take_append_drop, hsent]

theorem Child.Accounts.echo (h : c.Accounts w) (hs : c.echo = some c') : c'.Accounts w := by
  unfold Child.echo at hs
  split at hs
  next buf hpc =>
    cases Option.some.inj hs
    have hsent := h.sent
    have hechoed := h.echoed
    have hheld := h.small
    simp only [Child.inHand, Child.ahead, hpc, List.append_nil] at hsent hechoed hheld
    exact ⟨hsent, by simp [Child.ahead, hechoed], hheld⟩
  next => cases hs

theorem start_accounts (capacity : Nat) : start.Accounts capacity where
  child := nofun
  stored := rfl
  file := Nat.le_refl _
  reads := Nat.zero_le _
  pipe := Nat.zero_le _
  owner := nofun

theorem System.Accounts.child_step {f : Child → Option Child} (h : s.Accounts capacity)
    (hf : ∀ c c' w, Child.Accounts c w → f c = some c' → c'.Accounts w) (hs : s.child i f = some t) : t.Accounts capacity := by
  obtain ⟨c, hc, hs⟩ := Option.bind_eq_some_iff.mp hs
  obtain ⟨c', hc', hs⟩ := Option.bind_eq_some_iff.mp hs
  cases Option.some.inj hs
  refine ⟨fun j d hd => ?_, h.stored, h.file, h.reads, h.pipe, fun w hw => ?_⟩
  · rcases set_at hd with ⟨rfl, rfl⟩ | ⟨_, hd⟩
    · exact hf _ _ _ (h.child _ _ hc) hc'
    · exact h.child j d hd
  · simpa using h.owner w hw

theorem System.Accounts.accept (h : s.Accounts capacity) :
    System.Accounts capacity { s with children := s.children ++ [newChild] } := by
  refine ⟨fun j d hd => ?_, h.stored, h.file, h.reads, h.pipe, fun w hw => ?_⟩
  · rw [List.getElem?_append] at hd
    split at hd
    next => exact h.child j d hd
    next hj =>
      have hnone : writtenBy j s.writes = [] := writtenBy_of_lt fun w hw => Nat.lt_of_lt_of_le (h.owner w hw) (Nat.le_of_not_lt hj)
      obtain rfl : newChild = d := by
        rw [List.getElem?_singleton] at hd
        exact (Option.ite_none_right_eq_some.mp hd).2 |> Option.some.inj
      rw [hnone]
      exact ⟨rfl, rfl, Nat.zero_le _⟩
  · rw [List.length_append]
    exact Nat.lt_add_right _ (h.owner w hw)

theorem System.Accounts.pass (h : s.Accounts capacity) (hs : step capacity s (.pass i) = some t) : t.Accounts capacity := by
  obtain ⟨c, hc, hs⟩ := Option.bind_eq_some_iff.mp hs
  split at hs
  next buf hpc =>
    obtain ⟨hroom, ⟨⟩⟩ := Option.ite_none_right_eq_some.mp hs
    have hchild := h.child i c hc
    have hsent := hchild.sent
    have hechoed := hchild.echoed
    simp only [Child.inHand, Child.ahead, hpc] at hsent hechoed
    refine ⟨fun j d hd => ?_, ?_, h.file, h.reads, ?_, ?_⟩
    · rw [writtenBy_append]
      rcases set_at hd with ⟨rfl, rfl⟩ | ⟨hj, hd⟩
      · rw [if_pos rfl]
        exact ⟨by simpa [Child.inHand] using hsent, by simpa [Child.ahead] using hechoed, Nat.zero_le _⟩
      · rw [if_neg (Ne.symm hj), List.append_nil]
        exact h.child j d hd
    · rw [written_append, ← List.append_assoc, h.stored]
    · rw [List.length_append]
      exact hroom
    · intro w hw
      rw [List.length_set]
      rcases List.mem_append.mp hw with hw | hw
      · exact h.owner w hw
      · obtain rfl := List.mem_singleton.mp hw
        exact (List.getElem?_eq_some_iff.mp hc).1
  next => cases hs

theorem System.Accounts.store (h : s.Accounts capacity) (hs : step capacity s .store = some t) : t.Accounts capacity := by
  obtain ⟨⟨hreads, _⟩, ⟨⟩⟩ := Option.ite_none_right_eq_some.mp hs
  refine ⟨h.child, ?_, ?_, hreads, ?_, h.owner⟩
  · show s.file ++ s.pipe.take bufSize ++ s.pipe.drop bufSize = written s.writes
    rw [List.append_assoc, List.take_append_drop, h.stored]
  · have hfile := h.file
    have htake := List.length_take_le bufSize s.pipe
    simp only [List.length_append, Nat.mul_succ]
    omega
  · have hpipe := h.pipe
    simp only [List.length_drop]
    omega

theorem System.Accounts.step {a : Act} (h : s.Accounts capacity) (hs : step capacity s a = some t) : t.Accounts capacity := by
  cases a with
  | accept =>
    cases Option.some.inj hs
    exact h.accept
  | arrive i bytes => exact h.child_step (fun _ _ _ hc hs => hc.arrive hs) hs
  | close i =>
    refine h.child_step (fun c c' w hc hs => ?_) hs
    cases Option.some.inj hs
    exact ⟨hc.sent, hc.echoed, hc.small⟩
  | read i n => exact h.child_step (fun _ _ _ hc hs => hc.read hs) hs
  | echo i => exact h.child_step (fun _ _ _ hc hs => hc.echo hs) hs
  | pass i => exact h.pass hs
  | store => exact h.store hs

/-- In every state that is reached the bytes of every client are in the pipe's stream, with its
child or unread, each once and in their order; it has been sent back what its child has put
into the stream and at most one buffer more; and the file is the beginning of the stream. -/
theorem echo_store_accounts (capacity : Nat) (as : List Act) :
    Along (EchoStore.step capacity) (System.Accounts capacity) start as :=
  along_of_step (System.Accounts capacity) (fun _ _ _ h hs => h.step hs) (fun _ h => h) (start_accounts capacity) as

/-- All that was sent back, and the part of it that is not in the pipe's stream yet. -/
def System.echoed (s : System) : Nat := (s.children.map (·.echoed.length)).sum

def System.ahead (s : System) : Nat := (s.children.map (·.ahead.length)).sum

theorem System.child_echoed {f : Child → Option Child} (hs : s.child i f = some t)
    (hf : ∀ c c', f c = some c' → c'.echoed.length + c.ahead.length = c.echoed.length + c'.ahead.length) :
    t.echoed + s.ahead = s.echoed + t.ahead ∧ t.writes = s.writes := by
  obtain ⟨c, hc, hs⟩ := Option.bind_eq_some_iff.mp hs
  obtain ⟨c', hc', hs⟩ := Option.bind_eq_some_iff.mp hs
  cases Option.some.inj hs
  have hechoed := sum_move (·.echoed.length) hc c'
  have hahead := sum_move (·.ahead.length) hc c'
  have hboth := hf c c' hc'
  simp only [System.echoed, System.ahead] at hechoed hahead ⊢
  exact ⟨by omega, trivial⟩

theorem step_echoed {a : Act} (hs : step capacity s a = some t) (h : s.echoed = (written s.writes).length + s.ahead) :
    t.echoed = (written t.writes).length + t.ahead := by
  cases a with
  | accept =>
    cases Option.some.inj hs
    simpa [System.echoed, System.ahead, newChild, Child.ahead] using h
  | arrive i bytes =>
    obtain ⟨hsum, hwrites⟩ := System.child_echoed hs fun c c' hc => by
      obtain ⟨_, ⟨⟩⟩ := Option.ite_none_left_eq_some.mp hc
      rfl
    rw [hwrites]
    omega
  | close i =>
    obtain ⟨hsum, hwrites⟩ := System.child_echoed hs fun c c' hc => by
      cases Option.some.inj hc
      rfl
    rw [hwrites]
    omega
  | read i n =>
    obtain ⟨hsum, hwrites⟩ := System.child_echoed hs fun c c' hc => by
      obtain ⟨hpc, hc⟩ := Option.ite_none_right_eq_some.mp hc
      split at hc
      next =>
        obtain ⟨_, ⟨⟩⟩ := Option.ite_none_right_eq_some.mp hc
        simp [Child.ahead, hpc]
      next =>
        obtain ⟨_, ⟨⟩⟩ := Option.ite_none_right_eq_some.mp hc
        simp [Child.ahead, hpc]
    rw [hwrites]
    omega
  | echo i =>
    obtain ⟨hsum, hwrites⟩ := System.child_echoed hs fun c c' hc => by
      unfold Child.echo at hc
      split at hc
      next buf hpc =>
        cases Option.some.inj hc
        simp [Child.ahead, hpc]
      next => cases hc
    rw [hwrites]
    omega
  | pass i =>
    obtain ⟨c, hc, hs⟩ := Option.bind_eq_some_iff.mp hs
    split at hs
    next buf hpc =>
      obtain ⟨_, ⟨⟩⟩ := Option.ite_none_right_eq_some.mp hs
      have hechoed := Nat.add_right_cancel (sum_move (·.echoed.length) hc { c with pc := .reading })
      have hahead := sum_move (·.ahead.length) hc { c with pc := .reading }
      have hbuf : c.ahead = buf := by simp [Child.ahead, hpc]
      have hnil : Child.ahead { c with pc := .reading } = [] := rfl
      rw [hbuf, hnil, List.length_nil] at hahead
      simp only [System.echoed, System.ahead, written_append, List.length_append] at h ⊢
      omega
    next => cases hs
  | store =>
    obtain ⟨_, ⟨⟩⟩ := Option.ite_none_right_eq_some.mp hs
    exact h

theorem System.Accounts.ahead_le (h : s.Accounts capacity) : s.ahead ≤ bufSize * s.children.length := by
  have hle : ∀ n ∈ s.children.map (·.ahead.length), n ≤ bufSize := by
    intro n hn
    obtain ⟨c, hc, rfl⟩ := List.mem_map.mp hn
    obtain ⟨i, hi⟩ := List.mem_iff_getElem?.mp hc
    refine Nat.le_trans ?_ (h.child i c hi).small
    unfold Child.ahead Child.inHand
    split <;> simp_all
  have hsum := List.sum_le_card_nsmul _ _ hle
  rw [List.length_map, Nat.nsmul_eq_mul, Nat.mul_comm] at hsum
  exact hsum

/-- However much the clients send, the server sends back no more than the ten reads of the
storing process can take, the pipe can hold, and each child has in its buffer. -/
theorem echo_store_bound (capacity : Nat) (as : List Act) :
    Along (EchoStore.step capacity) (fun s => s.echoed ≤ bufSize * storeReads + capacity + bufSize * s.children.length) start as := by
  refine along_of_step (fun s => s.Accounts capacity ∧ s.echoed = (written s.writes).length + s.ahead)
    (fun _ _ _ h hs => ⟨h.1.step hs, step_echoed hs h.2⟩) (fun s h => ?_) ⟨start_accounts capacity, rfl⟩ as
  obtain ⟨h, hsum⟩ := h
  have hstored := congrArg List.length h.stored
  rw [List.length_append] at hstored
  have hfile := h.file
  have hreads := Nat.mul_le_mul_left bufSize h.reads
  have hpipe := h.pipe
  have hahead := h.ahead_le
  omega

/-- A child that waits for room in a pipe that nothing is read from any more. -/
structure Stuck (capacity i : Nat) (buf echoed : List UInt8) (s : System) : Prop where
  reads : s.reads = storeReads
  full : capacity < s.pipe.length + buf.length
  waits : ∃ c, s.children[i]? = some c ∧ c.pc = .passing buf ∧ c.echoed = echoed

theorem Stuck.child_step {buf echoed : List UInt8} {j : Nat} {f : Child → Option Child} (h : Stuck capacity i buf echoed s)
    (hf : ∀ c c', f c = some c' → c.pc = .passing buf → c'.pc = .passing buf ∧ c'.echoed = c.echoed)
    (hs : s.child j f = some t) : Stuck capacity i buf echoed t := by
  obtain ⟨d, hd, hs⟩ := Option.bind_eq_some_iff.mp hs
  obtain ⟨d', hd', hs⟩ := Option.bind_eq_some_iff.mp hs
  cases Option.some.inj hs
  obtain ⟨c, hc, hpc, hechoed⟩ := h.waits
  refine ⟨h.reads, h.full, ?_⟩
  by_cases hij : j = i
  · subst hij
    obtain rfl := Option.some.inj (hc.symm.trans hd)
    obtain ⟨hpc', hechoed'⟩ := hf c d' hd' hpc
    exact ⟨d', List.getElem?_set_self (List.getElem?_eq_some_iff.mp hc).1, hpc', hechoed'.trans hechoed⟩
  · exact ⟨c, by rw [List.getElem?_set_ne hij]; exact hc, hpc, hechoed⟩

theorem Stuck.step {buf echoed : List UInt8} {a : Act} (h : Stuck capacity i buf echoed s) (hs : step capacity s a = some t) :
    Stuck capacity i buf echoed t := by
  cases a with
  | accept =>
    cases Option.some.inj hs
    obtain ⟨c, hc, hwaits⟩ := h.waits
    exact ⟨h.reads, h.full, c, by rw [List.getElem?_append_left (List.getElem?_eq_some_iff.mp hc).1]; exact hc, hwaits⟩
  | arrive j bytes =>
    refine h.child_step (fun c c' hc hpc => ?_) hs
    obtain ⟨_, ⟨⟩⟩ := Option.ite_none_left_eq_some.mp hc
    exact ⟨hpc, rfl⟩
  | close j =>
    refine h.child_step (fun c c' hc hpc => ?_) hs
    cases Option.some.inj hc
    exact ⟨hpc, rfl⟩
  | read j n =>
    refine h.child_step (fun c c' hc hpc => ?_) hs
    simp [Child.read, hpc] at hc
  | echo j =>
    refine h.child_step (fun c c' hc hpc => ?_) hs
    simp [Child.echo, hpc] at hc
  | pass j =>
    obtain ⟨d, hd, hs⟩ := Option.bind_eq_some_iff.mp hs
    obtain ⟨c, hc, hpc, hechoed⟩ := h.waits
    have hfull := h.full
    split at hs
    next buf' hpc' =>
      obtain ⟨hroom, ⟨⟩⟩ := Option.ite_none_right_eq_some.mp hs
      have hij : j ≠ i := by
        rintro rfl
        obtain rfl := Option.some.inj (hc.symm.trans hd)
        obtain rfl : buf = buf' := by simpa using hpc.symm.trans hpc'
        omega
      refine ⟨h.reads, ?_, c, by rw [List.getElem?_set_ne hij]; exact hc, hpc, hechoed⟩
      rw [List.length_append]
      omega
    next => cases hs
  | store =>
    obtain ⟨⟨hreads, _⟩, _⟩ := Option.ite_none_right_eq_some.mp hs
    exact absurd h.reads hreads.ne

/-- Behind the tenth read of the storing process a child that finds no room in the pipe never
leaves its write: whatever the others do, its client is sent nothing more. -/
theorem echo_store_stuck {buf echoed : List UInt8} (h : Stuck capacity i buf echoed s) (bs : List Act) :
    Along (EchoStore.step capacity) (Stuck capacity i buf echoed) s bs :=
  along_of_step (Stuck capacity i buf echoed) (fun _ _ _ h hs => h.step hs) (fun _ h => h) h bs

/-- Ten bytes that are stored one by one, four that fill the pipe, and two for which there is no room. -/
def fillPipe : List Act :=
  .accept :: (List.replicate storeReads [.arrive 0 [65], .read 0 1, .echo 0, .pass 0, .store]).flatten ++
    [.arrive 0 [66, 67, 68, 69, 70, 71], .read 0 4, .echo 0, .pass 0, .read 0 2, .echo 0]

theorem echo_store_stuck_full :
    ∃ s, runSteps (EchoStore.step 4) start fillPipe = some s ∧
      Along (EchoStore.step 4) (Stuck 4 0 [70, 71] (List.replicate 10 65 ++ [66, 67, 68, 69, 70, 71])) s
        [.accept, .arrive 0 [72], .close 0] := by
  obtain ⟨s, hrun, hreads, hpipe, hwaits⟩ : ∃ s, runSteps (EchoStore.step 4) start fillPipe = some s ∧
      s.reads = storeReads ∧ s.pipe = [66, 67, 68, 69] ∧ ∃ c, s.children[0]? = some c ∧ c.pc = .passing [70, 71] ∧
        c.echoed = List.replicate 10 65 ++ [66, 67, 68, 69, 70, 71] := ⟨_, rfl, rfl, rfl, _, rfl, rfl, rfl⟩
  exact ⟨s, hrun, echo_store_stuck ⟨hreads, by rw [hpipe]; decide, hwaits⟩ _⟩

end EchoStore

end CppInAction
