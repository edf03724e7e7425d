import CppInAction.Run
import CppInAction.CMemory

namespace CppInAction

namespace FileTransfer

def bufSize : Nat := 30

/-- Where file_server is: before fread, in write with what is left of the buffer (and whether
the loop ends behind it), before shutdown, in read, and at its end with the number read returned. -/
inductive ServerPc
  | reading | writing (left : List UInt8) (last : Bool) | closing | waiting | done (n : Nat)
deriving DecidableEq, Repr

/-- Where file_client is: in its loop, before its write, and behind it. -/
inductive ClientPc
  | reading | thanking | done
deriving DecidableEq, Repr

/-- The file of the server from the place of fread on, its buffer, the bytes on the way to the
client, the file of the client, and the bytes on the way back. -/
structure System where
  server : ServerPc
  client : ClientPc
  rest : List UInt8
  buf : List UInt8
  stream : List UInt8
  received : List UInt8
  back : List UInt8
deriving DecidableEq, Repr

inductive Act
  | fread
  /-- write passes on so many bytes. -/
  | put (n : Nat)
  | wrote
  | shutdown
  /-- read(client_socket, buf, BUF_SIZE) of the client returns so many bytes; 0 at the end of the stream. -/
  | receive (n : Nat)
  | thank
  /-- read(client_socket, buf, BUF_SIZE) of the server. -/
  | answer (n : Nat)
deriving DecidableEq, Repr

def thanks : List UInt8 := bytes "Thank you" ++ [0]

/-- The client sees the end of the stream once the server has called shutdown. -/
def ServerPc.shut : ServerPc → Bool
  | .waiting | .done _ => true
  | _ => false

/-- One action; none where it cannot be taken. The stream has room for so many bytes. -/
def step (capacity : Nat) (s : System) : Act → Option System
  | .fread =>
    match s.server with
    | .reading =>
      let chunk := s.rest.take bufSize
      some { s with
        server := .writing chunk (chunk.length < bufSize)
        rest := s.rest.drop bufSize
        buf := chunk ++ s.buf.drop chunk.length }
    | _ => none
  | .put n =>
    match s.server with
    | .writing left last =>
      if 0 < n ∧ n ≤ left.length ∧ s.stream.length + n ≤ capacity then
        some { s with server := .writing (left.drop n) last, stream := s.stream ++ left.take n }
      else none
    | _ => none
  | .wrote =>
    match s.server with
    | .writing [] last => some { s with server := if last then .closing else .reading }
    | _ => none
  | .shutdown =>
    match s.server with
    | .closing => some { s with server := .waiting }
    | _ => none
  | .receive n =>
    match s.client with
    | .reading =>
      if n = 0 then
        if s.stream = [] ∧ s.server.shut = true then some { s with client := .thanking } else none
      else if n ≤ bufSize ∧ n ≤ s.stream.length then
        some { s with stream := s.stream.drop n, received := s.received ++ s.stream.take n }
      else none
    | _ => none
  | .thank =>
    match s.client with
    | .thanking => some { s with client := .done, back := s.back ++ thanks }
    | _ => none
  | .answer n =>
    match s.server with
    | .waiting =>
      if 0 < n ∧ n ≤ bufSize ∧ n ≤ s.back.length then
        some { s with server := .done n, buf := s.back.take n ++ s.buf.drop n, back := s.back.drop n }
      else none
    | _ => none

/-- buf has no initial value. -/
def start (buf file : List UInt8) : System where
  server := .reading
  client := .reading
  rest := file
  buf := buf
  stream := []
  received := []
  back := []

/-- The text that printf takes out of buf. -/
def System.message (s : System) : List UInt8 := s.buf.takeWhile (· ≠ 0)

/-- What write has still to pass on. -/
def ServerPc.left : ServerPc → List UInt8
  | .writing left _ => left
  | _ => []

/-- The server reads no more of its file. -/
def ServerPc.last : ServerPc → Bool
  | .reading => false
  | .writing _ last => last
  | _ => true

/-- Every byte of the file is at one place, in its order; and what each of the two has come
to says where the other is. -/
structure Accounts (file : List UInt8) (s : System) : Prop where
  all : s.received ++ s.stream ++ s.server.left ++ s.rest = file
  last : s.server.last = true → s.rest = []
  client : s.client ≠ .reading → s.stream = [] ∧ s.server.shut = true
  back : (∀ n, s.server ≠ .done n) → s.back = if s.client = .done then thanks else []
  server : ∀ n, s.server = .done n → s.client = .done ∧ (n = thanks.length → s.message = bytes "Thank you")

/-- Both programs are at their ends. -/
def Finished (s : System) : Prop := s.client = .done ∧ ∃ n, s.server = .done n

variable {capacity n : Nat} {buf file : List UInt8} {s t : System}

theorem start_accounts (buf file : List UInt8) : Accounts file (start buf file) where
  all := rfl
  last := nofun
  client := fun h => absurd rfl h
  back := fun _ => rfl
  server := nofun

theorem ServerPc.left_of_shut {pc : ServerPc} (h : pc.shut = true) : pc.left = [] ∧ pc.last = true := by
  cases pc with
  | waiting | done => exact ⟨rfl, rfl⟩
  | _ => cases h

/-- As long as the server has not called shutdown, the client is in its loop. -/
theorem Accounts.client_reading (h : Accounts file s) (hshut : s.server.shut = false) : s.client = .reading := by
  by_contra hne
  have := (h.client hne).2
  rw [hshut] at this
  cases this

theorem Accounts.fread (h : Accounts file s) (hs : step capacity s .fread = some t) : Accounts file t := by
  simp only [step] at hs
  split at hs
  next hpc =>
    cases Option.some.inj hs
    have hall := h.all
    have hclient := h.client_reading (by rw [hpc]; rfl)
    simp only [hpc, ServerPc.left, List.append_nil] at hall
    refine ⟨?_, fun hlast => ?_, fun hne => absurd hclient hne, fun _ => h.back (by rw [hpc]; nofun), nofun⟩
    · show s.received ++ s.stream ++ s.rest.take bufSize ++ s.rest.drop bufSize = file
      rw [List.append_assoc, List.take_append_drop, hall]
    · have hshort : (s.rest.take bufSize).length < bufSize := by simpa [ServerPc.last] using hlast
      rw [List.length_take] at hshort
      exact List.drop_eq_nil_of_le (by omega)
  next => cases hs

theorem Accounts.put (h : Accounts file s) (hs : step capacity s (.put n) = some t) : Accounts file t := by
  simp only [step] at hs
  split at hs
  next left last hpc =>
    obtain ⟨-, ⟨⟩⟩ := Option.ite_none_right_eq_some.mp hs
    have hall := h.all
    have hlast := h.last
    have hclient := h.client_reading (by rw [hpc]; rfl)
    simp only [hpc, ServerPc.left] at hall
    simp only [hpc] at hlast
    refine ⟨?_, hlast, fun hne => absurd hclient hne, fun _ => h.back (by rw [hpc]; nofun), nofun⟩
    show s.received ++ (s.stream ++ left.take n) ++ left.drop n ++ s.rest = file
    rw [← List.append_assoc, List.append_assoc _ (left.take n), List.take_append_drop, hall]
  next => cases hs

theorem Accounts.wrote (h : Accounts file s) (hs : step capacity s .wrote = some t) : Accounts file t := by
  simp only [step] at hs
  split at hs
  next last hpc =>
    cases Option.some.inj hs
    have hall := h.all
    have hclient := h.client_reading (by rw [hpc]; rfl)
    have hback := h.back (by rw [hpc]; nofun)
    simp only [hpc, ServerPc.left] at hall
    cases last with
    | false => exact ⟨hall, nofun, fun hne => absurd hclient hne, fun _ => hback, nofun⟩
    | true =>
      have hrest := h.last (by rw [hpc]; rfl)
      exact ⟨hall, fun _ => hrest, fun hne => absurd hclient hne, fun _ => hback, nofun⟩
  next => cases hs

theorem Accounts.shutdown (h : Accounts file s) (hs : step capacity s .shutdown = some t) : Accounts file t := by
  simp only [step] at hs
  split at hs
  next hpc =>
    cases Option.some.inj hs
    have hall := h.all
    have hrest := h.last (by rw [hpc]; rfl)
    have hclient := h.client_reading (by rw [hpc]; rfl)
    simp only [hpc, ServerPc.left] at hall
    exact ⟨hall, fun _ => hrest, fun hne => absurd hclient hne, fun _ => h.back (by rw [hpc]; nofun), nofun⟩
  next => cases hs

theorem Accounts.receive (h : Accounts file s) (hs : step capacity s (.receive n) = some t) : Accounts file t := by
  simp only [step] at hs
  split at hs
  next hpc =>
    have hnot : ∀ m, s.server ≠ .done m := by
      intro m hm
      have hdone := (h.server m hm).1
      rw [hpc] at hdone
      cases hdone
    have hback := h.back hnot
    rw [hpc, if_neg nofun] at hback
    split at hs
    next =>
      obtain ⟨⟨hstream, hshut⟩, ⟨⟩⟩ := Option.ite_none_right_eq_some.mp hs
      exact ⟨h.all, h.last, fun _ => ⟨hstream, hshut⟩, fun _ => hback, fun m hm => absurd hm (hnot m)⟩
    next =>
      obtain ⟨-, ⟨⟩⟩ := Option.ite_none_right_eq_some.mp hs
      refine ⟨?_, h.last, fun hne => absurd hpc hne, fun _ => ?_, fun m hm => absurd hm (hnot m)⟩
      · show s.received ++ s.stream.take n ++ s.stream.drop n ++ s.server.left ++ s.rest = file
        rw [List.append_assoc s.received, List.take_append_drop, h.all]
      · show s.back = if s.client = .done then thanks else []
        rw [hpc, if_neg nofun, hback]
  next => cases hs

theorem Accounts.thank (h : Accounts file s) (hs : step capacity s .thank = some t) : Accounts file t := by
  simp only [step] at hs
  split at hs
  next hpc =>
    cases Option.some.inj hs
    have hnot : ∀ m, s.server ≠ .done m := by
      intro m hm
      have hdone := (h.server m hm).1
      rw [hpc] at hdone
      cases hdone
    have hback := h.back hnot
    rw [hpc, if_neg nofun] at hback
    refine ⟨h.all, h.last, fun _ => h.client (by rw [hpc]; nofun), fun _ => ?_, fun m hm => absurd hm (hnot m)⟩
    show s.back ++ thanks = if ClientPc.done = .done then thanks else []
    rw [if_pos rfl, hback, List.nil_append]
  next => cases hs

theorem Accounts.answer (h : Accounts file s) (hs : step capacity s (.answer n) = some t) : Accounts file t := by
  simp only [step] at hs
  split at hs
  next hpc =>
    obtain ⟨⟨hpos, -, hn⟩, ⟨⟩⟩ := Option.ite_none_right_eq_some.mp hs
    have hall := h.all
    have hback := h.back (by rw [hpc]; nofun)
    have hdone : s.client = .done := by
      by_contra hne
      rw [hback, if_neg hne, List.length_nil] at hn
      omega
    rw [hdone, if_pos rfl] at hback
    simp only [hpc, ServerPc.left] at hall
    refine ⟨hall, fun _ => h.last (by rw [hpc]; rfl), fun _ => ?_, fun hnot => absurd rfl (hnot n), fun m hm => ?_⟩
    · exact ⟨(h.client (by rw [hdone]; nofun)).1, rfl⟩
    · obtain rfl := ServerPc.done.inj hm
      refine ⟨hdone, fun hlen => ?_⟩
      show (s.back.take n ++ s.buf.drop n).takeWhile (· ≠ 0) = bytes "Thank you"
      rw [hback, hlen, List.take_length]
      rfl
  next => cases hs

theorem Accounts.step {a : Act} (h : Accounts file s) (hs : step capacity s a = some t) : Accounts file t := by
  cases a with
  | fread => exact h.fread hs
  | put n => exact h.put hs
  | wrote => exact h.wrote hs
  | shutdown => exact h.shutdown hs
  | receive n => exact h.receive hs
  | thank => exact h.thank hs
  | answer n => exact h.answer hs

theorem Accounts.received (h : Accounts file s) (hclient : s.client ≠ .reading) : s.received = file := by
  obtain ⟨hstream, hshut⟩ := h.client hclient
  obtain ⟨hleft, hlast⟩ := ServerPc.left_of_shut hshut
  have hall := h.all
  rwa [hstream, hleft, h.last hlast, List.append_nil, List.append_nil, List.append_nil] at hall

/-- What the server has still to do beside passing on bytes. -/
def ServerPc.ahead : ServerPc → Nat
  | .reading => 4
  | .writing _ false => 5
  | .writing _ true => 3
  | .closing => 2
  | .waiting => 1
  | .done _ => 0

def ClientPc.ahead : ClientPc → Nat
  | .reading => 2
  | .thanking => 1
  | .done => 0

/-- Every step takes this down. -/
def System.ahead (s : System) : Nat :=
  4 * s.rest.length + 2 * s.server.left.length + s.stream.length + s.server.ahead + s.client.ahead

theorem step_ahead {a : Act} (hs : step capacity s a = some t) : t.ahead < s.ahead := by
  cases a with
  | fread =>
    simp only [step] at hs
    split at hs
    next hpc =>
      cases Option.some.inj hs
      simp only [System.ahead, hpc, ServerPc.left, List.length_take, List.length_drop, List.length_nil]
      by_cases hshort : min bufSize s.rest.length < bufSize
      · simp only [hshort, decide_true, ServerPc.ahead]
        omega
      · simp only [hshort, decide_false, ServerPc.ahead]
        have hsize : bufSize = 30 := rfl
        omega
    next => cases hs
  | put n =>
    simp only [step] at hs
    split at hs
    next left last hpc =>
      obtain ⟨⟨hpos, hle, -⟩, ⟨⟩⟩ := Option.ite_none_right_eq_some.mp hs
      have hsame : (ServerPc.writing (left.drop n) last).ahead = (ServerPc.writing left last).ahead := by
        cases last <;> rfl
      simp only [System.ahead, hpc, ServerPc.left, hsame, List.length_append, List.length_take, List.length_drop]
      omega
    next => cases hs
  | wrote =>
    simp only [step] at hs
    split at hs
    next last hpc =>
      cases Option.some.inj hs
      cases last with
      | false => simp [System.ahead, hpc, ServerPc.left, ServerPc.ahead]
      | true => simp [System.ahead, hpc, ServerPc.left, ServerPc.ahead]
    next => cases hs
  | shutdown =>
    simp only [step] at hs
    split at hs
    next hpc =>
      cases Option.some.inj hs
      simp [System.ahead, hpc, ServerPc.left, ServerPc.ahead]
    next => cases hs
  | receive n =>
    simp only [step] at hs
    split at hs
    next hpc =>
      split at hs
      next =>
        obtain ⟨-, ⟨⟩⟩ := Option.ite_none_right_eq_some.mp hs
        simp [System.ahead, hpc, ClientPc.ahead]
      next hn =>
        obtain ⟨⟨-, hle⟩, ⟨⟩⟩ := Option.ite_none_right_eq_some.mp hs
        simp only [System.ahead, List.length_drop]
        omega
    next => cases hs
  | thank =>
    simp only [step] at hs
    split at hs
    next hpc =>
      cases Option.some.inj hs
      simp [System.ahead, hpc, ClientPc.ahead]
    next => cases hs
  | answer n =>
    simp only [step] at hs
    split at hs
    next hpc =>
      obtain ⟨-, ⟨⟩⟩ := Option.ite_none_right_eq_some.mp hs
      simp [System.ahead, hpc, ServerPc.left, ServerPc.ahead]
    next => cases hs

/-- A byte on the way to the client can be read. -/
theorem receive_one (hclient : s.client = .reading) (hstream : s.stream ≠ []) :
    (step capacity s (.receive 1)).isSome := by
  have hpos := List.length_pos_iff.mpr hstream
  simp only [step, hclient]
  rw [if_neg (by decide), if_pos ⟨by decide, hpos⟩]
  rfl

/-- Where the server waits for room the client has something to read. -/
theorem Accounts.goes_on (hcap : 0 < capacity) (h : Accounts file s) :
    Finished s ∨ ∃ a, (FileTransfer.step capacity s a).isSome := by
  cases hpc : s.server with
  | reading => exact Or.inr ⟨.fread, by simp [FileTransfer.step, hpc]⟩
  | writing left last =>
    have hclient := h.client_reading (by rw [hpc]; rfl)
    right
    cases left with
    | nil => exact ⟨.wrote, by simp [FileTransfer.step, hpc]⟩
    | cons c left =>
      by_cases hroom : s.stream.length + 1 ≤ capacity
      · exact ⟨.put 1, by simp [FileTransfer.step, hpc, hroom]⟩
      · refine ⟨.receive 1, receive_one hclient fun hnil => ?_⟩
        rw [hnil, List.length_nil] at hroom
        omega
  | closing => exact Or.inr ⟨.shutdown, by simp [FileTransfer.step, hpc]⟩
  | waiting =>
    right
    cases hclient : s.client with
    | reading =>
      by_cases hstream : s.stream = []
      · exact ⟨.receive 0, by simp [FileTransfer.step, hclient, hstream, hpc, ServerPc.shut]⟩
      · exact ⟨.receive 1, receive_one hclient hstream⟩
    | thanking => exact ⟨.thank, by simp [FileTransfer.step, hclient]⟩
    | done =>
      have hback := h.back (by rw [hpc]; nofun)
      rw [hclient, if_pos rfl] at hback
      exact ⟨.answer 1, by simp [FileTransfer.step, hpc, hback, bufSize, thanks]⟩
  | done n => exact Or.inl ⟨(h.server n hpc).1, n, hpc⟩

/-- However the bytes are cut on their way and whoever moves first, the two programs come to
their ends after a bounded number of steps, and the client's file is the server's; before
that it is a beginning of it. -/
theorem file_transferred (hcap : 0 < capacity) (buf file : List UInt8) {as : List Act}
    (h : runSteps (step capacity) (start buf file) as = some t) :
    as.length ≤ 4 * file.length + 6 ∧ (¬Finished t → ∃ a, (step capacity t a).isSome) ∧ t.received <+: file ∧
      (Finished t → t.received = file) ∧ (t.server = .done thanks.length → t.message = bytes "Thank you") := by
  obtain ⟨ht, hlen⟩ := runSteps_length_le (Accounts file) System.ahead (fun _ _ _ hs hstep => hs.step hstep)
    (fun _ _ _ _ hstep => step_ahead hstep) (start_accounts buf file) h
  refine ⟨?_, fun hgo => (ht.goes_on hcap).resolve_left hgo, ?_, fun hend => ?_, fun hend => ?_⟩
  · simp only [start, System.ahead, ServerPc.left, ServerPc.ahead, ClientPc.ahead, List.length_nil] at hlen
    omega
  · refine ⟨t.stream ++ t.server.left ++ t.rest, ?_⟩
    simpa only [List.append_assoc] using ht.all
  · exact ht.received (by rw [hend.1]; nofun)
  · exact (ht.server _ hend).2 rfl

/-- The bytes 0 to 34, more than a buffer full. -/
def longFile : List UInt8 := (List.range 35).map UInt8.ofNat

/-- Two blocks, cut differently by the two sides, over a stream with room for 20 bytes. -/
def longRun : List Act :=
  [.fread, .put 20, .receive 12, .put 7, .put 3, .receive 18, .wrote, .fread, .put 5, .receive 4, .wrote, .shutdown,
    .receive 1, .receive 0, .thank, .answer 10]

theorem file_transferred_long :
    ∃ t, runSteps (step 20) (start [] longFile) longRun = some t ∧ t.received = longFile ∧ t.message = bytes "Thank you" := by
  obtain ⟨t, hrun, hclient, hserver⟩ : ∃ t, runSteps (step 20) (start [] longFile) longRun = some t ∧
      t.client = .done ∧ t.server = .done thanks.length := ⟨_, rfl, rfl, rfl⟩
  obtain ⟨_, _, _, hreceived, hmessage⟩ := file_transferred (by decide) [] longFile hrun
  exact ⟨t, hrun, hreceived ⟨hclient, _, hserver⟩, hmessage hserver⟩

end FileTransfer

end CppInAction
