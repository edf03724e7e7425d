import CppInAction.Run
import Mathlib.Data.Finset.Basic

namespace CppInAction

namespace SelectServer

def bufSize : Nat := 100
def fdSetSize : Nat := 1024

/-- Where the loop is: before select, in the scan up to fd_max at a descriptor, behind the loop,
or behind an FD_SET on a number that is no descriptor of a set. -/
inductive Place where
  | top
  | scan (i : Nat) (copyReads : Finset Nat)
  | ended
  | undefined
deriving DecidableEq

/-- The variables of the loop, and the outside: the client descriptors that are open, those of
them whose connection lives, and what has been read from and written to which descriptor. -/
structure Server where
  reads : Finset Nat
  fdMax : Nat
  place : Place
  opened : Finset Nat
  live : Finset Nat
  got : List (Nat × List UInt8)
  sent : List (Nat × List UInt8)
deriving DecidableEq

/-- What read returns: bytes, 0, or -1 on a connection that was reset. -/
inductive Read where
  | data (bytes : List UInt8)
  | eof
  | error
deriving DecidableEq

inductive Action where
  /-- select returns with the descriptors that are ready. -/
  | select (ready : Finset Nat)
  | timeout
  | selectFails
  /-- The scan passes over a descriptor that is not ready. -/
  | skip
  /-- accept, with the descriptor it returns; none is -1. -/
  | accept (clntSock : Option Nat)
  | read (result : Read)
  | scanned
deriving DecidableEq

def start (servSock : Nat) : Server :=
  { reads := {servSock}, fdMax := servSock, place := .top, opened := ∅, live := ∅, got := [], sent := [] }

/-- FD_SET and the update of fd_max behind an accept. -/
def accepted (s : Server) (clntSock : Option Nat) (next : Place) : Server :=
  match clntSock with
  | none => { s with place := .undefined }
  | some fd =>
    if fd < fdSetSize then
      { s with reads := insert fd s.reads, fdMax := if s.fdMax < fd then fd else s.fdMax, place := next,
               opened := insert fd s.opened, live := insert fd s.live }
    else { s with place := .undefined, opened := insert fd s.opened, live := insert fd s.live }

/-- What follows a read from descriptor i. -/
def handled (s : Server) (i : Nat) (result : Read) (next : Place) : Server :=
  match result with
  | .eof => { s with reads := s.reads.erase i, place := next, opened := s.opened.erase i, live := s.live.erase i }
  | .data bytes => { s with place := next, got := s.got ++ [(i, bytes)], sent := s.sent ++ [(i, bytes)] }
  -- the length of the write is -1 as a size_t, which the kernel refuses
  | .error => { s with place := next, live := s.live.erase i }

/-- What read can return for a descriptor. -/
def Returns (s : Server) (i : Nat) : Read → Prop
  | .data bytes => i ∈ s.live ∧ 0 < bytes.length ∧ bytes.length ≤ bufSize
  | .eof => i ∈ s.opened
  | .error => True

instance (s : Server) (i : Nat) : (result : Read) → Decidable (Returns s i result)
  | .data bytes => inferInstanceAs (Decidable (_ ∧ 0 < bytes.length ∧ _))
  | .eof => inferInstanceAs (Decidable (i ∈ s.opened))
  | .error => inferInstanceAs (Decidable True)

/-- accept returns -1 or a descriptor that is not open. -/
def Fresh (servSock : Nat) (s : Server) (clntSock : Option Nat) : Prop :=
  ∀ fd ∈ clntSock, fd ≠ servSock ∧ fd ∉ s.opened

instance (servSock : Nat) (s : Server) : (clntSock : Option Nat) → Decidable (Fresh servSock s clntSock)
  | none => isTrue (by simp [Fresh])
  | some fd => decidable_of_iff (fd ≠ servSock ∧ fd ∉ s.opened) (by simp [Fresh])

/-- One step at descriptor i of the scan. -/
def stepScan (servSock : Nat) (s : Server) (i : Nat) (copyReads : Finset Nat) : Action → Option Server
  | .skip => if i < s.fdMax + 1 ∧ i ∉ copyReads then some { s with place := .scan (i + 1) copyReads } else none
  | .accept clntSock =>
    if (i < s.fdMax + 1 ∧ i ∈ copyReads ∧ i = servSock) ∧ Fresh servSock s clntSock then
      some (accepted s clntSock (.scan (i + 1) copyReads))
    else none
  | .read result =>
    if (i < s.fdMax + 1 ∧ i ∈ copyReads ∧ i ≠ servSock) ∧ Returns s i result then
      some (handled s i result (.scan (i + 1) copyReads))
    else none
  | .scanned => if i < s.fdMax + 1 then none else some { s with place := .top }
  | _ => none

/-- One step; none where it cannot be taken. -/
def step (servSock : Nat) (s : Server) (a : Action) : Option Server :=
  match s.place with
  | .top => match a with
    | .select ready =>
      if ready ⊆ s.reads ∧ ready.Nonempty ∧ ∀ fd ∈ ready, fd < s.fdMax + 1 then some { s with place := .scan 0 ready }
      else none
    | .timeout => some { s with place := .ended }
    | .selectFails => some { s with place := .ended }
    | _ => none
  | .scan i copyReads => stepScan servSock s i copyReads a
  | .ended => none
  | .undefined => none

/-- The set is the listening socket and the live clients, fd_max is at least each of them, and
every client has been sent what was read from it. -/
structure Tracks (servSock : Nat) (s : Server) : Prop where
  defined : s.place ≠ .undefined
  reads_eq : s.reads = insert servSock s.live
  le_fdMax : ∀ fd ∈ s.reads, fd ≤ s.fdMax
  echoed : s.sent = s.got

/-- accept returns a descriptor that a set has room for, and read does not return -1. -/
def Succeeds (_ : Server) : Action → Prop
  | .accept clntSock => ∃ fd ∈ clntSock, fd < fdSetSize
  | .read result => result ≠ .error
  | _ => True

instance (s : Server) : (a : Action) → Decidable (Succeeds s a)
  | .accept none => isFalse (by simp [Succeeds])
  | .accept (some fd) => decidable_of_iff (fd < fdSetSize) (by simp [Succeeds])
  | .read result => inferInstanceAs (Decidable (result ≠ .error))
  | .select _ | .timeout | .selectFails | .skip | .scanned => inferInstanceAs (Decidable True)

/-- The invariant of the scan: no descriptor that the scan has still to come to has been closed. -/
structure Scanning (servSock : Nat) (s : Server) : Prop extends Tracks servSock s where
  apart : servSock ∉ s.live
  ahead : ∀ i copyReads, s.place = .scan i copyReads → ∀ fd ∈ copyReads, i ≤ fd → fd ∈ s.reads

variable {servSock i : Nat} {s t : Server} {a : Action} {copyReads : Finset Nat}

theorem scanning_start (servSock : Nat) : Scanning servSock (start servSock) where
  defined := by simp [start]
  reads_eq := by simp [start]
  le_fdMax := by simp [start]
  echoed := rfl
  apart := by simp [start]
  ahead := by simp [start]

theorem Scanning.moves (h : Scanning servSock s) {next : Place} (hdef : next ≠ .undefined)
    (hahead : ∀ i copyReads, next = .scan i copyReads → ∀ fd ∈ copyReads, i ≤ fd → fd ∈ s.reads) :
    Scanning servSock { s with place := next } where
  defined := hdef
  reads_eq := h.reads_eq
  le_fdMax := h.le_fdMax
  echoed := h.echoed
  apart := h.apart
  ahead := hahead

theorem Scanning.accepted (h : Scanning servSock s) (hp : s.place = .scan i copyReads) {fd : Nat}
    (hroom : fd < fdSetSize) (hfresh : fd ≠ servSock) :
    Scanning servSock (accepted s (some fd) (.scan (i + 1) copyReads)) := by
  rw [SelectServer.accepted]
  simp only [if_pos hroom]
  refine ⟨⟨by simp, ?_, ?_, h.echoed⟩, ?_, ?_⟩
  · rw [h.reads_eq]
    exact Finset.insert_comm fd servSock s.live
  · intro fd' hmem
    simp only
    rcases Finset.mem_insert.mp hmem with rfl | hmem
    · split <;> omega
    · have := h.le_fdMax fd' hmem
      split <;> omega
  · simp only [Finset.mem_insert, not_or]
    exact ⟨hfresh.symm, h.apart⟩
  · intro j copy hplace fd' hmem hle
    cases hplace
    exact Finset.mem_insert_of_mem (h.ahead i copyReads hp fd' hmem (by omega))

theorem Scanning.handled (h : Scanning servSock s) (hp : s.place = .scan i copyReads) (hi : i ≠ servSock)
    {result : Read} (hok : result ≠ .error) :
    Scanning servSock (handled s i result (.scan (i + 1) copyReads)) := by
  cases result with
  | error => exact absurd rfl hok
  | data bytes =>
    refine ⟨⟨by simp [SelectServer.handled], h.reads_eq, h.le_fdMax, ?_⟩, h.apart, ?_⟩
    · simp only [SelectServer.handled]
      rw [h.echoed]
    · intro j copy hplace fd hmem hle
      cases hplace
      exact h.ahead i copyReads hp fd hmem (by omega)
  | eof =>
    refine ⟨⟨by simp [SelectServer.handled], ?_, ?_, h.echoed⟩, ?_, ?_⟩
    · simp only [SelectServer.handled]
      rw [h.reads_eq, Finset.erase_insert_of_ne hi.symm]
    · exact fun fd hmem => h.le_fdMax fd (Finset.mem_of_mem_erase hmem)
    · exact fun hmem => h.apart (Finset.mem_of_mem_erase hmem)
    · intro j copy hplace fd hmem hle
      cases hplace
      exact Finset.mem_erase.mpr ⟨by omega, h.ahead i copyReads hp fd hmem (by omega)⟩

theorem step_scanning (h : Scanning servSock s) (hok : Succeeds s a) (ht : step servSock s a = some t) :
    Scanning servSock t := by
  unfold step at ht
  cases hp : s.place with
  | top =>
    simp only [hp] at ht
    cases a with
    | select ready =>
      obtain ⟨⟨hsub, _, _⟩, ⟨⟩⟩ := Option.ite_none_right_eq_some.mp ht
      refine h.moves (by simp) ?_
      rintro i copy ⟨⟩ fd hmem _
      exact hsub hmem
    | timeout | selectFails =>
      cases ht
      exact h.moves (by simp) (by simp)
    | skip | accept | read | scanned => cases ht
  | scan i copyReads =>
    simp only [hp] at ht
    cases a with
    | skip =>
      obtain ⟨_, ⟨⟩⟩ := Option.ite_none_right_eq_some.mp ht
      refine h.moves (by simp) ?_
      rintro j copy ⟨⟩ fd hmem hle
      exact h.ahead i copyReads hp fd hmem (by omega)
    | accept clntSock =>
      obtain ⟨⟨_, hfresh⟩, ⟨⟩⟩ := Option.ite_none_right_eq_some.mp ht
      obtain ⟨fd, rfl, hroom⟩ := hok
      exact h.accepted hp hroom (hfresh fd rfl).1
    | read result =>
      obtain ⟨⟨⟨_, _, hi⟩, _⟩, ⟨⟩⟩ := Option.ite_none_right_eq_some.mp ht
      exact h.handled hp hi hok
    | scanned =>
      obtain ⟨_, ⟨⟩⟩ := Option.ite_none_left_eq_some.mp ht
      exact h.moves (by simp) (by simp)
    | select | timeout | selectFails => cases ht
  | ended => simp [hp] at ht
  | undefined => simp [hp] at ht

theorem step_fails (h : Scanning servSock s) (hfail : ¬Succeeds s a) (ht : step servSock s a = some t) :
    ¬Tracks servSock t := by
  unfold step at ht
  cases hp : s.place with
  | top =>
    simp only [hp] at ht
    cases a with
    | select | timeout | selectFails => exact absurd trivial hfail
    | skip | accept | read | scanned => cases ht
  | scan i copyReads =>
    simp only [hp] at ht
    cases a with
    | accept clntSock =>
      obtain ⟨_, ⟨⟩⟩ := Option.ite_none_right_eq_some.mp ht
      intro htracks
      refine htracks.defined ?_
      cases clntSock with
      | none => rfl
      | some fd =>
        have hlarge : ¬fd < fdSetSize := fun hlt => hfail ⟨fd, rfl, hlt⟩
        simp only [accepted, if_neg hlarge]
    | read result =>
      obtain ⟨⟨⟨_, hmem, hi⟩, _⟩, ⟨⟩⟩ := Option.ite_none_right_eq_some.mp ht
      obtain rfl : result = .error := Classical.not_not.mp hfail
      intro htracks
      have hreads : i ∈ (handled s i .error (.scan (i + 1) copyReads)).reads := h.ahead i copyReads hp i hmem le_rfl
      rw [htracks.reads_eq] at hreads
      rcases Finset.mem_insert.mp hreads with heq | hlive
      · exact hi heq
      · exact Finset.notMem_erase i s.live hlive
    | skip | scanned => exact absurd trivial hfail
    | select | timeout | selectFails => cases ht
  | ended => simp [hp] at ht
  | undefined => simp [hp] at ht

/-- The set tracks the live clients in every state of a run exactly when no accept and no read fails. -/
theorem along_tracks_iff (servSock : Nat) (as : List Action) :
    Along (step servSock) (Tracks servSock) (start servSock) as ↔
      StepsMeet (step servSock) Succeeds (start servSock) as :=
  along_iff_stepsMeet (Scanning servSock) (fun _ _ _ => step_scanning) (fun _ h => h.toTracks)
    (fun _ _ _ => step_fails) as (scanning_start servSock)

/-- What is to hold at the top of the loop. -/
def TopTracks (servSock : Nat) (s : Server) : Prop :=
  s.place ≠ .undefined ∧ (s.place = .top →
    s.reads = insert servSock s.live ∧ (∀ fd ∈ s.reads, fd ≤ s.fdMax) ∧ s.sent = s.got)

instance (servSock : Nat) (s : Server) : Decidable (TopTracks servSock s) :=
  inferInstanceAs (Decidable (_ ∧ (_ → _ ∧ _ ∧ _)))

/-- Where no accept and no read fails, the set at the top of the loop is the listening socket
and the live clients, fd_max is at least each of them, and all that was read has been echoed. -/
theorem select_tracks (servSock : Nat) {as : List Action}
    (h : StepsMeet (step servSock) Succeeds (start servSock) as) :
    Along (step servSock) (TopTracks servSock) (start servSock) as :=
  ((along_tracks_iff servSock as).mpr h).imp fun _ htracks =>
    ⟨htracks.defined, fun _ => ⟨htracks.reads_eq, htracks.le_fdMax, htracks.echoed⟩⟩

/-- The passes of the loop that accept client 4 on socket 3, and read from client 4. -/
def acceptPass : List Action := [.select {3}, .skip, .skip, .skip, .accept (some 4), .skip, .scanned]

def readPass (result : Read) : List Action := [.select {4}, .skip, .skip, .skip, .skip, .read result, .scanned]

/-- A client that sends two bytes and closes, and another one that gets its descriptor. -/
theorem select_tracks_reuse :
    ∃ as t, as = acceptPass ++ readPass (.data [104, 105]) ++ readPass .eof ++ acceptPass ∧
      runSteps (step 3) (start 3) as = some t ∧ t.sent = [(4, [104, 105])] ∧
      Along (step 3) (TopTracks 3) (start 3) as :=
  ⟨_, _, rfl, rfl, rfl, select_tracks 3 (by decide)⟩

/-- A client whose connection is reset stays in the set. -/
theorem reset_client_stays : ¬∀ servSock as, Along (step servSock) (TopTracks servSock) (start servSock) as := by
  intro h
  have hreset := h 3 (acceptPass ++ readPass .error)
  revert hreset
  decide

end SelectServer

end CppInAction
