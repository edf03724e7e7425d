import CppInAction.ServerApartHandle

namespace CppInAction

namespace Server

variable {s t : Server}

/-- The step is outside the defects: no client gets a descriptor whose slot a worker still
has, tick closes no connection that is queued or with a worker, and the flags are not read
between two stores of a worker. -/
def KeepsApart (s : Server) : Act → Prop
  | .accept others _ => s.Free (lowestFree (others ++ s.fds))
  | .main _ => s.FlagsWhole s.main ∧ ∀ cur a c, s.main = .ticking cur →
      s.timers.expired cur = .ok (some (a, c)) →
      (s.clientData c.userData).sockfd ∉ s.queue.map Prod.fst ∧ s.Free (s.clientData c.userData).sockfd
  | _ => True

theorem Apart.step {a : Act} (h : s.Apart) (hsafe : s.KeepsApart a) (hs : s.Moves a t)
    (hf : t.fault = none) : t.Apart := by
  cases hs with
  | accept hm =>
    refine h.accept hm (s.accept_moves _ _) (fun hin => ?_) hsafe hf
    exact lowestFree_not_mem _ (List.mem_append_right _ hin)
  | fetch hm hp hc => exact h.fetch hm hp hc
  | tick hm hp => exact h.startTick hm hp _
  | take hm hp => exact h.take hm hp
  | handle hm =>
    rw [KeepsApart, hm] at hsafe
    exact h.handle hm hsafe.1.flagFail (s.handler_moves _ _ _) hf
  | unlink hm f => cases hf
  | ticking hm => exact h.tickStep hm (fun a c he => hsafe.2 _ a c hm he) (s.tickStep_moves _) hf
  | worker hw => exact h.worker (workerStep_moves hw)

/-- In either mode, in a run that stays outside the defects no two threads meet at a slot. -/
theorem exclusive_of_keepsApart (reactor : Bool) (as : List Act)
    (h : StepsMeet step KeepsApart (start reactor) as) : Along step Exclusive (start reactor) as := by
  refine along_of_invariant (fun s => s.fault = none → s.Apart) ?_ ?_ (fun _ => start_apart reactor) h
  · intro s a t hinv hsafe hs hf
    obtain ⟨hfault, hs⟩ := step_moves hs
    exact (hinv hfault).step hsafe hs hf
  · exact fun s hinv hf => (hinv hf).exclusive hf

/-- The first client is silent and its timer expires; the second one is served meanwhile. -/
def silentClient : List Act :=
  let r : Choice := ⟨10, true, .finished, .responded⟩
  [.accept [0, 1, 2] 0, .accept [0, 1, 2] 10, .fetch [(4, .readable)], .main r, .main r, .main r, .main r,
    .tick 20, .main r, .main r, .worker 0 r, .worker 0 r, .worker 0 r]

theorem exclusive_of_keepsApart_silentClient :
    StepsMeet step KeepsApart (start false) silentClient ∧ Along step Exclusive (start false) silentClient := by
  have hsafe : StepsMeet step KeepsApart (start false) silentClient :=
    ⟨nofun, nofun, trivial, ⟨trivial, nofun⟩, ⟨trivial, nofun⟩, ⟨trivial, nofun⟩, ⟨trivial, nofun⟩,
      trivial, ⟨trivial, fun cur a c hm he => by cases hm; cases he; exact ⟨by decide, nofun⟩⟩,
      ⟨trivial, fun cur a c hm he => by cases hm; cases he⟩, trivial, trivial, trivial, trivial⟩
  exact ⟨hsafe, exclusive_of_keepsApart false silentClient hsafe⟩

/-- The timer of a connection expires while a worker is inside process() with it, and
the next client gets its descriptor. -/
def slowWorker : List Act :=
  let r : Choice := ⟨0, true, .finished, .responded⟩
  [.accept [0, 1, 2] 0, .fetch [(3, .readable)], .main r, .main r, .main r, .main r, .worker 0 r,
    .tick 20, .main r, .main r, .accept [0, 1, 2] 20]

/-- tick asks nobody before it closes a connection. -/
theorem exclusive_not_always :
    ¬ ∀ (reactor : Bool) (as : List Act), Along step Exclusive (start reactor) as := by
  intro h
  have hrun := (h false slowWorker).imp
    (Q := fun s => s.fault = none → (s.workers 0).job = some (3, some 0, false) → s.owner 3 = some 0)
    fun s hs hf hj => ((hs hf).2.2 0 3 (some 0) false hj).2
  exact absurd hrun (by decide +kernel)

end Server

end CppInAction
