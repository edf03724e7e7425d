import Mathlib.Algebra.Ring.Nat

namespace CppInAction

/-- SEM_VALUE_MAX. -/
def semValueMax : Nat := 2 ^ 31 - 1

/-- Sem of locker.h by the value of its semaphore. -/
structure Sem where
  value : Nat
deriving DecidableEq, Repr

/-- sem_wait blocks while the value is zero. -/
def Sem.wait (s : Sem) : Option Sem := if s.value = 0 then none else some ⟨s.value - 1⟩

/-- sem_post fails at SEM_VALUE_MAX, which nobody looks at. -/
def Sem.post (s : Sem) : Sem := if s.value < semValueMax then ⟨s.value + 1⟩ else s

theorem Sem.wait_value {s t : Sem} (h : s.wait = some t) : s.value = t.value + 1 := by
  unfold Sem.wait at h
  split at h
  next => cases h
  next hv =>
    cases Option.some.inj h
    change s.value = s.value - 1 + 1
    omega

theorem Sem.post_value {s : Sem} (h : s.value < semValueMax) : s.post.value = s.value + 1 := by
  rw [Sem.post, if_pos h]

end CppInAction
