import CppInAction.CMemory
import CppInAction.Run
import CppInAction.Threads
import Mathlib.Logic.Function.Basic

namespace CppInAction

/-- The members of a SharedPtr. Resources are numbered in the order in which they are handed
over, and control blocks in the order in which they are allocated. -/
structure SharedPtr where
  ptr : Option Nat
  refCount : Option Nat
deriving DecidableEq, Repr

def SharedPtr.null : SharedPtr := ⟨none, none⟩

/-- A place for a SharedPtr: no object, one that no operation uses, a copy in front of add(),
or one that is being copied from. -/
inductive PtrSlot
  | dead
  | idle (p : SharedPtr)
  | adding (p : SharedPtr) (source : Nat)
  | lent (p : SharedPtr) (copy : Nat)
deriving DecidableEq, Repr

def PtrSlot.value : PtrSlot → Option SharedPtr
  | .dead => none
  | .idle p => some p
  | .adding p _ => some p
  | .lent p _ => some p

/-- The object holds a reference; a copy does not before its increment. -/
def PtrSlot.holds (b : Nat) : PtrSlot → Bool
  | .idle p => p.refCount = some b
  | .lent p _ => p.refCount = some b
  | _ => false

/-- The objects, the control blocks with their counts, and what was deleted so far; fault
says that a deleted control block was used. -/
structure Pointers where
  objects : List PtrSlot
  blocks : Nat → Option Int
  fresh : Nat
  freed : List Nat
  released : List Nat
  fault : Bool

inductive PointerAct
  | construct (i : Nat) (null : Bool)
  | copy (i j : Nat)
  | add (i : Nat)
  | move (i j : Nat)
  | copyAssign (i j : Nat)
  | moveAssign (i j : Nat)
  | reset (i : Nat) (null : Bool)
  | swap (i j : Nat)
  | destroy (i : Nat)
deriving DecidableEq, Repr

namespace Pointers

def start (n : Nat) : Pointers := ⟨List.replicate n .dead, fun _ => none, 0, [], [], false⟩

def setSlot (s : Pointers) (i : Nat) (x : PtrSlot) : Pointers := { s with objects := s.objects.set i x }

/-- SharedCount::add. -/
def addCount (s : Pointers) (b : Nat) : Pointers :=
  match s.blocks b with
  | none => { s with fault := true }
  | some count => { s with blocks := Function.update s.blocks b (some (toInt32 (count + 1))) }

/-- SharedCount::minus, with the two deletions if it returns 0. -/
def minusCount (s : Pointers) (b : Nat) (ptr : Option Nat) : Pointers :=
  match s.blocks b with
  | none => { s with fault := true }
  | some count =>
    if toInt32 (count - 1) = 0 then
      { s with
        blocks := Function.update s.blocks b none
        freed := s.freed ++ [b]
        released := s.released ++ ptr.toList }
    else { s with blocks := Function.update s.blocks b (some (toInt32 (count - 1))) }

def clean (s : Pointers) (i : Nat) (p : SharedPtr) : Pointers :=
  match p.refCount with
  | none => s
  | some b => (s.minusCount b p.ptr).setSlot i (.idle .null)

/-- An object takes over a raw pointer, for which a control block is allocated unless it is null. -/
def takeRaw (s : Pointers) (i : Nat) (null : Bool) : Pointers :=
  if null then s.setSlot i (.idle .null)
  else
    { s.setSlot i (.idle ⟨some s.fresh, some s.fresh⟩) with
      blocks := Function.update s.blocks s.fresh (some 1)
      fresh := s.fresh + 1 }

/-- The members are copied; with a control block add() is still to come. -/
def copyFrom (s : Pointers) (i j : Nat) (p : SharedPtr) : Pointers :=
  if p.refCount = none then s.setSlot i (.idle p) else (s.setSlot i (.adding p j)).setSlot j (.lent p i)

def moveFrom (s : Pointers) (i j : Nat) (p : SharedPtr) : Pointers :=
  (s.setSlot i (.idle p)).setSlot j (.idle .null)

def finishCopy (s : Pointers) (i j : Nat) (p : SharedPtr) (b : Nat) : Pointers :=
  ((s.addCount b).setSlot i (.idle p)).setSlot j (.idle p)

/-- The operations, cut at the steps of the counts; each takes objects that no other one uses. -/
def step (s : Pointers) : PointerAct → Option Pointers
  | .construct i null => match s.objects[i]? with
    | some .dead => some (s.takeRaw i null)
    | _ => none
  | .copy i j => match s.objects[i]?, s.objects[j]? with
    | some .dead, some (.idle p) => some (s.copyFrom i j p)
    | _, _ => none
  | .add i => match s.objects[i]? with
    | some (.adding p j) => p.refCount.map fun b => s.finishCopy i j p b
    | _ => none
  | .move i j => match s.objects[i]?, s.objects[j]? with
    | some .dead, some (.idle p) => some (s.moveFrom i j p)
    | _, _ => none
  | .copyAssign i j => match s.objects[i]?, s.objects[j]? with
    | some (.idle q), some (.idle p) => some (if i = j then s else (s.clean i q).copyFrom i j p)
    | _, _ => none
  | .moveAssign i j => match s.objects[i]?, s.objects[j]? with
    | some (.idle q), some (.idle p) => some (if i = j then s else (s.clean i q).moveFrom i j p)
    | _, _ => none
  | .reset i null => match s.objects[i]? with
    | some (.idle q) => some (if null then s.clean i q else (s.clean i q).takeRaw i false)
    | _ => none
  | .swap i j => match s.objects[i]?, s.objects[j]? with
    | some (.idle q), some (.idle p) => some ((s.setSlot i (.idle p)).setSlot j (.idle q))
    | _, _ => none
  | .destroy i => match s.objects[i]? with
    | some (.idle q) => some ((s.clean i q).setSlot i .dead)
    | _ => none

/-- The number of objects that hold a reference to a control block. -/
def holders (s : Pointers) (b : Nat) : Nat := s.objects.countP (PtrSlot.holds b)

/-- Each count is the number of holders; resource and control block were deleted once, if
nobody holds them any more, and no object refers to what was deleted. -/
structure Sound (s : Pointers) : Prop where
  inside : s.fault = false
  counts : ∀ b < s.fresh, s.blocks b = if s.holders b = 0 then none else some (s.holders b : Int)
  freed : ∀ b < s.fresh, s.freed.count b = if s.holders b = 0 then 1 else 0
  released : ∀ b < s.fresh, s.released.count b = if s.holders b = 0 then 1 else 0
  refers : ∀ x ∈ s.objects, ∀ p, x.value = some p → ∀ b, p.ptr = some b ∨ p.refCount = some b →
    b < s.fresh ∧ s.holders b ≠ 0

/-- A copy finds fewer than INT_MAX references. -/
def Counts (s : Pointers) : PointerAct → Prop
  | .add i => ∀ p j b, s.objects[i]? = some (.adding p j) → p.refCount = some b → s.holders b < 2 ^ 31 - 1
  | _ => True

end Pointers

end CppInAction
