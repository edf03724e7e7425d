import Mathlib.Logic.Function.Basic
import Mathlib.Data.List.Nodup
import Mathlib.Tactic.Common

namespace CppInAction

/-- Where a link is: in a head or in the entry of an element. Both have the pointer to an
element first (tqh_first, tqe_next) and the address of a link second (tqh_last, tqe_prev). -/
inductive TailSlot
  | head (h : Nat)
  | elm (x : Nat)
deriving DecidableEq, Repr

structure TailMem where
  link : TailSlot → Option Nat
  back : TailSlot → TailSlot

namespace TailMem

def setLink (m : TailMem) (s : TailSlot) (p : Option Nat) : TailMem := { m with link := Function.update m.link s p }

def setBack (m : TailMem) (s t : TailSlot) : TailMem := { m with back := Function.update m.back s t }

/-- TAILQ_FIRST. -/
def first (m : TailMem) (h : Nat) : Option Nat := m.link (.head h)

/-- TAILQ_NEXT. -/
def next (m : TailMem) (x : Nat) : Option Nat := m.link (.elm x)

/-- TAILQ_EMPTY. -/
def empty (m : TailMem) (h : Nat) : Bool := m.first h = none

/-- TAILQ_LAST: the link that tqh_last leads to is taken for a head. -/
def last (m : TailMem) (h : Nat) : Option Nat := m.link (m.back (m.back (.head h)))

/-- TAILQ_PREV. -/
def prev (m : TailMem) (x : Nat) : Option Nat := m.link (m.back (m.back (.elm x)))

/-- TAILQ_INIT. -/
def init (m : TailMem) (h : Nat) : TailMem := (m.setLink (.head h) none).setBack (.head h) (.head h)

/-- TAILQ_INSERT_AFTER. -/
def insertAfter (m : TailMem) (h y x : Nat) : TailMem :=
  let n := m.next y
  let m := m.setLink (.elm x) n
  let m := match n with
    | some a => m.setBack (.elm a) (.elm x)
    | none => m.setBack (.head h) (.elm x)
  let m := m.setLink (.elm y) (some x)
  m.setBack (.elm x) (.elm y)

/-- TAILQ_INSERT_BEFORE. -/
def insertBefore (m : TailMem) (y x : Nat) : TailMem :=
  let m := m.setBack (.elm x) (m.back (.elm y))
  let m := m.setLink (.elm x) (some y)
  let m := m.setLink (m.back (.elm y)) (some x)
  m.setBack (.elm y) (.elm x)

/-- TAILQ_INSERT_HEAD. -/
def insertHead (m : TailMem) (h x : Nat) : TailMem :=
  let n := m.first h
  let m := m.setLink (.elm x) n
  let m := match n with
    | some a => m.setBack (.elm a) (.elm x)
    | none => m.setBack (.head h) (.elm x)
  let m := m.setLink (.head h) (some x)
  m.setBack (.elm x) (.head h)

/-- TAILQ_INSERT_TAIL. -/
def insertTail (m : TailMem) (h x : Nat) : TailMem :=
  let m := m.setLink (.elm x) none
  let m := m.setBack (.elm x) (m.back (.head h))
  let m := m.setLink (m.back (.head h)) (some x)
  m.setBack (.head h) (.elm x)

/-- TAILQ_REMOVE. -/
def remove (m : TailMem) (h x : Nat) : TailMem :=
  let m := match m.next x with
    | some a => m.setBack (.elm a) (m.back (.elm x))
    | none => m.setBack (.head h) (m.back (.elm x))
  m.setLink (m.back (.elm x)) (m.next x)

/-- TAILQ_CONCAT. -/
def concat (m : TailMem) (h k : Nat) : TailMem :=
  match m.first k with
  | none => m
  | some a =>
    let m := m.setLink (m.back (.head h)) (some a)
    let m := m.setBack (.elm a) (m.back (.head h))
    let m := m.setBack (.head h) (m.back (.head k))
    m.init k

/-- The end of TAILQ_SWAP, for either head. -/
def settle (m : TailMem) (h : Nat) : TailMem :=
  match m.first h with
  | some a => m.setBack (.elm a) (.head h)
  | none => m.setBack (.head h) (.head h)

/-- TAILQ_SWAP. -/
def swap (m : TailMem) (h k : Nat) : TailMem :=
  let swapFirst := m.first h
  let swapLast := m.back (.head h)
  let m := m.setLink (.head h) (m.first k)
  let m := m.setBack (.head h) (m.back (.head k))
  let m := m.setLink (.head k) swapFirst
  let m := m.setBack (.head k) swapLast
  (m.settle h).settle k

/-- TAILQ_FOREACH and TAILQ_FOREACH_REVERSE from an element on, for the given step. -/
def walk (step : Nat → Option Nat) : Nat → Option Nat → Option (List Nat)
  | _, none => some []
  | 0, some _ => none
  | turns + 1, some x => do
    let xs ← walk step turns (step x)
    some (x :: xs)

def foreach (m : TailMem) (turns h : Nat) : Option (List Nat) := walk m.next turns (m.first h)

def foreachReverse (m : TailMem) (turns h : Nat) : Option (List Nat) := walk m.prev turns (m.last h)

/-- TAILQ_FOREACH_SAFE from an element on, for a body that takes some of the elements out
of the queue h and puts them at the end of the queue k. -/
def moveLoop (pick : Nat → Bool) (h k : Nat) : Nat → TailMem → Option Nat → Option TailMem
  | _, m, none => some m
  | 0, _, some _ => none
  | turns + 1, m, some x =>
    let n := m.next x
    let m := if pick x then (m.remove h x).insertTail k x else m
    moveLoop pick h k turns m n

def moveSafe (pick : Nat → Bool) (m : TailMem) (turns h k : Nat) : Option TailMem := moveLoop pick h k turns m (m.first h)

end TailMem

end CppInAction
