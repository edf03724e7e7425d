import CppInAction.ProbeOrder
import Mathlib.Logic.Function.Basic

namespace CppInAction

/-- SPLAY_ENTRY. -/
structure SplayEntry where
  left : Option Nat
  right : Option Nat
deriving DecidableEq, Repr

namespace SplayEntry

def child (e : SplayEntry) : Side → Option Nat
  | .left => e.left
  | .right => e.right

def setChild (e : SplayEntry) (s : Side) (q : Option Nat) : SplayEntry :=
  match s with
  | .left => { e with left := q }
  | .right => { e with right := q }

end SplayEntry

/-- SPLAY_HEAD, with the entries of the elements there are. -/
structure SplayHead where
  entries : Nat → Option SplayEntry
  root : Option Nat

/-- What SPLAY works on: the head, and its locals __node, __left and __right. A null __left
or __right stands for the address of __node. -/
structure SplayWork where
  head : SplayHead
  node : SplayEntry
  left : Option Nat
  right : Option Nat

namespace SplayHead

def put (h : SplayHead) (a : Nat) (e : SplayEntry) : SplayHead :=
  { h with entries := Function.update h.entries a (some e) }

def child (h : SplayHead) (s : Side) (p : Option Nat) : Option (Option Nat) := do
  let a ← p
  (h.entries a).map (·.child s)

def setChild (h : SplayHead) (s : Side) (p q : Option Nat) : Option SplayHead := do
  let a ← p
  let e ← h.entries a
  some (h.put a (e.setChild s q))

/-- SPLAY_ROTATE_RIGHT for s = left, SPLAY_ROTATE_LEFT for s = right. -/
def rotate (h : SplayHead) (s : Side) (tmp : Option Nat) : Option SplayHead := do
  let inner ← h.child s.other tmp
  let h ← h.setChild s h.root inner
  let h ← h.setChild s.other tmp h.root
  some { h with root := tmp }

end SplayHead

namespace SplayWork

/-- The local pointer that SPLAY_LINKLEFT (s = left) or SPLAY_LINKRIGHT (s = right) moves. -/
def tip (w : SplayWork) : Side → Option Nat
  | .left => w.right
  | .right => w.left

def setTip (w : SplayWork) (s : Side) (q : Option Nat) : SplayWork :=
  match s with
  | .left => { w with right := q }
  | .right => { w with left := q }

/-- The child of *__left or *__right is set. -/
def hang (w : SplayWork) (s : Side) (q : Option Nat) : Option SplayWork :=
  match w.tip s with
  | none => some { w with node := w.node.setChild s q }
  | some a => do
    let h ← w.head.setChild s (some a) q
    some { w with head := h }

/-- SPLAY_LINKLEFT and SPLAY_LINKRIGHT. -/
def link (w : SplayWork) (s : Side) : Option SplayWork := do
  let w ← w.hang s w.head.root
  let w := w.setTip s w.head.root
  let q ← w.head.child s w.head.root
  some { w with head := { w.head with root := q } }

/-- SPLAY_ASSEMBLE. -/
def assemble (w : SplayWork) : Option SplayHead := do
  let l ← w.head.child .left w.head.root
  let w ← w.hang .right l
  let r ← w.head.child .right w.head.root
  let w ← w.hang .left r
  let h ← w.head.setChild .left w.head.root w.node.right
  h.setChild .right h.root w.node.left

/-- A turn of the loop of SPLAY toward a side; with false it is the last one. -/
def turn (c : Nat → Int) (w : SplayWork) (s : Side) : Option (SplayWork × Bool) := do
  match ← w.head.child s w.head.root with
  | none => some (w, false)
  | some tmp =>
    if s.Leads (c tmp) then
      let h ← w.head.rotate s (some tmp)
      match ← h.child s h.root with
      | none => some ({ w with head := h }, false)
      | some _ =>
        let w ← link { w with head := h } s
        some (w, true)
    else
      let w ← w.link s
      some (w, true)

def loop (c : Nat → Int) : Nat → SplayWork → Option SplayWork
  | 0, _ => none
  | fuel + 1, w => do
    let root ← w.head.root
    if c root = 0 then some w
    else do
      let (w, more) ← w.turn c (if c root < 0 then .left else .right)
      if more then loop c fuel w else some w

end SplayWork

namespace SplayHead

/-- SPLAY and SPLAY_MINMAX have this body; they differ in what __comp is. -/
def splayBy (c : Nat → Int) (fuel : Nat) (h : SplayHead) : Option SplayHead := do
  let w ← SplayWork.loop c fuel ⟨h, ⟨none, none⟩, none, none⟩
  w.assemble

def splay (cmp : Nat → Nat → Int) (fuel : Nat) (h : SplayHead) (elm : Nat) : Option SplayHead :=
  h.splayBy (cmp elm) fuel

/-- SPLAY_MINMAX, for a nonzero comp. -/
def splayMinmax (fuel : Nat) (h : SplayHead) (comp : Int) : Option SplayHead := h.splayBy (fun _ => comp) fuel

/-- SPLAY_INSERT, with the element it returns. -/
def insert (cmp : Nat → Nat → Int) (fuel : Nat) (h : SplayHead) (elm : Nat) : Option (SplayHead × Option Nat) := do
  match h.root with
  | none =>
    let h ← h.setChild .right (some elm) none
    let h ← h.setChild .left (some elm) none
    some ({ h with root := some elm }, none)
  | some _ =>
    let h ← h.splay cmp fuel elm
    let root ← h.root
    if cmp elm root = 0 then some (h, some root)
    else do
      let s : Side := if cmp elm root < 0 then .left else .right
      let q ← h.child s (some root)
      let h ← h.setChild s (some elm) q
      let h ← h.setChild s.other (some elm) (some root)
      let h ← h.setChild s (some root) none
      some ({ h with root := some elm }, none)

/-- SPLAY_REMOVE. -/
def remove (cmp : Nat → Nat → Int) (fuel : Nat) (h : SplayHead) (elm : Nat) : Option (SplayHead × Option Nat) := do
  match h.root with
  | none => some (h, none)
  | some _ =>
    let h ← h.splay cmp fuel elm
    let root ← h.root
    if cmp elm root = 0 then do
      let l ← h.child .left h.root
      let r ← h.child .right h.root
      match l with
      | none => some ({ h with root := r }, some elm)
      | some _ =>
        let h ← splay cmp fuel { h with root := l } elm
        let h ← h.setChild .right h.root r
        some (h, some elm)
    else some (h, none)

/-- SPLAY_FIND. -/
def find (cmp : Nat → Nat → Int) (fuel : Nat) (h : SplayHead) (elm : Nat) : Option (SplayHead × Option Nat) := do
  match h.root with
  | none => some (h, none)
  | some _ =>
    let h ← h.splay cmp fuel elm
    let root ← h.root
    some (h, if cmp elm root = 0 then some root else none)

/-- The loop of SPLAY_NEXT. -/
def leftmost (h : SplayHead) : Nat → Option Nat → Option (Option Nat)
  | 0, _ => none
  | fuel + 1, elm => do
    match ← h.child .left elm with
    | none => some elm
    | some a => leftmost h fuel (some a)

/-- SPLAY_NEXT. -/
def next (cmp : Nat → Nat → Int) (fuel : Nat) (h : SplayHead) (elm : Nat) : Option (SplayHead × Option Nat) := do
  let h ← h.splay cmp fuel elm
  match ← h.child .right (some elm) with
  | none => some (h, none)
  | some a =>
    let q ← h.leftmost fuel (some a)
    some (h, q)

/-- SPLAY_MIN (comp = -1) and SPLAY_MAX (comp = 1). -/
def minMax (fuel : Nat) (h : SplayHead) (comp : Int) : Option (SplayHead × Option Nat) := do
  match h.root with
  | none => some (h, none)
  | some _ =>
    let h ← h.splayMinmax fuel comp
    some (h, h.root)

/-- SPLAY_FOREACH from an element on, for a body that leaves the tree alone: the head, and
the elements of the turns. -/
def foreachLoop (cmp : Nat → Nat → Int) (fuel : Nat) : Nat → SplayHead → Option Nat → Option (SplayHead × List Nat)
  | _, h, none => some (h, [])
  | 0, _, some _ => none
  | turns + 1, h, some x => do
    let (h, y) ← h.next cmp fuel x
    let (h, xs) ← foreachLoop cmp fuel turns h y
    some (h, x :: xs)

def foreach (cmp : Nat → Nat → Int) (turns fuel : Nat) (h : SplayHead) : Option (SplayHead × List Nat) := do
  let (h, x) ← h.minMax fuel (-1)
  foreachLoop cmp fuel turns h x

/-- SPLAY_INIT. -/
def init (h : SplayHead) : SplayHead := { h with root := none }

end SplayHead

end CppInAction
