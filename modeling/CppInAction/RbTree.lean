import CppInAction.TreePath
import Mathlib.Logic.Function.Basic

namespace CppInAction

inductive RbColor
  | black
  | red
deriving DecidableEq, Repr

/-- RB_ENTRY. -/
structure RbEntry where
  left : Option Nat
  right : Option Nat
  parent : Option Nat
  color : RbColor
deriving DecidableEq, Repr

namespace RbEntry

def child (e : RbEntry) : Side → Option Nat
  | .left => e.left
  | .right => e.right

def setChild (e : RbEntry) (s : Side) (q : Option Nat) : RbEntry :=
  match s with
  | .left => { e with left := q }
  | .right => { e with right := q }

end RbEntry

/-- RB_HEAD, with the entries of the elements there are. -/
structure RbHead where
  entries : Nat → Option RbEntry
  root : Option Nat

namespace RbHead

/-- The entry behind a pointer; none when the pointer is null or leads nowhere. -/
def get (h : RbHead) (p : Option Nat) : Option RbEntry := p.bind h.entries

def put (h : RbHead) (a : Nat) (e : RbEntry) : RbHead :=
  { h with entries := Function.update h.entries a (some e) }

def modify (h : RbHead) (p : Option Nat) (f : RbEntry → RbEntry) : Option RbHead := do
  let a ← p
  let e ← h.entries a
  some (h.put a (f e))

/-- RB_LEFT and RB_RIGHT. -/
def child (h : RbHead) (s : Side) (p : Option Nat) : Option (Option Nat) := (h.get p).map (·.child s)

def parent (h : RbHead) (p : Option Nat) : Option (Option Nat) := (h.get p).map (·.parent)

def color (h : RbHead) (p : Option Nat) : Option RbColor := (h.get p).map (·.color)

def setChild (h : RbHead) (s : Side) (p q : Option Nat) : Option RbHead := h.modify p (·.setChild s q)

def setParent (h : RbHead) (p q : Option Nat) : Option RbHead := h.modify p ({ · with parent := q })

def setColor (h : RbHead) (p : Option Nat) (c : RbColor) : Option RbHead := h.modify p ({ · with color := c })

/-- if (p) RB_PARENT(p) = q. -/
def setParentOf (h : RbHead) (p q : Option Nat) : Option RbHead :=
  match p with
  | none => some h
  | some _ => h.setParent p q

/-- if (p) RB_COLOR(p) = RB_BLACK. -/
def blacken (h : RbHead) (p : Option Nat) : Option RbHead :=
  match p with
  | none => some h
  | some _ => h.setColor p .black

/-- The link above elm, in its parent or in the head, goes to q instead. -/
def relink (h : RbHead) (up elm q : Option Nat) : Option RbHead :=
  match up with
  | none => some { h with root := q }
  | some _ => do
    let l ← h.child .left up
    h.setChild (if l = elm then .left else .right) up q

/-- RB_SET. -/
def set (h : RbHead) (elm parent : Option Nat) : Option RbHead :=
  h.modify elm fun _ => ⟨none, none, parent, .red⟩

def setBlackRed (h : RbHead) (black red : Option Nat) : Option RbHead := do
  let h ← h.setColor black .black
  h.setColor red .red

/-- RB_ROTATE_LEFT and RB_ROTATE_RIGHT, without the RB_AUGMENT that does nothing. -/
def rotate (h : RbHead) (s : Side) (elm : Option Nat) : Option RbHead := do
  let tmp ← h.child s.other elm
  let inner ← h.child s tmp
  let h ← h.setChild s.other elm inner
  let h ← h.setParentOf inner elm
  let up ← h.parent elm
  let h ← h.setParent tmp up
  let h ← h.relink up elm tmp
  let h ← h.setChild s tmp elm
  h.setParent elm tmp

def rotateLeft (h : RbHead) (elm : Option Nat) : Option RbHead := h.rotate .left elm

def rotateRight (h : RbHead) (elm : Option Nat) : Option RbHead := h.rotate .right elm

/-- p && RB_COLOR(p) == RB_RED. -/
def isRed (h : RbHead) (p : Option Nat) : Option Bool :=
  match p with
  | none => some false
  | some _ => (h.color p).map (· = .red)

/-- A turn of the loop of RB_INSERT_COLOR, with the next elm. The branch for a parent on the
left is the one for s = left; the other one has left and right exchanged. -/
def insertColorTurn (h : RbHead) (s : Side) (gparent parent elm : Option Nat) :
    Option (RbHead × Option Nat) := do
  let tmp ← h.child s.other gparent
  if ← h.isRed tmp then
    let h ← h.setColor tmp .black
    let h ← h.setBlackRed parent gparent
    some (h, gparent)
  else
    let inner ← h.child s.other parent
    if inner = elm then
      let h ← h.rotate s parent
      let h ← h.setBlackRed elm gparent
      let h ← h.rotate s.other gparent
      some (h, parent)
    else
      let h ← h.setBlackRed parent gparent
      let h ← h.rotate s.other gparent
      some (h, elm)

def insertColorLoop : Nat → RbHead → Option Nat → Option RbHead
  | 0, _, _ => none
  | fuel + 1, h, elm => do
    let parent ← h.parent elm
    if ← h.isRed parent then
      let gparent ← h.parent parent
      let l ← h.child .left gparent
      let (h, elm) ← h.insertColorTurn (if parent = l then .left else .right) gparent parent elm
      insertColorLoop fuel h elm
    else some h

def insertColor (fuel : Nat) (h : RbHead) (elm : Option Nat) : Option RbHead := do
  let h ← insertColorLoop fuel h elm
  h.setColor h.root .black

/-- Where the walk of RB_INSERT ends: at an element equal to the new one, or below the
last parent with the last result of cmp. -/
inductive Walk
  | found (a : Nat)
  | place (parent : Option Nat) (comp : Int)
deriving DecidableEq, Repr

def insertWalk (cmp : Nat → Nat → Int) (elm : Nat) (h : RbHead) : Nat → Option Nat → Option Nat → Int → Option Walk
  | _, none, parent, comp => some (.place parent comp)
  | 0, some _, _, _ => none
  | fuel + 1, some tmp, _, _ =>
    if cmp elm tmp < 0 then do
      let l ← h.child .left (some tmp)
      insertWalk cmp elm h fuel l (some tmp) (cmp elm tmp)
    else if 0 < cmp elm tmp then do
      let r ← h.child .right (some tmp)
      insertWalk cmp elm h fuel r (some tmp) (cmp elm tmp)
    else some (.found tmp)

/-- The new element below its parent, or as the root. -/
def link (h : RbHead) (elm : Nat) (parent : Option Nat) (comp : Int) : Option RbHead := do
  let h ← h.set (some elm) parent
  match parent with
  | none => some { h with root := some elm }
  | some _ => h.setChild (if comp < 0 then .left else .right) parent (some elm)

/-- RB_INSERT, with the element it returns. -/
def insert (cmp : Nat → Nat → Int) (fuel : Nat) (h : RbHead) (elm : Nat) : Option (RbHead × Option Nat) := do
  match ← h.insertWalk cmp elm fuel h.root none 0 with
  | .found a => some (h, some a)
  | .place parent comp =>
    let h ← h.link elm parent comp
    let h ← h.insertColor fuel (some elm)
    some (h, none)

/-- The test on the two children of tmp in RB_REMOVE_COLOR. -/
def childrenBlack (h : RbHead) (tmp : Option Nat) : Option Bool := do
  let l ← h.child .left tmp
  if ← h.isRed l then some false
  else
    let r ← h.child .right tmp
    let red ← h.isRed r
    some !red

/-- The part of RB_REMOVE_COLOR behind that test, for a sibling with a red child. -/
def removeColorEnd (h : RbHead) (s : Side) (parent tmp : Option Nat) : Option RbHead := do
  let far ← h.child s.other tmp
  let red ← h.isRed far
  let (h, tmp) ← if red then some (h, tmp) else do
    let near ← h.child s tmp
    let h ← h.blacken near
    let h ← h.setColor tmp .red
    let h ← h.rotate s.other tmp
    let tmp ← h.child s.other parent
    some (h, tmp)
  let c ← h.color parent
  let h ← h.setColor tmp c
  let h ← h.setColor parent .black
  let far ← h.child s.other tmp
  let h ← h.blacken far
  h.rotate s parent

/-- A turn of the loop of RB_REMOVE_COLOR; without a parent and an elm to go on with it
ends the loop. The two branches of the source differ by left and right. -/
def removeColorTurn (h : RbHead) (s : Side) (parent : Option Nat) :
    Option (RbHead × Option (Option Nat × Option Nat)) := do
  let tmp ← h.child s.other parent
  let c ← h.color tmp
  let (h, tmp) ← if c = .red then do
      let h ← h.setBlackRed tmp parent
      let h ← h.rotate s parent
      let tmp ← h.child s.other parent
      some (h, tmp)
    else some (h, tmp)
  if ← h.childrenBlack tmp then
    let h ← h.setColor tmp .red
    let up ← h.parent parent
    some (h, some (up, parent))
  else
    let h ← h.removeColorEnd s parent tmp
    some (h, none)

/-- The loop of RB_REMOVE_COLOR, with the elm it ends with. -/
def removeColorLoop : Nat → RbHead → Option Nat → Option Nat → Option (RbHead × Option Nat)
  | 0, _, _, _ => none
  | fuel + 1, h, parent, elm => do
    let red ← h.isRed elm
    if red = true ∨ elm = h.root then some (h, elm)
    else
      let l ← h.child .left parent
      match ← h.removeColorTurn (if l = elm then .left else .right) parent with
      | (h, none) => some (h, h.root)
      | (h, some (parent, elm)) => removeColorLoop fuel h parent elm

def removeColor (fuel : Nat) (h : RbHead) (parent elm : Option Nat) : Option RbHead := do
  let (h, elm) ← removeColorLoop fuel h parent elm
  h.blacken elm

/-- The loops that follow RB_LEFT, or RB_RIGHT, as far as it goes. -/
def extreme (h : RbHead) (s : Side) : Nat → Option Nat → Option (Option Nat)
  | 0, _ => none
  | fuel + 1, elm => do
    match ← h.child s elm with
    | none => some elm
    | some a => extreme h s fuel (some a)

/-- The loop over the parents that RB_AUGMENT is called for. -/
def climb (h : RbHead) : Nat → Option Nat → Option Unit
  | 0, _ => none
  | fuel + 1, left => do
    match ← h.parent left with
    | none => some ()
    | some a => climb h fuel (some a)

/-- RB_REMOVE of an element with at most one child: the head, parent, child and color. -/
def unlinkOuter (h : RbHead) (elm : Nat) (child : Option Nat) :
    Option (RbHead × Option Nat × Option Nat × RbColor) := do
  let parent ← h.parent (some elm)
  let color ← h.color (some elm)
  let h ← h.setParentOf child parent
  let h ← h.relink parent (some elm) child
  some (h, parent, child, color)

/-- RB_REMOVE of an element with two children: its successor takes its place. -/
def unlinkInner (fuel : Nat) (h : RbHead) (old : Nat) : Option (RbHead × Option Nat × Option Nat × RbColor) := do
  let r ← h.child .right (some old)
  let elm ← h.extreme .left fuel r
  let child ← h.child .right elm
  let parent ← h.parent elm
  let color ← h.color elm
  let h ← h.setParentOf child parent
  let h ← h.relink parent elm child
  let up ← h.parent elm
  let parent := if up = some old then elm else parent
  let field ← h.get (some old)
  let h ← h.modify elm fun _ => field
  let h ← h.relink field.parent (some old) elm
  let l ← h.child .left (some old)
  let h ← h.setParent l elm
  let r ← h.child .right (some old)
  let h ← h.setParentOf r elm
  if parent ≠ none then
    h.climb fuel parent
  some (h, parent, child, color)

def unlink (fuel : Nat) (h : RbHead) (elm : Nat) : Option (RbHead × Option Nat × Option Nat × RbColor) := do
  let l ← h.child .left (some elm)
  let r ← h.child .right (some elm)
  if l = none then h.unlinkOuter elm r
  else if r = none then h.unlinkOuter elm l
  else h.unlinkInner fuel elm

/-- RB_REMOVE, with the element it returns. -/
def remove (fuel : Nat) (h : RbHead) (elm : Nat) : Option (RbHead × Option Nat) := do
  let (h, parent, child, color) ← h.unlink fuel elm
  let h ← if color = .black then h.removeColor fuel parent child else some h
  some (h, some elm)

/-- The loop of RB_FIND. -/
def findLoop (cmp : Nat → Nat → Int) (elm : Nat) (h : RbHead) : Nat → Option Nat → Option (Option Nat)
  | _, none => some none
  | 0, some _ => none
  | fuel + 1, some tmp =>
    if cmp elm tmp < 0 then do
      let l ← h.child .left (some tmp)
      findLoop cmp elm h fuel l
    else if 0 < cmp elm tmp then do
      let r ← h.child .right (some tmp)
      findLoop cmp elm h fuel r
    else some (some tmp)

def find (cmp : Nat → Nat → Int) (fuel : Nat) (h : RbHead) (elm : Nat) : Option (Option Nat) :=
  findLoop cmp elm h fuel h.root

/-- The loop of RB_NFIND. -/
def nfindLoop (cmp : Nat → Nat → Int) (elm : Nat) (h : RbHead) : Nat → Option Nat → Option Nat → Option (Option Nat)
  | _, none, res => some res
  | 0, some _, _ => none
  | fuel + 1, some tmp, res =>
    if cmp elm tmp < 0 then do
      let l ← h.child .left (some tmp)
      nfindLoop cmp elm h fuel l (some tmp)
    else if 0 < cmp elm tmp then do
      let r ← h.child .right (some tmp)
      nfindLoop cmp elm h fuel r res
    else some (some tmp)

def nfind (cmp : Nat → Nat → Int) (fuel : Nat) (h : RbHead) (elm : Nat) : Option (Option Nat) :=
  nfindLoop cmp elm h fuel h.root none

/-- The end of RB_NEXT (s = left) and RB_PREV (s = right): up while elm is the child on the
other side, and once more. -/
def ascend (h : RbHead) (s : Side) : Nat → Option Nat → Option (Option Nat)
  | 0, _ => none
  | fuel + 1, elm => do
    match ← h.parent elm with
    | none => some none
    | some a => do
      let c ← h.child s.other (some a)
      if elm = c then ascend h s fuel (some a) else some (some a)

/-- RB_NEXT for s = left, RB_PREV for s = right. -/
def neighbor (s : Side) (fuel : Nat) (h : RbHead) (elm : Nat) : Option (Option Nat) := do
  match ← h.child s.other (some elm) with
  | some r => h.extreme s fuel (some r)
  | none => do
    let up ← h.parent (some elm)
    let near ← match up with
      | none => some none
      | some _ => h.child s up
    if up ≠ none ∧ some elm = near then some up else h.ascend s fuel (some elm)

def next (fuel : Nat) (h : RbHead) (elm : Nat) : Option (Option Nat) := h.neighbor .left fuel elm

def prev (fuel : Nat) (h : RbHead) (elm : Nat) : Option (Option Nat) := h.neighbor .right fuel elm

/-- The loop of RB_MINMAX. -/
def minmaxLoop (h : RbHead) (val : Int) : Nat → Option Nat → Option Nat → Option (Option Nat)
  | _, none, parent => some parent
  | 0, some _, _ => none
  | fuel + 1, some tmp, _ => do
    let q ← h.child (if val < 0 then .left else .right) (some tmp)
    minmaxLoop h val fuel q (some tmp)

def minmax (fuel : Nat) (h : RbHead) (val : Int) : Option (Option Nat) := h.minmaxLoop val fuel h.root none

def rbMin (fuel : Nat) (h : RbHead) : Option (Option Nat) := h.minmax fuel (-1)

def rbMax (fuel : Nat) (h : RbHead) : Option (Option Nat) := h.minmax fuel 1

/-- RB_FOREACH (s = left) and RB_FOREACH_REVERSE (s = right) from an element on, for a body
that only reads: the elements of the turns. -/
def foreachLoop (h : RbHead) (s : Side) (fuel : Nat) : Nat → Option Nat → Option (List Nat)
  | _, none => some []
  | 0, some _ => none
  | turns + 1, some x => do
    let y ← h.neighbor s fuel x
    let xs ← foreachLoop h s fuel turns y
    some (x :: xs)

def foreach (turns fuel : Nat) (h : RbHead) : Option (List Nat) := do
  let x ← h.rbMin fuel
  h.foreachLoop .left fuel turns x

def foreachReverse (turns fuel : Nat) (h : RbHead) : Option (List Nat) := do
  let x ← h.rbMax fuel
  h.foreachLoop .right fuel turns x

/-- RB_FOREACH_SAFE and RB_FOREACH_REVERSE_SAFE from an element on, for a body that removes
some of the elements it comes to. -/
def foreachSafeLoop (drop : Nat → Bool) (s : Side) (fuel : Nat) : Nat → RbHead → Option Nat → Option (RbHead × List Nat)
  | _, h, none => some (h, [])
  | 0, _, some _ => none
  | turns + 1, h, some x => do
    let y ← h.neighbor s fuel x
    let (h, _) ← if drop x then h.remove fuel x else some (h, none)
    let (h, xs) ← foreachSafeLoop drop s fuel turns h y
    some (h, x :: xs)

def foreachSafe (drop : Nat → Bool) (turns fuel : Nat) (h : RbHead) : Option (RbHead × List Nat) := do
  let x ← h.rbMin fuel
  foreachSafeLoop drop .left fuel turns h x

def foreachReverseSafe (drop : Nat → Bool) (turns fuel : Nat) (h : RbHead) : Option (RbHead × List Nat) := do
  let x ← h.rbMax fuel
  foreachSafeLoop drop .right fuel turns h x

/-- RB_INIT. -/
def init (h : RbHead) : RbHead := { h with root := none }

end RbHead

end CppInAction
