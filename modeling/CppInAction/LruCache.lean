import CppInAction.CMemory
import CppInAction.DoublyLinked

namespace CppInAction

structure DListNode where
  key : Int
  value : Int
  prev : Option Nat
  next : Option Nat
deriving DecidableEq, Repr

/-- The cache with the heap its nodes live in; an address is never used twice. -/
structure LRUCache where
  cells : Nat → Option DListNode
  fresh : Nat
  cache : List (Int × Nat)
  size : Int
  capacity : Int
  head : Nat
  tail : Nat

inductive CacheCall
  | get (key : Int)
  | put (key value : Int)
deriving DecidableEq, Repr

namespace LRUCache

/-- Access through a pointer; none when it is null or what it points to is gone. -/
def deref (c : LRUCache) (p : Option Nat) : Option (Nat × DListNode) := do
  let a ← p
  let n ← c.cells a
  some (a, n)

def store (c : LRUCache) (a : Nat) (n : DListNode) : LRUCache :=
  { c with cells := Function.update c.cells a (some n) }

def setNext (c : LRUCache) (p q : Option Nat) : Option LRUCache := do
  let (a, n) ← c.deref p
  some (c.store a { n with next := q })

def setPrev (c : LRUCache) (p q : Option Nat) : Option LRUCache := do
  let (a, n) ← c.deref p
  some (c.store a { n with prev := q })

def delete (c : LRUCache) (a : Nat) : Option LRUCache := do
  let _ ← c.cells a
  some { c with cells := Function.update c.cells a none }

/-- new DListNode, whose address goes to the map under its key. -/
def newNode (c : LRUCache) (key value : Int) : LRUCache :=
  { c.store c.fresh ⟨key, value, none, none⟩ with fresh := c.fresh + 1, cache := (key, c.fresh) :: c.cache }

/-- The constructor: head is the first node, tail the second. -/
def new (capacity : Int) : LRUCache where
  cells := Function.update (Function.update (fun _ => none) 0 (some ⟨0, 0, none, some 1⟩)) 1
    (some ⟨0, 0, some 0, none⟩)
  fresh := 2
  cache := []
  size := 0
  capacity := capacity
  head := 0
  tail := 1

def addToHead (c : LRUCache) (node : Nat) : Option LRUCache := do
  let (_, h) ← c.deref (some c.head)
  let c ← c.setNext (some node) h.next
  let c ← c.setPrev (some node) (some c.head)
  let (_, h) ← c.deref (some c.head)
  let c ← c.setPrev h.next (some node)
  c.setNext (some c.head) (some node)

def removeNode (c : LRUCache) (node : Nat) : Option LRUCache := do
  let (_, n) ← c.deref (some node)
  let c ← c.setNext n.prev n.next
  let (_, n) ← c.deref (some node)
  c.setPrev n.next n.prev

def moveToHead (c : LRUCache) (node : Nat) : Option LRUCache := do
  let c ← c.removeNode node
  c.addToHead node

def removeTail (c : LRUCache) : Option (LRUCache × Nat) := do
  let (_, t) ← c.deref (some c.tail)
  let (removed, _) ← c.deref t.prev
  let c ← c.removeNode removed
  some (c, removed)

def get (c : LRUCache) (key : Int) : Option (LRUCache × Int) :=
  match c.cache.lookup key with
  | none => some (c, -1)
  | some node => do
    let c ← c.moveToHead node
    let (_, n) ← c.deref (some node)
    some (c, n.value)

/-- What put does when the cache has grown over its capacity. -/
def evict (c : LRUCache) : Option LRUCache := do
  let (c, removed) ← c.removeTail
  let (_, n) ← c.deref (some removed)
  let c := { c with cache := c.cache.filter (·.1 ≠ n.key) }
  let c ← c.delete removed
  some { c with size := toInt32 (c.size - 1) }

def insertNew (c : LRUCache) (key value : Int) : Option LRUCache := do
  let c ← (c.newNode key value).addToHead c.fresh
  some { c with size := toInt32 (c.size + 1) }

def put (c : LRUCache) (key value : Int) : Option LRUCache :=
  match c.cache.lookup key with
  | none => do
    let c ← c.insertNew key value
    if c.capacity < c.size then c.evict else some c
  | some node => do
    let (_, n) ← c.deref (some node)
    (c.store node { n with value }).moveToHead node

/-- A call with what it returns. -/
def call (c : LRUCache) : CacheCall → Option (LRUCache × Option Int)
  | .get key => (c.get key).map fun x => (x.1, some x.2)
  | .put key value => (c.put key value).map fun c => (c, none)

/-- A sequence of calls with what they return; none when one of them has no defined outcome. -/
def run (c : LRUCache) : List CacheCall → Option (LRUCache × List (Option Int))
  | [] => some (c, [])
  | a :: as => do
    let (c, out) ← c.call a
    let (c, outs) ← c.run as
    some (c, out :: outs)

/-- The links and the contents of the nodes, read without a fault. -/
def next (c : LRUCache) (a : Nat) : Option Nat := (c.cells a).bind DListNode.next

def prev (c : LRUCache) (a : Nat) : Option Nat := (c.cells a).bind DListNode.prev

def entry (c : LRUCache) (a : Nat) : Option (Int × Int) := (c.cells a).map fun n => (n.key, n.value)

variable {c d : LRUCache} {a b node : Nat} {n : DListNode} {p q : Option Nat}

theorem deref_some (h : c.cells a = some n) : c.deref (some a) = some (a, n) := by
  simp [deref, h]

theorem store_next : (c.store a n).next = Function.update c.next a n.next := by
  funext b
  by_cases h : b = a
  · subst h
    simp [next, store]
  · simp [next, store, Function.update_of_ne h]

theorem store_prev : (c.store a n).prev = Function.update c.prev a n.prev := by
  funext b
  by_cases h : b = a
  · subst h
    simp [prev, store]
  · simp [prev, store, Function.update_of_ne h]

theorem store_entry : (c.store a n).entry = Function.update c.entry a (some (n.key, n.value)) := by
  funext b
  by_cases h : b = a
  · subst h
    simp [entry, store]
  · simp [entry, store, Function.update_of_ne h]

/-- From c to d only links were stored, and these are the links now. -/
structure Links (c d : LRUCache) (next prev : Nat → Option Nat) : Prop where
  next : d.next = next
  prev : d.prev = prev
  entry : d.entry = c.entry
  rest : d = { c with cells := d.cells }

theorem Links.refl (c : LRUCache) : Links c c c.next c.prev := ⟨rfl, rfl, rfl, rfl⟩

variable {nx pv : Nat → Option Nat}

theorem Links.alive (h : Links c d nx pv) (ha : (c.entry a).isSome) : ∃ n, d.cells a = some n := by
  rw [← h.entry, LRUCache.entry, Option.isSome_map] at ha
  exact Option.isSome_iff_exists.mp ha

theorem Links.deref (h : Links c d nx pv) (ha : (c.entry a).isSome) :
    ∃ n, d.deref (some a) = some (a, n) ∧ n.next = nx a ∧ n.prev = pv a ∧ c.entry a = some (n.key, n.value) := by
  obtain ⟨n, hn⟩ := h.alive ha
  refine ⟨n, deref_some hn, ?_, ?_, ?_⟩
  · rw [← h.next, LRUCache.next, hn]
    rfl
  · rw [← h.prev, LRUCache.prev, hn]
    rfl
  · rw [← h.entry, LRUCache.entry, hn]
    rfl

theorem Links.setNext (h : Links c d nx pv) (ha : (c.entry a).isSome) (q : Option Nat) :
    ∃ e, d.setNext (some a) q = some e ∧ Links c e (Function.update nx a q) pv := by
  obtain ⟨n, hn, _, hprev, hentry⟩ := h.deref ha
  refine ⟨d.store a { n with next := q }, ?_, ?_, ?_, ?_, ?_⟩
  · rw [LRUCache.setNext, hn]
    rfl
  · rw [store_next, h.next]
  · rw [store_prev, h.prev, hprev, Function.update_eq_self]
  · rw [store_entry, h.entry, ← hentry, Function.update_eq_self]
  · rw [store, h.rest]

theorem Links.setPrev (h : Links c d nx pv) (ha : (c.entry a).isSome) (q : Option Nat) :
    ∃ e, d.setPrev (some a) q = some e ∧ Links c e nx (Function.update pv a q) := by
  obtain ⟨n, hn, hnext, _, hentry⟩ := h.deref ha
  refine ⟨d.store a { n with prev := q }, ?_, ?_, ?_, ?_, ?_⟩
  · rw [LRUCache.setPrev, hn]
    rfl
  · rw [store_next, h.next, hnext, Function.update_eq_self]
  · rw [store_prev, h.prev]
  · rw [store_entry, h.entry, ← hentry, Function.update_eq_self]
  · rw [store, h.rest]

/-- removeNode joins the two neighbours of a node. -/
theorem removeNode_links (hnode : (c.entry node).isSome) (ha : (c.entry a).isSome) (hb : (c.entry b).isSome)
    (hprev : c.prev node = some a) (hnext : c.next node = some b) (hne : node ≠ a) :
    ∃ d, c.removeNode node = some d ∧
      Links c d (Function.update c.next a (some b)) (Function.update c.prev b (some a)) := by
  obtain ⟨n, hn, hnn, hnp, _⟩ := (Links.refl c).deref hnode
  obtain ⟨d, hd, hlinks⟩ := (Links.refl c).setNext ha (some b)
  obtain ⟨m, hm, hmn, hmp, _⟩ := hlinks.deref hnode
  rw [Function.update_of_ne hne] at hmn
  obtain ⟨e, he, hlinks⟩ := hlinks.setPrev hb (some a)
  refine ⟨e, ?_, hlinks⟩
  simp [removeNode, hn, hnn, hnp, hprev, hnext, hd, hm, hmn, hmp, he]

/-- addToHead puts a node between head and what was behind it. -/
theorem addToHead_links (hnode : (c.entry node).isSome) (hhead : (c.entry c.head).isSome) (hb : (c.entry b).isSome)
    (hnext : c.next c.head = some b) (hne : c.head ≠ node) :
    ∃ d, c.addToHead node = some d ∧
      Links c d (Function.update (Function.update c.next node (some b)) c.head (some node))
        (Function.update (Function.update c.prev node (some c.head)) b (some node)) := by
  obtain ⟨h, hh, hhn, _, _⟩ := (Links.refl c).deref hhead
  obtain ⟨d, hd, hlinks⟩ := (Links.refl c).setNext hnode (some b)
  have hdhead : d.head = c.head := by rw [hlinks.rest]
  obtain ⟨e, he, hlinks⟩ := hlinks.setPrev hnode (some c.head)
  have hehead : e.head = c.head := by rw [hlinks.rest]
  obtain ⟨m, hm, hmn, _, _⟩ := hlinks.deref hhead
  rw [Function.update_of_ne hne] at hmn
  obtain ⟨f, hf, hlinks⟩ := hlinks.setPrev hb (some node)
  have hfhead : f.head = c.head := by rw [hlinks.rest]
  obtain ⟨g, hg, hlinks⟩ := hlinks.setNext hhead (some node)
  refine ⟨g, ?_, hlinks⟩
  simp [addToHead, hh, hhn, hnext, hd, hdhead, he, hehead, hm, hmn, hf, hfhead, hg]

end LRUCache

end CppInAction
