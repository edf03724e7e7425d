import CppInAction.LinkedPath

namespace CppInAction

namespace RandomList

structure Node where
  val : Int
  next : Option Nat
  random : Option Nat
deriving DecidableEq, Repr

/-- The heap; an address is a place in the list of all nodes there ever were. -/
structure Heap where
  nodes : List Node
deriving DecidableEq, Repr

namespace Heap

/-- Access through a pointer; none when it is null. -/
def deref (h : Heap) (p : Option Nat) : Option Node := do
  let a ← p
  h.nodes[a]?

/-- new Node(val). -/
def new (h : Heap) (val : Int) : Heap × Nat := (⟨h.nodes ++ [⟨val, none, none⟩]⟩, h.nodes.length)

def setNext (h : Heap) (p q : Option Nat) : Option Heap := do
  let a ← p
  let n ← h.nodes[a]?
  some ⟨h.nodes.set a { n with next := q }⟩

def setRandom (h : Heap) (p q : Option Nat) : Option Heap := do
  let a ← p
  let n ← h.nodes[a]?
  some ⟨h.nodes.set a { n with random := q }⟩

/-- The field next of a node, null where there is no node. -/
def next (h : Heap) (a : Nat) : Option Nat := h.nodes[a]?.bind (·.next)

def random (h : Heap) (a : Nat) : Option Nat := h.nodes[a]?.bind (·.random)

end Heap

/-- The first loop puts a copy behind each node. -/
def addCopies : Nat → Heap → Option Nat → Option Heap
  | _, h, none => some h
  | 0, _, some _ => none
  | fuel + 1, h, some cur => do
    let n ← h.deref (some cur)
    let (h, node) := h.new n.val
    let h ← h.setNext (some node) n.next
    let h ← h.setNext (some cur) (some node)
    let m ← h.deref (some node)
    addCopies fuel h m.next

/-- The second loop sets the random pointers of the copies. -/
def setRandoms : Nat → Heap → Option Nat → Option Heap
  | _, h, none => some h
  | 0, _, some _ => none
  | fuel + 1, h, some cur => do
    let n ← h.deref (some cur)
    let h ← match n.random with
      | none => some h
      | some r => do
        let m ← h.deref (some r)
        h.setRandom n.next m.next
    let n ← h.deref (some cur)
    let m ← h.deref n.next
    setRandoms fuel h m.next

/-- The heap that copyRandomList leaves, and what it returns: nothing where it runs off its end. -/
def copyRandomList (fuel : Nat) (h : Heap) (head : Option Nat) : Option (Heap × Option (Option Nat)) :=
  match head with
  | none => some (h, some none)
  | some _ => do
    let h ← addCopies fuel h head
    let h ← setRandoms fuel h head
    some (h, none)

/-- The nodes of a list that ends; its random pointers are null or point into it. -/
structure Listed (h : Heap) (head : Option Nat) (as : List Nat) : Prop where
  path : Path h.next head as none
  cells : ∀ a ∈ as, a < h.nodes.length
  random : ∀ a ∈ as, ∀ r, h.random a = some r → r ∈ as

/-- From p on there is a list of fresh nodes with the same values, and with random pointers to
the nodes at the same places. -/
def Mirrors (h : Heap) (as : List Nat) (h' : Heap) (p : Option Nat) : Prop :=
  ∃ bs, Path h'.next p bs none ∧ bs.length = as.length ∧ (∀ b ∈ bs, h.nodes.length ≤ b) ∧
    ∀ q ∈ as.zip bs, ∃ n m, h.nodes[q.1]? = some n ∧ h'.nodes[q.2]? = some m ∧ m.val = n.val ∧
      m.random = n.random.bind fun r => (as.zip bs).lookup r

/-- The original nodes have the pointers they had. -/
def Kept (h : Heap) (as : List Nat) (h' : Heap) : Prop :=
  ∀ a ∈ as, h'.next a = h.next a ∧ h'.random a = h.random a

/-- Each node of the pairs with its copy behind it. -/
def weave (ps : List (Nat × Nat)) : List Nat := ps.flatMap fun q => [q.1, q.2]

/-- A node, and its copy at the end of the heap. -/
def Heap.copied (h : Heap) (cur : Nat) (n : Node) : Heap :=
  ⟨h.nodes.set cur { n with next := some h.nodes.length } ++ [{ n with random := none }]⟩

/-- The copy c, with m as it was, when its random pointer has been set. -/
def Heap.linked (h : Heap) (c : Nat) (m : Node) (random : Option Nat) : Heap :=
  match random with
  | none => h
  | some r => ⟨h.nodes.set c { m with random := h.next r }⟩

variable {h h' : Heap} {head p : Option Nat} {as : List Nat} {cur c fuel : Nat} {n m : Node} {ps : List (Nat × Nat)}

theorem weave_cons (q : Nat × Nat) (ps : List (Nat × Nat)) : weave (q :: ps) = q.1 :: q.2 :: weave ps := rfl

theorem Heap.next_eq (hn : h.nodes[cur]? = some n) : h.next cur = n.next := by
  rw [Heap.next, hn]
  rfl

theorem copied_length (h : Heap) (cur : Nat) (n : Node) : (h.copied cur n).nodes.length = h.nodes.length + 1 := by
  simp [Heap.copied]

theorem copied_self (hn : h.nodes[cur]? = some n) :
    (h.copied cur n).nodes[cur]? = some { n with next := some h.nodes.length } := by
  obtain ⟨hlt, _⟩ := List.getElem?_eq_some_iff.mp hn
  rw [Heap.copied, List.getElem?_append_left (by simpa using hlt), List.getElem?_set_self hlt]

theorem copied_copy (h : Heap) (cur : Nat) (n : Node) :
    (h.copied cur n).nodes[h.nodes.length]? = some { n with random := none } := by
  rw [Heap.copied, List.getElem?_append_right (by simp)]
  simp

theorem copied_other {a : Nat} (ha : a < h.nodes.length) (hne : a ≠ cur) (n : Node) :
    (h.copied cur n).nodes[a]? = h.nodes[a]? := by
  rw [Heap.copied, List.getElem?_append_left (by simpa using ha), List.getElem?_set_ne hne.symm]

theorem addCopies_step (hn : h.nodes[cur]? = some n) (fuel : Nat) :
    addCopies (fuel + 1) h (some cur) = addCopies fuel (h.copied cur n) n.next := by
  obtain ⟨hlt, _⟩ := List.getElem?_eq_some_iff.mp hn
  have hcur : (h.nodes ++ [{ n with random := none }])[cur]? = some n := by rw [List.getElem?_append_left hlt, hn]
  have hset : (h.nodes ++ [{ n with random := none }]).set cur { n with next := some h.nodes.length } =
      h.nodes.set cur { n with next := some h.nodes.length } ++ [{ n with random := none }] :=
    List.set_append_left _ _ hlt
  simp [addCopies, Heap.deref, Heap.new, Heap.setNext, Heap.copied, hn, hcur, hset]

theorem setRandoms_step (hn : h.nodes[cur]? = some n) (hc : n.next = some c) (hm : h.nodes[c]? = some m)
    (hne : c ≠ cur) (hr : ∀ r, n.random = some r → r < h.nodes.length) (fuel : Nat) :
    setRandoms (fuel + 1) h (some cur) = setRandoms fuel (h.linked c m n.random) m.next := by
  cases hrandom : n.random with
  | none => simp [setRandoms, Heap.deref, Heap.linked, hn, hc, hm, hrandom]
  | some r =>
    obtain ⟨hlt, rfl⟩ := List.getElem?_eq_some_iff.mp hm
    have htarget := List.getElem?_eq_getElem (hr r hrandom)
    simp [setRandoms, Heap.deref, Heap.setRandom, Heap.linked, Heap.next, hn, hc, hrandom, htarget, hne, hlt]

/-- Behind the first loop each node is followed by its copy, which has the value and the next
pointer of the node and no random pointer. -/
structure Woven (h : Heap) (p : Option Nat) (as : List Nat) (h' : Heap) : Prop where
  length : h'.nodes.length = h.nodes.length + as.length
  path : Path h'.next p (weave (as.zip (List.range' h.nodes.length as.length))) none
  original : ∀ q ∈ as.zip (List.range' h.nodes.length as.length),
    h'.nodes[q.1]? = h.nodes[q.1]?.map fun n => { n with next := some q.2 }
  copy : ∀ q ∈ as.zip (List.range' h.nodes.length as.length),
    h'.nodes[q.2]? = h.nodes[q.1]?.map fun n => { n with random := none }
  other : ∀ a < h.nodes.length, a ∉ as → h'.nodes[a]? = h.nodes[a]?

theorem copied_before {a : Nat} (hout : a ∉ as) (hcells : ∀ b ∈ as, b < h.nodes.length) (n : Node) :
    ∀ b ∈ as, (h.copied a n).nodes[b]? = h.nodes[b]? := by
  intro b hb
  refine copied_other (hcells b hb) ?_ n
  rintro rfl
  exact hout hb

/-- The first pass of the loop, and what the others make of the heap it leaves. -/
theorem Woven.cons {a : Nat} (hn : h.nodes[a]? = some n) (hout : a ∉ as) (hcells : ∀ b ∈ as, b < h.nodes.length)
    (hw : Woven (h.copied a n) n.next as h') : Woven h (some a) (a :: as) h' := by
  obtain ⟨ha, _⟩ := List.getElem?_eq_some_iff.mp hn
  have hbefore := copied_before hout hcells n
  have hlen := copied_length h a n
  have hself : h'.nodes[a]? = some { n with next := some h.nodes.length } := by
    rw [hw.other a (by omega) hout, copied_self hn]
  have hcopy : h'.nodes[h.nodes.length]? = some { n with random := none } := by
    have hfresh : h.nodes.length ∉ as := fun hmem => Nat.lt_irrefl _ (hcells _ hmem)
    rw [hw.other _ (by omega) hfresh, copied_copy]
  have hmem : ∀ q ∈ as.zip (List.range' (h.nodes.length + 1) as.length), q.1 ∈ as := fun q hq =>
    (List.of_mem_zip (show (q.1, q.2) ∈ _ from hq)).1
  have hzip : (a :: as).zip (List.range' h.nodes.length (a :: as).length) =
      (a, h.nodes.length) :: as.zip (List.range' (h.nodes.length + 1) as.length) := by
    rw [List.length_cons, List.range'_succ, List.zip_cons_cons]
  obtain ⟨hlength, hpath, horiginal, hcopies, hother⟩ := hw
  rw [hlen] at hlength hpath horiginal hcopies
  refine ⟨by rw [hlength, List.length_cons]; omega, ?_, ?_, ?_, ?_⟩
  · rw [hzip, weave_cons]
    refine ⟨rfl, Heap.next_eq hself, ?_⟩
    rwa [Heap.next_eq hcopy]
  · intro q hq
    rw [hzip] at hq
    rcases List.mem_cons.mp hq with rfl | hq
    · rw [hself, hn]
      rfl
    · rw [horiginal q hq, hbefore q.1 (hmem q hq)]
  · intro q hq
    rw [hzip] at hq
    rcases List.mem_cons.mp hq with rfl | hq
    · rw [hcopy, hn]
      rfl
    · rw [hcopies q hq, hbefore q.1 (hmem q hq)]
  · intro x hx hnot
    rw [hother x (by omega) (fun hm => hnot (List.mem_cons_of_mem a hm)),
      copied_other hx (fun heq => hnot (heq ▸ List.mem_cons_self)) _]

theorem addCopies_woven (hp : Path h.next p as none) (hcells : ∀ a ∈ as, a < h.nodes.length)
    (hfuel : as.length ≤ fuel) :
    ∃ h', addCopies fuel h p = some h' ∧ Woven h p as h' := by
  induction as generalizing h p fuel with
  | nil =>
    obtain rfl : p = none := hp
    refine ⟨h, by rw [addCopies], rfl, rfl, ?_, ?_, fun _ _ _ => rfl⟩
    · simp
    · simp
  | cons a as ih =>
    obtain ⟨rfl, hrest⟩ := hp
    have hout := (List.nodup_cons.mp (Path.nodup (p := some a) ⟨rfl, hrest⟩)).1
    obtain ⟨n, hn⟩ : ∃ n, h.nodes[a]? = some n := ⟨_, List.getElem?_eq_getElem (hcells a List.mem_cons_self)⟩
    have hcells' : ∀ b ∈ as, b < h.nodes.length := fun b hb => hcells b (List.mem_cons_of_mem a hb)
    have hpath : Path (h.copied a n).next n.next as none := by
      rw [h.next_eq hn] at hrest
      exact hrest.congr fun b hb => by rw [Heap.next, copied_before hout hcells' _ b hb, Heap.next]
    obtain ⟨fuel, rfl⟩ : ∃ f, fuel = f + 1 := ⟨fuel - 1, by simp only [List.length_cons] at hfuel; omega⟩
    have hrestFuel : as.length ≤ fuel := Nat.le_of_succ_le_succ hfuel
    obtain ⟨h', hloop, hwoven⟩ := ih hpath
      (fun b hb => by rw [copied_length]; exact Nat.lt_succ_of_lt (hcells' b hb)) hrestFuel
    exact ⟨h', by rw [addCopies_step hn, hloop], hwoven.cons hn hout hcells'⟩

theorem linked_length (h : Heap) (c : Nat) (m : Node) (random : Option Nat) :
    (h.linked c m random).nodes.length = h.nodes.length := by
  cases random <;> simp [Heap.linked]

theorem linked_self (hm : h.nodes[c]? = some m) (random : Option Nat) :
    (h.linked c m random).nodes[c]? = some { m with random := random.elim m.random h.next } := by
  obtain ⟨hlt, _⟩ := List.getElem?_eq_some_iff.mp hm
  cases random with
  | none => exact hm
  | some r => exact List.getElem?_set_self hlt

theorem linked_other {a : Nat} (hne : a ≠ c) (m : Node) (random : Option Nat) :
    (h.linked c m random).nodes[a]? = h.nodes[a]? := by
  cases random with
  | none => rfl
  | some r => exact List.getElem?_set_ne hne.symm

theorem linked_next (hm : h.nodes[c]? = some m) (random : Option Nat) : (h.linked c m random).next = h.next := by
  funext a
  by_cases ha : a = c
  · rw [ha, Heap.next_eq (linked_self hm random), Heap.next_eq hm]
  · rw [Heap.next, linked_other ha, Heap.next]

theorem mem_weave {q : Nat × Nat} (hq : q ∈ ps) : q.1 ∈ weave ps ∧ q.2 ∈ weave ps :=
  ⟨List.mem_flatMap.mpr ⟨q, hq, by simp⟩, List.mem_flatMap.mpr ⟨q, hq, by simp⟩⟩

/-- Behind the second loop a copy whose node has a random pointer has the next pointer of the
node that this one points to. -/
structure Joined (h : Heap) (ps : List (Nat × Nat)) (h' : Heap) : Prop where
  length : h'.nodes.length = h.nodes.length
  next : h'.next = h.next
  copy : ∀ q ∈ ps, h'.nodes[q.2]? = h.nodes[q.2]?.map fun m =>
    { m with random := (h.random q.1).elim m.random h.next }
  other : ∀ a, (∀ q ∈ ps, a ≠ q.2) → h'.nodes[a]? = h.nodes[a]?

theorem setRandoms_joined (hp : Path h.next p (weave ps) none) (hcells : ∀ q ∈ ps, q.2 < h.nodes.length)
    (hrandom : ∀ q ∈ ps, ∀ r, h.random q.1 = some r → r < h.nodes.length) (hfuel : ps.length ≤ fuel) :
    ∃ h', setRandoms fuel h p = some h' ∧ Joined h ps h' := by
  induction ps generalizing h p fuel with
  | nil =>
    obtain rfl : p = none := hp
    exact ⟨h, by rw [setRandoms], rfl, rfl, by simp, fun _ _ => rfl⟩
  | cons q ps ih =>
    obtain ⟨a, c⟩ := q
    have hnodup := hp.nodup
    simp only [weave_cons, List.nodup_cons, List.mem_cons, not_or] at hnodup
    obtain ⟨⟨hne, _⟩, hout, _⟩ := hnodup
    rw [weave_cons] at hp
    obtain ⟨rfl, hc, hrest⟩ := hp
    obtain ⟨n, hn, hnext⟩ := Option.bind_eq_some_iff.mp hc
    obtain ⟨m, hm⟩ : ∃ m, h.nodes[c]? = some m :=
      ⟨_, List.getElem?_eq_getElem (hcells (a, c) List.mem_cons_self)⟩
    have hrandom_eq : h.random a = n.random := by
      rw [Heap.random, hn]
      rfl
    obtain ⟨fuel, rfl⟩ : ∃ f, fuel = f + 1 := ⟨fuel - 1, by simp only [List.length_cons] at hfuel; omega⟩
    have hstep := setRandoms_step hn hnext hm (fun heq => hne heq.symm)
      (fun r hr => hrandom (a, c) List.mem_cons_self r (hrandom_eq.trans hr)) fuel
    have hnextEq := linked_next hm n.random
    have hapart : ∀ q ∈ ps, q.1 ≠ c ∧ q.2 ≠ c := fun q hq =>
      ⟨fun heq => hout (heq ▸ (mem_weave hq).1), fun heq => hout (heq ▸ (mem_weave hq).2)⟩
    have hsame : ∀ q ∈ ps, (h.linked c m n.random).random q.1 = h.random q.1 := fun q hq => by
      rw [Heap.random, linked_other (hapart q hq).1, Heap.random]
    have hrestFuel : ps.length ≤ fuel := Nat.le_of_succ_le_succ hfuel
    obtain ⟨h', hloop, hlength, hnext', hcopy, hother⟩ := ih (h := h.linked c m n.random) (p := m.next)
      (by rw [hnextEq, ← Heap.next_eq hm]; exact hrest)
      (fun q hq => by rw [linked_length]; exact hcells q (List.mem_cons_of_mem _ hq))
      (fun q hq r hr => by
        rw [hsame q hq] at hr
        rw [linked_length]
        exact hrandom q (List.mem_cons_of_mem _ hq) r hr)
      hrestFuel
    refine ⟨h', by rw [hstep, hloop], by rw [hlength, linked_length], by rw [hnext', hnextEq], ?_, ?_⟩
    · intro q hq
      rcases List.mem_cons.mp hq with rfl | hq
      · rw [hother c fun q hq => (hapart q hq).2.symm, linked_self hm, hm, hrandom_eq]
        rfl
      · rw [hcopy q hq, linked_other (hapart q hq).2, hsame q hq, hnextEq]
    · intro x hx
      rw [hother x fun q hq => hx q (List.mem_cons_of_mem _ hq), linked_other (hx (a, c) List.mem_cons_self)]

/-- The two loops end, and leave each node with its copy behind it. -/
theorem Listed.loops (hl : Listed h head as) :
    ∃ h1 h2, addCopies as.length h head = some h1 ∧ Woven h head as h1 ∧
      setRandoms as.length h1 head = some h2 ∧ Joined h1 (as.zip (List.range' h.nodes.length as.length)) h2 := by
  obtain ⟨h1, hadd, hwoven⟩ := addCopies_woven hl.path hl.cells le_rfl
  have hcells : ∀ q ∈ as.zip (List.range' h.nodes.length as.length), q.2 < h1.nodes.length := by
    intro q hq
    have hrange := (List.of_mem_zip (show (q.1, q.2) ∈ _ from hq)).2
    rw [List.mem_range'_1] at hrange
    rw [hwoven.length]
    exact hrange.2
  have hrandom : ∀ q ∈ as.zip (List.range' h.nodes.length as.length), ∀ r, h1.random q.1 = some r →
      r < h1.nodes.length := by
    intro q hq r hr
    rw [Heap.random, hwoven.original q hq, Option.bind_map] at hr
    have hmem := hl.random q.1 (List.of_mem_zip (show (q.1, q.2) ∈ _ from hq)).1 r hr
    have hlt := hl.cells r hmem
    rw [hwoven.length]
    omega
  have hfuel : (as.zip (List.range' h.nodes.length as.length)).length ≤ as.length := by simp
  obtain ⟨h2, hset, hjoined⟩ := setRandoms_joined hwoven.path hcells hrandom hfuel
  exact ⟨h1, h2, hadd, hwoven, hset, hjoined⟩

theorem exists_copy {a : Nat} (ha : a ∈ as) (size : Nat) : ∃ b, (a, b) ∈ as.zip (List.range' size as.length) := by
  obtain ⟨i, hi, rfl⟩ := List.getElem_of_mem ha
  exact ⟨size + i, List.mem_iff_getElem.mpr ⟨i, by simpa using hi, by simp⟩⟩

theorem mem_copies {size : Nat} {q : Nat × Nat} (hq : q ∈ as.zip (List.range' size as.length)) :
    q.1 ∈ as ∧ size ≤ q.2 := by
  obtain ⟨hmem, hrange⟩ := List.of_mem_zip (show (q.1, q.2) ∈ _ from hq)
  rw [List.mem_range'_1] at hrange
  exact ⟨hmem, hrange.1⟩

theorem Woven.next_copy {h1 : Heap} (hw : Woven h head as h1) (hl : Listed h head as) {q : Nat × Nat}
    (hq : q ∈ as.zip (List.range' h.nodes.length as.length)) : h1.next q.1 = some q.2 := by
  have horiginal := hw.original q hq
  rw [List.getElem?_eq_getElem (hl.cells _ (mem_copies hq).1)] at horiginal
  exact Heap.next_eq horiginal

theorem Woven.next_ne {h1 : Heap} (hw : Woven h head as h1) (hl : Listed h head as) :
    ∀ a ∈ as, h1.next a ≠ h.next a := by
  intro a ha hsame
  obtain ⟨b, hq⟩ := exists_copy ha h.nodes.length
  have hfresh := (mem_copies hq).2
  rw [hw.next_copy hl hq] at hsame
  obtain ⟨l, r, hlr⟩ := List.append_of_mem ha
  have hpath := hl.path
  rw [hlr] at hpath
  obtain ⟨_, _, _, hrest⟩ := path_append.mp hpath
  cases r with
  | nil => cases hsame.trans hrest
  | cons c r =>
    have hc := Option.some.inj (hsame.trans hrest.1)
    have hlt := hl.cells c (by rw [hlr]; simp)
    omega

/-- From head on each node is followed by its own fresh copy. The nodes keep their values and their random
pointers, a copy has the value of its node, and its random pointer is null where that of the node is, and
else the copy of the node that this one points to. -/
structure Alternates (h : Heap) (head : Option Nat) (as bs : List Nat) (h' : Heap) : Prop where
  length : bs.length = as.length
  fresh : ∀ b ∈ bs, h.nodes.length ≤ b
  nodup : bs.Nodup
  path : Path h'.next head (weave (as.zip bs)) none
  pair : ∀ q ∈ as.zip bs, ∃ n m, h.nodes[q.1]? = some n ∧ h'.nodes[q.1]? = some { n with next := some q.2 } ∧
    h'.nodes[q.2]? = some m ∧ m.val = n.val ∧ (n.random = none → m.random = none) ∧
    ∀ r, n.random = some r → ∃ b, (r, b) ∈ as.zip bs ∧ m.random = some b

theorem Joined.alternates {h1 h2 : Heap} (hl : Listed h head as) (hw : Woven h head as h1)
    (hj : Joined h1 (as.zip (List.range' h.nodes.length as.length)) h2) :
    Alternates h head as (List.range' h.nodes.length as.length) h2 where
  length := List.length_range'
  fresh := fun b hb => (List.mem_range'_1.mp hb).1
  nodup := List.nodup_range'
  path := by
    rw [hj.next]
    exact hw.path
  pair := by
    intro q hq
    obtain ⟨hmem, hfresh⟩ := mem_copies hq
    obtain ⟨n, hn⟩ : ∃ n, h.nodes[q.1]? = some n := ⟨_, List.getElem?_eq_getElem (hl.cells _ hmem)⟩
    have horiginal := hw.original q hq
    rw [hn, Option.map_some] at horiginal
    have hcopy := hj.copy q hq
    rw [hw.copy q hq, hn, Option.map_some, Option.map_some, Heap.random, horiginal, Option.bind_some] at hcopy
    have hkept : h2.nodes[q.1]? = some { n with next := some q.2 } := by
      rw [hj.other q.1 ?_, horiginal]
      intro q' hq' heq
      have hlt := hl.cells q.1 hmem
      have hfresh' := (mem_copies hq').2
      omega
    refine ⟨n, _, hn, hkept, hcopy, rfl, ?_, ?_⟩
    · intro hnone
      simp only [hnone, Option.elim_none]
    · intro r hr
      have hrmem := hl.random q.1 hmem r (by rw [Heap.random, hn]; exact hr)
      obtain ⟨b, hb⟩ := exists_copy hrmem h.nodes.length
      refine ⟨b, hb, ?_⟩
      simp only [hr, Option.elim_some]
      exact hw.next_copy hl hb

theorem copyRandomList_loops {h1 h2 : Heap} {a : Nat} (hadd : addCopies fuel h (some a) = some h1)
    (hset : setRandoms fuel h1 (some a) = some h2) : copyRandomList fuel h (some a) = some (h2, none) := by
  simp only [copyRandomList, hadd, hset, Option.bind_eq_bind, Option.bind_some]

/-- On a list that is not empty both loops end, and copyRandomList leaves the nodes and their copies in turn. -/
theorem copyRandomList_alternates (hl : Listed h head as) (hne : as ≠ []) :
    ∃ h1 h2 bs, addCopies as.length h head = some h1 ∧ setRandoms as.length h1 head = some h2 ∧
      copyRandomList as.length h head = some (h2, none) ∧ Alternates h head as bs h2 := by
  obtain ⟨h1, h2, hadd, hwoven, hset, hjoined⟩ := hl.loops
  refine ⟨h1, h2, _, hadd, hset, ?_, hjoined.alternates hl hwoven⟩
  cases as with
  | nil => exact absurd rfl hne
  | cons a as =>
    rw [hl.path.1] at hadd hset ⊢
    exact copyRandomList_loops hadd hset

/-- The first of two nodes has the second one as its random pointer, and the other way around. -/
theorem copyRandomList_alternates_crossed :
    ∃ h1 h2 bs, addCopies 2 ⟨[⟨7, some 1, some 1⟩, ⟨9, none, some 0⟩]⟩ (some 0) = some h1 ∧
      setRandoms 2 h1 (some 0) = some h2 ∧
      copyRandomList 2 ⟨[⟨7, some 1, some 1⟩, ⟨9, none, some 0⟩]⟩ (some 0) = some (h2, none) ∧
      Alternates ⟨[⟨7, some 1, some 1⟩, ⟨9, none, some 0⟩]⟩ (some 0) [0, 1] bs h2 := by
  have hl : Listed ⟨[⟨7, some 1, some 1⟩, ⟨9, none, some 0⟩]⟩ (some 0) [0, 1] :=
    ⟨⟨rfl, rfl, rfl⟩, by decide, by decide⟩
  exact copyRandomList_alternates hl (by decide)

/-- What copyRandomList is to do. -/
def Copies (h : Heap) (head : Option Nat) (as : List Nat) : Prop :=
  ∃ fuel h' p, copyRandomList fuel h head = some (h', some p) ∧ Mirrors h as h' p ∧ Kept h as h'

theorem copyRandomList_returns {ret : Option (Option Nat)} {a : Nat}
    (h1 : copyRandomList fuel h (some a) = some (h', ret)) : ret = none := by
  obtain ⟨_, _, h1⟩ := Option.bind_eq_some_iff.mp h1
  obtain ⟨_, _, h1⟩ := Option.bind_eq_some_iff.mp h1
  cases h1
  rfl

/-- Only the empty list is copied. On every other one the loops end, but nothing is returned,
and no node has the next pointer that it had. -/
theorem copyRandomList_copies_iff (hl : Listed h head as) :
    (Copies h head as ↔ as = []) ∧
      (as ≠ [] →
        ∃ h', copyRandomList as.length h head = some (h', none) ∧ ∀ a ∈ as, h'.next a ≠ h.next a) := by
  refine ⟨⟨?_, ?_⟩, ?_⟩
  · rintro ⟨fuel, h', p, hrun, _⟩
    cases as with
    | nil => rfl
    | cons a as =>
      rw [hl.path.1] at hrun
      cases copyRandomList_returns hrun
  · rintro rfl
    obtain rfl : head = none := hl.path
    exact ⟨0, h, none, rfl, ⟨[], rfl, rfl, by simp, by simp⟩, by simp [Kept]⟩
  · intro hne
    obtain ⟨h1, h2, hadd, hwoven, hset, hjoined⟩ := hl.loops
    refine ⟨h2, ?_, ?_⟩
    · cases as with
      | nil => exact absurd rfl hne
      | cons a as =>
        rw [hl.path.1] at hadd hset ⊢
        exact copyRandomList_loops hadd hset
    · rw [hjoined.next]
      exact hwoven.next_ne hl

/-- Two nodes whose random pointers go to themselves and back. -/
theorem copyRandomList_two :
    ∃ h', copyRandomList 2 ⟨[⟨7, some 1, some 0⟩, ⟨9, none, some 0⟩]⟩ (some 0) = some (h', none) ∧
      ∀ a ∈ [0, 1], h'.next a ≠ (⟨[⟨7, some 1, some 0⟩, ⟨9, none, some 0⟩]⟩ : Heap).next a := by
  have hl : Listed ⟨[⟨7, some 1, some 0⟩, ⟨9, none, some 0⟩]⟩ (some 0) [0, 1] :=
    ⟨⟨rfl, rfl, rfl⟩, by decide, by decide⟩
  exact (copyRandomList_copies_iff hl).2 (by decide)

/-- A list of one node: the function runs off its end. -/
theorem copyRandomList_one : ¬∀ h head as, Listed h head as → Copies h head as := by
  intro h
  have hl : Listed ⟨[⟨7, none, none⟩]⟩ (some 0) [0] := ⟨⟨rfl, rfl⟩, by decide, by decide⟩
  obtain ⟨fuel, h', p, hrun, _⟩ := h _ _ _ hl
  cases copyRandomList_returns hrun

end RandomList

end CppInAction
