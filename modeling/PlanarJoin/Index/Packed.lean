import PlanarJoin.Binary64.Order
import PlanarJoin.Object.Basic

/-!
# Packed trees

A tree of boxes, packed bottom-up in one go: sort by the x of the centers, cut into slices, sort
each slice by the y of the centers, cut it into groups, and do the same with the boxes of the groups
until one is left.  Items that arrive after the tree was packed are scanned until it is packed
again.

## Main definitions

* `chunks`: a list cut into runs of a length.
* `sliceCount`: how many slices some groups are cut into.
* `pack`: a list cut into groups of neighbours.
* `Node`: a tree of boxes; `Node.search` finds the items that meet an envelope.
* `PackedTree`: the items, how many of them are packed, and the tree of these.
-/

namespace PlanarJoin

/-- A list cut into runs of `n`, of which the last may be shorter. -/
def chunks {β : Type} (n : Nat) (xs : List β) : List (List β) :=
  if _ : 0 < n ∧ 0 < xs.length then xs.take n :: chunks n (xs.drop n) else []
termination_by xs.length
decreasing_by
  simp only [List.length_drop]
  omega

theorem chunks_of_pos {β : Type} {n : Nat} (hn : 0 < n) {xs : List β} (hxs : xs ≠ []) :
    chunks n xs = xs.take n :: chunks n (xs.drop n) := by
  rw [chunks, dif_pos ⟨hn, List.length_pos_iff.mpr hxs⟩]

@[simp]
theorem chunks_nil {β : Type} (n : Nat) : chunks n ([] : List β) = [] := by
  rw [chunks, dif_neg (by simp)]

/-- The runs, read one after the other, are the list. -/
theorem flatten_chunks {β : Type} {n : Nat} (hn : 0 < n) (xs : List β) :
    (chunks n xs).flatten = xs := by
  fun_induction chunks n xs with
  | case1 xs h ih => rw [List.flatten_cons, ih, List.take_append_drop]
  | case2 xs h =>
    have : xs = [] := by simpa [hn] using h
    simp [this]

/-- No run is empty or too long. -/
theorem length_of_mem_chunks {β : Type} {n : Nat} {xs ys : List β} (h : ys ∈ chunks n xs) :
    0 < ys.length ∧ ys.length ≤ n := by
  fun_induction chunks n xs with
  | case1 xs hxs ih =>
    rcases List.mem_cons.mp h with rfl | h
    · rw [List.length_take]
      omega
    · exact ih h
  | case2 => simp at h

/-- There are as many runs as the length asks for, rounded up. -/
theorem length_chunks {β : Type} {n : Nat} (hn : 0 < n) (xs : List β) :
    (chunks n xs).length = (xs.length + n - 1) / n := by
  fun_induction chunks n xs with
  | case1 xs h ih =>
    rw [List.length_cons, ih, List.length_drop]
    -- either this run is full, or it is the last one
    rcases Nat.lt_or_ge n xs.length with hlt | hge
    · rw [show xs.length + n - 1 = xs.length - n + n - 1 + n by omega, Nat.add_div_right _ hn]
    · rw [show xs.length - n + n - 1 = n - 1 by omega,
        show xs.length + n - 1 = xs.length - 1 + n by omega, Nat.add_div_right _ hn,
        Nat.div_eq_of_lt (by omega), Nat.div_eq_of_lt (by omega)]
  | case2 xs h =>
    have : xs = [] := by simpa [hn] using h
    rw [this, List.length_nil, List.length_nil, Nat.div_eq_of_lt (by omega)]

/-- How many slices some groups are cut into: the root of their number, a float, raised to the next
whole number. -/
def sliceCount (groups : Nat) : Nat :=
  (Binary64.ceiling (Float.ofNat groups).sqrt).toUInt64.toNat

/-- A list sorted by a float, equal ones staying in order. -/
def sortByFloat {β : Type} (f : β → Float) (xs : List β) : List β :=
  xs.mergeSort fun a b => decide (Binary64.sortKey (f a) ≤ Binary64.sortKey (f b))

theorem sortByFloat_perm {β : Type} (f : β → Float) (xs : List β) :
    (sortByFloat f xs).Perm xs :=
  List.mergeSort_perm xs _

/-- A list cut into groups of at most `capacity` whose boxes are close to each other. -/
def pack {β : Type} (capacity : Nat) (box : β → Envelope) (xs : List β) : List (List β) :=
  let groups := (xs.length + capacity - 1) / capacity
  let slice := sliceCount groups * capacity
  (chunks slice (sortByFloat (fun x => (box x).centerX) xs)).flatMap fun ys =>
    chunks capacity (sortByFloat (fun y => (box y).centerY) ys)

/-- A tree of boxes. -/
inductive Node (α : Type) where
  | leaf (box : Envelope) (items : List α)
  | branch (box : Envelope) (children : List (Node α))

namespace Node

variable {α : Type}

/-- The box around everything in the tree. -/
def box : Node α → Envelope
  | leaf b _ => b
  | branch b _ => b

/-- A leaf with its box. -/
def ofItems [Spatial α] (items : List α) : Node α :=
  leaf (.hullAll (items.map Spatial.envelope)) items

/-- A branch with its box. -/
def ofChildren (children : List (Node α)) : Node α :=
  branch (.hullAll (children.map box)) children

mutual

/-- The items of a tree that meet an envelope, from left to right. -/
def search [Spatial α] (e : Envelope) : Node α → List α
  | leaf b items => if b.meets e then items.filter (touches e) else []
  | branch b children => if b.meets e then searchAll e children else []

/-- The items of some trees that meet an envelope. -/
def searchAll [Spatial α] (e : Envelope) : List (Node α) → List α
  | [] => []
  | n :: ns => search e n ++ searchAll e ns

end

mutual

def count : Node α → Nat
  | leaf _ _ => 1
  | branch _ children => 1 + countAll children

/-- The number of nodes of some trees. -/
def countAll : List (Node α) → Nat
  | [] => 0
  | n :: ns => count n + countAll ns

end

mutual

def depth : Node α → Nat
  | leaf _ _ => 1
  | branch _ children => 1 + depthAll children

/-- The most levels of some trees. -/
def depthAll : List (Node α) → Nat
  | [] => 0
  | n :: ns => max (depth n) (depthAll ns)

end

/-- Packs trees into branches until one is left; `fuel` bounds the number of levels. -/
def raise (capacity : Nat) : (fuel : Nat) → List (Node α) → Option (Node α)
  | 0, level => level.head?
  | fuel + 1, level =>
    match level with
    | [] => none
    | [root] => some root
    | level => raise capacity fuel ((pack capacity box level).map ofChildren)

/-- The packed tree of some items, none if there are none. -/
def ofList? [Spatial α] (capacity : Nat) (items : List α) : Option (Node α) :=
  let leaves := (pack capacity Spatial.envelope items).map ofItems
  raise capacity leaves.length leaves

end Node

/-- A packed tree, with the items that are still to be packed. -/
structure PackedTree (α : Type) where
  capacity : Nat
  /-- All items in order of arrival. -/
  items : Array α
  /-- How many of the items are in the tree, the first ones. -/
  packed : Nat
  root : Option (Node α)

namespace PackedTree

variable {α : Type}

/-- An empty tree.  A node needs room for two entries. -/
def withCapacity (capacity : Nat) : PackedTree α :=
  ⟨max capacity 2, #[], 0, none⟩

/-- The usual capacity of a node. -/
def usualCapacity : Nat := 10

/-- The items that are not in the tree. -/
def pending (t : PackedTree α) : List α :=
  t.items.toList.drop t.packed

/-- Whether every item is in the tree. -/
def isBuilt (t : PackedTree α) : Bool :=
  t.packed == t.items.size

/-- Adds an item that is still to be packed. -/
def insert (t : PackedTree α) (a : α) : PackedTree α :=
  { t with items := t.items.push a }

/-- Packs all items into a new tree, if any is not packed yet. -/
def build [Spatial α] (t : PackedTree α) : PackedTree α :=
  if t.isBuilt then t
  else
    { t with
      packed := t.items.size
      root := Node.ofList? t.capacity t.items.toList }

/-- The items that meet an envelope: those in the tree, then the others. -/
def query [Spatial α] (t : PackedTree α) (e : Envelope) : List α :=
  (match t.root with
    | some root => root.search e
    | none => []) ++ t.pending.filter (touches e)

def nodeCount (t : PackedTree α) : Nat :=
  match t.root with
  | some root => root.count
  | none => 0

def depth (t : PackedTree α) : Nat :=
  match t.root with
  | some root => root.depth
  | none => 0

end PackedTree

end PlanarJoin
