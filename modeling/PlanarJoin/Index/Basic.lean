import PlanarJoin.Index.Grid
import PlanarJoin.Index.Packed
import PlanarJoin.Index.Quadrants
import PlanarJoin.Index.Tiers
import PlanarJoin.Settings.Basic

/-!
# Indexes

An index takes items with a proper envelope and finds candidates for an envelope: every item that
may meet it, perhaps others, none twice.

## Main definitions

* `Store`: the four ways of keeping items.
* `Index`: a store with what is common to all.
* `Index.insert`, `Index.build`, `Index.query`.
* `IndexSettings.newStore`, `IndexSettings.newIndex`: the empty index that settings describe.
* `Index.ofList`, `Index.load`: an index of some items.
* `IndexStats`: what an index is made of.
-/

namespace PlanarJoin

/-- A way of keeping items. -/
inductive Store (α : Type) where
  | grid (g : Grid α)
  | tiers (t : Tiers α)
  | packed (t : PackedTree α)
  | quadrants (q : Quadrant α)

namespace Store

variable {α : Type}

/-- The kind of index that a store makes. -/
def kind : Store α → IndexKind
  | grid _ | tiers _ => .grid
  | packed _ => .rtree
  | quadrants _ => .quadtree

/-- Adds an item with a proper envelope. -/
def insert [Spatial α] (s : Store α) (e : Entry α) : Store α :=
  match s with
  | grid g => grid (g.insert e)
  | tiers t => tiers (t.insert e)
  | packed t => packed (t.insert e.item)
  | quadrants q => quadrants (q.add e.item)

/-- Completes the store; only packed trees need it, and only to be faster. -/
def build [Spatial α] : Store α → Store α
  | packed t => packed t.build
  | s => s

/-- The candidates for a proper envelope. -/
def query [Spatial α] (s : Store α) (e : Envelope) : List α :=
  match s with
  | grid g => g.query e
  | tiers t => t.query e
  | packed t => t.query e
  | quadrants q => q.search e

/-- The number of buckets that are not empty, or of nodes. -/
def nodeCount : Store α → Nat
  | grid g => g.buckets.count
  | tiers t => t.bucketCount
  | packed t => t.nodeCount
  | quadrants q => q.count

def depth : Store α → Nat
  | grid _ => 1
  | tiers t => t.tiers.length
  | packed t => t.depth
  | quadrants q => q.height

end Store

/-- An index: a store, the number of its items and of those that were ignored, and the box around
its items. -/
structure Index (α : Type) where
  store : Store α
  size : Nat
  ignored : Nat
  extent : Envelope

/-- What an index is made of. -/
structure IndexStats where
  kind : IndexKind
  /-- Items that a query can find. -/
  items : Nat
  /-- Items that had no proper envelope. -/
  ignored : Nat
  /-- Buckets that are not empty, or nodes. -/
  nodes : Nat
  depth : Nat
deriving DecidableEq, Repr

namespace Index

variable {α : Type}

/-- An empty index. -/
def ofStore (s : Store α) : Index α :=
  ⟨s, 0, 0, .empty⟩

def isEmpty (i : Index α) : Bool :=
  i.size == 0

def kind (i : Index α) : IndexKind :=
  i.store.kind

/-- Adds an item; one without a proper envelope is counted and ignored. -/
def insert [Spatial α] (i : Index α) (a : α) : Index α :=
  let e := Spatial.envelope a
  if e.isProper then
    { i with store := i.store.insert ⟨i.size, a⟩, size := i.size + 1, extent := i.extent.hull e }
  else { i with ignored := i.ignored + 1 }

/-- Every item is counted once. -/
theorem counts_insert [Spatial α] (i : Index α) (a : α) :
    (i.insert a).size + (i.insert a).ignored = i.size + i.ignored + 1 := by
  simp only [insert]
  split <;> simp <;> omega

def insertAll [Spatial α] (i : Index α) (as : List α) : Index α :=
  as.foldl insert i

theorem counts_insertAll [Spatial α] (i : Index α) (as : List α) :
    (i.insertAll as).size + (i.insertAll as).ignored = i.size + i.ignored + as.length := by
  induction as generalizing i with
  | nil => rfl
  | cons a as ih =>
    have := counts_insert i a
    have := ih (i.insert a)
    simp only [insertAll, List.foldl_cons, List.length_cons] at *
    omega

/-- Completes the index.  Queries are right without it, only slower. -/
def build [Spatial α] (i : Index α) : Index α :=
  { i with store := i.store.build }

/-- The candidates for an envelope, none if it is not proper. -/
def query [Spatial α] (i : Index α) (e : Envelope) : List α :=
  if e.isProper then i.store.query e else []

/-- What the index is made of. -/
def stats (i : Index α) : IndexStats :=
  ⟨i.kind, i.size, i.ignored, i.store.nodeCount, i.store.depth⟩

end Index

namespace IndexSettings

variable {α : Type}

/-- The empty store that settings describe. -/
def newStore (s : IndexSettings) : Store α :=
  match s.kind with
  | .grid =>
    if s.sizeTiered then .tiers (.ofCounts s.extent s.columns s.rows)
    else .grid (.ofLayout (.make s.extent s.columns s.rows))
  | .rtree => .packed (.withCapacity s.nodeCapacity)
  | .quadtree => .quadrants (.whole s.extent [])

/-- The empty index that settings describe. -/
def emptyIndex (s : IndexSettings) : Index α :=
  .ofStore s.newStore

/-- The empty index that settings describe, if they are valid. -/
def newIndex (s : IndexSettings) : Except Failure (Index α) :=
  s.validate.map fun _ => s.emptyIndex

end IndexSettings

namespace Index

variable {α : Type} [Spatial α]

/-- A complete index of some items. -/
def ofList (s : IndexSettings) (as : List α) : Index α :=
  (s.emptyIndex.insertAll as).build

/-- A complete index of some items, if the settings are valid. -/
def load (s : IndexSettings) (as : List α) : Except Failure (Index α) :=
  s.validate.map fun _ => ofList s as

end Index

end PlanarJoin
