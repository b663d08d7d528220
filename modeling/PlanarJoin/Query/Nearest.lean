import PlanarJoin.Nearest.Search
import PlanarJoin.Tiling.Collection

/-!
# The nearest objects of a collection

Each partition gives its nearest objects, and the nearest of these are taken.  An object with copies
in several partitions is given by the partition that owns the lower left corner of its envelope.

## Main definitions

* `ownsObject`: whether a partition gives an object.
* `Index.fetches`: what is asked of an index until enough of it is owned.
* `Index.nearestOwned`: the nearest objects that a partition gives, by its index.
* `Collection.nearest`: the nearest objects of a collection.
-/

namespace PlanarJoin

variable {α : Type} [Spatial α]

/-- Whether a partition gives an object: if it owns the lower left corner of its envelope, or where
nothing is owned. -/
def ownsObject (o : Option Ownership) (a : α) : Bool :=
  match o with
  | some o => o.ownsPoint (Spatial.envelope a).minX (Spatial.envelope a).minY
  | none => true

/-- The largest number of items that can be asked for. -/
def greatestCount : Nat := Nat.pow 2 64 - 1

/-- A number of items asked for, with what was found. -/
structure Fetch (α : Type) where
  asked : Nat
  found : List (Ranked α)

namespace Fetch

/-- The items found that a partition gives. -/
def owned (f : Fetch α) (o : Option Ownership) : List (Ranked α) :=
  f.found.filter fun r => ownsObject o r.item

/-- Whether enough items are found, or no more can be. -/
def settles (f : Fetch α) (o : Option Ownership) (k : Nat) : Bool :=
  k ≤ (f.owned o).length || f.found.length < f.asked

end Fetch

namespace Index

/-- What is fetched for the `k` nearest owned items: `asked` items at first, and twice as many again
and again while copies that are owned elsewhere take too many of the places. -/
def fetchesFrom (i : Index α) (o : Option Ownership) (p : Coord) (k : Nat) :
    (fuel : Nat) → (asked : Nat) → List (Fetch α)
  | 0, asked => [⟨asked, i.nearest p asked⟩]
  | fuel + 1, asked =>
    let f : Fetch α := ⟨asked, i.nearest p asked⟩
    if f.settles o k then [f]
    else f :: i.fetchesFrom o p k fuel (min (2 * asked) greatestCount)

/-- What is fetched for the `k` nearest owned items.  Once more is asked for than there is, nothing
is left to fetch, so the number of items bounds the number of fetches. -/
def fetches (i : Index α) (o : Option Ownership) (p : Coord) (k : Nat) : List (Fetch α) :=
  i.fetchesFrom o p k (i.size + 1) k

/-- The nearest items that a partition gives, by its index. -/
def nearestOwned (i : Index α) (o : Option Ownership) (p : Coord) (k : Nat) : List (Ranked α) :=
  match (i.fetches o p k).getLast? with
  | some f => f.owned o
  | none => []

end Index

namespace Collection

/-- The nearest objects that a partition gives. -/
def nearestIn (c : Collection α) (p : Coord) (k : Nat) (useIndex : Bool) (i : Nat) :
    Except Failure (List (Ranked α)) :=
  (c.ownership i).map fun o =>
    match useIndex, c.index? i with
    | true, some x => x.nearestOwned o p k
    | _, _ => nearestOf ((c.partition i).filter (ownsObject o)) p k

/-- The `k` objects of a collection that are nearest to a point, the nearest first. -/
def nearest (c : Collection α) (p : Coord) (k : Nat) (useIndex : Bool) :
    Except Failure (List (Ranked α)) :=
  if useIndex && !c.hasIndex then .error .nothingIndexed
  else
    ((List.range c.count).mapM (c.nearestIn p k useIndex)).map fun lists => mergeNearest lists k

end Collection

end PlanarJoin
