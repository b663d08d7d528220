import PlanarJoin.Nearest.Heap
import PlanarJoin.Object.Relation

/-!
# Selecting the nearest

A selector keeps the `k` items with the smallest distances among those it is offered.

## Main definitions

* `Selector`: the limit and the items kept.
* `Selector.push`, `Selector.offer`: offers an item at a distance, or at its distance to a point.
* `nearestOf`: the nearest of a list.
* `mergeNearest`: the nearest of several selections.
-/

namespace PlanarJoin

/-- Keeps the items with the smallest distances, `limit` of them. -/
structure Selector (α : Type) where
  limit : Nat
  heap : Heap α

namespace Selector

variable {α : Type}

/-- A selector that has been offered nothing. -/
def withLimit (k : Nat) : Selector α := ⟨k, .empty⟩

def size (s : Selector α) : Nat :=
  s.heap.size

/-- Whether no item is kept. -/
def isEmpty (s : Selector α) : Bool :=
  s.size == 0

/-- Whether as many items are kept as can be. -/
def isFull (s : Selector α) : Bool :=
  s.limit ≤ s.size

/-- The greatest distance kept, once the selector is full. -/
def worst? (s : Selector α) : Option Float :=
  if s.isFull then s.heap.top?.map (·.distance) else none

/-- Offers an item at a distance, and says whether it is kept.  A full selector takes it only if it
is strictly nearer than the farthest item, which it displaces; a distance that is not finite is
refused. -/
def push (s : Selector α) (e : Ranked α) : Bool × Selector α :=
  if s.limit = 0 || !e.distance.isFinite then (false, s)
  else if s.size < s.limit then (true, { s with heap := s.heap.push e })
  else
    match s.heap.top? with
    | some far =>
      if e.distance < far.distance then (true, { s with heap := s.heap.pop.push e })
      else (false, s)
    | none => (false, s)

/-- Offers an item at its distance to a point; one whose distance cannot be told is passed over. -/
def offer [Spatial α] (s : Selector α) (p : Coord) (a : α) : Bool × Selector α :=
  match distanceTo a p with
  | .ok d => s.push ⟨d, a⟩
  | .error _ => (false, s)

/-- Offers several items with their distances. -/
def pushAll (s : Selector α) (es : List (Ranked α)) : Selector α :=
  es.foldl (fun s e => (s.push e).2) s

/-- The items kept, the nearest first. -/
def ascending (s : Selector α) : List (Ranked α) :=
  s.heap.ascending

end Selector

/-- An item with its distance to a point, if that can be told. -/
def ranked? {α : Type} [Spatial α] (p : Coord) (a : α) : Option (Ranked α) :=
  match distanceTo a p with
  | .ok d => some ⟨d, a⟩
  | .error _ => none

/-- The `k` items nearest to a point, the nearest first. -/
def nearestOf {α : Type} [Spatial α] (as : List α) (p : Coord) (k : Nat) : List (Ranked α) :=
  ((Selector.withLimit k).pushAll (as.filterMap (ranked? p))).ascending

/-- The `k` nearest of several selections, the nearest first. -/
def mergeNearest {α : Type} (lists : List (List (Ranked α))) (k : Nat) : List (Ranked α) :=
  ((Selector.withLimit k).pushAll lists.flatten).ascending

end PlanarJoin
