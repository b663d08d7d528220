import PlanarJoin.Index.Basic
import PlanarJoin.Nearest.Selector

/-!
# Searching an index for the nearest

Square windows around the point are searched, each twice as wide as the one before, until enough
items lie within half the width of the window or the window covers the whole index.  An item that is
nearer than half the width meets the window, so by then the nearest items have been seen.

A search asks little of an index, so it is defined on what it asks for, and an index is searched by
what it answers.

## Main definitions

* `Searchable`: what a search asks of an index.
* `firstRadius`: half the width of the first window.
* `Window`: what a window has found.
* `Searchable.windows`: the windows searched, the last of which gives the answer.
* `Searchable.nearest`: the `k` items that are nearest to a point.
* `Index.windows`, `Index.nearest`: the same for an index.
-/

namespace PlanarJoin

/-- Half the width of the first window: the distance to the index, and the radius in which `k` items
are to be expected if they are spread evenly.  If every item sits on the point, that is nothing, and
the least step above one is taken instead. -/
def firstRadius (extent : Envelope) (p : Coord) (k size : Nat) : Float :=
  let toExtent := (extent.squaredDistance p.x p.y).sqrt
  let side := Binary64.upper extent.width extent.height
  let spread := side * (Float.ofNat k / Float.ofNat (max size 1)).sqrt / 2.0
  let radius := toExtent + spread
  if radius.isFinite && 0.0 < radius then radius else Binary64.epsilon

/-- The square window around a point. -/
def windowAt (p : Coord) (radius : Float) : Envelope :=
  (Envelope.ofPoint p.x p.y).grow radius radius

/-- A window with what it has found. -/
structure Window (α : Type) where
  radius : Float
  candidates : List α

/-- More doublings than lead from the least positive float past the greatest. -/
def maxDoublings : Nat := 2200

/-- What a search asks of an index: the number of its items, the box around them, and the candidates
for an envelope. -/
structure Searchable (α : Type) where
  size : Nat
  extent : Envelope
  query : Envelope → List α

namespace Searchable

variable {α : Type} [Spatial α]

/-- The window of a radius. -/
def window (s : Searchable α) (p : Coord) (radius : Float) : Window α :=
  ⟨radius, s.query (windowAt p radius)⟩

/-- Whether a window settles the search: `k` items are within its radius, or it covers the index. -/
def settles (s : Searchable α) (p : Coord) (k : Nat) (w : Window α) : Bool :=
  k ≤ ((w.candidates.filterMap (ranked? p)).filter (·.distance ≤ w.radius)).length ||
    (windowAt p w.radius).covers s.extent

/-- The windows searched from a radius on, up to the one that settles the search. -/
def windowsFrom (s : Searchable α) (p : Coord) (k : Nat) : (fuel : Nat) → Float → List (Window α)
  | 0, radius => [s.window p radius]
  | fuel + 1, radius =>
    let w := s.window p radius
    if s.settles p k w then [w] else w :: s.windowsFrom p k fuel (radius * 2.0)

/-- The windows searched for the `k` nearest items.  None are if no item is asked for or there is
none, or if the point is not finite. -/
def windows (s : Searchable α) (p : Coord) (k : Nat) : List (Window α) :=
  if k = 0 || s.size == 0 || !s.extent.isProper || !p.isFinite then []
  else s.windowsFrom p k maxDoublings (firstRadius s.extent p k s.size)

/-- The `k` items that are nearest to a point, the nearest first. -/
def nearest (s : Searchable α) (p : Coord) (k : Nat) : List (Ranked α) :=
  match (s.windows p k).getLast? with
  | some w => nearestOf w.candidates p k
  | none => []

end Searchable

namespace Index

variable {α : Type} [Spatial α]

/-- An index as a search sees it. -/
def searchable (i : Index α) : Searchable α :=
  ⟨i.size, i.extent, i.query⟩

/-- The windows searched for the `k` nearest items of an index. -/
def windows (i : Index α) (p : Coord) (k : Nat) : List (Window α) :=
  i.searchable.windows p k

/-- The `k` items of an index that are nearest to a point, the nearest first. -/
def nearest (i : Index α) (p : Coord) (k : Nat) : List (Ranked α) :=
  i.searchable.nearest p k

end Index

end PlanarJoin
