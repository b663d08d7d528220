import PlanarJoin.Arrangement.Contact
import PlanarJoin.Geometry.Centroid
import PlanarJoin.Geometry.Distance
import PlanarJoin.Object.Basic

/-!
# Relations between objects

The exact tests that decide whether a pair belongs to a join, and how far an object is from a point.
An object that is not finite fails the test instead of answering it.

## Main definitions

* `Shape.fault?`: why a shape cannot be tested.
* `Shape.intersects`, `Shape.contains`: the two relations between shapes.
* `Relation`: the relation that a join tests; `Relation.holds` evaluates it.
* `distanceTo`: the distance from an object to a point.
-/

namespace PlanarJoin

/-- Why a geometry cannot be tested. -/
def Geometry.fault? (g : Geometry) : Option Failure :=
  if g.isFinite then none else some .notFinite

namespace Shape

/-- Why a shape cannot be tested: its radius first, then its geometry. -/
def fault? : Shape → Option Failure
  | plain g => g.fault?
  | disc g r => if usableRadius r then g.fault? else some (.unusableTotalRadius r)

/-- Answers a test on two shapes unless one of them has a fault; the first fault counts. -/
def tested {α : Type} (a b : Shape) (answer : Except Failure α) : Except Failure α :=
  match a.fault?, b.fault? with
  | some f, _ => .error f
  | none, some f => .error f
  | none, none => answer

/-- Whether two shapes share a point.  A disc and a geometry do if the geometry is within the radius
of the center, two discs if their centers are within the sum of the radii. -/
def intersects : Shape → Shape → Except Failure Bool
  | plain a, plain b => tested (plain a) (plain b) (.ok (a.meets b))
  | disc c r, plain g => tested (disc c r) (plain g) (.ok (c.distance g ≤ r))
  | plain g, disc c r => tested (disc c r) (plain g) (.ok (c.distance g ≤ r))
  | disc c r, disc d s => tested (disc c r) (disc d s) (.ok (c.distance d ≤ r + s))

/-- The centroid of a disc's center. -/
def origin (center : Geometry) : Except Failure Coord :=
  match center.centroid? with
  | some c => .ok c
  | none => .error .noCenter

/-- Whether the first shape contains the second.  A disc contains a geometry if every vertex lies
within the radius of the centroid of its center, and a disc if the centroids are no further apart
than the radii differ.  Whether a geometry contains a disc is not decided. -/
def contains : Shape → Shape → Except Failure Bool
  | plain a, plain b => tested (plain a) (plain b) (.ok (a.contains b))
  | disc c r, plain g =>
    tested (disc c r) (plain g) do
      let o ← origin c
      return !g.coords.isEmpty && g.coords.all (o.distance · ≤ r)
  | disc c r, disc d s =>
    tested (disc c r) (disc d s) do
      let o ← origin c
      let p ← origin d
      return o.distance p + s ≤ r
  | plain _, disc _ _ => .error .discInGeometry

/-- The distance from a shape to a point; a disc begins at its radius. -/
def distanceTo (s : Shape) (p : Coord) : Except Failure Float :=
  match s.fault? with
  | some f => .error f
  | none =>
    match s with
    | plain g => .ok (g.distance (.single (.point p)))
    | disc g r => .ok (Binary64.clampNonneg (g.distance (.single (.point p)) - r))

end Shape

/-- The relation that a join tests between a left and a right object. -/
inductive Relation where
  /-- They share a point, boundaries included. -/
  | intersects
  /-- The left one contains the right one. -/
  | contains
deriving DecidableEq, Repr

namespace Relation

/-- The relation of a join that takes boundaries into account, or not. -/
def ofBoundary (boundary : Bool) : Relation :=
  if boundary then intersects else contains

def name : Relation → String
  | intersects => "intersects"
  | contains => "contains"

/-- Whether the relation holds between two objects. -/
def holds {α β : Type} [Spatial α] [Spatial β] (r : Relation) (a : α) (b : β) :
    Except Failure Bool :=
  match r with
  | intersects => (Spatial.shape a).intersects (Spatial.shape b)
  | contains => (Spatial.shape a).contains (Spatial.shape b)

end Relation

/-- The distance from an object to a point. -/
def distanceTo {α : Type} [Spatial α] (a : α) (p : Coord) : Except Failure Float :=
  (Spatial.shape a).distanceTo p

end PlanarJoin
