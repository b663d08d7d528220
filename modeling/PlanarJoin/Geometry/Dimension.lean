import PlanarJoin.Geometry.Turn

/-!
# Dimensions

Whether a geometry is made of points, of lines or of areas.  What has no extent counts as less than
its kind says: a line between equal ends is a point, a flat triangle is a line.

## Main definitions

* `Dimension`: points, lines or areas.
* `Primitive.dimension?`, `Geometry.dimension?`: the dimension, none of what is empty.
-/

namespace PlanarJoin

/-- The extent of a geometry: points, lines or areas. -/
inductive Dimension where
  | points
  | lines
  | areas
deriving DecidableEq, Repr

namespace Dimension

/-- The rank of a dimension. -/
def rank : Dimension → Nat
  | points => 0
  | lines => 1
  | areas => 2

/-- The higher of two dimensions; none is below all. -/
def higher? : Option Dimension → Option Dimension → Option Dimension
  | some a, some b => some (if a.rank < b.rank then b else a)
  | some a, none => some a
  | none, b => b

end Dimension

/-- The dimension of vertices joined to a path. -/
def pathDimension? : List Coord → Option Dimension
  | [] => none
  | v :: vs => some (if vs.all (· == v) then .points else .lines)

/-- The dimension of vertices joined to a ring: an area takes three different ones. -/
def ringDimension? : List Coord → Option Dimension
  | [] => none
  | v :: vs =>
    match vs.filter (· != v) with
    | [] => some .points
    | w :: ws => some (if ws.all (· == w) then .lines else .areas)

namespace Primitive

/-- The dimension of a primitive, none if it is empty. -/
def dimension? : Primitive → Option Dimension
  | point _ => some .points
  | line a b => pathDimension? [a, b]
  | rect l h =>
    some (if l == h then .points else if l.x == h.x || l.y == h.y then .lines else .areas)
  | triangle a b c =>
    if a.turn b c = .straight then pathDimension? [a, b, c] else some .areas
  | path vs => pathDimension? vs
  | polygon p => ringDimension? p.outer

end Primitive

/-- The highest dimension among the parts of a geometry, none if it is empty. -/
def Geometry.dimension? (g : Geometry) : Option Dimension :=
  g.parts.foldl (fun d p => Dimension.higher? d p.dimension?) none

end PlanarJoin
