import PlanarJoin.Geometry.Segment

/-!
# Where a point lies

Interior, boundary and exterior of a geometry.

## Main definitions

* `Position`: interior, boundary or exterior.
* `ringPosition`: the position with respect to a ring and what it goes around.
* `Sighting`: what has been seen of a point while looking at the parts of a geometry in turn.
* `Geometry.position`: the position with respect to a geometry.  A point on the boundary of an even
  number of parts is not on the boundary of the whole.
-/

namespace PlanarJoin

/-- Where a point lies with respect to a geometry. -/
inductive Position where
  | interior
  | boundary
  | exterior
deriving DecidableEq, Repr

/-! ## Rings -/

/-- How a segment of a ring passes a point to its right: up, down, through the point, or not. -/
inductive Passage where
  | up
  | down
  | through
  | none
deriving DecidableEq, Repr

/-- How a segment of a ring passes a point.  A segment that ends at the height of the point counts
only if it comes down there, so that a vertex at that height is counted once. -/
def Segment.passage (s : Segment) (p : Coord) : Passage :=
  if s.start.y ≤ p.y then
    if p.y ≤ s.stop.y then
      match s.turnTo p with
      | .left => if s.stop.y != p.y then .up else .none
      | .straight => if isBetween p.x s.start.x s.stop.x then .through else .none
      | .right => .none
    else .none
  else if s.stop.y ≤ p.y then
    match s.turnTo p with
    | .right => .down
    | .straight => if isBetween p.x s.start.x s.stop.x then .through else .none
    | .left => .none
  else .none

/-- How often a ring goes around a point that does not lie on it, counter-clockwise turns counted
positive. -/
def windingNumber (passages : List Passage) : Int :=
  (passages.count .up : Int) - passages.count .down

/-- The position of a point with respect to a ring and what it goes around. -/
def ringPosition (ring : List Coord) (p : Coord) : Position :=
  match ring with
  | [] => .exterior
  | [v] => if p == v then .boundary else .exterior
  | ring =>
    let passages := (segmentsOf ring).map (·.passage p)
    if passages.contains .through then .boundary
    else if windingNumber passages = 0 then .exterior
    else .interior

/-! ## Looking at one part after the other -/

/-- Whether a point has been seen inside a part, and on how many boundaries. -/
structure Sighting where
  inside : Bool
  boundaries : Nat

namespace Sighting

/-- Nothing has been looked at. -/
def start : Sighting := ⟨false, 0⟩

/-- The point is inside a part. -/
def within (s : Sighting) : Sighting := { s with inside := true }

/-- The point is on the boundary of a part. -/
def onBoundary (s : Sighting) : Sighting := { s with boundaries := s.boundaries + 1 }

/-- Boundaries cancel in pairs. -/
def position (s : Sighting) : Position :=
  if s.boundaries % 2 = 1 then .boundary
  else if s.inside then .interior
  else .exterior

end Sighting

namespace Coord

variable (p : Coord)

/-- Looks at the segment between two points, whose boundary are its ends. -/
def lookAtSegment (s : Sighting) (t : Segment) : Sighting :=
  if t.isPoint then if p == t.start then s.within else s
  else if p == t.start || p == t.stop then s.onBoundary
  else if t.has p then s.within
  else s

/-- Looks at a path, whose boundary are its ends if it is open. -/
def lookAtPath (s : Sighting) (vs : List Coord) : Sighting :=
  match vs with
  | [] | [_] => s
  | [a, b] => p.lookAtSegment s ⟨a, b⟩
  | a :: vs =>
    let isClosed := vs.getLast? == some a
    if !((boundsOf? (a :: vs)).any (·.hasPoint p.x p.y)) then s
    else if !isClosed && (p == a || vs.getLast? == some p) then s.onBoundary
    else if (segmentsOf (a :: vs)).any (·.has p) then s.within
    else s

def lookAtRect (s : Sighting) (low high : Coord) : Sighting :=
  if p.x < low.x || high.x < p.x || p.y < low.y || high.y < p.y then s
  else if p.x == low.x || p.x == high.x || p.y == low.y || p.y == high.y then s.onBoundary
  else s.within

/-- Looks at a triangle.  Of a vertex, only the side that leaves it counts as boundary, so it is met
once; nothing counts on an upright side that is not left.  Whether the point is inside is decided
here alone, whatever has been seen before. -/
def lookAtTriangle (s : Sighting) (a b c : Coord) : Sighting :=
  let sides : List Segment := [⟨a, b⟩, ⟨b, c⟩, ⟨c, a⟩]
  let touched := sides.filter fun t => t.has p && p.x != t.stop.x
  let turns := sides.map (·.turnTo p)
  ⟨turns = [.left, .left, .left] || turns = [.right, .right, .right],
    s.boundaries + touched.length⟩

/-- Looks at the holes of a polygon from inside its outer ring: the first one that does not have the
point outside decides. -/
def lookAtHoles (s : Sighting) : List (List Coord) → Sighting
  | [] => s.within
  | hole :: holes =>
    match ringPosition hole p with
    | .exterior => lookAtHoles s holes
    | .boundary => s.onBoundary
    | .interior => s

def lookAtPolygon (s : Sighting) (g : Polygon) : Sighting :=
  match ringPosition g.outer p with
  | .exterior => s
  | .boundary => s.onBoundary
  | .interior => p.lookAtHoles s g.holes

def lookAt (s : Sighting) : Primitive → Sighting
  | .point c => if p == c then s.within else s
  | .line a b => p.lookAtSegment s ⟨a, b⟩
  | .rect low high => p.lookAtRect s low high
  | .triangle a b c => p.lookAtTriangle s a b c
  | .path vs => p.lookAtPath s vs
  | .polygon g => p.lookAtPolygon s g

end Coord

/-- The position of a point with respect to a polygon. -/
def Polygon.position (g : Polygon) (p : Coord) : Position :=
  (p.lookAtPolygon .start g).position

/-- The position of a point with respect to a geometry. -/
def Geometry.position (g : Geometry) (p : Coord) : Position :=
  (g.parts.foldl p.lookAt .start).position

end PlanarJoin
