import PlanarJoin.Binary64.Hypot
import PlanarJoin.Geometry.Turn

/-!
# Segments

Segments between float points: which points they share, and how far away they are.

## Main definitions

* `Segment`: a segment, a point if its ends coincide.
* `segmentsOf`: the segments between successive vertices.
* `Segment.has`, `Segment.meets`: closed incidence of points and segments.
* `Coord.distance`, `Segment.distanceTo`: the two elementary distances.
-/

namespace PlanarJoin

/-- The segment between two points; it is a point if they coincide. -/
structure Segment where
  start : Coord
  stop : Coord
deriving BEq, Repr

/-- The segments between successive vertices. -/
def segmentsOf : List Coord → List Segment
  | a :: b :: rest => ⟨a, b⟩ :: segmentsOf (b :: rest)
  | _ => []

/-- Whether a number lies between two bounds, given in any order. -/
def isBetween (v a b : Float) : Bool :=
  let (low, high) := ascending a b
  low ≤ v && v ≤ high

namespace Segment

/-- Whether the segment is a point. -/
def isPoint (s : Segment) : Bool :=
  s.start == s.stop

/-- The box around a segment. -/
def bounds (s : Segment) : Envelope :=
  .ofCorners s.start s.stop

/-- How the path along a segment turns to reach a point beyond it. -/
def turnTo (s : Segment) (p : Coord) : Turn :=
  s.start.turn s.stop p

/-- Whether a point lies in the box around a segment. -/
def boxHas (s : Segment) (p : Coord) : Bool :=
  isBetween p.x s.start.x s.stop.x && isBetween p.y s.start.y s.stop.y

/-- Whether a point lies on a segment, ends included. -/
def has (s : Segment) (p : Coord) : Bool :=
  s.turnTo p = .straight && s.boxHas p

/-- Whether two segments share a point: each has the ends of the other on different sides, or they
lie on one line and an end of one lies in the box around the other. -/
def meets (s t : Segment) : Bool :=
  if s.isPoint then t.has s.start
  else
    let toStart := s.turnTo t.start
    let toStop := s.turnTo t.stop
    if toStart ≠ toStop then t.turnTo s.start ≠ t.turnTo s.stop
    else toStart = .straight && (s.boxHas t.start || s.boxHas t.stop || t.boxHas s.stop)

end Segment

/-! ## Lengths -/

/-- The distance between two points. -/
def Coord.distance (a b : Coord) : Float :=
  Binary64.hypot (b.x - a.x) (b.y - a.y)

namespace Segment

def length (s : Segment) : Float :=
  s.start.distance s.stop

/-- The distance from a segment to a point: from an end if the foot of the perpendicular lies beyond
it, else the length of the perpendicular. -/
def distanceTo (s : Segment) (p : Coord) : Float :=
  if s.isPoint then p.distance s.start
  else
    let d := s.stop.sub s.start
    let square := d.x * d.x + d.y * d.y
    let foot := ((p.x - s.start.x) * d.x + (p.y - s.start.y) * d.y) / square
    if foot ≤ 0.0 then p.distance s.start
    else if 1.0 ≤ foot then p.distance s.stop
    else
      let offset := ((s.start.y - p.y) * d.x - (s.start.x - p.x) * d.y) / square
      offset.abs * s.length

end Segment

end PlanarJoin
