import PlanarJoin.Geometry.Meeting

/-!
# Where segments cross

The point that two segments share, or the segment along which they overlap.  Where an end of one
lies on the other, that end is the point, digit for digit; only where both pass through each other
a new point is computed.

## Main definitions

* `Crossing`: what two segments share.
* `Segment.crossing?`: what two given segments share, if anything.
-/

namespace PlanarJoin

open Binary64

/-- What two segments share. -/
inductive Crossing where
  /-- One point; `isProper` if both segments pass through it. -/
  | point (place : Coord) (isProper : Bool)
  /-- All points between two. -/
  | overlap (start stop : Coord)
deriving Repr

namespace Crossing

/-- The point of a crossing, or the two ends of an overlap. -/
def places : Crossing → List Coord
  | point c _ => [c]
  | overlap a b => [a, b]

/-- The point where two segments pass through each other. -/
def proper? : Crossing → Option Coord
  | point c true => some c
  | _ => none

/-- Whether the segments share one point only. -/
def isPoint : Crossing → Bool
  | point _ _ => true
  | overlap _ _ => false

end Crossing

namespace Segment

/-- The end of two segments that is nearest to the other one; of equally near ones the first. -/
def nearestEnd (s t : Segment) : Coord :=
  let ends := [(s.stop, t.distanceTo s.stop), (t.start, s.distanceTo t.start),
    (t.stop, s.distanceTo t.stop)]
  (ends.foldl (fun near far => if far.2 < near.2 then far else near)
    (s.start, t.distanceTo s.start)).1

/-- The middle of the region that the boxes around two segments share. -/
def sharedMiddle (s t : Segment) : Coord :=
  let least (v : Coord → Float) :=
    upper (lower (v s.start) (v s.stop)) (lower (v t.start) (v t.stop))
  let most (v : Coord → Float) :=
    lower (upper (v s.start) (v s.stop)) (upper (v t.start) (v t.stop))
  ⟨(least Coord.x + most Coord.x) / 2.0, (least Coord.y + most Coord.y) / 2.0⟩

/-- The point that the lines through two segments share, if it can be computed.  Coordinates are
taken relative to a point close by, so that fewer digits cancel. -/
def lineCrossing? (s t : Segment) : Option Coord :=
  let o := s.sharedMiddle t
  let line (s : Segment) : Coord × Float :=
    let a := s.start.sub o
    let b := s.stop.sub o
    (⟨a.y - b.y, b.x - a.x⟩, a.x * b.y - b.x * a.y)
  let (u, c) := line s
  let (v, d) := line t
  let weight := u.x * v.y - v.x * u.y
  let p : Coord := ⟨(u.y * d - v.y * c) / weight, (v.x * c - u.x * d) / weight⟩
  if p.isFinite then some (p.add o) else none

/-- The point where two segments pass through each other: that of their lines, if it lies in the
boxes around both, and else an end close by. -/
def properPlace (s t : Segment) : Coord :=
  let p := (s.lineCrossing? t).getD (s.nearestEnd t)
  if s.bounds.hasPoint p.x p.y && t.bounds.hasPoint p.x p.y then p else s.nearestEnd t

/-- What two segments on one line share. -/
def overlap? (s t : Segment) : Option Crossing :=
  let first := s.boxHas t.start
  let last := s.boxHas t.stop
  let start := t.boxHas s.start
  let stop := t.boxHas s.stop
  let between (a b : Coord) (ends : Bool) : Option Crossing :=
    some (if ends && a == b then .point a false else .overlap a b)
  if first && last then some (.overlap t.start t.stop)
  else if start && stop then some (.overlap s.start s.stop)
  else if first && start then between t.start s.start (!last && !stop)
  else if first && stop then between t.start s.stop (!last && !start)
  else if last && start then between t.stop s.start (!first && !stop)
  else if last && stop then between t.stop s.stop (!first && !start)
  else none

/-- What two segments share, if anything. -/
def crossing? (s t : Segment) : Option Crossing :=
  if s.bounds.isApart t.bounds then none
  else
    let toStart := s.turnTo t.start
    let toStop := s.turnTo t.stop
    let fromStart := t.turnTo s.start
    let fromStop := t.turnTo s.stop
    if toStart = toStop ∧ toStart ≠ .straight then none
    else if fromStart = fromStop ∧ fromStart ≠ .straight then none
    else
      let turns := [toStart, toStop, fromStart, fromStop]
      if turns.all (· = .straight) then s.overlap? t
      else if turns.all (· ≠ .straight) then some (.point (s.properPlace t) true)
      else
        let place :=
          if s.start == t.start || s.start == t.stop then s.start
          else if s.stop == t.start || s.stop == t.stop then s.stop
          else if toStart = .straight then t.start
          else if toStop = .straight then t.stop
          else if fromStart = .straight then s.start
          else s.stop
        some (.point place false)

end Segment

end PlanarJoin
