import PlanarJoin.Arrangement.Crossing

/-!
# Edges and where they are cut

An edge is a chain of segments that belongs to a geometry as a whole: a path, or a ring of an area.
It is cut at the points that it shares with other edges, and with itself.

## Main definitions

* `Label`: where an edge and its two sides lie with respect to its geometry.
* `Edge`: vertices and label.
* `Stop`: a place on an edge, with its position along the edge.
* `Stop.insert`: keeps stops in the order in which the edge passes them.
* `Encounter`: two segments of edges and what they share.
* `Edge.stopsOnItself`, `Edge.stopsOn`: where an edge meets itself or another edge of its geometry.
-/

namespace PlanarJoin

/-- Where the points of an edge lie with respect to its geometry, and, if it bounds an area, where
those to its left and to its right lie. -/
structure Label where
  on : Position
  sides? : Option (Position × Position)
deriving DecidableEq, Repr

/-- The same seen by one who walks the edge the other way. -/
def Label.reverse (l : Label) : Label :=
  { l with sides? := l.sides?.map Prod.swap }

/-- A chain of segments. -/
structure Edge where
  vertices : List Coord
  label : Label
deriving Repr

/-! ## Stops -/

/-- A place on an edge: the number of the segment and how far along it, in a measure that grows with
the distance from its start. -/
structure Stop where
  segment : Nat
  offset : Float
  place : Coord

namespace Stop

/-- Whether the edge passes `s` before `t`. -/
def isBefore (s t : Stop) : Bool :=
  s.segment < t.segment || (s.segment == t.segment && s.offset < t.offset)

/-- Adds a stop to others in the order of the edge, unless one is there already. -/
def insert (s : Stop) : List Stop → List Stop
  | [] => [s]
  | t :: ts => if s.isBefore t then s :: t :: ts else if t.isBefore s then t :: insert s ts
    else t :: ts

end Stop

/-- How far along a segment a place lies: along the axis on which the segment is longer. -/
def Segment.offset (s : Segment) (c : Coord) : Float :=
  let extent := s.stop.sub s.start
  let along := c.sub s.start
  let isWide := extent.y.abs < extent.x.abs
  if c == s.start then 0.0
  else if c == s.stop then (if isWide then extent.x.abs else extent.y.abs)
  else
    let offset := if isWide then along.x.abs else along.y.abs
    -- off the segment by rounding, a place may seem not to have moved along that axis
    if offset == 0.0 then Binary64.upper along.x.abs along.y.abs else offset

/-- A place on the segment with a given number, as a stop; the end belongs to the next segment. -/
def Segment.stopAt (s : Segment) (i : Nat) (c : Coord) : Stop :=
  if c == s.stop then ⟨i + 1, 0.0, c⟩ else ⟨i, s.offset c, c⟩

/-! ## Encounters -/

/-- Segments of two edges, with their numbers, and what they share. -/
structure Encounter where
  first : Segment
  firstNumber : Nat
  second : Segment
  secondNumber : Nat
  crossing : Crossing

namespace Encounter

/-- The stops that an encounter makes on the first edge. -/
def firstStops (n : Encounter) : List Stop :=
  n.crossing.places.map (n.first.stopAt n.firstNumber)

/-- The stops that an encounter makes on the second edge. -/
def secondStops (n : Encounter) : List Stop :=
  n.crossing.places.map (n.second.stopAt n.secondNumber)

/-- Whether the segments pass through each other. -/
def isProper (n : Encounter) : Bool :=
  n.crossing.proper?.isSome

/-- Whether, on one edge, the segments are the same, or neighbours that share no more than the
vertex between them. -/
def isTrivial (n : Encounter) : Bool :=
  n.firstNumber = n.secondNumber ||
    n.crossing.isPoint &&
      (n.firstNumber + 1 = n.secondNumber || n.secondNumber + 1 = n.firstNumber)

end Encounter

namespace Edge

def segments (e : Edge) : List Segment :=
  segmentsOf e.vertices

/-- What the segments of an edge share with those of another. -/
def encounters (e f : Edge) : List Encounter :=
  e.segments.zipIdx.flatMap fun (s, i) =>
    f.segments.zipIdx.filterMap fun (t, j) => (s.crossing? t).map fun x => ⟨s, i, t, j, x⟩

/-- The stops of an edge where it meets itself. -/
def stopsOnItself (e : Edge) : List Stop :=
  ((e.encounters e).filter (!·.isTrivial)).flatMap fun n => n.firstStops ++ n.secondStops

/-- The stops of an edge where it meets another one of its geometry. -/
def stopsOn (e f : Edge) : List Stop :=
  (e.encounters f).flatMap Encounter.firstStops ++ (f.encounters e).flatMap Encounter.secondStops

/-- The stops at the two ends of an edge. -/
def endStops (e : Edge) : List Stop :=
  match e.vertices, e.vertices.getLast? with
  | v :: vs, some w => [⟨0, 0.0, v⟩, ⟨vs.length, 0.0, w⟩]
  | _, _ => []

end Edge

end PlanarJoin
