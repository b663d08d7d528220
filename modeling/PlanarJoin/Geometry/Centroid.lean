import PlanarJoin.Geometry.Dimension
import PlanarJoin.Geometry.Segment

/-!
# Centroids

The center of mass of a geometry, in float arithmetic: of its areas if it has any, else of its
lines, else of its points.

## Main definitions

* `Mass`: moment and weight of what has been gathered so far, with its dimension.
* `Mass.add`: a higher dimension displaces a lower one, equal dimensions add up.
* `Geometry.centroid?`: the centroid, none if the geometry is empty.
-/

namespace PlanarJoin

/-- The weight of what has been gathered and its moment about the origin. -/
structure Mass where
  dimension : Dimension
  weight : Float
  moment : Coord

namespace Mass

/-- The mass of something with the given centroid. -/
def of (d : Dimension) (centroid : Coord) (weight : Float) : Mass :=
  ⟨d, weight, centroid.scale weight⟩

/-- Gathers one more mass. -/
def add (m : Option Mass) (n : Mass) : Option Mass :=
  match m with
  | none => some n
  | some m =>
    if m.dimension.rank < n.dimension.rank then some n
    else if n.dimension.rank < m.dimension.rank then some m
    else some ⟨m.dimension, m.weight + n.weight, m.moment.add n.moment⟩

/-- Takes a mass away. -/
def sub (m n : Mass) : Mass :=
  if m.dimension.rank < n.dimension.rank then n
  else if n.dimension.rank < m.dimension.rank then m
  else ⟨m.dimension, m.weight - n.weight, m.moment.sub n.moment⟩

/-- Gathers a point. -/
def addPoint (m : Option Mass) (c : Coord) : Option Mass :=
  add m (of .points c 1.0)

/-- Gathers a segment. -/
def addSegment (m : Option Mass) (a b : Coord) : Option Mass :=
  if a == b then addPoint m a
  else add m (of .lines (a.middle b) (a.distance b))

/-- Gathers a path, unless areas have been gathered. -/
def addPath (m : Option Mass) (vs : List Coord) : Option Mass :=
  if m.any (·.dimension = .areas) then m
  else
    match vs with
    | [v] => addPoint m v
    | vs => (vs.zip vs.tail).foldl (fun m (a, b) => addSegment m a b) m

/-- Twice the signed area of a closed ring. -/
def doubledArea (ring : List Coord) : Float :=
  match ring with
  | [] => 0.0
  | origin :: _ =>
    (ring.zip ring.tail).foldl (fun sum (a, b) => sum + (a.sub origin).cross (b.sub origin)) 0.0

/-- Gathers the area of a closed ring; a ring without area counts as a path or a point. -/
def addRing (m : Option Mass) (ring : List Coord) : Option Mass :=
  match ring with
  | [] => m
  | origin :: rest =>
    let area := doubledArea ring / 2.0
    if area == 0.0 then
      if rest.all (· == origin) then addPoint m origin else addPath m ring
    else
      let sum := (ring.zip ring.tail).foldl (fun (sum : Coord) (a, b) =>
        let a := a.sub origin
        let b := b.sub origin
        sum.add ((b.add a).scale (a.cross b))) ⟨0.0, 0.0⟩
      add m (of .areas ((sum.div (6.0 * area)).add origin) area.abs)

/-- Gathers a polygon: its ring less its holes.  If the holes leave nothing, the ring counts as a
path. -/
def addPolygon (m : Option Mass) (p : Polygon) : Option Mass :=
  match addRing none p.outer, p.holes.foldl addRing none with
  | none, _ => m
  | some outer, none => add m outer
  | some outer, some holes =>
    let rest := outer.sub holes
    if rest.weight == 0.0 then addPath m p.outer else add m rest

/-- Gathers a box; a box without area counts as its four sides or as a point. -/
def addRect (m : Option Mass) (l h : Coord) : Option Mass :=
  if l == h then addPoint m l
  else if l.x == h.x || l.y == h.y then
    [(l, l), (l, h), (h, h), (h, l)].foldl (fun m (a, b) => addSegment m a b) m
  else add m (of .areas (h.middle l) ((h.x - l.x) * (h.y - l.y)))

/-- Gathers a triangle; a flat one counts as its three sides or as a point. -/
def addTriangle (m : Option Mass) (a b c : Coord) : Option Mass :=
  if a == b && b == c then addPoint m a
  else if a.turn b c = .straight then
    [(a, b), (b, c), (c, a)].foldl (fun m (a, b) => addSegment m a b) m
  else
    let area := (a.cross b + b.cross c + c.cross a) / 2.0
    add m (of .areas (((a.add b).add c).div 3.0) area.abs)

/-- Gathers a primitive. -/
def addPrimitive (m : Option Mass) : Primitive → Option Mass
  | .point c => addPoint m c
  | .line a b => addSegment m a b
  | .rect l h => addRect m l h
  | .triangle a b c => addTriangle m a b c
  | .path vs => addPath m vs
  | .polygon p => addPolygon m p

/-- The centroid of what has been gathered. -/
def centroid (m : Mass) : Coord :=
  m.moment.div m.weight

end Mass

/-- The centroid of a geometry with finite coordinates, none if it is empty. -/
def Geometry.centroid? (g : Geometry) : Option Coord :=
  match g.single? with
  | some (.point c) => some c
  | some (.line a b) => some (a.middle b)
  | some (.rect l h) => some (h.middle l)
  | _ => (g.parts.foldl Mass.addPrimitive none).map Mass.centroid

end PlanarJoin
