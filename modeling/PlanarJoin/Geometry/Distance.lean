import PlanarJoin.Geometry.Meeting

/-!
# Distances

Euclidean distance between geometries, in float arithmetic.  Geometries that share a point are at
distance zero; otherwise the distance is the least one between a vertex of one and a segment of the
other.

## Main definitions

* `Coord.distanceToEdges`: the least distance from a point to the sides of a polyline.
* `ringDistance`: between two polylines that do not meet.
* `Primitive.distance`: between two primitives.
* `Geometry.distance`: the least over the parts; the greatest float where there are none.
-/

namespace PlanarJoin

open Binary64

/-- The least of some distances; the greatest float if there are none. -/
def leastOf (ds : List Float) : Float :=
  ds.foldl lower greatest

/-- The least distance from a point to the sides of a polyline. -/
def Coord.distanceToEdges (p : Coord) (vs : List Coord) : Float :=
  leastOf ((segmentsOf vs).map (·.distanceTo p))

/-- Whether a point lies on a segment, up to one unit in the last place of the fraction of the way
along the two axes. -/
def Segment.nearlyHas (t : Segment) (p : Coord) : Bool :=
  let d := t.stop.sub t.start
  let u := (p.x - t.start.x) / d.x
  let v := (p.y - t.start.y) / d.y
  if d.x == 0.0 && d.y == 0.0 then p == t.start
  else if d.y == 0.0 then p.y == t.start.y && 0.0 ≤ u && u ≤ 1.0
  else if d.x == 0.0 then p.x == t.start.x && 0.0 ≤ v && v ≤ 1.0
  else (u - v).abs ≤ epsilon && 0.0 ≤ u && u ≤ 1.0

/-- Up to this distance from its vertex a point lies on a path of one vertex: what rounds to the
single-precision distance from one to the next larger number, or to less. -/
def vertexTolerance : Float :=
  ofScaled 1 (-23) + ofScaled 1 (-47)

/-- Whether a point counts as lying on a path. -/
def Coord.nearlyOnPath (p : Coord) : List Coord → Bool
  | [] => false
  | [v] => p.distance v ≤ vertexTolerance
  | vs => vs.contains p || (segmentsOf vs).any (·.nearlyHas p)

/-- The distance from a point to a path, zero if the path is empty. -/
def Coord.distanceToPath (p : Coord) (vs : List Coord) : Float :=
  if vs.isEmpty || p.nearlyOnPath vs then 0.0 else p.distanceToEdges vs

/-- The distance from a point to a polygon, zero inside and if the polygon is empty. -/
def Coord.distanceToPolygon (p : Coord) (g : Polygon) : Float :=
  if g.outer.isEmpty || g.hasPoint p then 0.0
  else lower (leastOf (g.holes.map p.distanceToPath)) (p.distanceToEdges g.outer)

namespace Segment

/-- The distance between two segments. -/
def distance (s t : Segment) : Float :=
  if s.meets t then 0.0
  else
    let fromStart := lower (t.distanceTo s.start) (t.distanceTo s.stop)
    lower (lower fromStart (s.distanceTo t.start)) (s.distanceTo t.stop)

/-- The distance between a segment and a path. -/
def distanceToPath (s : Segment) (vs : List Coord) : Float :=
  leastOf ((segmentsOf vs).map s.distance)

/-- The distance between a segment and a polygon. -/
def distanceToPolygon (s : Segment) (g : Polygon) : Float :=
  if g.meetsSegment s then 0.0 else leastOf (g.rings.map s.distanceToPath)

end Segment

/-- The distance between two polylines that share no point: from a vertex of one to the other. -/
def ringDistance (us vs : List Coord) : Float :=
  lower (leastOf (vs.map (·.distanceToEdges us))) (leastOf (us.map (·.distanceToEdges vs)))

def pathDistance (us vs : List Coord) : Float :=
  if pathsMeet us vs then 0.0 else ringDistance us vs

/-- Whether the outer ring of `g` goes around the first of some vertices. -/
def Polygon.surrounds (g : Polygon) (vs : List Coord) : Bool :=
  vs.head?.any (ringPosition g.outer · = .interior)

/-- The distance from a polyline that shares no point with a polygon: to the nearest hole if the
polygon goes around it, else to the outer ring. -/
def Polygon.ringDistance? (g : Polygon) (vs : List Coord) : Option Float :=
  if !g.holes.isEmpty && g.surrounds vs then some (leastOf (g.holes.map (ringDistance vs)))
  else none

/-- The distance between a path and a polygon. -/
def pathPolygonDistance (vs : List Coord) (g : Polygon) : Float :=
  if (Primitive.polygon g).meetsPath vs then 0.0
  else (g.ringDistance? vs).getD (ringDistance vs g.outer)

def polygonDistance (g h : Polygon) : Float :=
  if g.meets h then 0.0
  else
    match g.ringDistance? h.outer, h.ringDistance? g.outer with
    | some d, _ => d
    | none, some d => d
    | none, none => ringDistance g.outer h.outer

namespace Primitive

/-- A primitive with boxes and triangles turned into polygons. -/
def unboxed (p : Primitive) : Primitive :=
  match p.asPolygon? with
  | some g => polygon g
  | none => p

def distance (p q : Primitive) : Float :=
  match p.unboxed, q.unboxed with
  | point a, point b => a.distance b
  | point a, line c d | line c d, point a => (Segment.mk c d).distanceTo a
  | point a, path vs | path vs, point a => a.distanceToPath vs
  | point a, polygon g | polygon g, point a => a.distanceToPolygon g
  | line a b, line c d => (Segment.mk a b).distance ⟨c, d⟩
  | line a b, path vs | path vs, line a b => (Segment.mk a b).distanceToPath vs
  | line a b, polygon g | polygon g, line a b => (Segment.mk a b).distanceToPolygon g
  | path us, path vs => pathDistance us vs
  | path vs, polygon g | polygon g, path vs => pathPolygonDistance vs g
  | polygon g, polygon h => polygonDistance g h
  | _, _ => greatest

end Primitive

/-- The distance between two geometries: of primitives directly, else the least over the parts. -/
def Geometry.distance (g h : Geometry) : Float :=
  match g.single?, h.single? with
  | some p, some q => p.distance q
  | _, _ => leastOf (g.parts.flatMap fun p => h.parts.map p.distance)

end PlanarJoin
