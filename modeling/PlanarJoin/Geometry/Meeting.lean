import PlanarJoin.Geometry.Position

/-!
# Sharing a point

Whether two geometries share a point, boundaries included.  Boxes that lie apart answer most of the
questions; otherwise the sides are compared, and where no sides meet, one vertex tells whether one
geometry lies inside the other.

## Main definitions

* `Envelope.isApart`: two boxes share no point.
* `Primitive.hasPoint`, `Primitive.meetsSegment`: a primitive against a point and a segment.
* `Primitive.meets`: two primitives share a point.
* `Geometry.meets`: two geometries share a point.
-/

namespace PlanarJoin

/-! ## Boxes -/

/-- Whether two boxes lie apart on some axis. -/
def Envelope.isApart (a b : Envelope) : Bool :=
  a.maxX < b.minX || a.maxY < b.minY || b.maxX < a.minX || b.maxY < a.minY

/-- Whether two boxes lie apart; nothing lies apart from what has no box. -/
def boundsApart : Option Envelope → Option Envelope → Bool
  | some a, some b => a.isApart b
  | _, _ => false

/-! ## Points and segments against areas -/

/-- Whether a box has a point. -/
def rectHas (low high p : Coord) : Bool :=
  low.x ≤ p.x && p.x ≤ high.x && low.y ≤ p.y && p.y ≤ high.y

def rectSides (low high : Coord) : List Segment :=
  let corner : Coord := ⟨high.x, low.y⟩
  let opposite : Coord := ⟨low.x, high.y⟩
  [⟨low, corner⟩, ⟨corner, high⟩, ⟨opposite, high⟩, ⟨low, opposite⟩]

/-- Whether a triangle has a point: it lies on different sides of no two of its sides.  A flat
triangle has all points on its line. -/
def triangleHas (a b c p : Coord) : Bool :=
  let turns := [a.turn b p, b.turn c p, c.turn a p]
  !(turns.contains .left && turns.contains .right)

/-- The sides of a path meet a segment. -/
def pathMeets (vs : List Coord) (s : Segment) : Bool :=
  !boundsApart (boundsOf? vs) (some s.bounds) && (segmentsOf vs).any (·.meets s)

namespace Polygon

/-- The sides of all rings. -/
def sides (g : Polygon) : List Segment :=
  g.rings.flatMap segmentsOf

def hasPoint (g : Polygon) (p : Coord) : Bool :=
  g.position p ≠ .exterior

/-- Whether a polygon meets a segment: a side does, or it has an end of it. -/
def meetsSegment (g : Polygon) (s : Segment) : Bool :=
  g.rings.any (pathMeets · s) || g.hasPoint s.start || g.hasPoint s.stop

end Polygon

namespace Primitive

def hasPoint (p : Primitive) (c : Coord) : Bool :=
  match p with
  | point d => d == c
  | line a b => (Segment.mk a b).has c
  | rect low high => rectHas low high c
  | triangle u v w => triangleHas u v w c
  | path vs =>
    !boundsApart (boundsOf? vs) (some (.ofPoint c.x c.y)) && (segmentsOf vs).any (·.has c)
  | polygon g => g.hasPoint c

/-- Whether a primitive meets a segment. -/
def meetsSegment (p : Primitive) (s : Segment) : Bool :=
  match p with
  | point c => s.has c
  | line a b => (Segment.mk a b).meets s
  | rect low high =>
    rectHas low high s.start || rectHas low high s.stop || (rectSides low high).any (·.meets s)
  | triangle a b c => Polygon.meetsSegment ⟨[a, b, c, a], []⟩ s
  | path vs => pathMeets vs s
  | polygon g => g.meetsSegment s

end Primitive

/-! ## Paths and areas -/

/-- Whether two paths share a point. -/
def pathsMeet (us vs : List Coord) : Bool :=
  !boundsApart (boundsOf? us) (boundsOf? vs) && (segmentsOf us).any (pathMeets vs)

/-- Whether an area and a path share a point: the area has the first vertex, or their sides meet. -/
def Primitive.meetsPath (p : Primitive) (vs : List Coord) : Bool :=
  match p.asPolygon? with
  | none => false
  | some g =>
    !boundsApart (boundsOf? vs) p.bounds? &&
      (vs.head?.any p.hasPoint || (segmentsOf vs).any fun s => g.sides.any (·.meets s))

/-- Whether two polygons share a point: one has the first vertex of the other, or a side of an outer
ring meets a side of the other polygon.  Where neither is so, holes cannot meet either. -/
def Polygon.meets (g h : Polygon) : Bool :=
  !boundsApart (boundsOf? g.outer) (boundsOf? h.outer) &&
    (g.outer.head?.any h.hasPoint || h.outer.head?.any g.hasPoint ||
      (segmentsOf g.outer).any (fun s => (segmentsOf h.outer).any s.meets) ||
      g.holes.any (pathsMeet h.outer) || h.holes.any (pathsMeet g.outer))

/-- The rank of an area: polygons before triangles before boxes. -/
def Primitive.areaRank : Primitive → Nat
  | .polygon _ => 0
  | .triangle .. => 1
  | _ => 2

/-- Whether two areas share a point, the one of lower rank being asked. -/
def Primitive.areasMeet (p q : Primitive) : Bool :=
  let (p, q) := if q.areaRank < p.areaRank then (q, p) else (p, q)
  match p.asPolygon?, q.asPolygon? with
  | some g, some h => g.meets h
  | _, _ => false

/-- Whether two primitives share a point. -/
def Primitive.meets (p q : Primitive) : Bool :=
  match p, q with
  | .point c, q => q.hasPoint c
  | p, .point c => p.hasPoint c
  | .line a b, .line c d => (Segment.mk a b).meets ⟨c, d⟩
  | .line a b, q => q.meetsSegment ⟨a, b⟩
  | p, .line a b => p.meetsSegment ⟨a, b⟩
  | .path us, .path vs => pathsMeet us vs
  | .path vs, q => q.meetsPath vs
  | p, .path vs => p.meetsPath vs
  | .rect .., .rect .. => !boundsApart p.bounds? q.bounds?
  | p, q => p.areasMeet q

/-! ## Geometries -/

namespace Geometry

mutual

/-- Whether a geometry and a primitive share a point: a member does, and their boxes are not apart.
-/
def meetsPrimitive (g : Geometry) (p : Primitive) : Bool :=
  match g with
  | single q => q.meets p
  | multiPoint cs => cs.any p.hasPoint
  | multiPath ps =>
    !boundsApart (boundsOf? ps.flatten) p.bounds? && ps.any fun vs => (Primitive.path vs).meets p
  | multiPolygon ps =>
    !boundsApart (boundsOf? (ps.flatMap Polygon.outer)) p.bounds? &&
      ps.any fun g => (Primitive.polygon g).meets p
  | collection gs => !boundsApart (boundsAll? none gs) p.bounds? && anyMeetsPrimitive gs p

/-- Whether some geometry and a primitive share a point. -/
def anyMeetsPrimitive (gs : List Geometry) (p : Primitive) : Bool :=
  match gs with
  | [] => false
  | g :: gs => meetsPrimitive g p || anyMeetsPrimitive gs p

end

mutual

/-- Whether two geometries with finite coordinates share a point. -/
def meets (g h : Geometry) : Bool :=
  match g with
  | single p => h.meetsPrimitive p
  | multiPoint cs => cs.any fun c => h.meetsPrimitive (.point c)
  | multiPath ps =>
    !boundsApart (boundsOf? ps.flatten) h.bounds? && ps.any fun vs => h.meetsPrimitive (.path vs)
  | multiPolygon ps =>
    !boundsApart (boundsOf? (ps.flatMap Polygon.outer)) h.bounds? &&
      ps.any fun g => h.meetsPrimitive (.polygon g)
  | collection gs => !boundsApart (boundsAll? none gs) h.bounds? && anyMeets gs h

/-- Whether some geometry and another share a point. -/
def anyMeets (gs : List Geometry) (h : Geometry) : Bool :=
  match gs with
  | [] => false
  | g :: gs => meets g h || anyMeets gs h

end

end Geometry

end PlanarJoin
