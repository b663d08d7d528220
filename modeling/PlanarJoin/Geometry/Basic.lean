import PlanarJoin.Envelope.Basic

/-!
# Geometries

Points, lines, rings and their collections, with float coordinates.

## Main definitions

* `Coord`: a coordinate pair.
* `Primitive`: a geometry in one piece; the vertices of a triangle go around it counter-clockwise.
* `Geometry`: a primitive, several primitives of a kind, or a collection of geometries.
* `Geometry.parts`: the primitives that a geometry is made of.
* `Geometry.coords`: its vertices, the closing vertex of a ring included.
* `Geometry.envelope`: the box around it.
-/

namespace PlanarJoin

/-- A coordinate pair. -/
structure Coord where
  x : Float
  y : Float
deriving BEq, Repr

instance : Inhabited Coord := ⟨⟨0.0, 0.0⟩⟩

namespace Coord

def isFinite (c : Coord) : Bool :=
  c.x.isFinite && c.y.isFinite

def add (a b : Coord) : Coord := ⟨a.x + b.x, a.y + b.y⟩

def sub (a b : Coord) : Coord := ⟨a.x - b.x, a.y - b.y⟩

/-- A vector times a number. -/
def scale (a : Coord) (t : Float) : Coord := ⟨a.x * t, a.y * t⟩

/-- A vector divided by a number. -/
def div (a : Coord) (t : Float) : Coord := ⟨a.x / t, a.y / t⟩

/-- The determinant of two vectors. -/
def cross (a b : Coord) : Float := a.x * b.y - a.y * b.x

/-- The point half-way between two points. -/
def middle (a b : Coord) : Coord := (a.add b).div 2.0

end Coord

/-- A polygon: the ring around it and the rings of its holes, each closed. -/
structure Polygon where
  outer : List Coord
  holes : List (List Coord)
deriving BEq, Repr

/-- A ring with its first vertex repeated at the end, unless it ends there already. -/
def closeRing : List Coord → List Coord
  | [] => []
  | v :: vs => if (v :: vs).getLast? == some v then v :: vs else v :: vs ++ [v]

/-- The polygon with the given rings, the outer one first; without rings it is empty. -/
def Polygon.ofRings : List (List Coord) → Polygon
  | [] => ⟨[], []⟩
  | outer :: holes => ⟨closeRing outer, holes.map closeRing⟩

/-- A polygon's rings, the outer one first. -/
def Polygon.rings (p : Polygon) : List (List Coord) :=
  p.outer :: p.holes

/-- A geometry in one piece. -/
inductive Primitive where
  | point (c : Coord)
  | line (start stop : Coord)
  /-- An axis-aligned box, by its lower left and its upper right corner. -/
  | rect (low high : Coord)
  | triangle (a b c : Coord)
  | path (vertices : List Coord)
  | polygon (shape : Polygon)
deriving BEq, Repr

/-- A geometry. -/
inductive Geometry where
  | single (p : Primitive)
  | multiPoint (points : List Coord)
  | multiPath (paths : List (List Coord))
  | multiPolygon (polygons : List Polygon)
  | collection (members : List Geometry)

instance : Inhabited Geometry := ⟨.collection []⟩

/-- Two bounds in ascending order; if they do not compare, they change places. -/
def ascending (a b : Float) : Float × Float :=
  if a < b then (a, b) else (b, a)

namespace Primitive

/-- The box between two opposite corners. -/
def ofCorners (a b : Coord) : Primitive :=
  let (x₁, x₂) := ascending a.x b.x
  let (y₁, y₂) := ascending a.y b.y
  rect ⟨x₁, y₁⟩ ⟨x₂, y₂⟩

/-- The triangle with three vertices, put in counter-clockwise order. -/
def ofVertices (a b c : Coord) : Primitive :=
  if (b.sub a).cross (c.sub a) < 0.0 then triangle c b a else triangle a b c

def coords : Primitive → List Coord
  | point c => [c]
  | line a b => [a, b]
  | rect l h => [l, ⟨l.x, h.y⟩, h, ⟨h.x, l.y⟩]
  | triangle a b c => [a, b, c]
  | path vs => vs
  | polygon p => p.rings.flatten

/-- A box or a triangle as a polygon. -/
def asPolygon? : Primitive → Option Polygon
  | rect l h => some ⟨[⟨h.x, l.y⟩, h, ⟨l.x, h.y⟩, l, ⟨h.x, l.y⟩], []⟩
  | triangle a b c => some ⟨[a, b, c, a], []⟩
  | polygon p => some p
  | _ => none

end Primitive

/-! ## The box around a geometry -/

/-- The least and the greatest of some numbers, met one at a time: a NaN counts only if it comes
first, and then it stays. -/
def runningBounds? : List Float → Option (Float × Float)
  | [] => none
  | v :: vs =>
    some (vs.foldl
      (fun b x => if b.2 < x then (b.1, x) else if x < b.1 then (x, b.2) else b) (v, v))

/-- The envelope between two corners, each axis brought into ascending order. -/
def Envelope.ofCorners (a b : Coord) : Envelope :=
  let (x₁, x₂) := ascending a.x b.x
  let (y₁, y₂) := ascending a.y b.y
  ⟨x₁, x₂, y₁, y₂⟩

/-- The envelope with each axis brought into ascending order; none if it is empty. -/
def Envelope.box? (e : Envelope) : Option Envelope :=
  if e.isEmpty then none else some (ofCorners ⟨e.minX, e.minY⟩ ⟨e.maxX, e.maxY⟩)

/-- The box around some vertices. -/
def boundsOf? (vs : List Coord) : Option Envelope :=
  match runningBounds? (vs.map Coord.x), runningBounds? (vs.map Coord.y) with
  | some (x₁, x₂), some (y₁, y₂) => some (.ofCorners ⟨x₁, y₁⟩ ⟨x₂, y₂⟩)
  | _, _ => none

/-- The box around two boxes; a bound of the second is taken where the two do not compare. -/
def mergeBounds (a b : Envelope) : Envelope :=
  let least (s t : Float) := if s < t then s else t
  let most (s t : Float) := if t < s then s else t
  .ofCorners ⟨least a.minX b.minX, least a.minY b.minY⟩ ⟨most a.maxX b.maxX, most a.maxY b.maxY⟩

/-- The box around two optional boxes. -/
def mergeBounds? : Option Envelope → Option Envelope → Option Envelope
  | some a, some b => some (mergeBounds a b)
  | some a, none => some a
  | none, b => b

/-- The box around a primitive, none if it is empty. -/
def Primitive.bounds? : Primitive → Option Envelope
  | .line a b => some (.ofCorners a b)
  | .rect l h => some ⟨l.x, h.x, l.y, h.y⟩
  | .polygon p => boundsOf? p.outer
  | p => boundsOf? p.coords

namespace Geometry

mutual

/-- The primitives that a geometry is made of, in order. -/
def parts : Geometry → List Primitive
  | single p => [p]
  | multiPoint ps => ps.map .point
  | multiPath ps => ps.map .path
  | multiPolygon ps => ps.map .polygon
  | collection gs => partsAll gs

/-- The primitives that some geometries are made of, in order. -/
def partsAll : List Geometry → List Primitive
  | [] => []
  | g :: gs => parts g ++ partsAll gs

end

mutual

/-- The box around a geometry, none if it is empty. -/
def bounds? : Geometry → Option Envelope
  | single p => p.bounds?
  | multiPoint ps => boundsOf? ps
  | multiPath ps => boundsOf? ps.flatten
  | multiPolygon ps => boundsOf? (ps.flatMap Polygon.outer)
  | collection gs => boundsAll? none gs

/-- The box around an optional box and some geometries. -/
def boundsAll? : Option Envelope → List Geometry → Option Envelope
  | acc, [] => acc
  | acc, g :: gs => boundsAll? (mergeBounds? acc (bounds? g)) gs

end

/-- The envelope of a geometry, empty if the geometry is. -/
def envelope (g : Geometry) : Envelope :=
  g.bounds?.getD .empty

/-- The vertices of a geometry, the closing vertex of a ring included. -/
def coords (g : Geometry) : List Coord :=
  g.parts.flatMap Primitive.coords

def isFinite (g : Geometry) : Bool :=
  g.coords.all Coord.isFinite

/-- Whether the geometry is one primitive, rather than several of a kind or a collection. -/
def single? : Geometry → Option Primitive
  | single p => some p
  | _ => none

end Geometry

end PlanarJoin
