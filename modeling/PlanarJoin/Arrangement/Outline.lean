import PlanarJoin.Arrangement.Edge

/-!
# Outlines

The edges and nodes of one geometry.  A node is a point whose position is known: an isolated point,
an end of a path, the vertex at which a ring begins, and any point where edges of the geometry meet.

## Main definitions

* `Nodes`: points with their positions.
* `Outline`: the edges and nodes of a geometry.
* `Outline.ofGeometry`: paths are interior and end on the boundary; rings are boundary.
* `Course`: an edge with the stops along it.
* `Outline.courses`, `Outline.withMeetings`: the stops on every edge, and their nodes.
-/

namespace PlanarJoin

/-! ## Nodes -/

/-- Points with their positions. -/
abbrev Nodes := List (Coord × Position)

namespace Nodes

def get? (ns : Nodes) (c : Coord) : Option Position :=
  (ns.find? (·.1 == c)).map (·.2)

/-- Gives a node a position. -/
def put (c : Coord) (p : Position) : Nodes → Nodes
  | [] => [(c, p)]
  | (d, q) :: ns => if d == c then (d, p) :: ns else (d, q) :: put c p ns

/-- Ends a path at a node: a second end there takes it off the boundary. -/
def putEnd (ns : Nodes) (c : Coord) : Nodes :=
  ns.put c (if ns.get? c = some .boundary then .interior else .boundary)

end Nodes

/-! ## The outline of a geometry -/

/-- The edges and nodes of a geometry. -/
structure Outline where
  edges : List Edge
  nodes : Nodes

/-- Vertices without immediate repetitions. -/
def withoutRepeats : List Coord → List Coord
  | v :: w :: rest => if v == w then withoutRepeats (v :: rest) else v :: withoutRepeats (w :: rest)
  | vs => vs

/-- Whether `a` is left of `b`, or straight below it. -/
def Coord.isBefore (a b : Coord) : Bool :=
  a.x < b.x || (a.x == b.x && a.y < b.y)

/-- The place of the leftmost vertex, the lowest and then the first of several. -/
def leastIndex : List Coord → Nat
  | [] => 0
  | v :: vs =>
    (vs.zipIdx.foldl (fun (least : Coord × Nat) (w, i) =>
      if w.isBefore least.1 then (w, i + 1) else least) (v, 0)).2

/-- How a closed ring turns at its leftmost vertex, which is the way it goes around; straight if it
has fewer than three sides. -/
def ringTurn (ring : List Coord) : Turn :=
  if ring.length < 4 || ring.head? != ring.getLast? then .straight
  else
    let i := leastIndex ring
    match ring.drop i ++ ring.take i with
    | [] => .straight
    | v :: others =>
      match others.find? (· != v), others.reverse.find? (· != v) with
      | some next, some last => last.turn v next
      | _, _ => .straight

namespace Outline

def empty : Outline := ⟨[], []⟩

def addPoint (o : Outline) (c : Coord) : Outline :=
  { o with nodes := o.nodes.put c .interior }

/-- Adds a path; one that does not leave its first vertex is a point. -/
def addPath (o : Outline) (vs : List Coord) : Outline :=
  match withoutRepeats vs with
  | [] => o
  | [v] => o.addPoint v
  | v :: ws =>
    let w := ws.getLastD v
    ⟨o.edges ++ [⟨v :: ws, ⟨.interior, none⟩⟩], (o.nodes.putEnd v).putEnd w⟩

/-- Adds a segment, also one that is a point. -/
def addSegment (o : Outline) (a b : Coord) : Outline :=
  ⟨o.edges ++ [⟨[a, b], ⟨.interior, none⟩⟩], (o.nodes.putEnd a).putEnd b⟩

/-- Adds a ring, with the position of what lies inside it and of what lies outside. -/
def addRing (inside outside : Position) (o : Outline) (ring : List Coord) : Outline :=
  match withoutRepeats ring with
  | [] => o
  | v :: vs =>
    let sides := if ringTurn ring = .left then (inside, outside) else (outside, inside)
    ⟨o.edges ++ [⟨v :: vs, ⟨.boundary, some sides⟩⟩], o.nodes.put v .boundary⟩

/-- Adds the rings of a polygon. -/
def addPolygon (o : Outline) (g : Polygon) : Outline :=
  g.holes.foldl (addRing .exterior .interior) (o.addRing .interior .exterior g.outer)

/-- Adds a primitive; a polygon without an outer ring adds nothing. -/
def addPrimitive (o : Outline) (p : Primitive) : Outline :=
  match p with
  | .point c => o.addPoint c
  | .line a b => o.addSegment a b
  | .path vs => o.addPath vs
  | p =>
    match p.asPolygon? with
    | some g => if g.outer.isEmpty then o else o.addPolygon g
    | none => o

mutual

def addGeometry (o : Outline) : Geometry → Outline
  | .single p => o.addPrimitive p
  | .multiPoint cs => cs.foldl addPoint o
  | .multiPath ps => ps.foldl addPath o
  | .multiPolygon ps => ps.foldl addPolygon o
  | .collection gs => addGeometries o gs

def addGeometries (o : Outline) : List Geometry → Outline
  | [] => o
  | g :: gs => addGeometries (addGeometry o g) gs

end

def ofGeometry (g : Geometry) : Outline :=
  empty.addGeometry g

end Outline

/-! ## Meetings within a geometry -/

/-- Whether the edges of a geometry need not be compared with themselves, because all of them are
closed. -/
def Geometry.isRinged : Geometry → Bool
  | .single (.path vs) => vs.head? == vs.getLast?
  | .single (.polygon _) | .multiPolygon _ => true
  | .multiPath ps => ps.all fun vs => vs.head? == vs.getLast?
  | _ => false

/-- An edge with the stops along it. -/
structure Course where
  edge : Edge
  stops : List Stop

namespace Course

def addStops (c : Course) (stops : List Stop) : Course :=
  { c with stops := stops.foldl (fun ss s => s.insert ss) c.stops }

/-- The stops of an edge with its two ends. -/
def allStops (c : Course) : List Stop :=
  (c.addStops c.edge.endStops).stops

end Course

namespace Outline

/-- Every edge with the stops where it meets the edges of the same geometry. -/
def courses (o : Outline) (isRinged : Bool) : List Course :=
  o.edges.zipIdx.map fun (e, i) =>
    (⟨e, []⟩ : Course).addStops <|
      o.edges.zipIdx.flatMap fun (f, j) =>
        if i ≠ j then e.stopsOn f else if isRinged then [] else e.stopsOnItself

/-- The nodes of an outline, with those at which its edges meet.  What is on the boundary stays
there. -/
def withMeetings (o : Outline) (cs : List Course) : Nodes :=
  cs.foldl (fun ns c =>
    c.stops.foldl (fun (ns : Nodes) s =>
      if ns.get? s.place = some .boundary then ns else ns.put s.place c.edge.label.on) ns) o.nodes

end Outline

end PlanarJoin
