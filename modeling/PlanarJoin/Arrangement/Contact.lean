import PlanarJoin.Arrangement.Fan
import PlanarJoin.Geometry.Dimension

/-!
# Contacts between geometries

Where interior, boundary and exterior of one geometry meet those of another.  The edges of both cut
the plane into nodes, pieces of edge and regions; each lies with one position in the first geometry
and with one in the second, and that pair of positions is a contact.

## Main definitions

* `Contact`: a position in the first and one in the second geometry that have a point in common.
* `Comparison`: two geometries with their courses, nodes and dimensions.
* `Comparison.contacts`: the contacts at nodes, at crossings, and along edges that meet no other.
* `Geometry.contains`: no contact lies outside the first geometry and in the second, and the
  interiors have one.
-/

namespace PlanarJoin

/-- A position in the first and one in the second geometry that have a point in common. -/
abbrev Contact := Position × Position

/-! ## The two geometries side by side -/

/-- One of two geometries that are compared. -/
structure Comparand where
  geometry : Geometry
  dimension? : Option Dimension
  courses : List Course
  nodes : Nodes

namespace Comparand

/-- A geometry with its outline; `cuts` are the stops that the other one makes on an edge. -/
def make (g : Geometry) (o : Outline) (cuts : Edge → List Stop) : Comparand :=
  let own := o.courses g.isRinged
  { geometry := g
    dimension? := g.dimension?
    courses := own.map fun c => c.addStops (cuts c.edge)
    nodes := o.withMeetings own }

def edges (c : Comparand) : List Edge :=
  c.courses.map (·.edge)

/-- All points that are nodes or stops. -/
def places (c : Comparand) : List Coord :=
  c.nodes.map (·.1) ++ c.courses.flatMap fun k => k.stops.map (·.place)

/-- The position that edges with a stop at some point give it: every passage of a boundary changes
between boundary and interior. -/
def passing (courses : List Course) (p : Coord) : Option Position :=
  courses.foldl (fun position k =>
    (k.stops.filter (·.place == p)).foldl (fun position _ =>
      if k.edge.label.on = .boundary then
        some (if position = some .boundary then .interior else .boundary)
      else some (position.getD .interior)) position) none

def positionAt (c : Comparand) (p : Coord) : Position :=
  match c.nodes.get? p with
  | some q => q
  | none => (passing c.courses p).getD (c.geometry.position p)

/-- The position of the parts of a wedge that no edge of the geometry reaches. -/
def wedgePosition (c : Comparand) (p : Coord) : Position :=
  if c.dimension? = some .areas then c.geometry.position p else .exterior

/-- The position of an edge of the other geometry that meets none of this one. -/
def positionOfLoose (c : Comparand) (e : Edge) : Position :=
  match c.dimension?, e.vertices with
  | some .lines, v :: _ | some .areas, v :: _ => c.geometry.position v
  | _, _ => .exterior

end Comparand

/-- Two geometries side by side. -/
structure Comparison where
  first : Comparand
  second : Comparand

namespace Comparison

/-- The encounters of two edges that cut them.  Where both pass through each other no stop is
needed: the positions around such a point are known. -/
def cutting (e f : Edge) : List Encounter :=
  (e.encounters f).filter (!·.isProper)

def make (g h : Geometry) : Comparison :=
  let o := Outline.ofGeometry g
  let p := Outline.ofGeometry h
  { first := .make g o fun e =>
      p.edges.flatMap fun f => (cutting e f).flatMap Encounter.firstStops
    second := .make h p fun f =>
      o.edges.flatMap fun e => (cutting e f).flatMap Encounter.secondStops }

variable (c : Comparison)

/-! ## Contacts -/

/-- Where edges of both pass through each other, the positions around the crossing are known: all
pairs between areas, and less between lines and areas.  A crossing at a point of the boundary says
nothing of the interior of a line. -/
def contactsAtCrossings : List Contact :=
  let proper := c.first.edges.flatMap fun e =>
    c.second.edges.flatMap fun f => (e.encounters f).filterMap (·.crossing.proper?)
  let isBoundary (p : Coord) : Bool :=
    c.first.nodes.get? p = some .boundary || c.second.nodes.get? p = some .boundary
  let inner := proper.any fun p => !isBoundary p
  match c.first.dimension?, c.second.dimension? with
  | some .areas, some .areas =>
    if proper.isEmpty then []
    else
      let all : List Position := [.interior, .boundary, .exterior]
      all.flatMap fun p => all.map fun q => (p, q)
  | some .areas, some .lines =>
    (if proper.isEmpty then [] else [(.boundary, .interior)]) ++
      (if inner then [(.interior, .interior), (.exterior, .interior)] else [])
  | some .lines, some .areas =>
    (if proper.isEmpty then [] else [(.interior, .boundary)]) ++
      (if inner then [(.interior, .interior), (.interior, .exterior)] else [])
  | some .lines, some .lines => if inner then [(.interior, .interior)] else []
  | _, _ => []

/-- The contacts around a node. -/
def contactsAround (pieces : List Piece) (p : Coord) : List Contact :=
  let fan := Fan.ofPieces (pieces.filter (·.origin == p))
  let firsts := fan.sectors .first fun _ => c.first.wedgePosition p
  let seconds := fan.sectors .second fun _ => c.second.wedgePosition p
  (firsts.zip seconds).flatMap fun (s, t) =>
    [(s.on, t.on), (s.left, t.left), (s.right, t.right)].filterMap fun
      | (some a, some b) => some (a, b)
      | _ => none

/-- The contacts at all nodes and around them. -/
def contactsAtNodes : List Contact :=
  let pieces := c.first.courses.flatMap (·.pieces .first) ++
    c.second.courses.flatMap (·.pieces .second)
  let places := (c.first.places ++ c.second.places).eraseDups
  places.flatMap fun p =>
    (c.first.positionAt p, c.second.positionAt p) :: c.contactsAround pieces p

/-- The contacts along an edge that meets no edge of the other geometry, and beside it, the position
in that other geometry second. -/
def contactsAlong (e : Edge) (other : Comparand) : List Contact :=
  let p := other.positionOfLoose e
  (e.label.on, p) ::
    match e.label.sides? with
    | some (left, right) => [(left, p), (right, p)]
    | none => []

/-- The contacts of all edges that meet no edge of the other geometry. -/
def contactsOfLoose : List Contact :=
  let firsts := c.first.edges
  let seconds := c.second.edges
  let looseFirsts := firsts.filter fun e => seconds.all fun f => (e.encounters f).isEmpty
  let looseSeconds := seconds.filter fun f => firsts.all fun e => (e.encounters f).isEmpty
  looseFirsts.flatMap (contactsAlong · c.second) ++
    (looseSeconds.flatMap (contactsAlong · c.first)).map Prod.swap

/-- All contacts that the edges and nodes of two geometries show. -/
def contacts : List Contact :=
  c.contactsAtCrossings ++ c.contactsAtNodes ++ c.contactsOfLoose

end Comparison

/-- Whether a geometry with finite coordinates contains another: their boxes are not apart, their
interiors share a point, and no point of the other lies outside. -/
def Geometry.contains (g h : Geometry) : Bool :=
  match g.bounds?, h.bounds? with
  | some a, some b =>
    !a.isApart b &&
      let contacts := (Comparison.make g h).contacts
      contacts.contains (.interior, .interior) && !contacts.contains (.exterior, .interior) &&
        !contacts.contains (.exterior, .boundary)
  | _, _ => false

end PlanarJoin
