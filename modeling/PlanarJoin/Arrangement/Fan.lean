import PlanarJoin.Arrangement.Outline

/-!
# The edges around a node

The pieces of edge that leave a node, in the order of their directions.  Pieces of the same
direction make a spoke; between two spokes lies a wedge of the plane.  What is known of one side of
a spoke holds in the whole wedge, so going around the node fills in what edges of the other
geometry cannot tell.

## Main definitions

* `Operand`: one of the two geometries that are compared.
* `Piece`, `Course.pieces`: the pieces of edge that leave the stops of a course.
* `Piece.order`: the order of directions.
* `Spoke`, `Fan`: pieces of one direction, and all directions around a node.
* `Sector`: where a spoke and its sides lie with respect to one geometry, as far as is known.
* `Fan.sectors`: the same filled in around the node.
-/

namespace PlanarJoin

/-- One of the two geometries that are compared. -/
inductive Operand where
  | first
  | second
deriving DecidableEq, Repr

/-! ## Pieces -/

/-- A piece of edge that leaves a node. -/
structure Piece where
  origin : Coord
  tip : Coord
  owner : Operand
  label : Label

/-- The pieces that leave a stop of an edge, back towards the stop before it and on towards the stop
after it, or only to the next vertex if that comes first. -/
def Edge.piecesAt (e : Edge) (owner : Operand) (before : Option Stop) (s : Stop)
    (after : Option Stop) : List Piece :=
  let last := if s.offset == 0.0 then s.segment - 1 else s.segment
  let back :=
    if s.offset == 0.0 && s.segment == 0 then none
    else
      match before with
      | some t => if last ≤ t.segment then some t.place else e.vertices[last]?
      | none => e.vertices[last]?
  let on :=
    match e.vertices[s.segment + 1]?, after with
    | some v, some t => some (if t.segment = s.segment then t.place else v)
    | v?, _ => v?
  (back.map fun c => ⟨s.place, c, owner, e.label.reverse⟩).toList ++
    (on.map fun c => ⟨s.place, c, owner, e.label⟩).toList

/-- The pieces that leave successive stops of an edge. -/
def Edge.piecesFrom (e : Edge) (owner : Operand) (before : Option Stop) : List Stop → List Piece
  | [] => []
  | s :: ss => e.piecesAt owner before s ss.head? ++ e.piecesFrom owner (some s) ss

/-- The pieces into which the stops cut an edge, each taken from both of its ends. -/
def Course.pieces (c : Course) (owner : Operand) : List Piece :=
  c.edge.piecesFrom owner none c.allStops

/-! ## Directions -/

/-- The quadrant of a direction, counted from the upper right one counter-clockwise. -/
def Coord.quadrant? (d : Coord) : Option Nat :=
  if d.x == 0.0 && d.y == 0.0 then none
  else if 0.0 ≤ d.y then some (if 0.0 ≤ d.x then 0 else 1)
  else some (if 0.0 ≤ d.x then 3 else 2)

namespace Piece

/-- The vector from origin to tip. -/
def direction (p : Piece) : Coord :=
  p.tip.sub p.origin

/-- The order of directions counter-clockwise; within a quadrant the turn decides. -/
def order (p q : Piece) : Ordering :=
  let byTurn : Ordering :=
    match q.origin.turn q.tip p.tip with
    | .right => .lt
    | .left => .gt
    | .straight => .eq
  if p.direction == q.direction then .eq
  else
    match p.direction.quadrant?, q.direction.quadrant? with
    | some i, some j => if i < j then .lt else if j < i then .gt else byTurn
    | _, _ => byTurn

end Piece

/-- The pieces of one direction; the first one stands for the direction. -/
structure Spoke where
  lead : Piece
  others : List Piece

/-- The spokes around a node, counter-clockwise. -/
abbrev Fan := List Spoke

def Fan.add (p : Piece) : Fan → Fan
  | [] => [⟨p, []⟩]
  | s :: ss =>
    match p.order s.lead with
    | .lt => ⟨p, []⟩ :: s :: ss
    | .eq => { s with others := s.others ++ [p] } :: ss
    | .gt => s :: Fan.add p ss

/-- The fan of the pieces that leave a node. -/
def Fan.ofPieces (ps : List Piece) : Fan :=
  ps.foldl (fun f p => f.add p) []

/-! ## What a spoke tells of each geometry -/

/-- Where a spoke and its sides lie with respect to one geometry, as far as is known.  Sides count
only if the spoke bounds an area of either geometry. -/
structure Sector where
  hasSides : Bool
  on : Option Position
  left : Option Position
  right : Option Position

namespace Spoke

def pieces (s : Spoke) : List Piece :=
  s.lead :: s.others

/-- The labels that edges of a geometry give a spoke. -/
def labels (s : Spoke) (o : Operand) : List Label :=
  (s.pieces.filter (·.owner = o)).map (·.label)

/-- The position of a spoke itself: on the boundary of an odd number of areas. -/
def on? (s : Spoke) (o : Operand) : Option Position :=
  match (s.labels o).countP (·.on = .boundary) with
  | 0 => if (s.labels o).any (·.on = .interior) then some .interior else none
  | n => some (if n % 2 = 1 then .boundary else .interior)

/-- The position of a side of a spoke: inside if some area lies there. -/
def side? (s : Spoke) (o : Operand) (side : Position × Position → Position) : Option Position :=
  let known := (s.labels o).filterMap fun l => l.sides?.map side
  if known.contains .interior then some .interior
  else if known.contains .exterior then some .exterior
  else none

/-- What the pieces of a spoke tell of a geometry. -/
def sector (s : Spoke) (o : Operand) : Sector :=
  { hasSides := s.pieces.any (·.label.sides?.isSome)
    on := s.on? o
    left := s.side? o Prod.fst
    right := s.side? o Prod.snd }

end Spoke

namespace Sector

/-- Whether nothing is left open. -/
def isKnown (s : Sector) : Bool :=
  s.on.isSome && (!s.hasSides || s.left.isSome && s.right.isSome)

/-- Fills in what is open. -/
def fill (p : Position) (s : Sector) : Sector :=
  { s with
    on := some (s.on.getD p)
    left := if s.hasSides then some (s.left.getD p) else none
    right := if s.hasSides then some (s.right.getD p) else none }

/-- Goes around a node with the position of the wedge that is being crossed. -/
def spread (wedge : Position) : List Sector → List Sector
  | [] => []
  | s :: ss =>
    let next := if s.right.isSome then s.left.getD wedge else wedge
    s.fill wedge :: spread next ss

/-- Fills in what the sides of other spokes tell: the wedge before the first spoke is the one after
the last that has sides. -/
def spreadAll (ss : List Sector) : List Sector :=
  match (ss.filterMap (·.left)).getLast? with
  | some wedge => spread wedge ss
  | none => ss

end Sector

/-- Where the spokes around a node lie with respect to a geometry; `elsewhere` is the position of
what no edge of the geometry tells. -/
def Fan.sectors (f : Fan) (o : Operand) (elsewhere : Unit → Position) : List Sector :=
  let ss := Sector.spreadAll (f.map (·.sector o))
  if ss.all Sector.isKnown then ss
  else
    let p := elsewhere ()
    ss.map (·.fill p)

end PlanarJoin
