import PlanarJoin.Failure
import PlanarJoin.Index.Layout

/-!
# Settings

How indexes are laid out and how a join is carried out.

## Main definitions

* `IndexKind`, `Side`: the choices that have names.
* `IndexSettings`: how an index is laid out; `IndexSettings.fault?` says why one cannot be.
* `JoinSettings`: how a join is carried out.
* `Settings`: both.
-/

namespace PlanarJoin

/-- What an index is made of. -/
inductive IndexKind where
  /-- Buckets over a fixed box. -/
  | grid
  /-- A packed tree of boxes. -/
  | rtree
  /-- A tree of quadrants of a fixed box. -/
  | quadtree
deriving DecidableEq, Repr

namespace IndexKind

def name : IndexKind → String
  | grid => "grid"
  | rtree => "rtree"
  | quadtree => "quadtree"

def all : List IndexKind := [grid, rtree, quadtree]

/-- The kind that a name, or another word for it, stands for.  The case of ASCII letters does not
matter. -/
def parse (word : String) : Except Failure IndexKind :=
  match word.toLower with
  | "grid" | "bucket" => .ok grid
  | "rtree" | "strtree" => .ok rtree
  | "quadtree" => .ok quadtree
  | other => .error (.unknownIndexKind other)

end IndexKind

/-- One of the two inputs of a join. -/
inductive Side where
  | left
  | right
deriving DecidableEq, Repr

namespace Side

def name : Side → String
  | left => "left"
  | right => "right"

def all : List Side := [left, right]

/-- The side that a name stands for.  The case of ASCII letters does not matter. -/
def parse (word : String) : Except Failure Side :=
  match word.toLower with
  | "left" => .ok left
  | "right" => .ok right
  | other => .error (.unknownSide other)

end Side

/-- How an index is laid out. -/
structure IndexSettings where
  kind : IndexKind
  /-- Columns of a grid over the extent. -/
  columns : Nat
  /-- Rows of a grid over the extent. -/
  rows : Nat
  /-- Whether a grid keeps items of different sizes in tiers of their own. -/
  sizeTiered : Bool
  /-- The most entries of a node of a packed tree. -/
  nodeCapacity : Nat
  /-- The box that a grid or a tree of quadrants is laid out over. -/
  extent : Envelope
deriving BEq, Repr

namespace IndexSettings

/-- A packed tree; where a box or buckets matter, the world in degrees. -/
def default : IndexSettings :=
  ⟨.rtree, 360, 180, false, 10, .world⟩

instance : Inhabited IndexSettings := ⟨default⟩

/-- Why no index can be laid out in this way; the first of several reasons. -/
def fault? (s : IndexSettings) : Option Failure :=
  if s.columns = 0 ∨ s.rows = 0 then some (.noBuckets s.columns s.rows)
  else if bucketLimit < s.columns * s.rows then
    some (.tooManyBuckets s.columns s.rows bucketLimit)
  else if s.nodeCapacity < 2 then some (.smallNodes s.nodeCapacity)
  else if !s.extent.isProper || s.extent.width ≤ 0.0 || s.extent.height ≤ 0.0 then
    some (.unusableIndexExtent s.extent)
  else none

/-- Succeeds if an index can be laid out in this way. -/
def validate (s : IndexSettings) : Except Failure Unit :=
  match s.fault? with
  | some f => .error f
  | none => .ok ()

end IndexSettings

/-- How a join is carried out. -/
structure JoinSettings where
  /-- Whether to probe an index instead of testing all pairs. -/
  useIndex : Bool
  /-- Whether to look for pairs that intersect, instead of pairs where the left contains the
  right. -/
  boundary : Bool
  /-- Whether repeated pairs may stay where no grid tells them apart. -/
  allowDuplicates : Bool
  /-- The kind of an index built for the join. -/
  indexKind : IndexKind
  /-- The side that an index is built of for the join. -/
  buildSide : Side
  /-- Whether partitions are joined at the same time. -/
  parallel : Bool
deriving DecidableEq, Repr

/-- All pairs that intersect, one partition after the other. -/
def JoinSettings.default : JoinSettings :=
  ⟨false, true, false, .rtree, .right, false⟩

instance : Inhabited JoinSettings := ⟨.default⟩

/-- The settings of a join and of the indexes built for it. -/
structure Settings where
  index : IndexSettings
  join : JoinSettings
deriving BEq, Repr

namespace Settings

/-- The defaults of both parts. -/
def default : Settings := ⟨.default, .default⟩

instance : Inhabited Settings := ⟨default⟩

/-- Succeeds if an index can be laid out. -/
def validate (s : Settings) : Except Failure Unit :=
  s.index.validate

/-- The settings of an index built for a join: of the kind that the join asks for. -/
def forJoin (s : Settings) : IndexSettings :=
  { s.index with kind := s.join.indexKind }

end Settings

end PlanarJoin
