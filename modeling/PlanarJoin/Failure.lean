import PlanarJoin.Envelope.Text

/-!
# Failures

What can go wrong, one constructor a cause, with the kind and the wording of each.

## Main definitions

* `Failure`: the causes.
* `Failure.kind`: what a cause is about.
* `Failure.isConfiguration`: whether trying again cannot help.
* `Failure.message`: the wording.
-/

namespace PlanarJoin

/-- A cause of failure. -/
inductive Failure where
  /-- No index kind has this name. -/
  | unknownIndexKind (name : String)
  /-- No side of a join has this name. -/
  | unknownSide (name : String)
  /-- A bucket grid needs a column and a row. -/
  | noBuckets (columns rows : Nat)
  /-- A bucket grid may not be finer than the limit. -/
  | tooManyBuckets (columns rows limit : Nat)
  /-- A tree node needs two entries at least. -/
  | smallNodes (capacity : Nat)
  /-- An index cannot be laid out over this box. -/
  | unusableIndexExtent (extent : Envelope)
  /-- A settings text that cannot be read. -/
  | unreadableSettings
  /-- A grid without cells. -/
  | noCells
  /-- A grid cell that is empty or not finite. -/
  | unusableCell (cell : Envelope)
  /-- A uniform grid needs a column and a row. -/
  | noGridCells (columns rows : Nat)
  /-- A uniform grid cannot be laid out over this box. -/
  | unusableGridExtent (extent : Envelope)
  /-- A grid with more cells than can be counted. -/
  | tooManyCells (columns rows : Nat)
  /-- A grid was asked for around nothing. -/
  | nothingToCover
  /-- A cell that cannot be owned: it is empty or not finite. -/
  | unusableOwnedCell (cell : Envelope)
  /-- A partition number past the cells of the grid. -/
  | noSuchCell (partition cells : Nat)
  /-- An item reaches outside the grid that should hold it. -/
  | outsideGrid (envelope extent : Envelope)
  /-- A join of collections of which one has no grid. -/
  | notGridded
  /-- A join of collections on different grids. -/
  | differentGrids
  /-- A join of collections with different numbers of partitions. -/
  | differentCounts (left right : Nat)
  /-- A search by index in a collection that has none. -/
  | nothingIndexed
  /-- A partition of an indexed collection without an index. -/
  | unindexedPartition (partition : Nat)
  /-- A disc cannot have this radius. -/
  | unusableRadius (radius : Float)
  /-- The radii of nested discs add up to this. -/
  | unusableTotalRadius (radius : Float)
  /-- A geometry with a coordinate that is not finite. -/
  | notFinite
  /-- A disc around an empty geometry has no center. -/
  | noCenter
  /-- Whether a geometry contains a disc is not decided. -/
  | discInGeometry
deriving Repr

namespace Failure

/-- What a failure is about. -/
inductive Kind where
  | configuration
  | partitioning
  | geometry
  | input
  | encoding
deriving DecidableEq, Repr

/-- What a failure is about. -/
def kind : Failure → Kind
  | unknownIndexKind _ | unknownSide _ | noBuckets _ _ | tooManyBuckets _ _ _ | smallNodes _
  | unusableIndexExtent _ | noCells | unusableCell _ | noGridCells _ _ | unusableGridExtent _
  | tooManyCells _ _ | unusableOwnedCell _ | nothingIndexed => .configuration
  | noSuchCell _ _ | notGridded | differentGrids | differentCounts _ _ => .partitioning
  | unusableTotalRadius _ | notFinite | noCenter | discInGeometry => .geometry
  | nothingToCover | outsideGrid _ _ | unindexedPartition _ | unusableRadius _ => .input
  | unreadableSettings => .encoding

/-- Whether the failure is one of configuration or partitioning: these arise before any work is
done, and trying again cannot help. -/
def isConfiguration (f : Failure) : Bool :=
  f.kind = .configuration || f.kind = .partitioning

/-- How messages about a kind of failure begin. -/
def Kind.label : Kind → String
  | configuration => "Invalid configuration"
  | partitioning => "Partitioning mismatch"
  | geometry => "Invalid geometry"
  | input => "Invalid input"
  | encoding => "Serialization error"

/-- Two counts with a cross between them. -/
def dimensions (columns rows : Nat) : String :=
  toString columns ++ "x" ++ toString rows

/-- What a message says about the cause itself. -/
def detail : Failure → String
  | unknownIndexKind name => "unsupported index type: " ++ name
  | unknownSide name => "unsupported join build side: " ++ name
  | noBuckets nx ny => "grid buckets must be positive, got " ++ dimensions nx ny
  | tooManyBuckets nx ny limit =>
    "grid of " ++ dimensions nx ny ++ " buckets exceeds the limit of " ++ toString limit ++
      " buckets"
  | smallNodes capacity => "node capacity must be at least 2, got " ++ toString capacity
  | unusableIndexExtent e => "index extent must be a finite non-degenerate box, got " ++ e.text
  | unreadableSettings => "the text is no configuration"
  | noCells => "a grid needs at least one cell"
  | unusableCell e => "grid cell " ++ e.text ++ " is not a finite envelope"
  | noGridCells nx ny => "grid dimensions must be positive, got " ++ dimensions nx ny
  | unusableGridExtent e => "grid extent must be a finite non-degenerate box, got " ++ e.text
  | tooManyCells nx ny => "grid of " ++ dimensions nx ny ++ " cells is too large"
  | nothingToCover => "cannot derive a grid from empty input"
  | unusableOwnedCell e => "partition cell " ++ e.text ++ " is not a finite envelope"
  | noSuchCell p n =>
    "partition " ++ toString p ++ " is outside a grid of " ++ toString n ++ " cells"
  | outsideGrid e extent =>
    "envelope " ++ e.text ++ " is outside the grid extent " ++ extent.text
  | notGridded => "both inputs must be spatially partitioned before a join"
  | differentGrids => "inputs are not partitioned by the same grid"
  | differentCounts l r => "partition counts differ: " ++ toString l ++ " vs. " ++ toString r
  | nothingIndexed => "use_index is set but the collection has no index; build one first"
  | unindexedPartition p => "partition " ++ toString p ++ " has no index"
  | unusableRadius r =>
    "circle radius must be finite and non-negative, got " ++ Decimal.Style.plain.write r
  | unusableTotalRadius r => "invalid circle radius " ++ Decimal.Style.plain.write r
  | notFinite => "geometry has non-finite coordinates"
  | noCenter => "circle center is empty"
  | discInGeometry => "containment of a circle by a geometry is not supported"

/-- The wording of a failure: its kind, then its cause. -/
def message (f : Failure) : String :=
  f.kind.label ++ ": " ++ f.detail

end Failure

end PlanarJoin
