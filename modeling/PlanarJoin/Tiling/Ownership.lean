import PlanarJoin.Failure

/-!
# Ownership

An object that reaches into several cells is copied into each of them, and a pair of such objects
can be found in each cell that holds both.  One cell owns the pair: the one that owns the lower left
corner of the region where the two envelopes overlap.

## Main definitions

* `Ownership`: the cells of a tiling with the partition whose cell is meant.
* `Ownership.ownsPoint`: cells are half-open, but closed where the whole tiling ends.
* `Ownership.ownsPair`: whether a pair belongs to the partition.
-/

namespace PlanarJoin

/-- The cells of a tiling and one partition of it. -/
structure Ownership where
  cells : List Envelope
  partition : Nat
  /-- The cell of the partition. -/
  cell : Envelope
  /-- The box around all cells. -/
  extent : Envelope
deriving BEq, Repr

namespace Ownership

/-- The ownership of a partition.  There must be a cell for it, and all cells must be proper. -/
def make (cells : List Envelope) (partition : Nat) : Except Failure Ownership :=
  match cells[partition]?, cells.find? (!·.isProper) with
  | none, _ => .error (.noSuchCell partition cells.length)
  | some _, some e => .error (.unusableOwnedCell e)
  | some cell, none => .ok ⟨cells, partition, cell, .hullAll cells⟩

/-- The ownership of another partition of the same tiling. -/
def forPartition (o : Ownership) (partition : Nat) : Except Failure Ownership :=
  make o.cells partition

/-- Whether a number lies in an interval that contains its upper end only if that is the end of
everything. -/
def inSpan (low high last v : Float) : Bool :=
  low ≤ v && (v < high || (v == high && high == last))

def ownsPoint (o : Ownership) (x y : Float) : Bool :=
  inSpan o.cell.minX o.cell.maxX o.extent.maxX x && inSpan o.cell.minY o.cell.maxY o.extent.maxY y

/-- Whether the partition owns a pair of objects with these envelopes.  A pair whose envelopes do
not meet has no corner to decide by, and is kept everywhere. -/
def ownsPair (o : Ownership) (a b : Envelope) : Bool :=
  match a.overlap? b with
  | some e => o.ownsPoint e.minX e.minY
  | none => true

end Ownership

end PlanarJoin
