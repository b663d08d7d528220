import PlanarJoin.Tiling.Ownership

/-!
# Tilings

The cells over which collections are partitioned.  Cells are numbered; an envelope is placed into
every cell that it meets.

## Main definitions

* `Tiling`: some cells, the box around them, and whether they cover it exactly once.
* `Tiling.make`, `Tiling.uniform`, `Tiling.covering`: tilings of given cells, of equal cells, and of
  equal cells around some envelopes.
* `Tiling.placement`: the cells that an envelope meets.
* `Tiling.ownership`: the ownership of a cell, where cells can tell pairs apart.
-/

namespace PlanarJoin

/-- Some cells. -/
structure Tiling where
  cells : List Envelope
  /-- The box around all cells. -/
  extent : Envelope
  /-- Whether the cells cover the box exactly once. -/
  exact : Bool
deriving Repr

namespace Tiling

/-- Tilings are equal when their cells are. -/
instance : BEq Tiling := ⟨fun a b => a.cells == b.cells⟩

/-- How much area may be missing or covered twice, as a part of the whole area. -/
def tolerance : Float := 1e-9

/-- The area that two cells share. -/
def sharedArea (a b : Envelope) : Float :=
  match a.overlap? b with
  | some e => e.area
  | none => 0.0

/-- Whether no cell shares more than the slack with a later one. -/
def apart (slack : Float) : List Envelope → Bool
  | [] => true
  | c :: cs => cs.all (fun d => !(slack < sharedArea c d)) && apart slack cs

/-- Whether cells cover a box exactly once, up to the tolerance: their areas add up to that of the
box, and no two of them share an area. -/
def tiles (cells : List Envelope) (extent : Envelope) : Bool :=
  let slack := tolerance * Binary64.upper extent.area 1.0
  let total := cells.foldl (fun sum c => sum + c.area) 0.0
  !(slack < (total - extent.area).abs) && apart slack cells

/-- The tiling with the given cells, numbered in order. -/
def make (cells : List Envelope) : Except Failure Tiling :=
  if cells.isEmpty then .error .noCells
  else
    match cells.find? (!·.isProper) with
    | some e => .error (.unusableCell e)
    | none =>
      let extent := Envelope.hullAll cells
      .ok ⟨cells, extent, tiles cells extent⟩

/-- The bounds of a column or row: the last one ends exactly where everything does. -/
def slot (low high step : Float) (count i : Nat) : Float × Float :=
  (low + Float.ofNat i * step,
    if i + 1 = count then high else low + Float.ofNat (i + 1) * step)

/-- The cells of a box cut into equal columns and rows, row by row from the lower left. -/
def uniformCells (extent : Envelope) (columns rows : Nat) : List Envelope :=
  let width := extent.width / Float.ofNat columns
  let height := extent.height / Float.ofNat rows
  (List.range rows).flatMap fun r =>
    (List.range columns).map fun c =>
      let (x₁, x₂) := slot extent.minX extent.maxX width columns c
      let (y₁, y₂) := slot extent.minY extent.maxY height rows r
      .ofBounds x₁ x₂ y₁ y₂

/-- The tiling of a box by equal cells. -/
def uniform (extent : Envelope) (columns rows : Nat) : Except Failure Tiling :=
  if columns = 0 ∨ rows = 0 then .error (.noGridCells columns rows)
  else if !extent.isProper || extent.width ≤ 0.0 || extent.height ≤ 0.0 then
    .error (.unusableGridExtent extent)
  else if Nat.pow 2 64 ≤ columns * rows then .error (.tooManyCells columns rows)
  else make (uniformCells extent columns rows)

/-- The tiling of the box around some envelopes by equal cells.  A box without width or height is
widened to one. -/
def covering (es : List Envelope) (columns rows : Nat) : Except Failure Tiling :=
  let extent := Envelope.hullAll (es.filter Envelope.isProper)
  if extent.isEmpty then .error .nothingToCover
  else
    let padX := if 0.0 < extent.width then 0.0 else 0.5
    let padY := if 0.0 < extent.height then 0.0 else 0.5
    uniform (extent.grow padX padY) columns rows

def size (t : Tiling) : Nat :=
  t.cells.length

/-- The cells that a proper envelope meets, in ascending order. -/
def placement (t : Tiling) (e : Envelope) : List Nat :=
  if e.isProper then (t.cells.zipIdx.filter (·.1.meets e)).map (·.2) else []

/-- The ownership of a cell; there is none where the cells do not tile their box. -/
def ownership (t : Tiling) (partition : Nat) : Except Failure (Option Ownership) :=
  if t.exact then (Ownership.make t.cells partition).map some else .ok none

/-- A tiling in words. -/
def text (t : Tiling) : String :=
  "GridPartitioner \x7b cells: " ++ toString t.size ++ ", extent: " ++ t.extent.text ++
    ", exact_tiling: " ++ toString t.exact ++ " \x7d"

end Tiling

end PlanarJoin
