import PlanarJoin.Envelope.Basic

/-!
# Bucket layouts

A box cut into columns and rows of equal size.  Every coordinate has a bucket: one outside the box
belongs to the bucket at the border.

## Main definitions

* `bucketLimit`: the most buckets that a layout may have.
* `Layout`: a box with a number of columns and rows; `Layout.make` keeps these within the limit.
* `Layout.column`, `Layout.row`, `Layout.key`: from coordinates to the number of a bucket.
* `Layout.keysOf`: the buckets that an envelope reaches, row by row.

## Main results

* `Layout.size_make_le`: a layout has no more buckets than the limit.
* `Layout.key_inj`: different columns and rows have different buckets.
-/

namespace PlanarJoin

/-- The most buckets that a layout may have. -/
def bucketLimit : Nat := Nat.pow 2 24

/-- A box cut into columns and rows. -/
structure Layout where
  origin : Envelope
  columns : Nat
  rows : Nat
  bucketWidth : Float
  bucketHeight : Float
deriving Repr

namespace Layout

def size (l : Layout) : Nat :=
  l.columns * l.rows

/-- The layout of a box.  A count of zero becomes one, and counts are cut down to the limit, columns
first. -/
def make (origin : Envelope) (columns rows : Nat) : Layout :=
  let nx := min (max columns 1) bucketLimit
  let ny := min (max rows 1) (bucketLimit / nx)
  { origin
    columns := nx
    rows := ny
    bucketWidth := origin.width / Float.ofNat nx
    bucketHeight := origin.height / Float.ofNat ny }

theorem columns_make_pos (origin : Envelope) (columns rows : Nat) :
    0 < (make origin columns rows).columns := by
  have : 0 < bucketLimit := by decide
  simp only [make]
  omega

theorem rows_make_pos (origin : Envelope) (columns rows : Nat) :
    0 < (make origin columns rows).rows := by
  have hlimit : 0 < bucketLimit := by decide
  have h : 0 < bucketLimit / min (max columns 1) bucketLimit :=
    Nat.div_pos (by omega) (by omega)
  simp only [make]
  omega

/-- A layout has no more buckets than the limit. -/
theorem size_make_le (origin : Envelope) (columns rows : Nat) :
    (make origin columns rows).size ≤ bucketLimit := by
  simp only [size, make]
  exact Nat.le_trans (Nat.mul_le_mul_left _ (Nat.min_le_right _ _)) (Nat.mul_div_le _ _)

/-- Counts within the limit are taken as they are. -/
theorem make_of_le {columns rows : Nat} (origin : Envelope) (hc : 0 < columns) (hr : 0 < rows)
    (h : columns * rows ≤ bucketLimit) :
    (make origin columns rows).columns = columns ∧ (make origin columns rows).rows = rows := by
  have hcl : columns ≤ bucketLimit := Nat.le_trans (Nat.le_mul_of_pos_right _ hr) h
  have hx : min (max columns 1) bucketLimit = columns := by omega
  have hrl : rows ≤ bucketLimit / columns := by
    rw [Nat.le_div_iff_mul_le hc, Nat.mul_comm]
    exact h
  have hy : min (max rows 1) (bucketLimit / columns) = rows := by omega
  simp only [make, hx, hy, and_self]

/-- The column of an x coordinate. -/
def column (l : Layout) (x : Float) : Nat :=
  Binary64.floorBelow ((x - l.origin.minX) / l.bucketWidth) l.columns

/-- The row of a y coordinate. -/
def row (l : Layout) (y : Float) : Nat :=
  Binary64.floorBelow ((y - l.origin.minY) / l.bucketHeight) l.rows

/-- The number of the bucket in a column and a row. -/
def key (l : Layout) (column row : Nat) : Nat :=
  row * l.columns + column

/-- Different columns and rows have different buckets. -/
theorem key_inj {l : Layout} {c d r s : Nat} (hc : c < l.columns) (hd : d < l.columns)
    (h : l.key c r = l.key d s) : c = d ∧ r = s := by
  have hn : 0 < l.columns := by omega
  -- the column is the remainder of the key, the row its quotient
  have hcol := congrArg (· % l.columns) h
  have hrow := congrArg (· / l.columns) h
  simp only [key, Nat.mul_add_mod_self_right, Nat.mod_eq_of_lt hc, Nat.mod_eq_of_lt hd] at hcol
  simp only [key, Nat.mul_comm _ l.columns, Nat.mul_add_div hn, Nat.div_eq_of_lt hc,
    Nat.div_eq_of_lt hd] at hrow
  omega

/-- The numbers from `lo` to `hi`, both included. -/
def span (lo hi : Nat) : List Nat :=
  List.range' lo (hi + 1 - lo)

theorem mem_span {lo hi k : Nat} : k ∈ span lo hi ↔ lo ≤ k ∧ k ≤ hi := by
  rw [span, List.mem_range'_1]
  omega

/-- The buckets that an envelope reaches, row by row. -/
def keysOf (l : Layout) (e : Envelope) : List Nat :=
  (span (l.row e.minY) (l.row e.maxY)).flatMap fun r =>
    (span (l.column e.minX) (l.column e.maxX)).map fun c => l.key c r

theorem mem_keysOf {l : Layout} {e : Envelope} {k : Nat} :
    k ∈ l.keysOf e ↔ ∃ r c, (l.row e.minY ≤ r ∧ r ≤ l.row e.maxY) ∧
      (l.column e.minX ≤ c ∧ c ≤ l.column e.maxX) ∧ l.key c r = k := by
  simp only [keysOf, List.mem_flatMap, List.mem_map, mem_span]
  constructor
  · rintro ⟨r, hr, c, hc, h⟩
    exact ⟨r, c, hr, hc, h⟩
  · rintro ⟨r, c, hr, hc, h⟩
    exact ⟨r, hr, c, hc, h⟩

/-- The box of the bucket that holds a point. -/
def bucketAt (l : Layout) (x y : Float) : Envelope :=
  let minX := l.origin.minX + Float.ofNat (l.column x) * l.bucketWidth
  let minY := l.origin.minY + Float.ofNat (l.row y) * l.bucketHeight
  .ofBounds minX (minX + l.bucketWidth) minY (minY + l.bucketHeight)

end Layout

end PlanarJoin
