import PlanarJoin.Index.Buckets
import PlanarJoin.Object.Basic

/-!
# Tiers of buckets

Large shapes would stand in thousands of buckets of a grid.  Here every item stands in one bucket,
the one of its center, in the first tier whose buckets are at least as wide and as high as the item.
A query of a tier is widened by half a bucket on each side and so reaches the centers of all items
that may meet it.  Items larger than the whole extent are kept apart and are part of every answer.

## Main definitions

* `TierPlan`: what becomes of a bucket size: a layout, or too many buckets, or nothing.
* `Tier`, `Tiers`: the tiers and the items that are too large for all of them.
* `Tiers.ofSizes`, `Tiers.ofCounts`: tiers for given bucket sizes, or derived from a number of
  columns and rows.
* `Tiers.insert`, `Tiers.query`.
-/

namespace PlanarJoin

/-- What becomes of a bucket size over an extent. -/
inductive TierPlan where
  /-- A size that is not positive, or not smaller than the extent, makes no tier. -/
  | unfit
  /-- The size would need too many buckets. -/
  | tooFine (columns rows : Float)
  | layout (l : Layout)

/-- The plan for buckets of a size over an extent.  The box of the tier begins where the extent does
and ends with its last bucket. -/
def TierPlan.make (extent : Envelope) (size : Float × Float) : TierPlan :=
  let (w, h) := size
  if 0.0 < w && 0.0 < h && w < extent.width && h < extent.height then
    let nx := Binary64.ceiling (extent.width / w)
    let ny := Binary64.ceiling (extent.height / h)
    let cells := nx * ny
    if !cells.isFinite || Float.ofNat bucketLimit < cells then tooFine nx ny
    else
      let box := Envelope.ofBounds extent.minX (extent.minX + nx * w) extent.minY
        (extent.minY + ny * h)
      layout (.make box nx.toUInt64.toNat ny.toUInt64.toNat)
  else unfit

/-- One tier. -/
structure Tier (α : Type) where
  layout : Layout
  buckets : Buckets α

namespace Tier

variable {α : Type}

/-- Whether an envelope is no larger than a bucket. -/
def fits (t : Tier α) (e : Envelope) : Bool :=
  e.width ≤ t.layout.bucketWidth && e.height ≤ t.layout.bucketHeight

/-- The bucket of an envelope's center. -/
def home (t : Tier α) (e : Envelope) : Nat :=
  t.layout.key (t.layout.column e.centerX) (t.layout.row e.centerY)

/-- Puts an entry into the bucket of its center. -/
def put [Spatial α] (t : Tier α) (e : Entry α) : Tier α :=
  { t with buckets := t.buckets.put e (t.home (Spatial.envelope e.item)) }

/-- The entries of the buckets that an envelope reaches once it is widened by half a bucket. -/
def reached (t : Tier α) (e : Envelope) : List (Entry α) :=
  if t.buckets.count = 0 then []
  else
    t.buckets.reached t.layout
      (e.grow (t.layout.bucketWidth / 2.0) (t.layout.bucketHeight / 2.0))

end Tier

/-- Tiers of buckets, and the entries that are too large for all of them. -/
structure Tiers (α : Type) where
  tiers : List (Tier α)
  oversize : List (Entry α)

namespace Tiers

variable {α : Type}

/-- The factors of the bucket sizes of the usual tiers. -/
def usualFactors : List Float := [1.0, 4.0, 32.0]

/-- The usual bucket sizes over an extent cut into columns and rows. -/
def usualSizes (extent : Envelope) (columns rows : Nat) : List (Float × Float) :=
  let w := extent.width / Float.ofNat (max columns 1)
  let h := extent.height / Float.ofNat (max rows 1)
  usualFactors.map fun f => (w * f, h * f)

/-- The layouts of the tiers for some bucket sizes; the last tier is one bucket over the extent. -/
def layouts (extent : Envelope) (sizes : List (Float × Float)) : List Layout :=
  (sizes.filterMap fun size =>
    match TierPlan.make extent size with
    | .layout l => some l
    | _ => none) ++ [.make extent 1 1]

/-- Empty tiers for some bucket sizes, finest first. -/
def ofSizes (extent : Envelope) (sizes : List (Float × Float)) : Tiers α :=
  ⟨(layouts extent sizes).map fun l => ⟨l, .empty⟩, []⟩

/-- Empty tiers of the usual sizes. -/
def ofCounts (extent : Envelope) (columns rows : Nat) : Tiers α :=
  ofSizes extent (usualSizes extent columns rows)

/-- Puts an entry into the first tier that it fits, if there is one. -/
def put? [Spatial α] (e : Entry α) : List (Tier α) → Option (List (Tier α))
  | [] => none
  | t :: ts =>
    if t.fits (Spatial.envelope e.item) then some (t.put e :: ts)
    else (put? e ts).map (t :: ·)

/-- Puts an entry into the first tier that it fits, or with those that fit none. -/
def insert [Spatial α] (s : Tiers α) (e : Entry α) : Tiers α :=
  match put? e s.tiers with
  | some ts => { s with tiers := ts }
  | none => { s with oversize := s.oversize ++ [e] }

/-- The items that may meet an envelope, in order of arrival. -/
def query (s : Tiers α) (e : Envelope) : List α :=
  (inOrder (s.oversize ++ s.tiers.flatMap (·.reached e))).map (·.item)

/-- The number of entries in each tier, then of those that fit none. -/
def sizes (s : Tiers α) : List Nat :=
  s.tiers.map (·.buckets.size) ++ [s.oversize.length]

/-- The number of buckets that are not empty. -/
def bucketCount (s : Tiers α) : Nat :=
  s.tiers.foldl (fun n tier => n + tier.buckets.count) 0

end Tiers

end PlanarJoin
