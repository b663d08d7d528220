import PlanarJoin.Journal.Record

/-!
# Notes on building

The notes made while tilings, indexes and collections are built, as functions of what they are built
from.

## Main definitions

* `Tiling.journal`: on a tiling whose cells overlap or leave gaps.
* `Tiling.partitionJournal`: on objects left out of a collection.
* `Tiers.journal`, `IndexSettings.journal`: on tiers that are skipped, and on an index that is
  opened.
* `ignoredJournal`, `Index.loadJournal`: on items that an index ignores, and on one filled anew.
* `Collection.indexJournal`: on the indexes of a collection.
-/

namespace PlanarJoin

/-- Notes on a tiling. -/
def Tiling.journal (t : Tiling) : List Record :=
  if t.exact then [] else [.notTiling]

/-- Notes on objects that have been partitioned. -/
def Tiling.partitionJournal {α : Type} [Spatial α] (as : List α) : List Record :=
  match as.countP fun a => !(Spatial.envelope a).isProper with
  | 0 => []
  | n => [.leftOut n]

/-- Notes on the bucket sizes that make no tier. -/
def Tiers.journal (extent : Envelope) (sizes : List (Float × Float)) : List Record :=
  sizes.filterMap fun size =>
    match TierPlan.make extent size with
    | .tooFine nx ny => some (.tierSkipped size.1 size.2 nx ny)
    | _ => none

/-- Notes on opening an index with valid settings. -/
def IndexSettings.journal (s : IndexSettings) : List Record :=
  let tiered := s.kind = .grid ∧ s.sizeTiered = true
  .indexOpened s ::
    if tiered then Tiers.journal s.extent (Tiers.usualSizes s.extent s.columns s.rows) else []

/-- Notes on the items that an index ignores. -/
def ignoredJournal {α : Type} [Spatial α] (as : List α) : List Record :=
  (as.filter fun a => !(Spatial.envelope a).isProper).map fun a => .itemIgnored (Spatial.envelope a)

/-- Notes on an index filled with some items; none if the settings are not valid. -/
def Index.loadJournal {α : Type} [Spatial α] (s : IndexSettings) (as : List α) : List Record :=
  match s.fault? with
  | some _ => []
  | none => s.journal ++ ignoredJournal as

/-- Notes on indexes built of all partitions; none if the settings are not valid and there is a
partition. -/
def Collection.indexJournal {α : Type} [Spatial α] (c : Collection α) (s : IndexSettings) :
    List Record :=
  if c.partitions.isEmpty || s.fault?.isNone then
    c.partitions.flatMap (Index.loadJournal s) ++ [.indexesBuilt c.count s.kind c.size]
  else []

end PlanarJoin
