import PlanarJoin.Query.Join

/-!
# Journal records

What is worth a note while indexes are built and queries run, and how each note reads.

## Main definitions

* `Record`: the notes.
* `Record.level`, `Record.text`: how important a note is, and its wording.
* `Record.line`: both.
-/

namespace PlanarJoin

/-- A note.  One that is made within a partition which owns pairs says which one it is. -/
inductive Record where
  /-- The cells of a tiling do not cover their box exactly once. -/
  | notTiling
  /-- Objects without a proper envelope were left out of a collection. -/
  | leftOut (count : Nat)
  /-- An index is about to be filled. -/
  | indexOpened (settings : IndexSettings)
  /-- A tier would have needed too many buckets. -/
  | tierSkipped (width height columns rows : Float)
  /-- An index ignored an item without a proper envelope. -/
  | itemIgnored (envelope : Envelope)
  /-- A collection has been indexed. -/
  | indexesBuilt (count : Nat) (kind : IndexKind) (items : Nat)
  /-- An index was built for a join. -/
  | indexLoaded (partition : Option Nat) (count : Nat) (kind : IndexKind)
  /-- All pairs are about to be tried. -/
  | pairwiseBegun (partition : Option Nat) (relation : Relation) (windows : Nat)
  /-- A pair could not be decided. -/
  | pairSkipped (partition : Option Nat) (reason : Failure)
  /-- Many objects have been streamed. -/
  | milestone (partition : Option Nat) (count : Nat)
  /-- A distance could not be told. -/
  | neighborSkipped (reason : Failure)
  /-- An index is wanted, but neither side has one. -/
  | noIndexYet
  /-- A join is complete. -/
  | joined (strategy : Strategy) (pairs candidates : Nat)

/-- How important a note is. -/
inductive Level where
  | debug
  | info
  | warn
deriving DecidableEq, Repr

def Level.name : Level → String
  | debug => "DEBUG"
  | info => "INFO"
  | warn => "WARN"

/-- The name of a strategy in a note. -/
def Strategy.title : Strategy → String
  | pairwise => "NestedLoop"
  | probe .left => "StaticProbe(Left)"
  | probe .right => "StaticProbe(Right)"
  | build => "DynamicProbe"

namespace Record

/-- How important a note is. -/
def level : Record → Level
  | notTiling | noIndexYet => .warn
  | indexLoaded _ _ _ | milestone _ _ => .info
  | _ => .debug

/-- The mark of the partition in which a note is made. -/
def mark : Option Nat → String
  | some i => "[PID=" ++ toString i ++ "] "
  | none => ""

/-- The wording of a note.  The time that loading an index took is left blank. -/
def text : Record → String
  | notTiling => "Grid cells do not tile their extent; joins will fall back to exact-set dedup"
  | leftOut n => "Dropped " ++ toString n ++ " items with an empty envelope"
  | indexOpened s =>
    "Creating " ++ s.kind.name ++ " index (buckets " ++ toString s.columns ++ "x" ++
      toString s.rows ++ ", tiered: " ++ toString s.sizeTiered ++ ", node capacity: " ++
      toString s.nodeCapacity ++ ")"
  | tierSkipped w h nx ny =>
    let number := Decimal.Style.plain.write
    "Skipping " ++ number w ++ "x" ++ number h ++ " tier: " ++ number nx ++ " x " ++ number ny ++
      " buckets"
  | itemIgnored e => "Ignoring item with unusable envelope " ++ e.text
  | indexesBuilt n kind items =>
    "Built " ++ toString n ++ " " ++ kind.name ++ " indexes over " ++ toString items ++ " items"
  | indexLoaded i n kind =>
    mark i ++ "Loaded " ++ toString n ++ " shapes into a " ++ kind.name ++ " index in _ ms"
  | pairwiseBegun i r n =>
    mark i ++ "Nested loop " ++ r.name ++ " join over " ++ toString n ++ " windows"
  | pairSkipped i f => mark i ++ "Skipping pair: " ++ f.message
  | milestone i n => mark i ++ "[Streaming shapes] Reached a milestone: " ++ toString n
  | neighborSkipped f => "Skipping KNN candidate: " ++ f.message
  | noIndexYet => "use_index is set, but no index exists. Will build index on the fly."
  | joined s pairs candidates =>
    s.title ++ " join produced " ++ toString pairs ++ " pairs from " ++ toString candidates ++
      " candidates"

/-- A note with its level. -/
def line (r : Record) : String :=
  r.level.name ++ " " ++ r.text

end Record

end PlanarJoin
