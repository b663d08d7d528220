import PlanarJoin.Journal.Building
import PlanarJoin.Query.Nearest

/-!
# Notes on queries

The notes made while matches and neighbours are found, as functions of what is searched.

## Main definitions

* `roundsJournal`: on the pairs skipped in the rounds of a join, and on its progress.
* `Rule.pairwiseJournal`, `Rule.probeJournal`, `Rule.builtJournal`: on one way of finding matches.
* `JoinQuery.journal`: on a join of two collections.
* `nearestJournal`, `Index.nearestJournal`, `Collection.nearestJournal`: on items whose distance
  cannot be told.
-/

namespace PlanarJoin

variable {α β : Type}

/-! ## Joins -/

/-- How many objects are streamed between two notes on progress. -/
def milestoneStep : Nat := 100000

/-- A note on progress after so many streamed objects. -/
def milestoneJournal (partition : Option Nat) (count : Nat) : List Record :=
  if 1 < count ∧ count % milestoneStep = 1 then [.milestone partition count] else []

/-- Notes on the pairs that are skipped in a round. -/
def skipJournal (partition : Option Nat) (trials : List (Trial α β)) : List Record :=
  (trials.filterMap Trial.skip?).map (.pairSkipped partition)

/-- Notes on all rounds of a stream, with its progress if that is asked for. -/
def roundsJournal (partition : Option Nat) (progress : Bool) (s : MatchStream α β) : List Record :=
  (s.rounds.zipIdx 1).flatMap fun (r, n) =>
    skipJournal partition r.get ++ if progress then milestoneJournal partition n else []

namespace Rule

/-- The partition of a rule that owns pairs. -/
def partition? (r : Rule) : Option Nat :=
  r.ownership.map Ownership.partition

variable [Spatial α] [Spatial β]

/-- Notes on trying all pairs. -/
def pairwiseJournal (r : Rule) (left : List α) (right : List β) : List Record :=
  if left.isEmpty || right.isEmpty then []
  else
    .pairwiseBegun r.partition? r.relation left.length ::
      roundsJournal r.partition? false (r.pairwise left right)

/-- Notes on a stream against an index. -/
def probeJournal (r : Rule) (s : MatchStream α β) : List Record :=
  roundsJournal r.partition? true s

/-- Notes on building an index of one side and streaming the other against it; none if the settings
are not valid. -/
def builtJournal (r : Rule) (settings : IndexSettings) (side : Side) (left : List α)
    (right : List β) : List Record :=
  if settings.fault?.isSome || left.isEmpty || right.isEmpty then []
  else
    (match side with
      | .left =>
        Index.loadJournal settings left ++
          [.indexLoaded r.partition? left.length settings.kind]
      | .right =>
        Index.loadJournal settings right ++
          [.indexLoaded r.partition? right.length settings.kind]) ++
      r.probeJournal (r.probeBuilt settings side left right)

end Rule

namespace JoinQuery

variable [Spatial α] [Spatial β]

/-- A note on the choice of a strategy. -/
def strategyJournal (s : Strategy) : List Record :=
  if s = .build then [.noIndexYet] else []

/-- Notes on the join of a partition. -/
def unitJournal (q : JoinQuery) (s : Strategy) (left : Collection α) (right : Collection β)
    (i : Nat) : List Record :=
  match q.rule right i with
  | .error _ => []
  | .ok r =>
    match s with
    | .pairwise => r.pairwiseJournal (left.partition i) (right.partition i)
    | .probe _ =>
      match q.matchesIn s left right i with
      | .ok stream => r.probeJournal stream
      | .error _ => []
    | .build =>
      r.builtJournal q.settings.forJoin q.settings.join.buildSide (left.partition i)
        (right.partition i)

variable [BEq α] [BEq β]

/-- Notes on a join that one worker runs; none if it cannot begin. -/
def journal (q : JoinQuery) (left : Collection α) (right : Collection β) : List Record :=
  match q.run 1 left right with
  | .error _ => []
  | .ok out =>
    strategyJournal out.strategy ++
      (List.range left.count).flatMap (q.unitJournal out.strategy left right) ++
        [.joined out.strategy out.pairs.length out.tally.candidates]

end JoinQuery

/-! ## Neighbours -/

section Nearest

variable [Spatial α]

/-- A note on an item whose distance cannot be told. -/
def neighborJournal (p : Coord) (a : α) : List Record :=
  match distanceTo a p with
  | .ok _ => []
  | .error f => [.neighborSkipped f]

/-- Notes on a search of a list. -/
def nearestJournal (as : List α) (p : Coord) (k : Nat) : List Record :=
  if k = 0 then [] else as.flatMap (neighborJournal p)

/-- Notes on a search of an index. -/
def Index.nearestJournal (i : Index α) (p : Coord) (k : Nat) : List Record :=
  (i.windows p k).flatMap fun w => w.candidates.flatMap (neighborJournal p)

/-- Notes on the search of a partition. -/
def Collection.partitionJournal (c : Collection α) (p : Coord) (k : Nat) (useIndex : Bool)
    (i : Nat) : List Record :=
  match c.ownership i with
  | .error _ => []
  | .ok o =>
    match useIndex, c.index? i with
    | true, some x => (x.fetches o p k).flatMap fun f => x.nearestJournal p f.asked
    | _, _ => nearestJournal ((c.partition i).filter (ownsObject o)) p k

/-- Notes on a search of a collection. -/
def Collection.nearestJournal (c : Collection α) (p : Coord) (k : Nat) (useIndex : Bool) :
    List Record :=
  if useIndex && !c.hasIndex then []
  else (List.range c.count).flatMap (c.partitionJournal p k useIndex)

end Nearest

end PlanarJoin
