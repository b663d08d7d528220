import PlanarJoin.Matching.Plan
import PlanarJoin.Query.Crew
import PlanarJoin.Tiling.Collection

/-!
# Joins of collections

Two collections on the same tiling are joined partition by partition.  A pair found in several
partitions is kept where it is owned if the cells tile their box, and otherwise where it is found
first.

## Main definitions

* `sameTiling`: why two collections cannot be joined, if they cannot.
* `Strategy`: how matches are found in each partition.
* `JoinQuery`: the settings of a join; `JoinQuery.run` joins two collections.
* `JoinQuery.grouped`, `JoinQuery.counts`: the matches of each left object, and their number.
* `JoinQuery.withinDistance`: a join of discs, as pairs of centers and right objects.
-/

namespace PlanarJoin

/-- Succeeds if two collections are partitioned by the same tiling. -/
def sameTiling {α β : Type} (left : Collection α) (right : Collection β) : Except Failure Unit :=
  match left.tiling, right.tiling with
  | some s, some t =>
    if s == t then
      if left.count = right.count then .ok ()
      else .error (.differentCounts left.count right.count)
    else .error .differentGrids
  | _, _ => .error .notGridded

/-- How matches are found in each partition. -/
inductive Strategy where
  /-- By trying all pairs. -/
  | pairwise
  /-- By an index that one side has. -/
  | probe (indexed : Side)
  /-- By an index built for the join. -/
  | build
deriving DecidableEq, Repr

/-- What a join yields. -/
structure JoinOutput (α β : Type) where
  strategy : Strategy
  pairs : List (α × β)
  tally : Tally

/-- Matches by key, in the order in which the keys first appear; a right object is listed once. -/
def groupPairs {α β : Type} [BEq α] [BEq β] (pairs : List (α × β)) : List (α × List β) :=
  pairs.foldl insert []
where
  /-- Adds a match to its group, or begins a group with it. -/
  insert : List (α × List β) → α × β → List (α × List β)
    | [], (a, b) => [(a, [b])]
    | (k, bs) :: groups, (a, b) =>
      if k == a then (k, if bs.contains b then bs else bs ++ [b]) :: groups
      else (k, bs) :: insert groups (a, b)

/-- The number of pairs of each key, in the order in which the keys first appear. -/
def countPairs {α β : Type} [BEq α] (pairs : List (α × β)) : List (α × Nat) :=
  pairs.foldl (fun counts p => count counts p.1) []
where
  /-- Counts a key once more. -/
  count : List (α × Nat) → α → List (α × Nat)
    | [], a => [(a, 1)]
    | (k, n) :: counts, a => if k == a then (k, n + 1) :: counts else (k, n) :: count counts a

/-- The settings of a join. -/
structure JoinQuery where
  settings : Settings
deriving Repr

namespace JoinQuery

variable {α β : Type}

/-- A join with indexes of the usual layout. -/
def ofJoinSettings (s : JoinSettings) : JoinQuery := ⟨⟨.default, s⟩⟩

/-- A join with given settings, if they are valid. -/
def ofSettings (s : Settings) : Except Failure JoinQuery :=
  s.validate.map fun _ => ⟨s⟩

/-- A join with all settings at their defaults. -/
def default : JoinQuery := ⟨.default⟩

/-- How matches are found: by the index of the right side if it has one, else by that of the left,
else by one that is built. -/
def strategy (q : JoinQuery) (left : Collection α) (right : Collection β) : Strategy :=
  if !q.settings.join.useIndex then .pairwise
  else if right.hasIndex then .probe .right
  else if left.hasIndex then .probe .left
  else .build

/-- The workers for a number of partitions: no more than there are partitions or than the machine
can run at once, but one at least. -/
def workersFor (cores partitions : Nat) : Nat :=
  max (min cores partitions) 1

def rule (q : JoinQuery) (right : Collection β) (i : Nat) : Except Failure Rule :=
  (right.ownership i).map fun o => ⟨.ofBoundary q.settings.join.boundary, o⟩

def indexOf (c : Collection α) (i : Nat) : Except Failure (Index α) :=
  match c.index? i with
  | some x => .ok x
  | none => .error (.unindexedPartition i)

section Run

variable [Spatial α] [Spatial β]

/-- The matches of a partition, on demand. -/
def matchesIn (q : JoinQuery) (s : Strategy) (left : Collection α) (right : Collection β)
    (i : Nat) : Except Failure (MatchStream α β) := do
  let r ← q.rule right i
  match s with
  | .pairwise => return r.pairwise (left.partition i) (right.partition i)
  | .probe .right => return r.probeRight (left.partition i) (← indexOf right i)
  | .probe .left => return r.probeLeft (← indexOf left i) (right.partition i)
  | .build =>
    r.probeBuilt? q.settings.forJoin q.settings.join.buildSide (left.partition i)
      (right.partition i)

/-- All matches of a partition, with their tally. -/
def unit (q : JoinQuery) (s : Strategy) (left : Collection α) (right : Collection β) (i : Nat) :
    Except Failure (List (α × β) × Tally) :=
  (q.matchesIn s left right i).map MatchStream.drain

/-- The results of all partitions in order, by one worker or by as many as there are cores. -/
def units (q : JoinQuery) (cores : Nat) (s : Strategy) (left : Collection α)
    (right : Collection β) : List (Except Failure (List (α × β) × Tally)) :=
  if q.settings.join.parallel then
    inParallel (workersFor cores left.count) left.count (q.unit s left right)
  else (List.range left.count).map (q.unit s left right)

variable [BEq α] [BEq β]

/-- Drops repeated pairs, unless ownership has done so or they are allowed. -/
def distinct (q : JoinQuery) (right : Collection β) (pairs : List (α × β)) : List (α × β) :=
  if right.tiling.any Tiling.exact || q.settings.join.allowDuplicates then pairs
  else pairs.eraseDups

/-- What a join makes of the results of all partitions: the first failure, or all pairs with their
tally. -/
def conclude (q : JoinQuery) (s : Strategy) (right : Collection β)
    (units : List (Except Failure (List (α × β) × Tally))) : Except Failure (JoinOutput α β) := do
  let units ← units.mapM id
  return {
    strategy := s
    pairs := q.distinct right (units.flatMap (·.1))
    tally := units.foldl (fun t u => t.add u.2) .zero }

/-- All pairs of a left and a right object that match. -/
def run (q : JoinQuery) (cores : Nat) (left : Collection α) (right : Collection β) :
    Except Failure (JoinOutput α β) := do
  sameTiling left right
  let s := q.strategy left right
  q.conclude s right (q.units cores s left right)

/-- The right objects that match each left object. -/
def grouped (q : JoinQuery) (cores : Nat) (left : Collection α) (right : Collection β) :
    Except Failure (List (α × List β)) :=
  (q.run cores left right).map fun out => groupPairs out.pairs

/-- How many pairs each left object is part of. -/
def counts (q : JoinQuery) (cores : Nat) (left : Collection α) (right : Collection β) :
    Except Failure (List (α × Nat)) :=
  (q.run cores left right).map fun out => countPairs out.pairs

/-- The centers of discs, each with a right object that matches its disc. -/
def withinDistance (q : JoinQuery) (cores : Nat) (discs : Collection (Disc α))
    (right : Collection β) : Except Failure (List (α × β)) :=
  (q.run cores discs right).map fun out => out.pairs.map fun p => (p.1.center, p.2)

/-- The right objects that match the discs of each center. -/
def withinDistanceGrouped (q : JoinQuery) (cores : Nat) (discs : Collection (Disc α))
    (right : Collection β) : Except Failure (List (α × List β)) :=
  (q.withinDistance cores discs right).map groupPairs

/-- How many pairs each center is part of. -/
def withinDistanceCounts (q : JoinQuery) (cores : Nat) (discs : Collection (Disc α))
    (right : Collection β) : Except Failure (List (α × Nat)) :=
  (q.withinDistance cores discs right).map countPairs

end Run

end JoinQuery

end PlanarJoin
