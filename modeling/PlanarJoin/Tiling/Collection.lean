import PlanarJoin.Index.Basic
import PlanarJoin.Tiling.Basic

/-!
# Collections

Objects in partitions, perhaps by the cells of a tiling, and perhaps with an index of each
partition.

## Main definitions

* `Collection`: the partitions, the tiling, the indexes.
* `Tiling.partition`: copies each object into every cell that its envelope meets.
* `Collection.ofPartitions`: partitions without a tiling.
* `Collection.build`, `Collection.dropIndex`: the collection with an index of every partition, or
  none.

## Main results

* `Collection.build_of_error`: if indexes cannot be built, the collection stays as it is.
-/

namespace PlanarJoin

/-- Objects in partitions. -/
structure Collection (α : Type) where
  partitions : List (List α)
  tiling : Option Tiling
  indexes : Option (List (Index α))

namespace Collection

variable {α : Type}

/-- Partitions that no tiling has made. -/
def ofPartitions (partitions : List (List α)) : Collection α :=
  ⟨partitions, none, none⟩

def count (c : Collection α) : Nat :=
  c.partitions.length

/-- The objects of a partition; past the last one there are none. -/
def partition (c : Collection α) (i : Nat) : List α :=
  c.partitions.getD i []

/-- The number of objects, copies included. -/
def size (c : Collection α) : Nat :=
  c.partitions.foldl (fun n items => n + items.length) 0

def isEmpty (c : Collection α) : Bool :=
  c.partitions.all List.isEmpty

def hasIndex (c : Collection α) : Bool :=
  c.indexes.isSome

def index? (c : Collection α) (i : Nat) : Option (Index α) :=
  c.indexes.bind (·[i]?)

/-- The ownership of a partition; there is none without a tiling. -/
def ownership (c : Collection α) (i : Nat) : Except Failure (Option Ownership) :=
  match c.tiling with
  | some t => t.ownership i
  | none => .ok none

section Build

variable [Spatial α]

/-- Builds an index of each of some partitions, one after the other, and at the end puts all that
were built into the collection.  What was built is lost if one cannot be. -/
def buildFrom (s : IndexSettings) (c : Collection α) (built : Array (Index α)) :
    List (List α) → Except Failure Unit × Collection α
  | [] => (.ok (), { c with indexes := some built.toList })
  | items :: parts =>
    match Index.load s items with
    | .error f => (.error f, c)
    | .ok index => buildFrom s c (built.push index) parts

/-- Builds an index of every partition.  The collection that is left comes with the outcome. -/
def build (c : Collection α) (s : IndexSettings) : Except Failure Unit × Collection α :=
  buildFrom s c #[] c.partitions

/-- The collection with its indexes, if they can be built. -/
def buildIndex (c : Collection α) (s : IndexSettings) : Except Failure (Collection α) :=
  match c.build s with
  | (.ok (), indexed) => .ok indexed
  | (.error f, _) => .error f

variable {s : IndexSettings} {c : Collection α} {built : Array (Index α)} {parts : List (List α)}

theorem load_of_validate (hs : s.validate = .ok ()) (items : List α) :
    Index.load s items = .ok (Index.ofList s items) := by
  rw [Index.load, hs]
  rfl

/-- Under valid settings the loop comes to its end. -/
theorem buildFrom_ok (hs : s.validate = .ok ()) (c : Collection α) (built : Array (Index α))
    (parts : List (List α)) : (buildFrom s c built parts).1 = .ok () := by
  induction parts generalizing built with
  | nil => rfl
  | cons items parts ih =>
    rw [buildFrom, load_of_validate hs]
    exact ih _

/-- At the end, an index of each partition is put into the collection. -/
theorem buildFrom_of_ok (h : (buildFrom s c built parts).1 = .ok ()) :
    (buildFrom s c built parts).2 =
        { c with indexes := some (built.toList ++ parts.map (Index.ofList s)) } ∧
      (parts ≠ [] → s.validate = .ok ()) := by
  induction parts generalizing built with
  | nil => exact ⟨by rw [List.map_nil, List.append_nil, buildFrom], fun h => absurd rfl h⟩
  | cons items parts ih =>
    cases hv : s.validate with
    | error f =>
      rw [buildFrom, Index.load, hv] at h
      cases h
    | ok u =>
      rw [buildFrom, load_of_validate hv] at h ⊢
      obtain ⟨hrest, -⟩ := ih h
      refine ⟨hrest.trans ?_, fun _ => rfl⟩
      rw [Array.toList_push, List.append_assoc]
      rfl

/-- A partition of which no index can be built ends the loop with the collection as it was. -/
theorem buildFrom_of_error {f : Failure} (h : (buildFrom s c built parts).1 = .error f) :
    (buildFrom s c built parts).2 = c := by
  induction parts generalizing built with
  | nil => cases h
  | cons items parts ih =>
    rw [buildFrom] at h ⊢
    cases hload : Index.load s items with
    | error g => rfl
    | ok index =>
      rw [hload] at h
      exact ih h

/-- Under valid settings every partition can be indexed. -/
theorem build_ok (hs : s.validate = .ok ()) (c : Collection α) : (c.build s).1 = .ok () :=
  buildFrom_ok hs c #[] c.partitions

/-- Building indexes leaves the partitions and gives each an index of what it holds. -/
theorem build_of_ok (h : (c.build s).1 = .ok ()) :
    (c.build s).2 = { c with indexes := some (c.partitions.map (Index.ofList s)) } ∧
      (c.partitions ≠ [] → s.validate = .ok ()) :=
  buildFrom_of_ok h

/-- If indexes cannot be built, the collection stays as it is. -/
theorem build_of_error {f : Failure} (h : (c.build s).1 = .error f) : (c.build s).2 = c :=
  buildFrom_of_error h

theorem buildIndex_eq_ok {c' : Collection α} :
    c.buildIndex s = .ok c' ↔ (c.build s).1 = .ok () ∧ (c.build s).2 = c' := by
  rw [buildIndex]
  rcases c.build s with ⟨_ | _, indexed⟩ <;> simp

theorem buildIndex_eq_error {f : Failure} :
    c.buildIndex s = .error f ↔ (c.build s).1 = .error f := by
  rw [buildIndex]
  rcases c.build s with ⟨_ | _, indexed⟩ <;> simp

end Build

def dropIndex (c : Collection α) : Collection α :=
  { c with indexes := none }

end Collection

namespace Tiling

variable {α : Type}

/-- Puts an object into each of the given partitions. -/
def deal (parts : List (List α)) (a : α) (cells : List Nat) : List (List α) :=
  cells.foldl (fun parts i => parts.modify i (· ++ [a])) parts

/-- Places an object.  One without a proper envelope is left out; one that reaches outside the
tiling cannot be placed, as no cell might own its pairs. -/
def placeObject [Spatial α] (t : Tiling) (parts : List (List α)) (a : α) :
    Except Failure (List (List α)) :=
  let e := Spatial.envelope a
  if !e.isProper then .ok parts
  else if !t.extent.covers e then .error (.outsideGrid e t.extent)
  else .ok (deal parts a (t.placement e))

/-- Partitions objects by the cells that they meet. -/
def partition [Spatial α] (t : Tiling) (as : List α) : Except Failure (Collection α) :=
  (as.foldlM t.placeObject (List.replicate t.size [])).map fun parts => ⟨parts, some t, none⟩

end Tiling

end PlanarJoin
