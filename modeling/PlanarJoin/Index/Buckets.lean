import Std.Data.HashMap
import PlanarJoin.Index.Layout

/-!
# Buckets

Entries numbered by arrival, kept in numbered buckets.  An entry may stand in many buckets; what is
collected from several of them is put back into order of arrival, each entry once.

## Main definitions

* `Entry`: an item with its number of arrival.
* `Buckets`: the buckets that are not empty.
* `Buckets.put`, `Buckets.putAll`: adds an entry to one bucket, or to several.
* `Buckets.reached`: the entries of the buckets that an envelope reaches in a layout.
* `inOrder`: entries by arrival, without repetitions.
-/

namespace PlanarJoin

/-- An item with its number of arrival. -/
structure Entry (α : Type) where
  arrival : Nat
  item : α

/-- The buckets that are not empty, by number. -/
structure Buckets (α : Type) where
  filled : Std.HashMap Nat (Array (Entry α))

namespace Buckets

variable {α : Type}

def empty : Buckets α := ⟨∅⟩

/-- The entries of a bucket, in the order in which they were put there. -/
def bucket (b : Buckets α) (key : Nat) : List (Entry α) :=
  (b.filled.getD key #[]).toList

@[simp]
theorem bucket_empty (key : Nat) : (empty : Buckets α).bucket key = [] := by
  simp [bucket, empty]

/-- Adds an entry to a bucket. -/
def put (b : Buckets α) (e : Entry α) (key : Nat) : Buckets α :=
  ⟨b.filled.alter key fun held => some ((held.getD #[]).push e)⟩

/-- A bucket ends with the entry that was put there last. -/
theorem bucket_put (b : Buckets α) (e : Entry α) (key k : Nat) :
    (b.put e key).bucket k = if key = k then b.bucket k ++ [e] else b.bucket k := by
  by_cases h : key = k
  · subst h
    simp [bucket, put, ← Std.HashMap.getD_eq_getD_getElem?]
  · simp [bucket, put, Std.HashMap.getD_alter, h]

/-- Adds an entry to each of some buckets. -/
def putAll (b : Buckets α) (e : Entry α) (keys : List Nat) : Buckets α :=
  keys.foldl (·.put e) b

/-- Each bucket takes the entry as often as it is listed. -/
theorem bucket_putAll (b : Buckets α) (e : Entry α) (keys : List Nat) (k : Nat) :
    (b.putAll e keys).bucket k = b.bucket k ++ List.replicate (keys.count k) e := by
  unfold putAll
  induction keys generalizing b with
  | nil => simp
  | cons key keys ih =>
    rw [List.foldl_cons, ih, bucket_put, List.count_cons]
    by_cases h : key = k
    · simp [h, List.replicate_succ]
    · simp [h]

/-- The number of buckets that are not empty. -/
def count (b : Buckets α) : Nat :=
  b.filled.size

/-- The number of entries in all buckets together. -/
def size (b : Buckets α) : Nat :=
  b.filled.fold (fun n _ held => n + held.size) 0

/-- The entries of the buckets that an envelope reaches in a layout, row by row. -/
def reached (b : Buckets α) (l : Layout) (e : Envelope) : List (Entry α) :=
  (Layout.span (l.row e.minY) (l.row e.maxY)).flatMap fun r =>
    (Layout.span (l.column e.minX) (l.column e.maxX)).flatMap fun c => b.bucket (l.key c r)

theorem mem_reached {b : Buckets α} {l : Layout} {env : Envelope} {e : Entry α} :
    e ∈ b.reached l env ↔ ∃ k ∈ l.keysOf env, e ∈ b.bucket k := by
  have : b.reached l env = (l.keysOf env).flatMap b.bucket := by
    simp [reached, Layout.keysOf, List.flatMap_assoc, List.flatMap_map]
  rw [this, List.mem_flatMap]

end Buckets

/-- Entries in order of arrival, each once. -/
def inOrder {α : Type} (es : List (Entry α)) : List (Entry α) :=
  (es.mergeSort fun a b => decide (a.arrival ≤ b.arrival)).eraseRepsBy fun a b =>
    a.arrival == b.arrival

end PlanarJoin
