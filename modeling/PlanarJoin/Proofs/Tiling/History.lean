import PlanarJoin.Proofs.Tiling.Partition
import PlanarJoin.Proofs.Tiling.Uniform

/-!
# What a collection goes through

A collection begins with objects placed by a tiling, or with partitions that no tiling has made.
From then on indexes are built and dropped, any number of times and under any settings; building
them may fail, and leaves the collection as it is.  None of this takes the tiling away from the
partitions: there is a proper cell for each of them, and an index for each as long as there are
indexes at all.

## Main definitions

* `Tiling.Constructed`: the three ways to a tiling.
* `Collection.Fresh`: the two ways to a collection.
* `Collection.Call`, `Collection.after`: building and dropping indexes.
* `Collection.Reached`: what a history leads to.
* `Collection.Consistent`: one cell, and perhaps one index, for each partition.
* `Collection.UpToDate`: indexes of what the partitions hold.

## Main results

* `Collection.partitions_after`, `Collection.tiling_after`: what no call changes.
* `Collection.Reached.consistent`, `Collection.Reached.upToDate`: what every history keeps.
-/

namespace PlanarJoin

namespace Tiling

/-- A tiling of given cells, of equal cells, or of equal cells around some envelopes. -/
inductive Constructed (t : Tiling) : Prop
  | cells {cells : List Envelope} (h : make cells = .ok t)
  | uniform {extent : Envelope} {columns rows : Nat}
    (h : Tiling.uniform extent columns rows = .ok t)
  | covering {es : List Envelope} {columns rows : Nat}
    (h : Tiling.covering es columns rows = .ok t)

theorem exists_uniform_of_covering {t : Tiling} {es : List Envelope} {columns rows : Nat}
    (h : covering es columns rows = .ok t) :
    ∃ extent, Tiling.uniform extent columns rows = .ok t := by
  unfold covering at h
  dsimp only at h
  split at h
  · cases h
  · exact ⟨_, h⟩

/-- All three ways end in the same place. -/
theorem Constructed.made {t : Tiling} (h : t.Constructed) : t.Made := by
  have hmade {extent : Envelope} {columns rows : Nat}
      (h : Tiling.uniform extent columns rows = .ok t) : t.Made :=
    (made_of_make (make_of_uniform h).2).1
  cases h with
  | cells h => exact (made_of_make h).1
  | uniform h => exact hmade h
  | covering h =>
    obtain ⟨extent, h⟩ := exists_uniform_of_covering h
    exact hmade h

end Tiling

namespace Collection

variable {α : Type} [Spatial α] {c : Collection α}

/-- A collection whose objects a tiling has placed, or of partitions without one. -/
inductive Fresh : Collection α → Prop
  | placed {t : Tiling} {as : List α} {c : Collection α} (ht : t.Constructed)
    (h : t.partition as = .ok c) : Fresh c
  | loose (partitions : List (List α)) : Fresh (ofPartitions partitions)

/-! ## Calls -/

/-- A call that changes the indexes of a collection. -/
inductive Call where
  | build (s : IndexSettings)
  | drop
deriving Repr

/-- The collection after a call, also one that fails. -/
def call (c : Collection α) : Call → Collection α
  | .build s => (c.build s).2
  | .drop => c.dropIndex

/-- The collection after some calls. -/
def after (c : Collection α) (calls : List Call) : Collection α :=
  calls.foldl call c

/-- What a call does to the indexes, all there is that it may change: they stay, go, or are built
anew of what the partitions hold. -/
theorem call_cases (c : Collection α) (k : Call) :
    c.call k = c ∨ c.call k = { c with indexes := none } ∨
      ∃ s, c.call k = { c with indexes := some (c.partitions.map (Index.ofList s)) } := by
  cases k with
  | build s =>
    cases h : (c.build s).1 with
    | error f => exact .inl (build_of_error h)
    | ok u => exact .inr (.inr ⟨s, (build_of_ok h).1⟩)
  | drop => exact .inr (.inl rfl)

theorem partitions_call (c : Collection α) (k : Call) : (c.call k).partitions = c.partitions := by
  obtain h | h | ⟨s, h⟩ := c.call_cases k <;> rw [h]

theorem tiling_call (c : Collection α) (k : Call) : (c.call k).tiling = c.tiling := by
  obtain h | h | ⟨s, h⟩ := c.call_cases k <;> rw [h]

theorem partitions_after (c : Collection α) (calls : List Call) :
    (c.after calls).partitions = c.partitions := by
  unfold after
  induction calls generalizing c with
  | nil => rfl
  | cons k calls ih => exact (ih (c.call k)).trans (c.partitions_call k)

theorem tiling_after (c : Collection α) (calls : List Call) :
    (c.after calls).tiling = c.tiling := by
  unfold after
  induction calls generalizing c with
  | nil => rfl
  | cons k calls ih => exact (ih (c.call k)).trans (c.tiling_call k)

/-! ## What every history keeps -/

/-- A collection with one cell for each partition, if it has a tiling, and with one index for each,
if it is indexed. -/
structure Consistent (c : Collection α) : Prop where
  tiled : ∀ t, c.tiling = some t → t.Made ∧ c.count = t.size
  indexed : ∀ is, c.indexes = some is → is.length = c.count

theorem Fresh.consistent (h : c.Fresh) : c.Consistent := by
  cases h with
  | placed ht h =>
    obtain ⟨htiling, hnone, hcount, -, -⟩ := Tiling.partition_spec h
    constructor
    · intro t' h'
      obtain rfl := Option.some.inj (htiling.symm.trans h')
      exact ⟨ht.made, hcount⟩
    · intro is his
      rw [hnone] at his
      cases his
  | loose partitions => exact ⟨nofun, nofun⟩

namespace Consistent

theorem call (h : c.Consistent) (k : Call) : (c.call k).Consistent := by
  obtain hk | hk | ⟨s, hk⟩ := c.call_cases k <;> rw [hk]
  · exact h
  · exact ⟨h.tiled, nofun⟩
  · refine ⟨h.tiled, ?_⟩
    rintro is ⟨⟩
    exact List.length_map _

theorem after (h : c.Consistent) (calls : List Call) : (c.after calls).Consistent := by
  unfold Collection.after
  induction calls generalizing c with
  | nil => exact h
  | cons k calls ih => exact ih (h.call k)

omit [Spatial α] in
theorem exists_index (h : c.Consistent) (hc : c.hasIndex = true) {i : Nat} (hi : i < c.count) :
    ∃ x, c.index? i = some x := by
  obtain ⟨is, his⟩ := Option.isSome_iff_exists.mp hc
  have hi : i < is.length := h.indexed is his ▸ hi
  refine ⟨is[i], ?_⟩
  rw [index?, his, Option.bind_some, List.getElem?_eq_getElem]

omit [Spatial α] in
theorem exists_ownership (h : c.Consistent) {i : Nat} (hi : i < c.count) :
    ∃ o, c.ownership i = .ok o := by
  rw [ownership]
  cases htiling : c.tiling with
  | none => exact ⟨none, rfl⟩
  | some t =>
    obtain ⟨hmade, hcount⟩ := h.tiled t htiling
    exact ⟨_, hmade.ownership_eq (hcount ▸ hi)⟩

end Consistent

/-- A collection that some history has led to. -/
def Reached (c : Collection α) : Prop :=
  ∃ (c₀ : Collection α) (calls : List Call), c₀.Fresh ∧ c₀.after calls = c

theorem Reached.consistent (h : c.Reached) : c.Consistent := by
  obtain ⟨c₀, calls, hfresh, rfl⟩ := h
  exact hfresh.consistent.after calls

/-! ## What indexes hold -/

/-- A collection whose indexes, if it has any, were built of what its partitions hold. -/
def UpToDate (c : Collection α) : Prop :=
  ∀ is, c.indexes = some is → ∃ s, is = c.partitions.map (Index.ofList s)

theorem Fresh.upToDate (h : c.Fresh) : c.UpToDate := by
  cases h with
  | placed _ h =>
    intro is his
    rw [(Tiling.partition_spec h).2.1] at his
    cases his
  | loose partitions => exact nofun

theorem UpToDate.call (h : c.UpToDate) (k : Call) : (c.call k).UpToDate := by
  obtain hk | hk | ⟨s, hk⟩ := c.call_cases k <;> rw [hk]
  · exact h
  · exact nofun
  · rintro is ⟨⟩
    exact ⟨s, rfl⟩

theorem UpToDate.after (h : c.UpToDate) (calls : List Call) : (c.after calls).UpToDate := by
  unfold Collection.after
  induction calls generalizing c with
  | nil => exact h
  | cons k calls ih => exact ih (h.call k)

theorem Reached.upToDate (h : c.Reached) : c.UpToDate := by
  obtain ⟨c₀, calls, hfresh, rfl⟩ := h
  exact hfresh.upToDate.after calls

theorem UpToDate.index?_eq (h : c.UpToDate) {i : Nat} {x : Index α} (hx : c.index? i = some x) :
    ∃ s, x = Index.ofList s (c.partition i) := by
  obtain ⟨is, his, hx⟩ := Option.bind_eq_some_iff.mp hx
  obtain ⟨s, rfl⟩ := h is his
  rw [List.getElem?_map, Option.map_eq_some_iff] at hx
  obtain ⟨as, has, rfl⟩ := hx
  refine ⟨s, ?_⟩
  rw [partition, List.getD_eq_getElem?_getD, has, Option.getD_some]

end Collection

end PlanarJoin
