import PlanarJoin.Proofs.Index.Contents
import PlanarJoin.Proofs.Tiling.History

/-!
# Indexes of a collection come and go

Indexes are built of all partitions before any is put in place, so building them fails as a whole or
not at all.  It fails at the first partition, if the settings are not valid; a collection without
partitions is indexed under any settings.  Whatever was built and dropped before, an index that is
there holds what its partition holds.

## Main definitions

* `Collection.Built`: a collection whose indexes, if it has any, were built under valid settings.

## Main results

* `Collection.build_eq_error`: when indexes cannot be built.
* `Collection.Built.call`, `Collection.Built.after`: what one call keeps, and what all keep.
* `Collection.indexes_after`: what the partitions and the indexes are after any calls.
-/

namespace PlanarJoin

namespace Collection

variable {α : Type} [Spatial α] {c : Collection α} {s : IndexSettings}

/-- Indexes cannot be built of some partitions under settings that are not valid, and then for the
reason why these are not. -/
theorem build_eq_error {f : Failure} : (c.build s).1 = .error f ↔
    c.partitions ≠ [] ∧ s.validate = .error f := by
  cases hs : s.validate with
  | ok u =>
    rw [build_ok hs]
    constructor
    · intro h
      cases h
    · rintro ⟨-, h⟩
      cases h
  | error g =>
    have hload (as : List α) : Index.load s as = .error g := by
      rw [Index.load, hs]
      rfl
    unfold build
    cases hp : c.partitions with
    | nil =>
      constructor
      · intro h
        cases h
      · rintro ⟨hne, -⟩
        exact absurd rfl hne
    | cons as parts =>
      rw [buildFrom, hload]
      exact (and_iff_right (List.cons_ne_nil as parts)).symm

/-- A collection whose indexes, if it has any, were built of what its partitions hold.  The settings
were valid, unless there is no partition. -/
def Built (c : Collection α) : Prop :=
  ∀ is, c.indexes = some is →
    ∃ s, is = c.partitions.map (Index.ofList s) ∧ (c.partitions ≠ [] → s.validate = .ok ())

/-- One call keeps this. -/
theorem Built.call (h : c.Built) (k : Call) : (c.call k).Built := by
  cases k with
  | drop =>
    intro is his
    cases his
  | build s =>
    rw [Collection.call]
    cases hb : (c.build s).1 with
    | error f =>
      rw [build_of_error hb]
      exact h
    | ok u =>
      obtain ⟨hc, hs⟩ := build_of_ok hb
      rw [hc]
      rintro is ⟨⟩
      exact ⟨s, rfl, hs⟩

theorem Built.after (h : c.Built) (calls : List Call) : (c.after calls).Built := by
  unfold Collection.after
  induction calls generalizing c with
  | nil => exact h
  | cons k calls ih => exact ih (h.call k)

/-- A collection begins without indexes. -/
theorem Fresh.built (h : c.Fresh) : c.Built := by
  cases h with
  | placed _ h =>
    intro is his
    rw [(Tiling.partition_spec h).2.1] at his
    cases his
  | loose partitions =>
    intro is his
    cases his

theorem Built.isSome_index? (h : c.Built) (i : Nat) :
    (c.index? i).isSome = true ↔ c.hasIndex = true ∧ i < c.count := by
  rw [index?, hasIndex]
  cases his : c.indexes with
  | none => exact iff_of_false Bool.false_ne_true fun h => Bool.false_ne_true h.1
  | some is =>
    obtain ⟨s, rfl, -⟩ := h is his
    simp [count]

/-- An index that is there was built of what its partition holds, under valid settings. -/
theorem Built.exists_settings (h : c.Built) {i : Nat} {x : Index α} (hx : c.index? i = some x) :
    ∃ s, s.validate = .ok () ∧ x = Index.ofList s (c.partition i) := by
  obtain ⟨is, his, hx⟩ := Option.bind_eq_some_iff.mp hx
  obtain ⟨s, rfl, hs⟩ := h is his
  rw [List.getElem?_map, Option.map_eq_some_iff] at hx
  obtain ⟨as, has, rfl⟩ := hx
  refine ⟨s, hs (List.ne_nil_of_mem (List.mem_of_getElem? has)), ?_⟩
  rw [partition, List.getD_eq_getElem?_getD, has, Option.getD_some]

/-- After any calls that build indexes under any settings and drop them, the partitions and the
tiling are those of the beginning.  If there are indexes, there is one of each partition; it holds
the objects of the partition with a proper envelope, each once, and has counted all of them.
Building indexes fails just if there is a partition and the settings are not valid, and then it
leaves the collection as it is, with the indexes that it has. -/
theorem indexes_after {c₀ : Collection α} (h : c₀.Fresh) (calls : List Call) :
    ((c₀.after calls).partitions = c₀.partitions ∧ (c₀.after calls).tiling = c₀.tiling) ∧
    (∀ i, ((c₀.after calls).index? i).isSome = true ↔
      (c₀.after calls).hasIndex = true ∧ i < c₀.count) ∧
    (∀ i x, (c₀.after calls).index? i = some x →
      x.contents.Perm ((c₀.partition i).filter hasProperEnvelope) ∧
      x.size = x.contents.length ∧ x.size + x.ignored = (c₀.partition i).length) ∧
    ∀ s f, ((c₀.after calls).buildIndex s = .error f ↔
        c₀.partitions ≠ [] ∧ s.validate = .error f) ∧
      ((c₀.after calls).buildIndex s = .error f →
        c₀.after (calls ++ [.build s]) = c₀.after calls) := by
  have hbuilt := h.built.after calls
  have hparts := c₀.partitions_after calls
  have hcount : (c₀.after calls).count = c₀.count := congrArg List.length hparts
  have hpart (i : Nat) : (c₀.after calls).partition i = c₀.partition i := by
    rw [partition, partition, hparts]
  refine ⟨⟨hparts, c₀.tiling_after calls⟩, fun i => ?_, fun i x hx => ?_,
    fun s f => ⟨?_, fun hf => ?_⟩⟩
  · rw [hbuilt.isSome_index?, hcount]
  · obtain ⟨s, hs, rfl⟩ := hbuilt.exists_settings hx
    rw [hpart]
    have hcontents := Index.contents_ofList hs (c₀.partition i)
    refine ⟨hcontents, ?_, ?_⟩
    · rw [hcontents.length_eq, (Index.holds_ofList s (c₀.partition i)).size]
    · exact (Index.counts_insertAll s.emptyIndex (c₀.partition i)).trans (Nat.zero_add _)
  · rw [buildIndex_eq_error, build_eq_error, hparts]
  · rw [after, List.foldl_append]
    exact build_of_error (buildIndex_eq_error.mp hf)

/-- Settings whose nodes are too small. -/
def cramped : IndexSettings :=
  { IndexSettings.default with nodeCapacity := 1 }

/-- A point and nothing, and an empty partition. -/
def pointAndNothing : Collection (Feature Nat) :=
  .ofPartitions [[⟨1, .single (.point ⟨1.0, 1.0⟩)⟩, ⟨2, .multiPoint []⟩], []]

/-- Building indexes with nodes that are too small fails and leaves those that were built before. -/
theorem indexes_after_cramped :
    pointAndNothing.after [.build .default, .build cramped] =
      pointAndNothing.after [.build .default] ∧
    ∃ x, (pointAndNothing.after [.build .default, .build cramped]).index? 0 = some x ∧
      x.contents.length = 1 ∧ x.size + x.ignored = 2 := by
  have hfresh : pointAndNothing.Fresh := .loose _
  have hinvalid : cramped.validate = .error (.smallNodes 1) := rfl
  have hindexed : (pointAndNothing.after [.build .default]).hasIndex = true := by
    change (pointAndNothing.call (.build .default)).hasIndex = true
    rw [call, (build_of_ok (build_ok IndexSettings.validate_default pointAndNothing)).1]
    rfl
  obtain ⟨-, hsome, hholds, hbuild⟩ := indexes_after hfresh [.build .default]
  obtain ⟨hfails, hsame⟩ := hbuild cramped (.smallNodes 1)
  have hkept := hsame (hfails.mpr ⟨List.cons_ne_nil _ _, hinvalid⟩)
  obtain ⟨x, hx⟩ := Option.isSome_iff_exists.mp ((hsome 0).mpr ⟨hindexed, by decide⟩)
  obtain ⟨hcontents, -, hcounted⟩ := hholds 0 x hx
  refine ⟨hkept, x, (congrArg (·.index? 0) hkept).trans hx, ?_, hcounted⟩
  rw [hcontents.length_eq]
  decide +kernel

end Collection

end PlanarJoin
