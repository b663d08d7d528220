import PlanarJoin.Proofs.Index.Candidates

/-!
# What a query gives

What a query of each kind of index gives, after any calls and whatever the index is laid out over.
Packed trees and trees of quadrants are exact: they give the items whose envelopes meet the one that
is asked for.  Buckets give the items that reach one of its buckets.  Tiers give the items whose
centers are near enough, and may miss one that meets it.

## Main results

* `Index.query_packed`: packed trees are exact, completing one changes no query, and its extent is
  the smallest.
* `Index.query_quadrants`: trees of quadrants are exact.
* `Index.query_buckets`: buckets give, in order, the items whose rectangles overlap.
* `Index.query_tiers`: tiers give, in order, the items whose buckets are reached.
-/

namespace PlanarJoin.Index

open Envelope Binary64

section Queries

variable {α : Type}

/-- An empty packed tree. -/
def emptyPacked (capacity : Nat) : Index α :=
  ofStore (.packed (.withCapacity capacity))

/-- An empty tree of quadrants of a box. -/
def emptyQuadrants (extent : Envelope) : Index α :=
  ofStore (.quadrants (.whole extent []))

/-- Empty tiers over a box, for buckets of some sizes. -/
def emptyTiers (extent : Envelope) (sizes : List (Float × Float)) : Index α :=
  ofStore (.tiers (.ofSizes extent sizes))

/-- Empty buckets over a box. -/
def emptyBuckets (extent : Envelope) (columns rows : Nat) : Index α :=
  ofStore (.grid (.ofLayout (.make extent columns rows)))

variable [Spatial α] {i : Index α} {e : Envelope}

theorem query_after_perm (hi : i.Holds []) (hf : i.store.frame = .tree) (calls : List (Call α))
    (he : e.isProper = true) : ((i.after calls).query e).Perm
      ((inserted calls).filter fun a => hasProperEnvelope a && touches e a) := by
  have hstore := (holds_after hi calls).store
  rw [List.nil_append] at hstore
  rw [query, if_pos he, ← List.filter_filter, List.filter_comm]
  exact hstore.query_perm ((frame_after i calls).trans hf) (ordered_of_isProper he)

/-! ## Packed trees -/

/-- A packed tree of any capacity, after any calls: a query gives each item with a proper envelope
that meets the one asked for, wherever it is kept; completing the tree changes no query; and the
extent is the smallest envelope around the items. -/
theorem query_packed (capacity : Nat) (calls : List (Call α)) :
    (∀ e : Envelope, e.isProper = true → (((emptyPacked capacity).after calls).query e).Perm
      ((inserted calls).filter fun a => hasProperEnvelope a && touches e a)) ∧
    (∀ e : Envelope, (((emptyPacked capacity).after calls).build.query e).Perm
      (((emptyPacked capacity).after calls).query e)) ∧
    IsSmallest ((emptyPacked capacity).after calls).extent
      (((inserted calls).filter hasProperEnvelope).map Spatial.envelope) := by
  have hempty : (emptyPacked capacity : Index α).Holds [] :=
    holds_ofStore (PackedTree.holds_withCapacity capacity)
  have hquery (cs : List (Call α)) {e : Envelope} (he : e.isProper = true) :
      (((emptyPacked capacity).after cs).query e).Perm
        ((inserted cs).filter fun a => hasProperEnvelope a && touches e a) :=
    query_after_perm hempty rfl cs he
  refine ⟨fun e => hquery calls, ?_, ?_⟩
  · intro e
    by_cases he : e.isProper = true
    · have hbuilt := hquery (calls ++ [.build]) he
      rw [after_append_build, inserted_append_build] at hbuilt
      exact hbuilt.trans (hquery calls he).symm
    · rw [query, if_neg he, query, if_neg he]
  · have hholds := holds_after hempty calls
    rw [hholds.extent, List.nil_append]
    refine isSmallest_hullAll ?_
    intro e he
    obtain ⟨a, ha, rfl⟩ := List.mem_map.mp he
    exact ordered_of_isProper (hholds.proper a ha)

/-- A point, nothing, a box and a point far off; the index is completed in between. -/
def scattered : List (Call (Feature Nat)) :=
  [.insert ⟨1, .single (.point ⟨1.0, 1.0⟩)⟩, .insert ⟨2, .multiPoint []⟩, .build,
    .insert ⟨3, .single (.ofCorners ⟨-2.0, 3.0⟩ ⟨7.0, 9.0⟩)⟩,
    .insert ⟨4, .single (.point ⟨50.0, 60.0⟩)⟩]

/-- A packed and a pending item are both found. -/
theorem query_packed_scattered :
    ((((emptyPacked 2).after scattered).query ⟨0.0, 5.0, 0.0, 5.0⟩).map (·.id)).Perm [1, 3] := by
  have hquery := (query_packed 2 scattered).1 ⟨0.0, 5.0, 0.0, 5.0⟩ (by decide)
  have hids : ((inserted scattered).filter fun a =>
      hasProperEnvelope a && touches ⟨0.0, 5.0, 0.0, 5.0⟩ a).map (·.id) = [1, 3] := by
    decide +kernel
  have hfound := hquery.map (·.id)
  rwa [hids] at hfound

/-! ## Trees of quadrants -/

/-- A tree of quadrants of any box, after any calls: a query gives each item with a proper envelope
that meets the one asked for, whether the box covers the item or not. -/
theorem query_quadrants (extent : Envelope) (calls : List (Call α)) (he : e.isProper = true) :
    (((emptyQuadrants extent).after calls).query e).Perm
      ((inserted calls).filter fun a => hasProperEnvelope a && touches e a) := by
  have hempty : (emptyQuadrants extent : Index α).Holds [] := holds_ofStore ⟨trivial, .rfl⟩
  exact query_after_perm hempty rfl calls he

/-- An item outside of the box and one across its border are both found. -/
theorem query_quadrants_scattered :
    ((((emptyQuadrants ⟨0.0, 4.0, 0.0, 4.0⟩).after scattered).query
      ⟨6.0, 50.0, 6.0, 60.0⟩).map (·.id)).Perm [3, 4] := by
  have hproper : (⟨6.0, 50.0, 6.0, 60.0⟩ : Envelope).isProper = true := by decide +kernel
  have hquery := query_quadrants ⟨0.0, 4.0, 0.0, 4.0⟩ scattered hproper
  have hids : ((inserted scattered).filter fun a =>
      hasProperEnvelope a && touches ⟨6.0, 50.0, 6.0, 60.0⟩ a).map (·.id) = [3, 4] := by
    decide +kernel
  have hfound := hquery.map (·.id)
  rwa [hids] at hfound

/-! ## Buckets -/

/-- Buckets over any box, after any calls: a query gives, in the order of insertion, the items with
a proper envelope whose rectangle of buckets overlaps that of the envelope asked for.  All that meet
it are among them, wherever they are, if division by the width and by the height of the box is
monotone.  It is for every box but those that measure `-0.0` (`dividesInOrder_width`). -/
theorem query_buckets (extent : Envelope) (columns rows : Nat) (calls : List (Call α))
    (he : e.isProper = true) :
    ((emptyBuckets extent columns rows).after calls).query e =
      (inserted calls).filter (fun a => hasProperEnvelope a &&
        !decide (Disjoint ((Layout.make extent columns rows).rectangle (Spatial.envelope a))
          ((Layout.make extent columns rows).rectangle e))) ∧
    (DividesInOrder extent.width → DividesInOrder extent.height →
      ((inserted calls).filter fun a => hasProperEnvelope a && touches e a).Sublist
        (((emptyBuckets extent columns rows).after calls).query e)) := by
  have hempty : (emptyBuckets extent columns rows : Index α).Holds [] :=
    holds_ofStore (Grid.holds_empty _)
  have hholds := holds_after hempty calls
  have hlayout := layout?_after (emptyBuckets extent columns rows : Index α) calls
  have hquery : ((emptyBuckets extent columns rows).after calls).query e =
      ((inserted calls).filter hasProperEnvelope).filter
        (Grid.shares (.make extent columns rows) e) := by
    rw [query, if_pos he]
    exact hholds.store.query_eq hlayout e
  obtain ⟨hc, -⟩ := Layout.counts_make extent columns rows
  refine ⟨?_, ?_⟩
  · have hshares (a : α) : Grid.shares (.make extent columns rows) e a =
        !decide (Disjoint ((Layout.make extent columns rows).rectangle (Spatial.envelope a))
          ((Layout.make extent columns rows).rectangle e)) := by
      rw [Bool.eq_iff_iff, Grid.shares_iff ⟨hc.1, hc.2.le⟩, Bool.not_eq_true',
        decide_eq_false_iff_not]
    rw [hquery, List.filter_filter]
    exact List.filter_congr fun a _ => by rw [Bool.and_comm, hshares]
  · intro hw hh
    have hregular := Layout.regular_make hw hh columns rows
    rw [hquery, List.filter_filter]
    apply List.monotone_filter_right
    intro a ha
    obtain ⟨hproper, hmeets⟩ := Bool.and_eq_true_iff.mp ha
    exact Bool.and_eq_true_iff.mpr ⟨Grid.shares_of_touches hregular he hproper hmeets, hproper⟩

/-- A box without a width, features on both sides of it. -/
theorem query_buckets_scattered :
    (((emptyBuckets ⟨3.0, 3.0, 0.0, 4.0⟩ 2 2).after scattered).query ⟨0.0, 5.0, 0.0, 5.0⟩).map
      (·.id) = [1, 3, 4] ∧
    (((inserted scattered).filter fun a => hasProperEnvelope a &&
        touches ⟨0.0, 5.0, 0.0, 5.0⟩ a).Sublist
      (((emptyBuckets ⟨3.0, 3.0, 0.0, 4.0⟩ 2 2).after scattered).query ⟨0.0, 5.0, 0.0, 5.0⟩)) := by
  have hwidth : (⟨3.0, 3.0, 0.0, 4.0⟩ : Envelope).width ≠ -0.0 := fun h =>
    absurd (congrArg Float.toBits h) (by decide)
  have hheight : (⟨3.0, 3.0, 0.0, 4.0⟩ : Envelope).height ≠ -0.0 := fun h =>
    absurd (congrArg Float.toBits h) (by decide)
  obtain ⟨hquery, hmeets⟩ := query_buckets ⟨3.0, 3.0, 0.0, 4.0⟩ 2 2 scattered
    (e := ⟨0.0, 5.0, 0.0, 5.0⟩) (by decide)
  refine ⟨?_, hmeets (dividesInOrder_width.mpr hwidth) (dividesInOrder_height.mpr hheight)⟩
  rw [hquery]
  decide +kernel

/-! ## Tiers -/

/-- Tiers of any sizes over any box, after any calls: a query gives, in the order of insertion, the
items with a proper envelope that fit no tier, or whose bucket in the first tier that they fit is
reached.  An item that meets the envelope is among them if half a bucket of that tier bridges the
distance from the ends of the item to its center. -/
theorem query_tiers (extent : Envelope) (sizes : List (Float × Float)) (calls : List (Call α))
    (he : e.isProper = true) :
    ((emptyTiers extent sizes).after calls).query e =
      (inserted calls).filter (fun a => hasProperEnvelope a &&
        Tiers.finds (Tiers.ofSizes extent sizes : Tiers α).tiers e (Spatial.envelope a)) ∧
    ∀ a ∈ inserted calls, hasProperEnvelope a = true → touches e a = true →
      (∀ t, (Tiers.ofSizes extent sizes : Tiers α).tiers.find? (·.fits (Spatial.envelope a)) =
        some t → t.Bridges (Spatial.envelope a)) →
      a ∈ ((emptyTiers extent sizes).after calls).query e := by
  have hempty : (emptyTiers extent sizes : Index α).Holds [] :=
    holds_ofStore (Tiers.holds_ofSizes extent sizes)
  have hstore := (holds_after hempty calls).store
  rw [List.nil_append] at hstore
  have hquery : ((emptyTiers extent sizes).after calls).query e =
      (inserted calls).filter (fun a => hasProperEnvelope a &&
        Tiers.finds (Tiers.ofSizes extent sizes : Tiers α).tiers e (Spatial.envelope a)) := by
    have hframe := frame_after (emptyTiers extent sizes : Index α) calls
    rw [query, if_pos he, hstore.query_finds hframe, List.filter_filter]
    exact List.filter_congr fun a _ => Bool.and_comm _ _
  refine ⟨hquery, ?_⟩
  intro a ha hproper hmeets hbridges
  have hfound : Tiers.finds (Tiers.ofSizes extent sizes : Tiers α).tiers e (Spatial.envelope a) =
      true :=
    Tiers.finds_of_bridges (Tiers.regular_ofSizes extent sizes) hproper he hmeets hbridges
  rw [hquery, List.mem_filter, hproper, hfound]
  exact ⟨ha, rfl⟩

/-- A line whose width is rounded down to that of a bucket, and a point to the right of it. -/
def roundedLine : List (Call (Feature Nat)) :=
  [.insert ⟨7, .single (.line ⟨-0.5000000000000001, 0.0⟩ ⟨0.49999999999999994, 0.0⟩)⟩,
    .insert ⟨8, .single (.point ⟨0.5, 0.0⟩)⟩]

/-- The center of the line is one bucket off: a query that meets both finds the point only. -/
theorem query_tiers_roundedLine :
    ((inserted roundedLine).filter fun a => hasProperEnvelope a &&
      touches ⟨0.49999999999999994, 0.75, 0.0, 0.0⟩ a).map (·.id) = [7, 8] ∧
    (((emptyTiers ⟨-1.0, 1.0, -1.0, 1.0⟩ [(1.0, 1.0)]).after roundedLine).query
      ⟨0.49999999999999994, 0.75, 0.0, 0.0⟩).map (·.id) = [8] ∧
    (⟨8, .single (.point ⟨0.5, 0.0⟩)⟩ : Feature Nat) ∈
      ((emptyTiers ⟨-1.0, 1.0, -1.0, 1.0⟩ [(1.0, 1.0)]).after roundedLine).query
        ⟨0.49999999999999994, 0.75, 0.0, 0.0⟩ := by
  obtain ⟨hquery, hmeets⟩ := query_tiers ⟨-1.0, 1.0, -1.0, 1.0⟩ [(1.0, 1.0)] roundedLine
    (e := ⟨0.49999999999999994, 0.75, 0.0, 0.0⟩) (by decide +kernel)
  refine ⟨by decide +kernel, ?_, hmeets _ ?_ (by decide +kernel) (by decide +kernel) ?_⟩
  · rw [hquery]
    decide +kernel
  · exact List.mem_cons_of_mem _ List.mem_cons_self
  · intro t ht
    exact Tier.bridges_ofPoint
      (Tiers.regular_ofSizes _ _ t (List.mem_of_find?_eq_some ht)) (by decide) (by decide)

end Queries

end PlanarJoin.Index
