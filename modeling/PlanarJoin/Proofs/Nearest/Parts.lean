import PlanarJoin.Proofs.Nearest.Scan

/-!
# The nearest of parts

Items are searched in parts, and the nearest of the parts are merged.  A part gives up an item only
for as many others of its own as are asked for, none of them farther, so nothing that it gives up is
missed.  How the items are divided, and in which order the parts come, decides at most which of
several items at one distance are given.

## Main results

* `keeps_mergeNearest`: if every part gives enough of some items, the nearest of all these are
  given.
* `keeps_mergeNearest_parts`: the nearest of the parts are the nearest of the whole.
* `mergeNearest_parts`: they have the distances of a selection from the whole, and are some of the
  items with their own distances.
-/

namespace PlanarJoin

open Binary64

variable {α : Type} [Spatial α] {p : Coord} {k : Nat}

/-- If every part gives enough of some items, the nearest of all these are taken. -/
theorem keeps_mergeNearest {ι : Type} {l : List ι} {f : ι → List α}
    {lists : List (List (Ranked α))}
    (h : List.Forall₂ (fun i es => Enough k (finiteRanked p (f i)) es) l lists) :
    Keeps k (finiteRanked p (l.flatMap f)) (mergeNearest lists k) := by
  have henough := enough_flatten
    ((List.forall₂_map_left_iff (f := fun i => finiteRanked p (f i))).mpr h)
  rw [← finiteRanked_flatMap] at henough
  have hfinite : lists.flatten.filter Ranked.isFinite = lists.flatten :=
    List.filter_eq_self.mpr fun e he => (mem_finiteRanked.mp (henough.mem he)).2
  have hkeeps := (mergeNearest_spec lists k).1
  rw [hfinite] at hkeeps
  exact hkeeps.of_enough henough

/-- The nearest of the parts are the nearest of the whole. -/
theorem keeps_mergeNearest_parts {parts : List (List α)} {as : List α}
    (h : parts.flatten.Perm as) :
    Keeps k (finiteRanked p as) (mergeNearest (parts.map fun part => nearestOf part p k) k) := by
  have hparts : List.Forall₂ (fun part es => Enough k (finiteRanked p part) es) parts
      (parts.map fun part => nearestOf part p k) :=
    List.forall₂_map_right_iff.mpr
      (List.forall₂_same.mpr fun part _ => (nearestOf_spec part p k).1.enough)
  have hkeeps := keeps_mergeNearest (f := fun part : List α => part) hparts
  rw [List.flatMap_id'] at hkeeps
  exact hkeeps.congr (finiteRanked_perm h) .rfl

/-- Items divided into parts in any way: the nearest of the parts have, place by place, the
distances of the nearest of all items, in ascending order.  They are some of the items, none more
often than it occurs, each at its own distance, and as many as there are at a finite distance, up to
`k`.  In whatever order the parts come, the distances are the same. -/
theorem mergeNearest_parts {parts : List (List α)} {as : List α} (h : parts.flatten.Perm as)
    (p : Coord) (k : Nat) :
    let merged := mergeNearest (parts.map fun part => nearestOf part p k) k
    SameDistances merged (nearestOf as p k) ∧
      merged.Pairwise (·.distance ≤ ·.distance) ∧
      (merged.map (·.item)).Subperm as ∧
      (∀ e ∈ merged, distanceTo e.item p = .ok e.distance) ∧
      merged.length = min k (as.filter (hasFiniteDistance p)).length ∧
      ∀ parts' : List (List α), parts'.Perm parts →
        SameDistances (mergeNearest (parts'.map fun part => nearestOf part p k) k) merged := by
  intro merged
  have hnum : ∀ e ∈ finiteRanked p as, e.distance.isNaN = false := fun e he =>
    isNaN_of_isFinite (mem_finiteRanked.mp he).2
  have hkeeps : Keeps k (finiteRanked p as) merged := keeps_mergeNearest_parts h
  have hsorted : merged.Pairwise (·.key ≤ ·.key) := (mergeNearest_spec _ k).2
  obtain ⟨hwhole, hwhole'⟩ := nearestOf_spec as p k
  refine ⟨hkeeps.sameDistances hwhole hnum hsorted hwhole', hkeeps.pairwise_le hnum hsorted,
    ?_, ?_, ?_, ?_⟩
  · obtain ⟨es, hperm, hsub⟩ := hkeeps.subperm
    have hitems := hsub.map (·.item)
    rw [map_item_finiteRanked] at hitems
    exact ⟨es.map (·.item), hperm.map _, hitems.trans List.filter_sublist⟩
  · intro e he
    exact (mem_finiteRanked.mp (hkeeps.subperm.subset he)).1.2
  · rw [hkeeps.1, ← map_item_finiteRanked, List.length_map]
  · intro parts' hparts
    have hkeeps' := keeps_mergeNearest_parts (p := p) (k := k) (hparts.flatten.trans h)
    exact hkeeps'.sameDistances hkeeps hnum (mergeNearest_spec _ k).2 hsorted

/-- Four points and nothing in four parts, one of them empty.  The two points at distance five from
the origin are in different parts. -/
def dividedFeatures : List (List (Feature Nat)) :=
  [[⟨1, .single (.point ⟨3.0, 4.0⟩)⟩, ⟨2, .single (.point ⟨6.0, 8.0⟩)⟩,
      ⟨3, .single (.point ⟨5.0, 12.0⟩)⟩],
    [], [⟨4, .single (.point ⟨4.0, 3.0⟩)⟩], [⟨5, .multiPoint []⟩]]

/-- In the other order the parts give the other of the two points, at the same distance. -/
theorem mergeNearest_dividedFeatures :
    (mergeNearest (dividedFeatures.map fun part => nearestOf part ⟨0.0, 0.0⟩ 1) 1).map
      (·.item.id) = [1] ∧
    (mergeNearest (dividedFeatures.reverse.map fun part => nearestOf part ⟨0.0, 0.0⟩ 1) 1).map
      (·.item.id) = [4] ∧
    SameDistances
      (mergeNearest (dividedFeatures.reverse.map fun part => nearestOf part ⟨0.0, 0.0⟩ 1) 1)
      (mergeNearest (dividedFeatures.map fun part => nearestOf part ⟨0.0, 0.0⟩ 1) 1) := by
  obtain ⟨-, -, -, -, -, hsame⟩ :=
    mergeNearest_parts (List.Perm.refl dividedFeatures.flatten) ⟨0.0, 0.0⟩ 1
  exact ⟨by decide +kernel, by decide +kernel, hsame _ (List.reverse_perm _)⟩

end PlanarJoin
