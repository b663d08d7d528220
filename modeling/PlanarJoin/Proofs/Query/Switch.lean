import PlanarJoin.Proofs.Nearest.Scan
import PlanarJoin.Proofs.Query.Nearest

/-!
# The nearest with and without indexes

In a collection without a tiling nothing is owned, so what a search of an index finds is what its
partition gives.  Without the indexes every item is ranked whose distance can be told.  With them
only the items are that the last windows have found.  An item without a proper envelope is in no
index, yet it may have a distance; that of an empty line is zero.  So the switch changes the
distances just if such an item, or any other that no last window has found, is nearer than enough
of what the windows have found.

## Main definitions

* `Index.lastSeen`, `Collection.lastSeen`: what the last windows have found.
* `Collection.passesOver`: an item is not in the index of its partition, or the search of this index
  ends with an infinite window.
* `Collection.considered`, `Collection.passedOver`: the items by that.

## Main results

* `Collection.nearestIn_ofPartitions`: what a partition gives, with and without its index.
* `Collection.nearest_ofPartitions`: the switch changes no distance just if what the windows miss
  does not matter.
-/

namespace PlanarJoin

open Binary64 Envelope

variable {α : Type} [Spatial α] {p : Coord} {k : Nat}

/-! ## The last window of a search -/

namespace Index

variable {i : Index α} {as : List α}

/-- What the last window of a search has found; nothing if no window is searched. -/
def lastSeen (i : Index α) (p : Coord) (k : Nat) : List α :=
  match (i.windows p k).getLast? with
  | some w => w.candidates
  | none => []

/-- A search gives the nearest of what its last window has found. -/
theorem keeps_lastSeen (i : Index α) (p : Coord) (k : Nat) :
    Keeps k (finiteRanked p (i.lastSeen p k)) (i.nearest p k) := by
  rw [lastSeen, nearest, Searchable.nearest, ← windows]
  cases (i.windows p k).getLast? with
  | none => exact keeps_nil
  | some w => exact (nearestOf_spec w.candidates p k).1

theorem Holds.lastSeen_subperm (h : i.Holds as) (p : Coord) (k : Nat) :
    (i.lastSeen p k).Subperm as := by
  unfold lastSeen
  cases hlast : (i.windows p k).getLast? with
  | none => exact List.nil_subperm
  | some w =>
    obtain ⟨r, rfl⟩ := Searchable.exists_eq_window hlast
    exact h.query_subperm _

/-- Where nothing is owned, the first fetch settles. -/
theorem fetches_none (i : Index α) (p : Coord) (k : Nat) :
    i.fetches none p k = [⟨k, i.nearest p k⟩] := by
  have howned : (⟨k, i.nearest p k⟩ : Fetch α).owned none = i.nearest p k :=
    List.filter_eq_self.mpr fun _ _ => rfl
  have hsettles : (⟨k, i.nearest p k⟩ : Fetch α).settles none k = true := by
    rw [Fetch.settles, howned, Bool.or_eq_true, decide_eq_true_eq, decide_eq_true_eq]
    exact le_or_gt k _
  rw [fetches, fetchesFrom, hsettles, if_pos rfl]

theorem nearestOwned_none (i : Index α) (p : Coord) (k : Nat) :
    i.nearestOwned none p k = i.nearest p k := by
  rw [nearestOwned, fetches_none]
  exact List.filter_eq_self.mpr fun _ _ => rfl

theorem blindFor_none (i : Index α) (p : Coord) (k : Nat) :
    i.blindFor none p k = i.blind p k := by
  rw [blindFor, fetches_none]
  rfl

end Index

namespace Collection

/-! ## What is found, and what is passed over -/

/-- What the last window of the search in a partition has found. -/
def lastSeenIn (c : Collection α) (p : Coord) (k i : Nat) : List α :=
  match c.index? i with
  | some x => x.lastSeen p k
  | none => []

/-- What the last windows in all partitions have found. -/
def lastSeen (c : Collection α) (p : Coord) (k : Nat) : List α :=
  (List.range c.count).flatMap (c.lastSeenIn p k)

/-- Whether a partition cannot find an item by its index: an item without a proper envelope is not
in it, and a search that ends with an infinite window finds nothing. -/
def passesOver (c : Collection α) (p : Coord) (k i : Nat) (a : α) : Bool :=
  !hasProperEnvelope a || c.blindIn p k i

/-- The items that their partitions can find by their indexes. -/
def considered (c : Collection α) (p : Coord) (k : Nat) : List α :=
  (List.range c.count).flatMap fun i => (c.partition i).filter (!c.passesOver p k i ·)

/-- The items that their partitions cannot find by their indexes. -/
def passedOver (c : Collection α) (p : Coord) (k : Nat) : List α :=
  (List.range c.count).flatMap fun i => (c.partition i).filter (c.passesOver p k i)

omit [Spatial α] in
theorem flatMap_partition (c : Collection α) :
    (List.range c.count).flatMap c.partition = c.partitions.flatten := by
  have hparts : (List.range c.count).map c.partition = c.partitions := by
    refine List.ext_getElem (by simp [count]) ?_
    intro i hi _
    simp only [List.length_map, List.length_range, count] at hi
    simp [partition, hi]
  rw [List.flatMap_def, hparts]

/-- Every item is considered or passed over. -/
theorem considered_append_passedOver_perm (c : Collection α) (p : Coord) (k : Nat) :
    (c.considered p k ++ c.passedOver p k).Perm c.partitions.flatten := by
  rw [← flatMap_partition]
  refine (List.flatMap_append_perm _ _ _).trans (List.Perm.flatMap_left _ ?_)
  intro i _
  have h := List.filter_append_perm (!c.passesOver p k i ·) (c.partition i)
  simpa only [Bool.not_not] using h

/-! ## Collections without a tiling -/

section Untiled

variable {c : Collection α} {s : IndexSettings} {parts : List (List α)}
  (hc : (ofPartitions parts).buildIndex s = .ok c)

include hc in
theorem indexed_ofPartitions {i : Nat} (hi : i < c.count) :
    c.ownership i = .ok none ∧ c.index? i = some (.ofList s (c.partition i)) := by
  obtain ⟨rfl, -⟩ := buildIndex_spec hc
  exact ⟨rfl, index?_buildIndex hc hi⟩

include hc in
theorem nearestIn_scan_ofPartitions (p : Coord) (k : Nat) {i : Nat} (hi : i < c.count) :
    c.nearestIn p k false i = .ok (nearestOf (c.partition i) p k) := by
  have hall : (c.partition i).filter (ownsObject none) = c.partition i :=
    List.filter_eq_self.mpr fun _ _ => rfl
  rw [nearestIn, (indexed_ofPartitions hc hi).1]
  exact congrArg (fun as => Except.ok (nearestOf as p k)) hall

include hc in
theorem nearestIn_ofPartitions (p : Coord) (k : Nat) {i : Nat} (hi : i < c.count) :
    c.nearestIn p k true i = .ok ((Index.ofList s (c.partition i)).nearest p k) := by
  obtain ⟨hown, hindex⟩ := indexed_ofPartitions hc hi
  rw [nearestIn, hown, hindex]
  exact congrArg Except.ok (Index.nearestOwned_none _ p k)

include hc in
theorem enough_lastSeenIn (p : Coord) (k : Nat) {i : Nat} (hi : i < c.count) :
    Enough k (finiteRanked p (c.lastSeenIn p k i))
      ((Index.ofList s (c.partition i)).nearest p k) := by
  rw [lastSeenIn, (indexed_ofPartitions hc hi).2]
  exact (Index.keeps_lastSeen _ p k).enough

include hc in
/-- The search finds enough of what is not passed over. -/
theorem enough_considered (hs : s.validate = .ok ()) (ht : s.sizeTiered = false)
    (hp : p.isFinite = true) (hseen : SeenWithin p c.partitions.flatten) {i : Nat}
    (hi : i < c.count) :
    Enough k (finiteRanked p ((c.partition i).filter (!c.passesOver p k i ·)))
      ((Index.ofList s (c.partition i)).nearest p k) := by
  obtain ⟨hown, hindex⟩ := indexed_ofPartitions hc hi
  have hblind : c.blindIn p k i = (Index.ofList s (c.partition i)).blind p k := by
    rw [blindIn, hindex, hown]
    exact Index.blindFor_none _ p k
  have hseen' : SeenWithin p ((c.partition i).filter hasProperEnvelope) := by
    intro a ha
    refine hseen a ?_
    rw [← flatMap_partition]
    exact List.mem_flatMap.mpr ⟨i, List.mem_range.mpr hi, (List.mem_filter.mp ha).1⟩
  have hspec := (Index.answers_ofList hs ht (c.partition i)).nearest_spec hp hseen' k
  rw [← hblind] at hspec
  simp only [passesOver]
  cases hb : c.blindIn p k i with
  | true =>
    rw [hb, if_pos rfl] at hspec
    rw [hspec, List.filter_eq_nil_iff.mpr (by simp)]
    exact .refl k []
  | false =>
    rw [hb, if_neg Bool.false_ne_true] at hspec
    simp only [Bool.or_false, Bool.not_not]
    exact hspec.enough

include hc in
theorem lastSeen_subperm (p : Coord) (k : Nat) :
    (c.lastSeen p k).Subperm c.partitions.flatten := by
  rw [← flatMap_partition, lastSeen, List.flatMap_def, List.flatMap_def]
  refine flatten_subperm_of_forall₂ (List.forall₂_map_left_iff.mpr
    (List.forall₂_map_right_iff.mpr (List.forall₂_same.mpr ?_)))
  intro i hi
  rw [lastSeenIn, (indexed_ofPartitions hc (List.mem_range.mp hi)).2]
  exact ((Index.holds_ofList s _).lastSeen_subperm p k).trans List.filter_sublist.subperm

include hc in
theorem nearest_scan_ofPartitions (p : Coord) (k : Nat) :
    ∃ out, c.nearest p k false = .ok out ∧ out.Pairwise (·.key ≤ ·.key) ∧
      Keeps k (finiteRanked p c.partitions.flatten) out := by
  have hgiven (i : Nat) (hi : i < c.count) : ∃ es, c.nearestIn p k false i = .ok es ∧
      Enough k (finiteRanked p (c.partition i)) es :=
    ⟨_, nearestIn_scan_ofPartitions hc p k hi, (nearestOf_spec (c.partition i) p k).1.enough⟩
  obtain ⟨lists, hout, hall⟩ := nearest_of_parts rfl (absurd · Bool.false_ne_true) hgiven
  rw [← flatMap_partition]
  exact ⟨_, hout, (mergeNearest_spec lists k).2, keeps_mergeNearest hall⟩

include hc in
/-- By the indexes the nearest of what the last windows have found are given.  Where windows see
what is near, these are the nearest of what is not passed over. -/
theorem nearest_indexed_ofPartitions (hs : s.validate = .ok ()) (ht : s.sizeTiered = false)
    (hp : p.isFinite = true) (k : Nat) :
    ∃ out, c.nearest p k true = .ok out ∧ out.Pairwise (·.key ≤ ·.key) ∧
      Keeps k (finiteRanked p (c.lastSeen p k)) out ∧
      (SeenWithin p c.partitions.flatten → Keeps k (finiteRanked p (c.considered p k)) out) := by
  have hidx : c.hasIndex = true := by
    obtain ⟨rfl, -⟩ := buildIndex_spec hc
    rfl
  have hgiven (i : Nat) (hi : i < c.count) : ∃ es, c.nearestIn p k true i = .ok es ∧
      Enough k (finiteRanked p (c.lastSeenIn p k i)) es ∧ (SeenWithin p c.partitions.flatten →
        Enough k (finiteRanked p ((c.partition i).filter (!c.passesOver p k i ·))) es) :=
    ⟨_, nearestIn_ofPartitions hc p k hi, enough_lastSeenIn hc p k hi,
      fun hseen => enough_considered hc hs ht hp hseen hi⟩
  obtain ⟨lists, hout, hall⟩ := nearest_of_parts rfl (fun _ => hidx) hgiven
  refine ⟨_, hout, (mergeNearest_spec lists k).2, ?_, ?_⟩
  · exact keeps_mergeNearest (hall.imp fun _ _ h => h.1)
  · intro hseen
    exact keeps_mergeNearest (hall.imp fun _ _ h => h.2 hseen)

end Untiled

/-- The nearest of a collection without a tiling, with and without its indexes.  Without, they have
the smallest distances of all items; with, the smallest of what the last windows have found.  The
distances are the same just if each item that no last window has found is at least as far as `k`
that are found.  Where windows see what is near, the items to be looked at are those without a
proper envelope and those of partitions whose last window is infinite. -/
theorem nearest_ofPartitions {s : IndexSettings} (hs : s.validate = .ok ())
    (ht : s.sizeTiered = false) (parts : List (List α)) (hp : p.isFinite = true) (k : Nat) :
    ∃ c indexed scanned missed, (ofPartitions parts).buildIndex s = .ok c ∧
      c.nearest p k true = .ok indexed ∧ c.nearest p k false = .ok scanned ∧
      indexed.map Ranked.key = smallest k ((finiteRanked p (c.lastSeen p k)).map Ranked.key) ∧
      scanned.map Ranked.key = smallest k ((finiteRanked p parts.flatten).map Ranked.key) ∧
      (c.lastSeen p k ++ missed).Perm parts.flatten ∧
      (SameDistances indexed scanned ↔ ∀ e ∈ finiteRanked p missed,
        k ≤ (finiteRanked p (c.lastSeen p k)).countP (·.key ≤ e.key)) ∧
      (SeenWithin p parts.flatten →
        (SameDistances indexed scanned ↔ ∀ e ∈ finiteRanked p (c.passedOver p k),
          k ≤ (finiteRanked p (c.considered p k)).countP (·.key ≤ e.key))) := by
  have hc := buildIndex_ok hs (ofPartitions parts)
  obtain ⟨indexed, hindexed, hasc, hfound, hnoticed⟩ := nearest_indexed_ofPartitions hc hs ht hp k
  obtain ⟨scanned, hscanned, hasc', hall⟩ := nearest_scan_ofPartitions hc p k
  have hnum : ∀ e ∈ finiteRanked p parts.flatten, e.distance.isNaN = false := fun e he =>
    isNaN_of_isFinite (mem_finiteRanked.mp he).2
  obtain ⟨found, hperm, hsub⟩ := lastSeen_subperm hc p k
  obtain ⟨missed, hmissed⟩ := hsub.exists_perm_append
  have hparts := (hperm.symm.append_right missed).trans hmissed.symm
  refine ⟨_, indexed, scanned, missed, hc, hindexed, hscanned, hfound.map_key hasc,
    hall.map_key hasc', hparts, ?_, ?_⟩
  · refine hfound.sameDistances_append_iff hall ?_ hnum hasc hasc'
    rw [← finiteRanked_append]
    exact finiteRanked_perm hparts
  · intro hseen
    refine (hnoticed hseen).sameDistances_append_iff hall ?_ hnum hasc hasc'
    rw [← finiteRanked_append]
    exact finiteRanked_perm (considered_append_passedOver_perm _ p k)

/-- An empty path and a point at distance five from the origin. -/
def partsWithNothing : List (List (Feature Nat)) :=
  [[⟨1, .single (.path [])⟩, ⟨2, .single (.point ⟨3.0, 4.0⟩)⟩]]

/-- Without the index the empty path is the nearest, at distance zero; by the index the point is. -/
theorem nearest_partsWithNothing : ∃ c indexed scanned,
    (ofPartitions partsWithNothing).buildIndex quadrantSettings = .ok c ∧
    c.nearest ⟨0.0, 0.0⟩ 1 true = .ok indexed ∧ c.nearest ⟨0.0, 0.0⟩ 1 false = .ok scanned ∧
    indexed.map (·.item.id) = [2] ∧ scanned.map (·.item.id) = [1] ∧
    ¬ SameDistances indexed scanned := by
  obtain ⟨c, indexed, scanned, -, hc, hindexed, hscanned, -⟩ :=
    nearest_ofPartitions (s := quadrantSettings) IndexSettings.validate_default rfl
      partsWithNothing (p := ⟨0.0, 0.0⟩) rfl 1
  have hrun (useIndex : Bool) :
      (((ofPartitions partsWithNothing).buildIndex quadrantSettings).toOption.bind fun c =>
        (c.nearest ⟨0.0, 0.0⟩ 1 useIndex).toOption.map fun out =>
          (out.map (·.item.id), out.map Ranked.key)) =
        some (if useIndex then ([2], [rank 5.0]) else ([1], [0])) := by
    cases useIndex <;> decide +kernel
  have hpoint := hrun true
  have hpath := hrun false
  simp only [Except.toOption, Option.bind_some, hc, hindexed, hscanned, Option.map_some,
    Option.some.injEq, if_true, Bool.false_eq_true, if_false, Prod.mk.injEq] at hpoint hpath
  refine ⟨c, indexed, scanned, hc, hindexed, hscanned, hpoint.1, hpath.1, ?_⟩
  intro hsame
  have hkeys := hsame.map_key
  rw [hpoint.2, hpath.2] at hkeys
  exact absurd hkeys (by decide)

end Collection

end PlanarJoin
