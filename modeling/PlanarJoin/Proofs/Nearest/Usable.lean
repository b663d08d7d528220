import PlanarJoin.Proofs.Index.Exactness
import PlanarJoin.Proofs.Matching.Containment
import PlanarJoin.Proofs.Nearest.Scan

/-!
# Objects that cannot be used do not matter

An object with a coordinate that is not finite fails every test and has no distance.  Its envelope
may still be proper, and then it stands in an index, shifts what is packed or split and enlarges the
extent.  All the same, what an index leads to depends on what it is laid out over and not on what
else it holds, and a search that sees enough finds the nearest from wherever it starts.  So without
such objects the pairs and the distances are the same.

Tiers, and buckets of a box that measures `-0.0`, miss what meets a window.  There such an object
decides whether the first window already covers the extent, and so what is found.

## Main definitions

* `isUsable`: whether all coordinates of an object are finite.
* `Index.Sways`: an object that cannot be used changes the distances that a search finds.

## Main results

* `Rule.isUsable_of_accepts`: a rule accepts only objects that can be used.
* `Rule.pairsOf_usable`: only objects that can be used are in pairs that a rule accepts.
* `finiteRanked_usable`, `nearestOf_usable`: only objects that can be used are ranked.
* `Searchable.sameDistances_usable`: two searches that see enough give the same distances.
* `answers_filter_isUsable`: pairs and distances without the objects that cannot be used.
* `Index.sways_tiers_and_buckets`: where an index misses what meets a window, they do matter.
-/

namespace PlanarJoin

open Envelope

/-! ## What cannot be used fails every test -/

namespace Shape

variable {a b : Shape}

/-- A shape without a fault has finite coordinates. -/
theorem isFinite_geometry (h : a.fault? = none) : a.geometry.isFinite = true := by
  cases a with
  | plain g => exact isFinite_of_fault h
  | disc g r =>
    by_cases hr : usableRadius r = true
    · rw [fault?, if_pos hr] at h
      exact isFinite_of_fault h
    · rw [fault?, if_neg hr] at h
      cases h

/-- A shape that meets another has no fault, and neither has the other. -/
theorem fault_of_intersects (h : a.intersects b = .ok true) :
    a.fault? = none ∧ b.fault? = none := by
  cases a with
  | plain g =>
    cases b with
    | plain g' => exact fault_of_tested h
    | disc d s => exact (fault_of_tested h).symm
  | disc c r =>
    cases b with
    | plain g => exact fault_of_tested h
    | disc d s => exact fault_of_tested h

end Shape

variable {α β : Type} [Spatial α] [Spatial β]

/-- Whether all coordinates of an object are finite. -/
def isUsable (a : α) : Bool :=
  (Spatial.shape a).geometry.isFinite

/-- A rule accepts only objects that can be used. -/
theorem Rule.isUsable_of_accepts {r : Rule} {a : α} {b : β} (h : r.accepts a b = true) :
    isUsable a = true ∧ isUsable b = true := by
  rw [accepts, Bool.and_eq_true, Relation.decides_iff] at h
  have hfault : (Spatial.shape a).fault? = none ∧ (Spatial.shape b).fault? = none := by
    have hholds := h.2
    cases hr : r.relation with
    | intersects =>
      rw [hr] at hholds
      exact Shape.fault_of_intersects hholds
    | contains =>
      rw [hr] at hholds
      exact Shape.fault_of_contains hholds
  exact ⟨Shape.isFinite_geometry hfault.1, Shape.isFinite_geometry hfault.2⟩

theorem isUsable_of_distanceTo {a : α} {p : Coord} {d : Float} (h : distanceTo a p = .ok d) :
    isUsable a = true := by
  unfold distanceTo Shape.distanceTo at h
  split at h
  · cases h
  · next hfault => exact Shape.isFinite_geometry hfault

/-! ## Pairs -/

namespace Rule

variable (r : Rule) (as : List α) (bs : List β)

/-- Only objects that can be used are in pairs that a rule accepts. -/
theorem pairsOf_usable {p : α → β → Bool} (h : ∀ a b, p a b = true → r.accepts a b = true) :
    pairsOf p (as.filter isUsable) (bs.filter isUsable) = pairsOf p as bs := by
  rw [pairsOf_filter]
  refine pairsOf_congr fun a _ b _ => ?_
  cases hp : p a b with
  | false => exact Bool.and_false _
  | true =>
    obtain ⟨ha, hb⟩ := isUsable_of_accepts (h a b hp)
    rw [ha, hb]
    rfl

/-- Trying all pairs of the objects that can be used gives the same pairs. -/
theorem pairwise_usable : (r.pairwise (as.filter isUsable) (bs.filter isUsable)).drain.1.Perm
    (r.pairwise as bs).drain.1 := by
  rw [MatchStream.drain_fst, MatchStream.drain_fst]
  refine (r.remaining_pairwise _ _).trans (List.Perm.trans (List.Perm.of_eq ?_)
    (r.remaining_pairwise as bs).symm)
  exact r.pairsOf_usable as bs fun _ _ h => h

variable {as bs}

/-- An index of the right objects that can be used gives the same pairs, whatever both indexes went
through, if they are laid out over the same. -/
theorem probeRight_usable {i j : Index β} (hi : i.Holds (bs.filter hasProperEnvelope))
    (hj : j.Holds ((bs.filter isUsable).filter hasProperEnvelope))
    (hframe : j.store.frame = i.store.frame) :
    (r.probeRight (as.filter isUsable) j).drain.1.Perm (r.probeRight as i).drain.1 := by
  rw [MatchStream.drain_fst, MatchStream.drain_fst]
  refine (remaining_findsRight hj).trans (List.Perm.trans (List.Perm.of_eq ?_)
    (remaining_findsRight hi).symm)
  rw [hframe]
  exact r.pairsOf_usable as bs fun _ _ h => (Bool.and_eq_true_iff.mp h).2

/-- An index of the left objects that can be used gives the same pairs, whatever both indexes went
through, if they are laid out over the same. -/
theorem probeLeft_usable {i j : Index α} (hi : i.Holds (as.filter hasProperEnvelope))
    (hj : j.Holds ((as.filter isUsable).filter hasProperEnvelope))
    (hframe : j.store.frame = i.store.frame) :
    (r.probeLeft j (bs.filter isUsable)).drain.1.Perm (r.probeLeft i bs).drain.1 := by
  rw [MatchStream.drain_fst, MatchStream.drain_fst]
  refine (remaining_findsLeft hj).trans (List.Perm.trans (List.Perm.of_eq ?_)
    (remaining_findsLeft hi).symm)
  rw [hframe]
  exact r.pairsOf_usable as bs fun _ _ h => (Bool.and_eq_true_iff.mp h).2

theorem probeBuilt_usable (s : IndexSettings) (side : Side) :
    (r.probeBuilt s side (as.filter isUsable) (bs.filter isUsable)).drain.1.Perm
      (r.probeBuilt s side as bs).drain.1 := by
  rw [MatchStream.drain_fst, MatchStream.drain_fst]
  refine (r.remaining_findsBuilt s side _ _).trans (List.Perm.trans (List.Perm.of_eq ?_)
    (r.remaining_findsBuilt s side as bs).symm)
  refine r.pairsOf_usable as bs fun a b h => ?_
  cases side with
  | left => exact (Bool.and_eq_true_iff.mp h).2
  | right => exact (Bool.and_eq_true_iff.mp h).2

end Rule

/-! ## Distances -/

section Ranked

variable {as : List α} {p : Coord} {k : Nat}

/-- Only objects that can be used are ranked. -/
theorem filterMap_ranked_usable (as : List α) (p : Coord) :
    (as.filter isUsable).filterMap (ranked? p) = as.filterMap (ranked? p) := by
  rw [List.filterMap_filter]
  refine List.filterMap_congr fun a _ => ?_
  cases husable : isUsable a with
  | true => rfl
  | false =>
    unfold ranked?
    cases hd : distanceTo a p with
    | error f => rfl
    | ok d =>
      rw [isUsable_of_distanceTo hd] at husable
      cases husable

theorem nearestOf_usable (as : List α) (p : Coord) (k : Nat) :
    nearestOf (as.filter isUsable) p k = nearestOf as p k := by
  rw [nearestOf, nearestOf, filterMap_ranked_usable]

theorem finiteRanked_usable (as : List α) (p : Coord) :
    finiteRanked p (as.filter isUsable) = finiteRanked p as := by
  rw [finiteRanked, finiteRanked, filterMap_ranked_usable]

/-- Searches of two indexes, of which one holds only the objects that can be used, give the same
distances, if all windows of both have finite bounds. -/
theorem Searchable.sameDistances_usable {s t : Searchable α}
    (hs : s.Answers (as.filter hasProperEnvelope))
    (ht : t.Answers ((as.filter isUsable).filter hasProperEnvelope)) (hseen : SeenWithin p as)
    (hws : ∀ w ∈ s.windows p k, (windowAt p w.radius).isProper = true)
    (hwt : ∀ w ∈ t.windows p k, (windowAt p w.radius).isProper = true) :
    SameDistances (t.nearest p k) (s.nearest p k) := by
  by_cases hp : p.isFinite = true
  · have hsearch := hs.keeps_nearest hp (fun a ha => hseen a (List.mem_filter.mp ha).1)
      (blind_of_windows hws)
    have husable := ht.keeps_nearest hp
      (fun a ha => hseen a (List.mem_filter.mp (List.mem_filter.mp ha).1).1) (blind_of_windows hwt)
    rw [List.filter_comm, finiteRanked_usable] at husable
    exact husable.sameDistances hsearch
      (fun e he => Binary64.isNaN_of_isFinite (mem_finiteRanked.mp he).2) (t.pairwise_nearest p k)
      (s.pairwise_nearest p k)
  · rw [nearest_of_not_isFinite hp, nearest_of_not_isFinite hp]
    exact .nil

end Ranked

/-! ## The same answers -/

/-- Without the objects that cannot be used, every way of finding matches gives the same pairs, by
any rule, over buckets, tiers or trees of any settings that are filled by any calls; a scan gives
the same nearest objects; and a search of buckets or trees gives the same distances, if all windows
have finite bounds and what is nearer than half the width of a window meets it.  Boxes that measure
`-0.0` cannot be cut into buckets. -/
theorem answers_filter_isUsable (as : List α) (bs : List β) :
    (∀ r : Rule,
      (r.pairwise (as.filter isUsable) (bs.filter isUsable)).drain.1.Perm
        (r.pairwise as bs).drain.1 ∧
      (∀ (s : IndexSettings) (calls kept : List (Index.Call β)), Index.inserted calls = bs →
        Index.inserted kept = bs.filter isUsable →
        (r.probeRight (as.filter isUsable) (s.emptyIndex.after kept)).drain.1.Perm
          (r.probeRight as (s.emptyIndex.after calls)).drain.1) ∧
      (∀ (s : IndexSettings) (calls kept : List (Index.Call α)), Index.inserted calls = as →
        Index.inserted kept = as.filter isUsable →
        (r.probeLeft (s.emptyIndex.after kept) (bs.filter isUsable)).drain.1.Perm
          (r.probeLeft (s.emptyIndex.after calls) bs).drain.1) ∧
      ∀ (s : IndexSettings) (side : Side), Alike (fun m n => m.drain.1.Perm n.drain.1)
        (r.probeBuilt? s side (as.filter isUsable) (bs.filter isUsable))
        (r.probeBuilt? s side as bs)) ∧
    ∀ (p : Coord) (k : Nat), nearestOf (as.filter isUsable) p k = nearestOf as p k ∧
      ∀ (s : IndexSettings) (calls kept : List (Index.Call α)), s.Untiered →
        (s.kind = .grid → s.extent.width ≠ -0.0 ∧ s.extent.height ≠ -0.0) →
        Index.inserted calls = as → Index.inserted kept = as.filter isUsable → SeenWithin p as →
        (∀ w ∈ (s.emptyIndex.after calls).windows p k, (windowAt p w.radius).isProper = true) →
        (∀ w ∈ (s.emptyIndex.after kept).windows p k, (windowAt p w.radius).isProper = true) →
        SameDistances ((s.emptyIndex.after kept).nearest p k)
          ((s.emptyIndex.after calls).nearest p k) := by
  have hframe {γ : Type} [Spatial γ] (s : IndexSettings) (calls kept : List (Index.Call γ)) :
      (s.emptyIndex.after kept).store.frame = (s.emptyIndex.after calls).store.frame := by
    rw [Index.frame_after, Index.frame_after]
  refine ⟨fun r => ⟨r.pairwise_usable as bs, ?_, ?_, ?_⟩, fun p k => ⟨nearestOf_usable as p k, ?_⟩⟩
  · rintro s calls kept rfl hkept
    exact r.probeRight_usable (Index.holds_emptyIndex_after s calls)
      (hkept ▸ Index.holds_emptyIndex_after s kept) (hframe s calls kept)
  · rintro s calls kept rfl hkept
    exact r.probeLeft_usable (Index.holds_emptyIndex_after s calls)
      (hkept ▸ Index.holds_emptyIndex_after s kept) (hframe s calls kept)
  · intro s side
    rw [Rule.probeBuilt?, Rule.probeBuilt?]
    cases s.validate with
    | error f => exact .error f
    | ok u => exact .ok (r.probeBuilt_usable s side)
  · rintro s calls kept huntiered hsides rfl hkept hseen hws hwt
    have hserves (cs : List (Index.Call α)) : (s.emptyIndex.after cs).Serves (Index.inserted cs) :=
      Index.serves_after_of_divides huntiered
        (fun hk =>
          ⟨dividesInOrder_width.mpr (hsides hk).1, dividesInOrder_height.mpr (hsides hk).2⟩)
        cs
    have hanswers := (hserves kept).answers
    rw [hkept] at hanswers
    exact Searchable.sameDistances_usable (hserves calls).answers hanswers hseen hws hwt

/-- A path that leaves the plane after its first vertex, a point without a place, and two points. -/
def stained : List (Feature Nat) :=
  [⟨1, .single (.path [⟨6.0, 8.0⟩, ⟨80.0, 0.0 / 0.0⟩])⟩, ⟨2, .single (.point ⟨3.0, 4.0⟩)⟩,
    ⟨3, .single (.point ⟨0.0 / 0.0, 1.0⟩)⟩, ⟨4, .single (.point ⟨5.0, 12.0⟩)⟩]

/-- Trees of quadrants over the world. -/
def worldQuadrants : IndexSettings :=
  { IndexSettings.default with kind := .quadtree }

/-- The path is in the index and widens its extent, so that one window is enough where the two
points alone need two; the distances are the same, and so is the one match with a square. -/
theorem answers_stained :
    ((worldQuadrants.emptyIndex.after (stained.map .insert)).windows ⟨0.0, 0.0⟩ 2).length = 1 ∧
    ((worldQuadrants.emptyIndex.after ((stained.filter isUsable).map .insert)).windows
      ⟨0.0, 0.0⟩ 2).length = 2 ∧
    SameDistances
      ((worldQuadrants.emptyIndex.after ((stained.filter isUsable).map .insert)).nearest
        ⟨0.0, 0.0⟩ 2)
      ((worldQuadrants.emptyIndex.after (stained.map .insert)).nearest ⟨0.0, 0.0⟩ 2) ∧
    ((Rule.mk .intersects none).probeRight (stained.filter isUsable)
      (worldQuadrants.emptyIndex.after
        ((oddWindows.filter isUsable).map .insert))).drain.1.length = 1 := by
  obtain ⟨hpairs, hnearest⟩ := answers_filter_isUsable stained oddWindows
  obtain ⟨-, hright, -⟩ := hpairs ⟨.intersects, none⟩
  obtain ⟨-, hsearch⟩ := hnearest ⟨0.0, 0.0⟩ 2
  refine ⟨by decide +kernel, by decide +kernel, ?_, ?_⟩
  · exact hsearch worldQuadrants _ _ (fun h => nomatch h) (fun h => nomatch h)
      (Index.inserted_map_insert _) (Index.inserted_map_insert _)
      (seenWithin_of_meets rfl (by decide +kernel)) (by decide +kernel) (by decide +kernel)
  · rw [(hright worldQuadrants (oddWindows.map .insert) _ (Index.inserted_map_insert _)
      (Index.inserted_map_insert _)).length_eq]
    decide +kernel

namespace Index

/-- Objects that cannot be used change the distances that a search of an index finds, although all
windows have finite bounds and what is nearer than half the width of a window meets it. -/
structure Sways (i : Index α) (as : List α) (p : Coord) (k : Nat) : Prop where
  seen : SeenWithin p as
  windows_all : ∀ w ∈ (i.after (as.map .insert)).windows p k,
    (windowAt p w.radius).isProper = true
  windows_usable : ∀ w ∈ (i.after ((as.filter isUsable).map .insert)).windows p k,
    (windowAt p w.radius).isProper = true
  differ : ¬ SameDistances ((i.after ((as.filter isUsable).map .insert)).nearest p k)
    ((i.after (as.map .insert)).nearest p k)

/-- What a search asks of buckets or tiers, told from their frame and from what was inserted. -/
def framed (f : Frame) (as : List α) : Searchable α :=
  ⟨(as.filter hasProperEnvelope).length,
    hullAll ((as.filter hasProperEnvelope).map Spatial.envelope), fun e => as.filter (leads f e)⟩

theorem searchable_after {i : Index α} (hi : i.Holds []) (hf : i.store.frame ≠ .tree)
    (as : List α) : (i.after (as.map .insert)).searchable = framed i.store.frame as := by
  have h := holds_after hi (as.map .insert)
  rw [inserted_map_insert, List.nil_append] at h
  have hframe := frame_after i (as.map .insert)
  rw [searchable, framed, h.size, h.extent, ← hframe]
  congr 1
  funext e
  exact h.query_eq_leads (hframe.symm ▸ hf) e

/-- Whether it changes what is found is told from the frame. -/
theorem sways_of_framed {i : Index α} {as : List α} {p : Coord} {k : Nat} (hi : i.Holds [])
    (hf : i.store.frame ≠ .tree) (hseen : SeenWithin p as)
    (hall : ∀ w ∈ (framed i.store.frame as).windows p k, (windowAt p w.radius).isProper = true)
    (husable : ∀ w ∈ (framed i.store.frame (as.filter isUsable)).windows p k,
      (windowAt p w.radius).isProper = true)
    (hdiffer : ((framed i.store.frame (as.filter isUsable)).nearest p k).map Ranked.key ≠
      ((framed i.store.frame as).nearest p k).map Ranked.key) : i.Sways as p k := by
  rw [← searchable_after hi hf] at hall husable hdiffer
  rw [← searchable_after hi hf] at hdiffer
  exact ⟨hseen, hall, husable, fun hsame => hdiffer hsame.map_key⟩

/-- Two points, and a path that leaves the plane after it has widened the extent to `1.6e308`. -/
def farStained : List (Feature Nat) :=
  [⟨1, .single (.point ⟨1e308, 0.0⟩)⟩, ⟨2, .single (.point ⟨8e307, 0.0⟩)⟩,
    ⟨3, .single (.path [⟨0.0, 0.0⟩, ⟨1.6e308, 0.0 / 0.0⟩])⟩]

/-- Two points, and a path that leaves the plane after it has widened the extent to `1000`. -/
def nearStained : List (Feature Nat) :=
  [⟨1, .single (.point ⟨6.0, 0.0⟩)⟩, ⟨2, .single (.point ⟨7.0, 0.0⟩)⟩,
    ⟨3, .single (.path [⟨8.0, 0.0⟩, ⟨1000.0, 0.0 / 0.0⟩])⟩]

/-- In the tiers the center of the first point overflows.  In the buckets a window around `0.0` has
its columns in the wrong order. -/
theorem sways_tiers_and_buckets :
    (emptyTiers ⟨0.0, 1.6e308, 0.0, 1.6e308⟩ [(2e307, 2e307)]).Sways farStained ⟨9.5e307, 0.0⟩ 1 ∧
    (emptyBuckets ⟨0.0, -0.0, 0.0, 4.0⟩ 2 1).Sways nearStained ⟨6.0, 0.0⟩ 2 := by
  constructor
  · exact sways_of_framed (holds_ofStore (Tiers.holds_ofSizes _ _)) (fun h => nomatch h)
      (seenWithin_of_meets (by decide +kernel) (by decide +kernel)) (by decide +kernel)
      (by decide +kernel) (by decide +kernel)
  · exact sways_of_framed (holds_ofStore (Grid.holds_empty _)) (fun h => nomatch h)
      (seenWithin_of_meets (by decide +kernel) (by decide +kernel)) (by decide +kernel)
      (by decide +kernel) (by decide +kernel)

end Index

end PlanarJoin
