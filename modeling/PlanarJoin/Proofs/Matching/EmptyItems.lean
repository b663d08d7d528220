import PlanarJoin.Proofs.Envelope.Growing
import PlanarJoin.Proofs.Geometry.Vertexless
import PlanarJoin.Proofs.Matching.Strategies

/-!
# Items with an empty envelope

No index keeps an item whose envelope is empty, and no index is asked for it.  Trying all pairs
leaves the decision to the relation, which looks at distances where there is a disc: a disc around
nothing intersects whatever has a point, for the distance from a point to an empty path is zero.

## Main definitions

* `Shape.geometry`, `Shape.isDisc`, `Shape.reach`: what the relations look at.
* `Shape.MatchesBlank`: whether a shape without a vertex intersects another.
* `Rule.FoundByIndex`: a pair comes out of a way of finding matches that uses an index.

## Main results

* `Shape.intersects_of_blank`, `Shape.intersects_blank`: what a shape without a vertex intersects.
* `Shape.not_contains_of_bounds`: what has no box contains nothing.
* `Rule.FoundByIndex.isProper`: what an index finds has proper envelopes.
* `Item.matches_of_isEmpty`: where an item with an empty envelope is found.
-/

namespace PlanarJoin

open Binary64

/-! ## Shapes without a vertex -/

namespace Shape

/-- The geometry of a shape, the center if it is a disc. -/
def geometry : Shape → Geometry
  | plain g => g
  | disc g _ => g

def isDisc : Shape → Bool
  | plain _ => false
  | disc _ _ => true

/-- How far two shapes reach together. -/
def reach : Shape → Shape → Float
  | disc _ r, disc _ s => r + s
  | disc _ r, plain _ => r
  | plain _, disc _ r => r
  | plain _, plain _ => 0.0

/-- Whether shapes of which the first has no vertex intersect: neither has a fault, one is a disc,
and either something is at distance zero or they reach as far as the greatest float. -/
def MatchesBlank (a b : Shape) : Prop :=
  (a.fault? = none ∧ b.fault? = none) ∧ (a.isDisc || b.isDisc) = true ∧
    (a.geometry.touchesPoint b.geometry = true ∨ greatest ≤ a.reach b)

variable {a b : Shape}

theorem tested_eq_true {answer : Except Failure Bool} :
    tested a b answer = .ok true ↔ (a.fault? = none ∧ b.fault? = none) ∧ answer = .ok true := by
  unfold tested
  split
  · next h => simp [h]
  · next h => simp [h]
  · next ha hb => simp [ha, hb]

/-- A distance to something without a vertex is within a reach that is not negative if it is zero,
or if the reach is the greatest float. -/
theorem blankDistance_le {touching : Bool} {r : Float} (hr : r.isNaN = false) (h0 : 0 ≤ rank r) :
    blankDistance touching ≤ r ↔ touching = true ∨ greatest ≤ r := by
  cases touching with
  | true => exact iff_of_true (le_iff.mpr ⟨rfl, hr, h0⟩) (.inl rfl)
  | false => exact (or_iff_right Bool.false_ne_true).symm

theorem radius_of_fault {g : Geometry} {r : Float} (h : (disc g r).fault? = none) :
    r.isFinite = true ∧ 0 ≤ rank r := by
  by_cases hr : usableRadius r = true
  · exact usableRadius_iff.mp hr
  · rw [fault?, if_neg hr] at h
    cases h

section Discs

variable {g h : Geometry} {r s : Float} (hr : (disc g r).fault? = none)
  (hs : (disc h s).fault? = none)

include hr hs

/-- The radii of two discs without a fault add up to a number that is not negative. -/
theorem reach_discs : (r + s).isNaN = false ∧ 0 ≤ rank (r + s) := by
  obtain ⟨hfr, hr0⟩ := radius_of_fault hr
  obtain ⟨hfs, hs0⟩ := radius_of_fault hs
  obtain ⟨hnum, hsum⟩ := nearest_add hfr hfs
  have hzero : value 0.0 = 0 := rfl
  have hr0 : value 0.0 ≤ value r := (value_le_value_iff (by decide) hfr).mpr hr0
  have hs0 : value 0.0 ≤ value s := (value_le_value_iff (by decide) hfs).mpr hs0
  exact ⟨hnum, nearest_zero.mono hsum (by linarith)⟩

theorem le_reach_comm {x : Float} : x ≤ r + s ↔ x ≤ s + r := by
  obtain ⟨hnum, hsum⟩ := nearest_add (radius_of_fault hr).1 (radius_of_fault hs).1
  obtain ⟨hnum', hsum'⟩ := nearest_add (radius_of_fault hs).1 (radius_of_fault hr).1
  rw [add_comm] at hsum'
  rw [le_iff, le_iff, hsum.unique hsum', hnum, hnum']

end Discs

/-- A test whether a distance to something without a vertex is within a reach. -/
theorem tested_blankDistance {touching : Bool} {r : Float}
    (hr : a.fault? = none → b.fault? = none → r.isNaN = false ∧ 0 ≤ rank r) :
    tested a b (.ok (decide (blankDistance touching ≤ r))) = .ok true ↔
      (a.fault? = none ∧ b.fault? = none) ∧ (touching = true ∨ greatest ≤ r) := by
  rw [tested_eq_true]
  refine and_congr_right ?_
  rintro ⟨ha, hb⟩
  obtain ⟨hnum, h0⟩ := hr ha hb
  rw [← blankDistance_le hnum h0, Except.ok.injEq, decide_eq_true_eq]

/-- What a shape without a vertex intersects. -/
theorem intersects_of_blank (ha : a.geometry.coords = []) :
    a.intersects b = .ok true ↔ a.MatchesBlank b := by
  have hnum {g : Geometry} {r : Float} (h : (disc g r).fault? = none) :
      r.isNaN = false ∧ 0 ≤ rank r :=
    ⟨isNaN_of_isFinite (radius_of_fault h).1, (radius_of_fault h).2⟩
  cases a with
  | plain g =>
    change g.coords = [] at ha
    cases b with
    | plain h =>
      rw [intersects, Geometry.meets_of_blank ha, tested_eq_true]
      simp [MatchesBlank, isDisc]
    | disc h s =>
      rw [intersects, Geometry.distance_blank ha, tested_blankDistance fun hs _ => hnum hs]
      simp [MatchesBlank, isDisc, geometry, reach, and_comm]
  | disc g r =>
    change g.coords = [] at ha
    cases b with
    | plain h =>
      rw [intersects, Geometry.distance_of_blank ha, tested_blankDistance fun hr _ => hnum hr]
      simp [MatchesBlank, isDisc, geometry, reach]
    | disc h s =>
      rw [intersects, Geometry.distance_of_blank ha,
        tested_blankDistance fun hr hs => reach_discs hr hs]
      simp [MatchesBlank, isDisc, geometry, reach]

/-- The same shapes intersect a shape without a vertex. -/
theorem intersects_blank (ha : a.geometry.coords = []) :
    b.intersects a = .ok true ↔ a.MatchesBlank b := by
  rw [← intersects_of_blank ha]
  cases a with
  | plain g =>
    change g.coords = [] at ha
    cases b with
    | plain h =>
      rw [intersects, intersects, Geometry.meets_of_blank ha, Geometry.meets_blank ha,
        tested_eq_true, tested_eq_true]
      simp
    | disc h s => rfl
  | disc g r =>
    change g.coords = [] at ha
    cases b with
    | plain h => rfl
    | disc h s =>
      rw [intersects, intersects, Geometry.distance_of_blank ha, Geometry.distance_blank ha,
        tested_blankDistance fun hs hr => reach_discs hs hr,
        tested_blankDistance fun hr hs => reach_discs hr hs,
        and_comm (a := (disc h s).fault? = none)]
      refine and_congr_right ?_
      rintro ⟨hr, hs⟩
      rw [le_reach_comm hr hs]

/-! ## Shapes without a box -/

theorem bind_ne_ok {γ δ : Type} {x : Except Failure γ} {f : γ → Except Failure δ} {y : δ}
    (h : ∀ a, f a ≠ .ok y) : (x >>= f) ≠ .ok y := by
  cases x with
  | error e => exact nofun
  | ok a => exact h a

theorem origin_of_bounds {g : Geometry} (hg : g.bounds? = none) : origin g = .error .noCenter := by
  rw [origin, Geometry.centroid_of_bounds hg]

/-- A shape whose geometry has no box contains nothing. -/
theorem not_contains_of_bounds (ha : a.geometry.bounds? = none) (b : Shape) :
    a.contains b ≠ .ok true := by
  cases a with
  | plain g =>
    change g.bounds? = none at ha
    cases b with
    | plain h =>
      rw [contains, (Geometry.contains_of_bounds ha h).1, ne_eq, tested_eq_true]
      exact fun h => nomatch h.2
    | disc h s => exact nofun
  | disc g r =>
    change g.bounds? = none at ha
    cases b with
    | plain h =>
      rw [contains, origin_of_bounds ha, ne_eq, tested_eq_true]
      exact fun h => nomatch h.2
    | disc h s =>
      rw [contains, origin_of_bounds ha, ne_eq, tested_eq_true]
      exact fun h => nomatch h.2

/-- Nothing contains a shape whose geometry has neither a box nor a vertex. -/
theorem not_contains_blank (ha : a.geometry.bounds? = none) (hc : a.geometry.coords = [])
    (b : Shape) : b.contains a ≠ .ok true := by
  cases a with
  | plain g =>
    change g.bounds? = none at ha
    change g.coords = [] at hc
    cases b with
    | plain h =>
      rw [contains, (Geometry.contains_of_bounds ha h).2, ne_eq, tested_eq_true]
      exact fun h => nomatch h.2
    | disc h s =>
      rw [contains, hc, ne_eq, tested_eq_true]
      rintro ⟨-, hall⟩
      refine absurd hall (bind_ne_ok ?_)
      exact fun o ho => Bool.false_ne_true (Except.ok.inj ho)
  | disc g r =>
    change g.bounds? = none at ha
    cases b with
    | plain h => exact nofun
    | disc h s =>
      rw [contains, origin_of_bounds ha, ne_eq, tested_eq_true]
      rintro ⟨-, horigin⟩
      refine absurd horigin (bind_ne_ok ?_)
      exact fun o ho => nomatch ho

end Shape

/-! ## Found by an index -/

namespace Rule

variable {α β : Type} [Spatial α] [Spatial β] {r : Rule} {as : List α} {bs : List β} {a : α} {b : β}

/-- A pair comes out of a way of finding matches that uses an index, whatever has been put into the
index before. -/
inductive FoundByIndex (r : Rule) (as : List α) (bs : List β) (x : α × β) : Prop where
  | probeRight (s : IndexSettings) (calls : List (Index.Call β))
    (h : x ∈ (r.probeRight as (s.emptyIndex.after calls)).drain.1)
  | probeLeft (s : IndexSettings) (calls : List (Index.Call α))
    (h : x ∈ (r.probeLeft (s.emptyIndex.after calls) bs).drain.1)
  | probeBuilt (s : IndexSettings) (side : Side) {m : MatchStream α β}
    (hm : r.probeBuilt? s side as bs = .ok m) (h : x ∈ m.drain.1)

theorem mem_roundsRight {x : Index β} {held : List β} (hx : x.Holds held)
    (h : (a, b) ∈ (r.roundsRight as x).flatMap fun t => t.get.filterMap Trial.match?) :
    (Spatial.envelope a).isProper = true ∧ (Spatial.envelope b).isProper = true := by
  rw [roundsRight, List.flatMap_map, List.mem_flatMap] at h
  obtain ⟨c, -, hc⟩ := h
  change (a, b) ∈ ((x.query (Spatial.envelope c)).map fun b => r.try c b).filterMap _ at hc
  rw [filterMap_try_right] at hc
  obtain ⟨d, hd, heq⟩ := List.mem_map.mp hc
  obtain ⟨rfl, rfl⟩ := Prod.mk.inj heq
  have hq := (List.mem_filter.mp hd).1
  refine ⟨?_, hx.proper _ ((hx.query_subperm _).subset hq)⟩
  by_contra hproper
  rw [Index.query, if_neg hproper] at hq
  cases hq

theorem mem_roundsLeft {x : Index α} {held : List α} (hx : x.Holds held)
    (h : (a, b) ∈ (r.roundsLeft x bs).flatMap fun t => t.get.filterMap Trial.match?) :
    (Spatial.envelope a).isProper = true ∧ (Spatial.envelope b).isProper = true := by
  rw [roundsLeft, List.flatMap_map, List.mem_flatMap] at h
  obtain ⟨c, -, hc⟩ := h
  change (a, b) ∈ ((x.query (Spatial.envelope c)).map fun a => r.try a c).filterMap _ at hc
  rw [filterMap_try_left] at hc
  obtain ⟨d, hd, heq⟩ := List.mem_map.mp hc
  obtain ⟨rfl, rfl⟩ := Prod.mk.inj heq
  have hq := (List.mem_filter.mp hd).1
  refine ⟨hx.proper _ ((hx.query_subperm _).subset hq), ?_⟩
  by_contra hproper
  rw [Index.query, if_neg hproper] at hq
  cases hq

/-- What an index finds has proper envelopes. -/
theorem FoundByIndex.isProper (h : r.FoundByIndex as bs (a, b)) :
    (Spatial.envelope a).isProper = true ∧ (Spatial.envelope b).isProper = true := by
  cases h with
  | probeRight s calls h =>
    rw [MatchStream.drain_fst, Rule.probeRight] at h
    split at h
    · cases h
    · exact mem_roundsRight (Index.holds_emptyIndex_after s calls) h
  | probeLeft s calls h =>
    rw [MatchStream.drain_fst, Rule.probeLeft] at h
    split at h
    · cases h
    · exact mem_roundsLeft (Index.holds_emptyIndex_after s calls) h
  | probeBuilt s side hm h =>
    unfold Rule.probeBuilt? at hm
    cases hv : s.validate with
    | error f =>
      rw [hv] at hm
      cases hm
    | ok u =>
      rw [hv] at hm
      obtain rfl := Except.ok.inj hm
      rw [MatchStream.drain_fst] at h
      unfold Rule.probeBuilt at h
      split at h
      · cases h
      · split at h
        · cases h
        · cases side with
          | left => exact mem_roundsLeft (Index.holds_ofList s as) h
          | right => exact mem_roundsRight (Index.holds_ofList s bs) h

theorem mem_pairwise : (a, b) ∈ (r.pairwise as bs).drain.1 ↔
    (a ∈ as ∧ b ∈ bs) ∧ r.accepts a b = true := by
  rw [MatchStream.drain_fst, (remaining_pairwise r as bs).mem_iff, mem_pairsOf]

/-- Nobody is kept from a pair of which one envelope is empty. -/
theorem accepts_of_isEmpty (h : (Spatial.envelope a).isEmpty = true ∨
    (Spatial.envelope b).isEmpty = true) :
    r.accepts a b = true ↔ r.relation.holds a b = .ok true := by
  have hoverlap : (Spatial.envelope a).overlap? (Spatial.envelope b) = none := by
    rw [Envelope.overlap?, if_neg]
    intro hm
    obtain ⟨ha, hb⟩ := Envelope.isEmpty_of_meets hm
    rcases h with h | h
    · rw [ha] at h
      cases h
    · rw [hb] at h
      cases h
  have howns : r.owns (Spatial.envelope a) (Spatial.envelope b) = true := by
    unfold owns
    split
    · rw [Ownership.ownsPair, hoverlap]
    · rfl
  rw [accepts, howns, Bool.true_and, Relation.decides_iff]

end Rule

/-! ## Items -/

namespace Item

variable {ι β : Type} [Spatial β] {o : Item ι}

/-- The geometry inside an item. -/
def geometry (o : Item ι) : Geometry :=
  (Spatial.shape o).geometry

theorem isEmpty_envelope (o : Item ι) :
    (Spatial.envelope o).isEmpty = o.geometry.envelope.isEmpty := by
  cases o with
  | feature f => rfl
  | disc d => exact Envelope.isEmpty_grow d.usable
  | nested d => exact (Envelope.isEmpty_grow d.usable).trans (Envelope.isEmpty_grow d.center.usable)

/-- An item with an empty envelope is found by no index, and where all pairs are tried it is found
together with whatever the relation holds for.  It contains nothing.  Unless it is a polygon with
holes and no outer ring, nothing contains it, and it intersects another item just if one of the two
is a disc and they are at distance zero or reach as far as the greatest float. -/
theorem matches_of_isEmpty (hempty : (Spatial.envelope o).isEmpty = true)
    (hin : o.geometry.inOrder = true) (b : β) :
    (∀ (r : Rule) (os : List (Item ι)) (bs : List β),
      ¬ r.FoundByIndex os bs (o, b) ∧ ¬ r.FoundByIndex bs os (b, o) ∧
      ((o, b) ∈ (r.pairwise os bs).drain.1 ↔
        (o ∈ os ∧ b ∈ bs) ∧ r.relation.holds o b = .ok true) ∧
      ((b, o) ∈ (r.pairwise bs os).drain.1 ↔
        (b ∈ bs ∧ o ∈ os) ∧ r.relation.holds b o = .ok true)) ∧
    Relation.contains.holds o b ≠ .ok true ∧
    (o.geometry.isHollow = false →
      Relation.contains.holds b o ≠ .ok true ∧
      (Relation.intersects.holds o b = .ok true ↔
        (Spatial.shape o).MatchesBlank (Spatial.shape b)) ∧
      (Relation.intersects.holds b o = .ok true ↔
        (Spatial.shape o).MatchesBlank (Spatial.shape b))) := by
  have hproper : ¬ (Spatial.envelope o).isProper = true := by
    intro h
    rw [Envelope.isProper, hempty] at h
    cases h
  have hbounds : o.geometry.bounds? = none :=
    Geometry.bounds_of_isEmpty hin (o.isEmpty_envelope ▸ hempty)
  refine ⟨fun r os bs => ⟨fun h => hproper h.isProper.1, fun h => hproper h.isProper.2, ?_, ?_⟩,
    Shape.not_contains_of_bounds hbounds _, ?_⟩
  · rw [Rule.mem_pairwise, Rule.accepts_of_isEmpty (.inl hempty)]
  · rw [Rule.mem_pairwise, Rule.accepts_of_isEmpty (.inr hempty)]
  · intro hhollow
    have hcoords : o.geometry.coords = [] := Geometry.coords_of_bounds hbounds hhollow
    exact ⟨Shape.not_contains_blank hbounds hcoords _, Shape.intersects_of_blank hcoords,
      Shape.intersects_blank hcoords⟩

/-- A hole without a polygon around it meets a line. -/
example : (Geometry.single (.polygon (.ofRings [[], [⟨0.0, 0.0⟩, ⟨4.0, 0.0⟩, ⟨0.0, 4.0⟩]]))).meets
    (.single (.line ⟨1.0, 1.0⟩ ⟨9.0, 9.0⟩)) = true := by
  decide +kernel

/-- A disc around an empty path. -/
def discAroundNothing : Item Nat :=
  .disc ⟨⟨1, .single (.path [])⟩, 5.0, by decide⟩

/-- A point somewhere. -/
def somePoint : Feature Nat :=
  ⟨2, .single (.point ⟨3.0, 4.0⟩)⟩

/-- The disc around nothing and the point are a match, which no index finds. -/
theorem matches_discAroundNothing :
    (Spatial.envelope discAroundNothing).isEmpty = true ∧
      Relation.intersects.holds discAroundNothing somePoint = .ok true ∧
        (discAroundNothing, somePoint) ∈
          (Rule.pairwise ⟨.intersects, none⟩ [discAroundNothing] [somePoint]).drain.1 ∧
            ¬ Rule.FoundByIndex ⟨.intersects, none⟩ [discAroundNothing] [somePoint]
              (discAroundNothing, somePoint) := by
  have hempty : (Spatial.envelope discAroundNothing).isEmpty = true := by decide +kernel
  obtain ⟨hfound, -, hblank⟩ := matches_of_isEmpty hempty (by decide +kernel) somePoint
  obtain ⟨-, hmatch, -⟩ := hblank (by decide +kernel)
  have hholds : Relation.intersects.holds discAroundNothing somePoint = .ok true :=
    hmatch.mpr ⟨⟨rfl, rfl⟩, rfl, .inl rfl⟩
  obtain ⟨hindex, -, hpairwise, -⟩ :=
    hfound ⟨.intersects, none⟩ [discAroundNothing] [somePoint]
  exact ⟨hempty, hholds, hpairwise.mpr ⟨⟨List.mem_cons_self, List.mem_cons_self⟩, hholds⟩, hindex⟩

end Item

end PlanarJoin
