import PlanarJoin.Proofs.Matching.Containment
import PlanarJoin.Proofs.Query.Groups
import PlanarJoin.Proofs.Tiling.History

/-!
# Joins with and without boundaries

A join that leaves boundaries out looks at the same candidates in the same order, and asks of each
whether it is contained, not whether it is met.  So it gives no more than the join that takes
boundaries into account, if what is contained is met; otherwise it may.

## Main definitions

* `Rule.Narrows`: a rule accepts no more than another.
* `JoinQuery.withBoundary`: the same join, with or without boundaries.
* `JoinQuery.MeetsContained`: in every partition, what is contained is met.

## Main results

* `JoinQuery.unit_withBoundary`, `JoinQuery.run_withBoundary`: what a partition or a join gives
  without boundaries it gives with them.
* `JoinQuery.contained_are_met`: so it is if centroids belong to their centers.
* `JoinQuery.contained_not_met`: so it is not around two points.
-/

namespace PlanarJoin

/-! ## Rules that accept less -/

section Rules

variable {α β : Type} [Spatial α] [Spatial β] {r r' : Rule} {as : List α} {bs : List β}

/-- A rule accepts no more pairs of two lists than another. -/
def Rule.Narrows (r r' : Rule) (as : List α) (bs : List β) : Prop :=
  ∀ a ∈ as, ∀ b ∈ bs, r.accepts a b = true → r'.accepts a b = true

namespace Rule.Narrows

/-! Each way of finding matches puts the same candidates to both rules. -/

theorem pairsOf (h : r.Narrows r' as bs) :
    (pairsOf r.accepts as bs).Subperm (pairsOf r'.accepts as bs) := by
  refine flatMap_subperm ?_
  intro a ha
  exact ((filter_sublist_filter (h a ha)).map _).subperm

theorem pairwise (h : r.Narrows r' as bs) :
    (r.pairwise as bs).remaining.Subperm (r'.pairwise as bs).remaining :=
  ((remaining_pairwise r as bs).subperm.trans h.pairsOf).trans
    (remaining_pairwise r' as bs).symm.subperm

theorem roundsRight (h : r.Narrows r' as bs) {i : Index β}
    (hi : i.Holds (bs.filter hasProperEnvelope)) :
    ((r.roundsRight as i).flatMap fun t => t.get.filterMap Trial.match?).Subperm
      ((r'.roundsRight as i).flatMap fun t => t.get.filterMap Trial.match?) := by
  rw [Rule.roundsRight, Rule.roundsRight, List.flatMap_map, List.flatMap_map]
  refine flatMap_subperm ?_
  intro a ha
  change List.Subperm (List.filterMap Trial.match? (List.map (fun b => r.try a b) _))
    (List.filterMap Trial.match? (List.map (fun b => r'.try a b) _))
  rw [filterMap_try_right, filterMap_try_right]
  refine ((filter_sublist_filter ?_).map _).subperm
  intro b hb
  exact h a ha b (List.mem_filter.mp ((hi.query_subperm _).subset hb)).1

theorem roundsLeft (h : r.Narrows r' as bs) {i : Index α}
    (hi : i.Holds (as.filter hasProperEnvelope)) :
    ((r.roundsLeft i bs).flatMap fun t => t.get.filterMap Trial.match?).Subperm
      ((r'.roundsLeft i bs).flatMap fun t => t.get.filterMap Trial.match?) := by
  rw [Rule.roundsLeft, Rule.roundsLeft, List.flatMap_map, List.flatMap_map]
  refine flatMap_subperm ?_
  intro b hb
  change List.Subperm (List.filterMap Trial.match? (List.map (fun a => r.try a b) _))
    (List.filterMap Trial.match? (List.map (fun a => r'.try a b) _))
  rw [filterMap_try_left, filterMap_try_left]
  refine ((filter_sublist_filter ?_).map _).subperm
  intro a ha
  exact h a (List.mem_filter.mp ((hi.query_subperm _).subset ha)).1 b hb

theorem probeRight (h : r.Narrows r' as bs) {i : Index β}
    (hi : i.Holds (bs.filter hasProperEnvelope)) :
    (r.probeRight as i).remaining.Subperm (r'.probeRight as i).remaining := by
  unfold Rule.probeRight
  split
  · exact .refl _
  · exact h.roundsRight hi

theorem probeLeft (h : r.Narrows r' as bs) {i : Index α}
    (hi : i.Holds (as.filter hasProperEnvelope)) :
    (r.probeLeft i bs).remaining.Subperm (r'.probeLeft i bs).remaining := by
  unfold Rule.probeLeft
  split
  · exact .refl _
  · exact h.roundsLeft hi

theorem probeBuilt (h : r.Narrows r' as bs) (s : IndexSettings) (side : Side) :
    (r.probeBuilt s side as bs).remaining.Subperm (r'.probeBuilt s side as bs).remaining := by
  unfold Rule.probeBuilt
  split
  · exact .refl _
  · split
    · exact .refl _
    · cases side with
      | left => exact h.roundsLeft (Index.holds_ofList s as)
      | right => exact h.roundsRight (Index.holds_ofList s bs)

end Rule.Narrows

/-- Under one ownership a rule accepts no more than another if its relation does not hold for
more. -/
theorem Rule.narrows_of_holds {o : Option Ownership} {p q : Relation}
    (h : ∀ a ∈ as, ∀ b ∈ bs, p.holds a b = .ok true → q.holds a b = .ok true) :
    (⟨p, o⟩ : Rule).Narrows ⟨q, o⟩ as bs := by
  intro a ha b hb hacc
  rw [Rule.accepts, Bool.and_eq_true, Relation.decides_iff] at hacc ⊢
  exact ⟨hacc.1, h a ha b hb hacc.2⟩

end Rules

namespace JoinQuery

/-- The same join, with or without boundaries. -/
def withBoundary (q : JoinQuery) (boundary : Bool) : JoinQuery :=
  ⟨{ q.settings with join := { q.settings.join with boundary } }⟩

section Run

variable {α β : Type} [Spatial α] [Spatial β] {q : JoinQuery} {left : Collection α}
  {right : Collection β}

/-- In every partition, what a left object contains it meets. -/
def MeetsContained (left : Collection α) (right : Collection β) : Prop :=
  ∀ i, ∀ a ∈ left.partition i, ∀ b ∈ right.partition i,
    Relation.contains.holds a b = .ok true → Relation.intersects.holds a b = .ok true

theorem alike_indexOf {γ : Type} [Spatial γ] {c : Collection γ} (hc : c.UpToDate) (i : Nat) :
    Alike (fun x y => x = y ∧ x.Holds ((c.partition i).filter hasProperEnvelope)) (indexOf c i)
      (indexOf c i) := by
  unfold indexOf
  split
  · next x hx =>
    obtain ⟨s, rfl⟩ := hc.index?_eq hx
    exact .ok ⟨rfl, Index.holds_ofList s _⟩
  · exact .error _

section Partitions

variable (hleft : left.UpToDate) (hright : right.UpToDate) (h : MeetsContained left right)

include h in
/-- The rules of a partition differ in their relation alone. -/
theorem rule_withBoundary (i : Nat) :
    Alike (fun r r' => r.Narrows r' (left.partition i) (right.partition i))
      ((q.withBoundary false).rule right i) ((q.withBoundary true).rule right i) := by
  refine (Alike.refl (right.ownership i)).map ?_
  rintro o _ rfl
  exact Rule.narrows_of_holds (h i)

include hleft hright h

/-- The streams of a partition: they are found in the same way, and the first gives no more. -/
theorem matchesIn_withBoundary (s : Strategy) (i : Nat) :
    Alike (fun m m' => m.remaining.Subperm m'.remaining)
      ((q.withBoundary false).matchesIn s left right i)
      ((q.withBoundary true).matchesIn s left right i) := by
  refine (rule_withBoundary h i).bind ?_
  intro r r' hr
  cases s with
  | pairwise => exact .ok hr.pairwise
  | probe indexed =>
    cases indexed with
    | right =>
      refine (alike_indexOf hright i).bind ?_
      rintro x _ ⟨rfl, hx⟩
      exact .ok (hr.probeRight hx)
    | left =>
      refine (alike_indexOf hleft i).bind ?_
      rintro x _ ⟨rfl, hx⟩
      exact .ok (hr.probeLeft hx)
  | build =>
    refine (Alike.refl q.settings.forJoin.validate).map ?_
    rintro _ _ rfl
    exact hr.probeBuilt q.settings.forJoin q.settings.join.buildSide

theorem unit_withBoundary (s : Strategy) (i : Nat) :
    Alike (fun u v => u.1.Subperm v.1) ((q.withBoundary false).unit s left right i)
      ((q.withBoundary true).unit s left right i) := by
  refine (matchesIn_withBoundary hleft hright h s i).map fun m m' hsub => ?_
  rw [MatchStream.drain_fst, MatchStream.drain_fst]
  exact hsub

variable [BEq α] [BEq β]

/-- Before repetitions are dropped, a join without boundaries has some of what it has with them. -/
theorem run_withBoundary (cores : Nat) :
    Alike (fun out all => ∃ xs ys, out.pairs = q.distinct right xs ∧
        all.pairs = q.distinct right ys ∧ xs.Subperm ys)
      ((q.withBoundary false).run cores left right)
      ((q.withBoundary true).run cores left right) := by
  refine (Alike.refl (sameTiling left right)).bind ?_
  rintro _ _ -
  have hunits : Alike (List.Forall₂ fun u v => u.1.Subperm v.1)
      (((q.withBoundary false).units cores (q.strategy left right) left right).mapM id)
      (((q.withBoundary true).units cores (q.strategy left right) left right).mapM id) := by
    rw [units_eq, units_eq, List.mapM_map, List.mapM_map]
    exact Alike.mapM (unit_withBoundary hleft hright h _) _
  refine hunits.bind ?_
  intro us vs hall
  exact .ok ⟨us.flatMap (·.1), vs.flatMap (·.1), rfl, rfl,
    flatMap_subperm_of_forall₂ (f := Prod.fst) (g := Prod.fst) hall.flip⟩

end Partitions

/-- What stays when repetitions are dropped equals something that stays of more. -/
theorem exists_beq_distinct {α β : Type} [BEq α] [BEq β] [EquivBEq α] [EquivBEq β]
    {right : Collection β} {xs ys : List (α × β)} (h : xs ⊆ ys) {x : α × β}
    (hx : x ∈ q.distinct right xs) : ∃ y ∈ q.distinct right ys, (x == y) = true := by
  by_cases hkeep : (right.tiling.any Tiling.exact || q.settings.join.allowDuplicates) = true
  · rw [distinct, if_pos hkeep] at hx ⊢
    exact ⟨x, h hx, BEq.rfl⟩
  · rw [distinct, if_neg hkeep] at hx ⊢
    exact exists_beq_eraseDups (h (mem_of_mem_eraseDups hx))

end Run

/-- What contains an object can be tested for meeting it, and meets it if the two are comparable.
So if all pairs within a partition are, a join fails alike with boundaries and without them, or it
gives no pair without them that it does not give with them, and so does a join of discs. -/
theorem contained_are_met {α β : Type} [Spatial α] [Spatial β] [BEq α] [BEq β] [EquivBEq α]
    [EquivBEq β] :
    (∀ (a : α) (b : β), Relation.contains.holds a b = .ok true →
      (∃ v, Relation.intersects.holds a b = .ok v) ∧
      ((Spatial.shape a).Comparable (Spatial.shape b) →
        Relation.intersects.holds a b = .ok true)) ∧
    (∀ (q : JoinQuery) (cores : Nat) (left : Collection α) (right : Collection β), left.Reached →
      right.Reached →
      (∀ i, ∀ a ∈ left.partition i, ∀ b ∈ right.partition i,
        (Spatial.shape a).Comparable (Spatial.shape b)) →
      Alike (fun out all => ∀ x ∈ out.pairs, ∃ y ∈ all.pairs, (x == y) = true)
        ((q.withBoundary false).run cores left right)
        ((q.withBoundary true).run cores left right)) ∧
    ∀ (q : JoinQuery) (cores : Nat) (discs : Collection (Disc α)) (right : Collection β),
      discs.Reached → right.Reached →
      (∀ i, ∀ d ∈ discs.partition i, ∀ b ∈ right.partition i,
        (Spatial.shape d).Comparable (Spatial.shape b)) →
      Alike (fun pairs all => ∀ x ∈ pairs, ∃ y ∈ all, (x == y) = true)
        ((q.withBoundary false).withinDistance cores discs right)
        ((q.withBoundary true).withinDistance cores discs right) := by
  refine ⟨?_, ?_, ?_⟩
  · intro a b h
    exact ⟨Shape.exists_intersects_of_contains h, fun hcomp => hcomp.intersects h⟩
  · intro q cores left right hleft hright hcomp
    have hrun := run_withBoundary (q := q) hleft.upToDate hright.upToDate
      (fun i a ha b hb => (hcomp i a ha b hb).intersects) cores
    refine hrun.weaken ?_
    rintro out all ⟨xs, ys, hxs, hys, hsub⟩
    rw [hxs, hys]
    exact fun x hx => exists_beq_distinct hsub.subset hx
  · intro q cores discs right hdiscs hright hcomp
    have hrun := run_withBoundary (q := q) hdiscs.upToDate hright.upToDate
      (fun i d hd b hb => (hcomp i d hd b hb).intersects) cores
    refine hrun.map ?_
    rintro out all ⟨xs, ys, hxs, hys, hsub⟩ x hx
    obtain ⟨p, hp, rfl⟩ := List.mem_map.mp hx
    rw [hxs] at hp
    obtain ⟨p', hp', heq⟩ := exists_beq_distinct hsub.subset hp
    refine ⟨(p'.1.center, p'.2), List.mem_map_of_mem (hys ▸ hp'), ?_⟩
    obtain ⟨hdisc, hitem⟩ := Bool.and_eq_true_iff.mp heq
    exact Bool.and_eq_true_iff.mpr ⟨(Bool.and_eq_true_iff.mp hdisc).1, hitem⟩

/-- The pairs of a join of discs by the names of their parts, where there is a join. -/
def namedPairs (q : JoinQuery) (t : Tiling) (discs : List (Disc (Feature Nat)))
    (items : List (Item Nat)) : Option (List (Nat × Nat)) :=
  (t.partition discs).toOption.bind fun left => (t.partition items).toOption.bind fun right =>
    (q.withinDistance 4 left right).toOption.map (List.map (Prod.map Feature.id Item.id))

theorem exists_of_namedPairs {q : JoinQuery} {t : Tiling} {discs : List (Disc (Feature Nat))}
    {items : List (Item Nat)} {names : List (Nat × Nat)} {left : Collection (Disc (Feature Nat))}
    {right : Collection (Item Nat)} (hleft : t.partition discs = .ok left)
    (hright : t.partition items = .ok right) (h : namedPairs q t discs items = some names) :
    ∃ pairs, q.withinDistance 4 left right = .ok pairs ∧
      pairs.map (Prod.map Feature.id Item.id) = names := by
  rw [namedPairs, hleft, hright] at h
  obtain ⟨pairs, hpairs, hnames⟩ := Option.map_eq_some_iff.mp h
  exact ⟨pairs, eq_ok_of_toOption hpairs, hnames⟩

/-- A disc around a square. -/
def squareDiscs : List (Disc (Feature Nat)) :=
  [⟨⟨1, .single (.ofCorners ⟨3.0, 3.0⟩ ⟨5.0, 5.0⟩)⟩, 3.0, by decide +kernel⟩]

/-- A line and a smaller disc in the disc, and a point that is only near the square. -/
def nearItems : List (Item Nat) :=
  [.feature ⟨2, .single (.line ⟨3.0, 4.0⟩ ⟨6.0, 4.0⟩)⟩,
    .disc ⟨⟨3, .single (.point ⟨5.0, 4.0⟩)⟩, 1.0, usableRadius_one⟩,
    .feature ⟨4, .single (.point ⟨7.5, 4.0⟩)⟩]

/-- What the disc contains it meets, and a join gives it with boundaries, too. -/
theorem contained_are_met_squareDiscs : ∃ left right pairs all,
    Tiling.quarters.partition squareDiscs = .ok left ∧
      Tiling.quarters.partition nearItems = .ok right ∧
        (JoinQuery.default.withBoundary false).withinDistance 4 left right = .ok pairs ∧
          (JoinQuery.default.withBoundary true).withinDistance 4 left right = .ok all ∧
            pairs.map (Prod.map Feature.id Item.id) = [(1, 2), (1, 3)] ∧
              ∀ x ∈ pairs, ∃ y ∈ all, (x == y) = true := by
  obtain ⟨left, hleft⟩ : ∃ c, Tiling.quarters.partition squareDiscs = .ok c :=
    exists_ok (by decide +kernel)
  obtain ⟨right, hright⟩ : ∃ c, Tiling.quarters.partition nearItems = .ok c :=
    exists_ok (by decide +kernel)
  have hquarters : Tiling.quarters.Constructed := .uniform Tiling.uniform_quarters
  have hcomp : ∀ d ∈ squareDiscs, ∀ b ∈ nearItems,
      (Spatial.shape d).Comparable (Spatial.shape b) := by
    decide +kernel
  have hrun : namedPairs (JoinQuery.default.withBoundary false) Tiling.quarters squareDiscs
      nearItems = some [(1, 2), (1, 3)] := by
    decide +kernel
  obtain ⟨pairs, hpairs, hnames⟩ := exists_of_namedPairs hleft hright hrun
  have halike := contained_are_met.2.2 JoinQuery.default 4 left right
    ⟨left, [], .placed hquarters hleft, rfl⟩ ⟨right, [], .placed hquarters hright, rfl⟩ (by
      intro i d hd b hb
      rw [(Tiling.partition_spec hleft).2.2.2.1] at hd
      rw [(Tiling.partition_spec hright).2.2.2.1] at hb
      exact hcomp d (List.mem_filter.mp hd).1 b (List.mem_filter.mp hb).1)
  rw [hpairs] at halike
  obtain ⟨all, hall, hsub⟩ := halike.exists_ok
  exact ⟨left, right, pairs, all, hleft, hright, hpairs, hall, hnames, hsub⟩

/-- A disc around two points that are further apart than it reaches. -/
def apartDisc : Disc (Feature Nat) :=
  ⟨⟨1, .multiPoint [⟨1.0, 3.0⟩, ⟨7.0, 3.0⟩]⟩, 1.0, usableRadius_one⟩

/-- A disc around the point between the two. -/
def middleDisc : Disc (Feature Nat) :=
  ⟨⟨2, .single (.point ⟨4.0, 3.0⟩)⟩, 1.0, usableRadius_one⟩

/-- The point between the two. -/
def middleItems : List (Item Nat) :=
  [.feature middleDisc.center]

/-- A disc around two points contains the point between them and does not meet it.  A disc around
this point contains the disc around the two and does not meet it, either.  So a join can give more
without boundaries than with them. -/
theorem contained_not_met :
    (Relation.contains.holds apartDisc middleDisc.center = .ok true ∧
      Relation.intersects.holds apartDisc middleDisc.center = .ok false) ∧
    (Relation.contains.holds middleDisc apartDisc = .ok true ∧
      Relation.intersects.holds middleDisc apartDisc = .ok false) ∧
    ∃ left right pairs, Tiling.quarters.partition [apartDisc] = .ok left ∧
      Tiling.quarters.partition middleItems = .ok right ∧
        (JoinQuery.default.withBoundary false).withinDistance 4 left right = .ok pairs ∧
          pairs.map (Prod.map Feature.id Item.id) = [(1, 2)] ∧
            (JoinQuery.default.withBoundary true).withinDistance 4 left right = .ok [] := by
  refine ⟨⟨eq_ok_of_toOption ?_, eq_ok_of_toOption ?_⟩,
    ⟨eq_ok_of_toOption ?_, eq_ok_of_toOption ?_⟩, ?_⟩
  iterate 4 decide +kernel
  obtain ⟨left, hleft⟩ : ∃ c, Tiling.quarters.partition [apartDisc] = .ok c :=
    exists_ok (by decide +kernel)
  obtain ⟨right, hright⟩ : ∃ c, Tiling.quarters.partition middleItems = .ok c :=
    exists_ok (by decide +kernel)
  have hinner : namedPairs (JoinQuery.default.withBoundary false) Tiling.quarters [apartDisc]
      middleItems = some [(1, 2)] := by
    decide +kernel
  have hnone : namedPairs (JoinQuery.default.withBoundary true) Tiling.quarters [apartDisc]
      middleItems = some [] := by
    decide +kernel
  obtain ⟨pairs, hpairs, hnames⟩ := exists_of_namedPairs hleft hright hinner
  obtain ⟨none, hall, hempty⟩ := exists_of_namedPairs hleft hright hnone
  obtain rfl := List.map_eq_nil_iff.mp hempty
  exact ⟨left, right, pairs, hleft, hright, hpairs, hnames, hall⟩

end JoinQuery

end PlanarJoin
