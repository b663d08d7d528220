import PlanarJoin.Proofs.Envelope.Order
import PlanarJoin.Proofs.Matching.EmptyItems
import PlanarJoin.Proofs.Matching.Strategies
import PlanarJoin.Proofs.Matching.Tallies

/-!
# Joins with the inputs exchanged

Whether two objects share a point does not depend on which of them comes first, and neither does the
corner that decides on the ownership of a pair.  A pair that cannot be decided one way round cannot
be decided the other way round either, though another reason may be given: the first fault counts.
So a join of all pairs with the inputs exchanged finds the exchanged pairs and counts as much, as
far as the relation of plain geometries and the distance of centers are symmetric.

## Main definitions

* `Shape.Balanced`: what geometry grants of a pair of shapes.
* `Rule.tried`: the trials of all pairs.

## Main results

* `Shape.toOption_intersects_comm`: two shapes intersect both ways round, or neither, or both ways
  fail.
* `Ownership.ownsPair_comm`: a pair belongs to a partition either way round.
* `Rule.countP_tried`: what is counted of all trials is counted of the exchanged ones.
* `Rule.pairwise_exchanged`: a join with the inputs exchanged.
-/

namespace PlanarJoin

open Binary64

/-! ## Shapes -/

namespace Shape

/-- What geometry grants of a pair of shapes: plain geometries meet both ways round or neither, and
the centers of two discs are equally far apart. -/
def Balanced : Shape → Shape → Prop
  | plain g, plain h => g.meets h = h.meets g
  | disc c _, disc d _ => c.distance d = d.distance c
  | plain _, disc _ _ => True
  | disc _ _, plain _ => True

instance : DecidableRel Balanced
  | plain g, plain h => inferInstanceAs (Decidable (g.meets h = h.meets g))
  | disc c _, disc d _ => inferInstanceAs (Decidable (c.distance d = d.distance c))
  | plain _, disc _ _ => .isTrue trivial
  | disc _ _, plain _ => .isTrue trivial

variable {a b : Shape}

theorem toOption_tested {γ : Type} (a b : Shape) (answer : Except Failure γ) :
    (tested a b answer).toOption =
      if a.fault?.isNone && b.fault?.isNone then answer.toOption else none := by
  unfold tested
  cases a.fault? <;> cases b.fault? <;> rfl

/-- Two shapes intersect both ways round, or neither, or both ways cannot be decided. -/
theorem toOption_intersects_comm (h : a.Balanced b) :
    (a.intersects b).toOption = (b.intersects a).toOption := by
  cases a with
  | plain g =>
    cases b with
    | plain g' =>
      have hmeets : g.meets g' = g'.meets g := h
      rw [intersects, intersects, toOption_tested, toOption_tested, hmeets, Bool.and_comm]
    | disc d s => rfl
  | disc c r =>
    cases b with
    | plain g => rfl
    | disc d s =>
      have hdistance : c.distance d = d.distance c := h
      rw [intersects, intersects, toOption_tested, toOption_tested, hdistance, Bool.and_comm]
      split
      · next hfault =>
        rw [Bool.and_eq_true, Option.isNone_iff_eq_none, Option.isNone_iff_eq_none] at hfault
        rw [decide_eq_decide.mpr (le_reach_comm hfault.2 hfault.1)]
      · rfl

end Shape

/-! ## The corner of a pair -/

namespace Binary64

variable {x y : Float}

/-- The larger of a NaN and a float is the float, up to the sign and the payload of a NaN. -/
theorem upper_of_isNaN (hx : x.isNaN = true) :
    upper y x = y ∧ (upper x y).isNaN = y.isNaN ∧ rank (upper x y) = rank y := by
  have hlt : ¬ y < x := fun h => not_numbers (.inr hx) (lt_iff.mp h)
  refine ⟨if_pos (Bool.or_eq_true_iff.mpr (.inr hx)), ?_⟩
  cases hy : y.isNaN with
  | false =>
    have hupper : upper x y = y :=
      if_neg fun h => (Bool.or_eq_true_iff.mp h).elim (hlt <| of_decide_eq_true ·)
        (Bool.noConfusion <| hy.symm.trans ·)
    rw [hupper]
    exact ⟨hy, rfl⟩
  | true =>
    have hupper : upper x y = x := if_pos (Bool.or_eq_true_iff.mpr (.inr hy))
    rw [hupper, rank_of_isNaN hx, rank_of_isNaN hy]
    exact ⟨hx, rfl⟩

/-- The larger of two floats is the same number whichever is named first, and a NaN if both are. -/
theorem upper_comm (x y : Float) :
    (upper x y).isNaN = (upper y x).isNaN ∧ rank (upper x y) = rank (upper y x) := by
  cases hx : x.isNaN with
  | true =>
    obtain ⟨hyx, hxy⟩ := upper_of_isNaN hx (y := y)
    rwa [hyx]
  | false =>
    cases hy : y.isNaN with
    | true =>
      obtain ⟨hxy, hyx⟩ := upper_of_isNaN hy (y := x)
      rw [hxy]
      exact ⟨hyx.1.symm, hyx.2.symm⟩
    | false =>
      obtain ⟨hnum, hrank⟩ := rank_upper hx hy
      obtain ⟨hnum', hrank'⟩ := rank_upper hy hx
      exact ⟨hnum.trans hnum'.symm, hrank.trans ((max_comm _ _).trans hrank'.symm)⟩

end Binary64

theorem Envelope.meets_exchange (a b : Envelope) : a.meets b = b.meets a := by
  have hx : (decide (a.maxX < b.minX) || decide (b.maxX < a.minX)) =
      (decide (b.maxX < a.minX) || decide (a.maxX < b.minX)) := Bool.or_comm _ _
  have hy : (decide (a.maxY < b.minY) || decide (b.maxY < a.minY)) =
      (decide (b.maxY < a.minY) || decide (a.maxY < b.minY)) := Bool.or_comm _ _
  rw [meets, meets, Bool.or_assoc, hx, hy, ← Bool.or_assoc, Bool.and_comm (!a.isEmpty)]

namespace Ownership

variable {v w low high last : Float}

/-- A span tells floats apart by their number alone. -/
theorem inSpan_congr (hnum : v.isNaN = w.isNaN) (hrank : rank v = rank w) :
    inSpan low high last v = inSpan low high last w := by
  rw [Bool.eq_iff_iff]
  simp only [inSpan, Bool.and_eq_true, Bool.or_eq_true, decide_eq_true_eq, lt_iff, le_iff, beq_iff,
    hnum, hrank]

/-- A pair belongs to a partition either way round. -/
theorem ownsPair_comm (o : Ownership) (a b : Envelope) : o.ownsPair a b = o.ownsPair b a := by
  rw [ownsPair, ownsPair, Envelope.overlap?, Envelope.overlap?, Envelope.meets_exchange]
  by_cases hm : b.meets a = true
  · rw [if_pos hm, if_pos hm]
    obtain ⟨hnx, hrx⟩ := upper_comm a.minX b.minX
    obtain ⟨hny, hry⟩ := upper_comm a.minY b.minY
    change o.ownsPoint (upper a.minX b.minX) (upper a.minY b.minY) =
      o.ownsPoint (upper b.minX a.minX) (upper b.minY a.minY)
    rw [ownsPoint, ownsPoint, inSpan_congr hnx hrx, inSpan_congr hny hry]
  · rw [if_neg hm, if_neg hm]

end Ownership

/-! ## Trials -/

namespace Rule

variable {α β : Type} [Spatial α] [Spatial β] {r : Rule} {as : List α} {bs : List β}

/-- The trials of all pairs, in the order in which a join of all pairs makes them. -/
def tried (r : Rule) (as : List α) (bs : List β) : List (Trial α β) :=
  bs.flatMap fun b => as.map fun a => r.try a b

/-- What is counted of all trials is counted of the exchanged ones, if it does not depend on the
order of a pair. -/
theorem countP_tried {p : Trial α β → Bool} {q : Trial β α → Bool}
    (h : ∀ a ∈ as, ∀ b ∈ bs, p (r.try a b) = q (r.try b a)) :
    (r.tried as bs).countP p = (r.tried bs as).countP q := by
  have hperm : (r.tried as bs).Perm (as.flatMap fun a => bs.map fun b => r.try a b) := by
    simpa only [tried, List.map_eq_flatMap] using
      flatMap_comm_perm bs as fun b a => [r.try a b]
  rw [hperm.countP_eq, tried, List.countP_flatMap, List.countP_flatMap]
  refine congrArg List.sum (List.map_congr_left ?_)
  intro a ha
  rw [Function.comp_apply, Function.comp_apply, List.countP_map, List.countP_map]
  refine List.countP_congr ?_
  intro b hb
  rw [Function.comp_apply, Function.comp_apply, h a ha b hb]

/-- What a join of all pairs counts are its trials. -/
theorem tally_pairwise (r : Rule) (as : List α) (bs : List β) :
    (r.pairwise as bs).drain.2.candidates = (r.tried as bs).length ∧
    (r.pairwise as bs).drain.2.results = ((r.tried as bs).filterMap Trial.match?).length ∧
    (r.pairwise as bs).drain.2.skipped = ((r.tried as bs).filterMap Trial.skip?).length := by
  have htried : r.tried as bs = ((Way.pairwise as bs).trials r).flatten := rfl
  rcases Way.cases_of_open (w := .pairwise as bs) (r := r) rfl with
    ⟨hidle, opened, hs⟩ | ⟨-, rs, side, opened, hrs, hs⟩
  · have hnil : r.tried as bs = [] := by
      rw [Way.isIdle, Bool.or_eq_true, List.isEmpty_iff, List.isEmpty_iff] at hidle
      rcases hidle with rfl | rfl
      · simp [tried]
      · rfl
    rw [hs, hnil, MatchStream.drain_eq]
    exact ⟨rfl, rfl, rfl⟩
  · have hdrain : (r.pairwise as bs).drain.2 = Tally.zero.afterRounds rs := by
      rw [hs, MatchStream.drain_eq]
      rfl
    rw [hdrain, Tally.afterRounds_eq, htried, ← hrs, ← List.flatMap_def]
    exact ⟨Nat.zero_add _, Nat.zero_add _, Nat.zero_add _⟩

/-! ## The inputs exchanged -/

/-- A rule leaves a pair to its partition either way round. -/
theorem owns_comm (r : Rule) (a b : Envelope) : r.owns a b = r.owns b a := by
  unfold owns
  cases r.ownership with
  | none => rfl
  | some o => exact o.ownsPair_comm a b

section Exchanged

variable {a : α} {b : β} (hr : r.relation = .intersects)

include hr

theorem toOption_holds_comm (h : (Spatial.shape a).Balanced (Spatial.shape b)) :
    (r.relation.holds a b).toOption = (r.relation.holds b a).toOption := by
  rw [hr]
  exact Shape.toOption_intersects_comm h

/-- What becomes of a pair either way round, except that it may be skipped for another reason. -/
theorem verdict_comm (h : (Spatial.shape a).Balanced (Spatial.shape b)) :
    r.accepts a b = r.accepts b a ∧ (r.try a b).skip?.isSome = (r.try b a).skip?.isSome := by
  have hanswer := toOption_holds_comm hr h
  have howns := r.owns_comm (Spatial.envelope a) (Spatial.envelope b)
  unfold accepts Relation.decides Rule.try Trial.skip? judge
  rw [howns]
  cases r.owns (Spatial.envelope b) (Spatial.envelope a) with
  | false => exact ⟨rfl, rfl⟩
  | true =>
    rcases hab : r.relation.holds a b with f | x <;>
      rcases hba : r.relation.holds b a with g | y <;> rw [hab, hba] at hanswer
    · exact ⟨rfl, rfl⟩
    · cases hanswer
    · cases hanswer
    · obtain rfl : x = y := Option.some.inj hanswer
      cases x <;> exact ⟨rfl, rfl⟩

end Exchanged

/-- A join by intersection finds the exchanged pairs when its inputs are exchanged, each as often,
and counts as many candidates, results and skipped pairs, with or without an ownership. -/
theorem pairwise_exchanged (o : Option Ownership) (as : List α) (bs : List β)
    (h : ∀ a ∈ as, ∀ b ∈ bs, (Spatial.shape a).Balanced (Spatial.shape b)) :
    (((Rule.mk .intersects o).pairwise as bs).drain.1.map Prod.swap).Perm
      ((Rule.mk .intersects o).pairwise bs as).drain.1 ∧
    ((Rule.mk .intersects o).pairwise as bs).drain.2.results =
      ((Rule.mk .intersects o).pairwise bs as).drain.2.results ∧
    ((Rule.mk .intersects o).pairwise as bs).drain.2.candidates =
      ((Rule.mk .intersects o).pairwise bs as).drain.2.candidates ∧
    ((Rule.mk .intersects o).pairwise as bs).drain.2.skipped =
      ((Rule.mk .intersects o).pairwise bs as).drain.2.skipped := by
  generalize hr : Rule.mk .intersects o = r
  have hrelation : r.relation = .intersects := hr ▸ rfl
  obtain ⟨hcandidates, hresults, hskipped⟩ := r.tally_pairwise as bs
  obtain ⟨hcandidates', hresults', hskipped'⟩ := r.tally_pairwise bs as
  rw [hcandidates, hcandidates', hresults, hresults', hskipped, hskipped', MatchStream.drain_fst,
    MatchStream.drain_fst]
  refine ⟨?_, ?_, ?_, ?_⟩
  · refine ((r.remaining_pairwise as bs).map Prod.swap).trans
      (List.Perm.trans (List.Perm.of_eq ?_)
        ((pairsOf_perm r.accepts bs as).symm.trans (r.remaining_pairwise bs as).symm))
    rw [pairsOf, List.map_flatMap]
    refine List.flatMap_congr fun a ha => ?_
    rw [List.map_map, List.filter_congr fun b hb => (verdict_comm hrelation (h a ha b hb)).1]
    rfl
  · rw [List.length_filterMap_eq_countP, List.length_filterMap_eq_countP]
    refine countP_tried fun a ha b hb => ?_
    rw [match?_try, match?_try, (verdict_comm hrelation (h a ha b hb)).1]
    split <;> rfl
  · rw [← List.countP_true, ← List.countP_true]
    exact countP_tried fun a _ b _ => rfl
  · rw [List.length_filterMap_eq_countP, List.length_filterMap_eq_countP]
    exact countP_tried fun a ha b hb => (verdict_comm hrelation (h a ha b hb)).2

/-! ## An exchange of mixed items -/

/-- A square, a point without a place, and a disc that reaches the square. -/
def mixedLeft : List (Item Nat) :=
  [.feature ⟨1, .single (.ofCorners ⟨0.0, 0.0⟩ ⟨4.0, 4.0⟩)⟩,
    .feature ⟨2, .single (.point ⟨1.0, 0.0 / 0.0⟩)⟩,
    .disc ⟨⟨3, .single (.point ⟨7.0, 3.0⟩)⟩, 4.0, by decide⟩]

/-- A point in the square, a disc around a disc, a disc without a place, and a point far away. -/
def mixedRight : List (Item Nat) :=
  [.feature ⟨4, .single (.point ⟨1.0, 1.0⟩)⟩,
    .nested ⟨⟨⟨5, .single (.point ⟨6.0, 0.0⟩)⟩, 1.0, by decide⟩, 1.0, by decide⟩,
    .disc ⟨⟨6, .single (.point ⟨0.0 / 0.0, 1.0⟩)⟩, 2.5, by decide⟩,
    .feature ⟨7, .single (.point ⟨90.0, 90.0⟩)⟩]

/-- Of twelve pairs two match, four cannot be decided, and three belong to another partition, either
way round. -/
theorem exchanged_mixed :
    ((Rule.mk .intersects boxedRule.ownership).pairwise mixedRight mixedLeft).drain.2.results = 2 ∧
    ((Rule.mk .intersects boxedRule.ownership).pairwise mixedRight mixedLeft).drain.2.candidates =
      12 ∧
    ((Rule.mk .intersects boxedRule.ownership).pairwise mixedRight mixedLeft).drain.2.skipped =
      4 := by
  obtain ⟨-, hresults, hcandidates, hskipped⟩ :=
    pairwise_exchanged boxedRule.ownership mixedLeft mixedRight (by decide +kernel)
  rw [← hresults, ← hcandidates, ← hskipped]
  decide +kernel

end Rule

end PlanarJoin
