import PlanarJoin.Proofs.Query.Parallel
import PlanarJoin.Proofs.Tiling.History

/-!
# How a join fails

The partitions of a join can fail in three ways: a cell has no ownership, an index is missing, or
none can be built under the settings.  None of them happens in collections with a history and a
join that was obtained in one of the usual ways.  There is a cell for each partition and an index
for each if there are indexes, and settings stay valid when the kind of index is chosen by the join.
What cannot be decided about two objects is only counted.  So a join fails if and only if the
collections are not on the same grid, before any partition is looked at.

## Main definitions

* `JoinQuery.Obtained`: the three ways to a join.
* `SameGrid`: collections on tilings with the same cells.

## Main results

* `sameTiling_eq_error_iff`: when two collections cannot be joined.
* `JoinQuery.exists_unit`: no partition fails.
* `JoinQuery.run_fails_iff`: when a join fails, and how.
-/

namespace PlanarJoin

variable {α β : Type} {left : Collection α} {right : Collection β} {e : Failure} {i : Nat}

/-! ## Grids -/

/-- Two collections on tilings with the same cells. -/
def SameGrid (left : Collection α) (right : Collection β) : Prop :=
  ∃ s t, left.tiling = some s ∧ right.tiling = some t ∧ (s.cells == t.cells) = true

namespace Collection

theorem Consistent.count_eq_of_sameGrid (hl : left.Consistent) (hr : right.Consistent)
    (h : SameGrid left right) : left.count = right.count := by
  obtain ⟨s, t, hs, ht, hcells⟩ := h
  rw [(hl.tiled s hs).2, (hr.tiled t ht).2]
  exact List.length_eq_of_beq hcells

end Collection

/-- Numbers of partitions need not be compared, as cells have been. -/
theorem sameTiling_eq_ok_iff (hl : left.Consistent) (hr : right.Consistent) :
    sameTiling left right = .ok () ↔ SameGrid left right := by
  constructor
  · intro h
    unfold sameTiling at h
    split at h
    · next s t hs ht =>
      split at h
      · next hst => exact ⟨s, t, hs, ht, hst⟩
      · cases h
    · cases h
  · intro h
    have hcount := hl.count_eq_of_sameGrid hr h
    obtain ⟨s, t, hs, ht, hcells⟩ := h
    have hst : (s == t) = true := hcells
    rw [sameTiling, hs, ht]
    dsimp only
    rw [if_pos hst, if_pos hcount]

/-- Two collections cannot be joined if one has no grid, or if the cells differ. -/
theorem sameTiling_eq_error_iff (hl : left.Consistent) (hr : right.Consistent) :
    sameTiling left right = .error e ↔
      ((left.tiling = none ∨ right.tiling = none) ∧ e = .notGridded) ∨
      ∃ s t, left.tiling = some s ∧ right.tiling = some t ∧ (s.cells == t.cells) = false ∧
        e = .differentGrids := by
  constructor
  · intro h
    unfold sameTiling at h
    split at h
    · next s t hs ht =>
      split at h
      · next hst =>
        rw [if_pos (hl.count_eq_of_sameGrid hr ⟨s, t, hs, ht, hst⟩)] at h
        cases h
      · next hst =>
        obtain rfl := Except.error.inj h
        exact .inr ⟨s, t, hs, ht, eq_false_of_ne_true hst, rfl⟩
    · next hnone =>
      obtain rfl := Except.error.inj h
      refine .inl ⟨?_, rfl⟩
      cases hs : left.tiling with
      | none => exact .inl rfl
      | some s =>
        refine .inr ?_
        cases ht : right.tiling with
        | none => rfl
        | some t => exact absurd ht (hnone s t hs)
  · rintro (⟨hnone, rfl⟩ | ⟨s, t, hs, ht, hcells, rfl⟩)
    · unfold sameTiling
      split
      · next s t hs ht =>
        rw [hs, ht] at hnone
        rcases hnone with h | h <;> cases h
      · rfl
    · have hst : ¬ (s == t) = true := ne_true_of_eq_false hcells
      rw [sameTiling, hs, ht]
      dsimp only
      rw [if_neg hst]

namespace JoinQuery

variable {q : JoinQuery}

/-! ## Partitions -/

/-- A join with given join settings, with all defaults, or with settings that were validated. -/
inductive Obtained : JoinQuery → Prop
  | ofJoinSettings (s : JoinSettings) : Obtained (.ofJoinSettings s)
  | default : Obtained .default
  | ofSettings {s : Settings} {q : JoinQuery} (h : ofSettings s = .ok q) : Obtained q

theorem Obtained.validate (h : q.Obtained) : q.settings.validate = .ok () := by
  cases h with
  | ofJoinSettings s => exact IndexSettings.validate_default
  | default => exact IndexSettings.validate_default
  | ofSettings h =>
    obtain ⟨hv, rfl⟩ := ok_of_map_const h
    exact hv

theorem exists_rule (hr : right.Consistent) (hi : i < right.count) :
    ∃ r, q.rule right i = .ok r := by
  obtain ⟨o, ho⟩ := hr.exists_ownership hi
  exact ⟨_, by rw [rule, ho]; rfl⟩

theorem exists_indexOf {c : Collection α} (hc : c.Consistent) (hindex : c.hasIndex = true)
    (hi : i < c.count) : ∃ x, indexOf c i = .ok x := by
  obtain ⟨x, hx⟩ := hc.exists_index hindex hi
  exact ⟨x, by rw [indexOf, hx]⟩

variable [Spatial α] [Spatial β]

/-- No partition fails: each has a rule, and an index if it is asked for one. -/
theorem exists_unit (hq : q.settings.validate = .ok ()) (hl : left.Consistent)
    (hr : right.Consistent) (hi : i < left.count) (hi' : i < right.count) :
    ∃ u, q.unit (q.strategy left right) left right i = .ok u := by
  suffices hm : ∃ m, q.matchesIn (q.strategy left right) left right i = .ok m by
    obtain ⟨m, hm⟩ := hm
    exact ⟨m.drain, by rw [unit, hm]; rfl⟩
  obtain ⟨r, hrule⟩ := exists_rule (q := q) hr hi'
  rw [matchesIn, hrule]
  rcases q.strategy_cases left right with h | ⟨h, hindex⟩ | ⟨h, hindex⟩ | h <;> rw [h]
  · exact ⟨_, rfl⟩
  · obtain ⟨x, hx⟩ := exists_indexOf hr hindex hi'
    exact ⟨r.probeRight (left.partition i) x, by rw [hx]; rfl⟩
  · obtain ⟨x, hx⟩ := exists_indexOf hl hindex hi
    exact ⟨r.probeLeft x (right.partition i), by rw [hx]; rfl⟩
  · have hv : q.settings.forJoin.validate = .ok () := hq
    refine ⟨r.probeBuilt q.settings.forJoin q.settings.join.buildSide (left.partition i)
      (right.partition i), ?_⟩
    change Rule.probeBuilt? _ _ _ _ _ = _
    rw [Rule.probeBuilt?, hv]
    rfl

/-! ## Joins -/

variable [BEq α] [BEq β]

/-- Only the grids can keep a join from succeeding. -/
theorem run_eq_error_iff_sameTiling (hq : q.settings.validate = .ok ()) (hl : left.Consistent)
    (hr : right.Consistent) {cores : Nat} :
    q.run cores left right = .error e ↔ sameTiling left right = .error e := by
  rw [run_eq_error_iff, or_iff_left]
  rintro ⟨hok, i, hi, he, -⟩
  have hcount := hl.count_eq_of_sameGrid hr ((sameTiling_eq_ok_iff hl hr).mp hok)
  obtain ⟨u, hu⟩ := exists_unit hq hl hr hi (hcount ▸ hi)
  rw [hu] at he
  cases he

/-- A join fails if one of the collections has no grid or their cells differ, as a mismatch of
partitions.  Otherwise it succeeds, and no partition fails, whatever its objects are. -/
theorem run_fails_iff (hq : q.Obtained) (hleft : left.Reached) (hright : right.Reached)
    (cores : Nat) :
    (∀ e, q.run cores left right = .error e ↔
      ((left.tiling = none ∨ right.tiling = none) ∧ e = .notGridded) ∨
      ∃ s t, left.tiling = some s ∧ right.tiling = some t ∧ (s.cells == t.cells) = false ∧
        e = .differentGrids) ∧
    (∀ e, q.run cores left right = .error e → e.kind = .partitioning) ∧
    (SameGrid left right → (∃ out, q.run cores left right = .ok out) ∧ left.count = right.count ∧
      ∀ i < left.count, ∃ u, q.unit (q.strategy left right) left right i = .ok u) := by
  have hl := hleft.consistent
  have hr := hright.consistent
  have herror (e : Failure) : q.run cores left right = .error e ↔ _ :=
    run_eq_error_iff_sameTiling hq.validate hl hr
  refine ⟨fun e => (herror e).trans (sameTiling_eq_error_iff hl hr), ?_, ?_⟩
  · intro e he
    rcases (sameTiling_eq_error_iff hl hr).mp ((herror e).mp he) with
      ⟨-, rfl⟩ | ⟨-, -, -, -, -, rfl⟩ <;> rfl
  · intro h
    have hcount := hl.count_eq_of_sameGrid hr h
    refine ⟨?_, hcount, fun i hi => exists_unit hq.validate hl hr hi (hcount ▸ hi)⟩
    cases hrun : q.run cores left right with
    | error e =>
      rw [herror, (sameTiling_eq_ok_iff hl hr).mpr h] at hrun
      cases hrun
    | ok out => exact ⟨out, rfl⟩

/-- Discs of which it is not decided whether a feature contains them. -/
def undecidedDiscs : List (Disc (Feature Nat)) :=
  crossingFeatures.map fun f => ⟨f, 0.5, by decide +kernel⟩

/-- A parallel join that asks which features contain which discs. -/
def containingJoin : JoinQuery := .ofJoinSettings ⟨true, false, false, .grid, .left, true⟩

/-- Settings without buckets. -/
def bucketless : IndexSettings := { IndexSettings.default with columns := 0 }

/-- Neither an index that could not be built nor pairs of which none can be decided keep a join from
succeeding; a missing grid does. -/
theorem run_undecided : ∃ left right, Tiling.quarters.partition crossingFeatures = .ok left ∧
    Tiling.quarters.partition undecidedDiscs = .ok right ∧
    (∀ a ∈ crossingFeatures, ∀ b ∈ undecidedDiscs,
      (containingJoin.relation.holds a b).toOption = none) ∧
    (∃ out, containingJoin.run 4 (left.after [.build bucketless])
      (right.after [.build .default, .drop, .build .default]) = .ok out) ∧
    containingJoin.run 4 (Collection.ofPartitions [crossingFeatures]) right =
      .error .notGridded := by
  obtain ⟨left, hleft⟩ : ∃ c, Tiling.quarters.partition crossingFeatures = .ok c :=
    exists_ok (by decide +kernel)
  obtain ⟨right, hright⟩ : ∃ c, Tiling.quarters.partition undecidedDiscs = .ok c :=
    exists_ok (by decide +kernel)
  have hquarters : Tiling.quarters.Constructed := .uniform Tiling.uniform_quarters
  have hl (calls) : (left.after calls).Reached := ⟨left, calls, .placed hquarters hleft, rfl⟩
  have hr (calls) : (right.after calls).Reached := ⟨right, calls, .placed hquarters hright, rfl⟩
  refine ⟨left, right, hleft, hright, by decide +kernel, ?_, ?_⟩
  · refine ((run_fails_iff (.ofJoinSettings _) (hl _) (hr _) 4).2.2 ?_).1
    refine ⟨Tiling.quarters, Tiling.quarters, ?_, ?_, hquarters.made.beq_self⟩
    · rw [Collection.tiling_after, (Tiling.partition_spec hleft).1]
    · rw [Collection.tiling_after, (Tiling.partition_spec hright).1]
  · exact ((run_fails_iff (.ofJoinSettings _) ⟨_, [], .loose _, rfl⟩ (hr []) 4).1 _).mpr
      (.inl ⟨.inl rfl, rfl⟩)

end JoinQuery

end PlanarJoin
