import PlanarJoin.Proofs.Query.Join

/-!
# A parallel join gives what a sequential one gives

The partitions of a join are the units of a crew.  Whatever the number of workers and however their
steps interleave, once all have finished each partition has been done once, and the results in the
order of the partitions are those of a sequential join.  So is everything that the join makes of
them: the pairs in their order, the tally, and the failure of the first partition that fails.

## Main definitions

* `JoinQuery.crew`: the crew of a join after some steps.
* `JoinQuery.runBy`: a join whose partitions are done by such a crew.
* `JoinQuery.withParallel`: the same join, in parallel or one partition after the other.

## Main results

* `JoinQuery.run_withParallel_true`: a parallel join is done by a crew that has finished.
* `JoinQuery.run_eq_error_iff`: a join fails as the first partition that fails.
* `JoinQuery.runBy_eq_sequential`: a crew that has finished gives what a sequential join gives.
-/

namespace PlanarJoin

/-- Of several results the first failure counts. -/
theorem mapM_id_eq_error {ε ρ : Type} {results : List (Except ε ρ)} {e : ε} :
    results.mapM id = .error e ↔
      ∃ i : Nat, results[i]? = some (.error e) ∧ ∀ j < i, ∃ r, results[j]? = some (.ok r) := by
  induction results with
  | nil => simp [pure, Except.pure]
  | cons result results ih =>
    rw [List.mapM_cons, id]
    cases result with
    | error e' =>
      constructor
      · rintro ⟨⟩
        exact ⟨0, rfl, fun j hj => absurd hj (Nat.not_lt_zero j)⟩
      · rintro ⟨i, hi, hbefore⟩
        cases i with
        | zero => exact congrArg _ (Except.error.inj (Option.some.inj hi))
        | succ i =>
          obtain ⟨r, hr⟩ := hbefore 0 (Nat.succ_pos i)
          cases hr
    | ok r =>
      have htail : (do let r ← Except.ok r; let rs ← results.mapM id; pure (r :: rs)) = .error e ↔
          results.mapM id = .error e := by
        cases results.mapM id with
        | error e' => exact Iff.rfl
        | ok rs => exact iff_of_false nofun nofun
      rw [htail, ih]
      constructor
      · rintro ⟨i, hi, hbefore⟩
        refine ⟨i + 1, hi, ?_⟩
        intro j hj
        cases j with
        | zero => exact ⟨r, rfl⟩
        | succ j => exact hbefore j (Nat.lt_of_succ_lt_succ hj)
      · rintro ⟨i, hi, hbefore⟩
        cases i with
        | zero => cases hi
        | succ i => exact ⟨i, hi, fun j hj => hbefore (j + 1) (Nat.succ_lt_succ hj)⟩

theorem getElem?_map_range {ρ : Type} {f : Nat → ρ} {n i : Nat} {r : ρ} :
    ((List.range n).map f)[i]? = some r ↔ i < n ∧ f i = r := by
  simp [List.getElem?_eq_some_iff]

namespace JoinQuery

variable {α β : Type} [Spatial α] [Spatial β]

/-- The crew of a join, after its workers have made their steps in the order of a schedule. -/
def crew (q : JoinQuery) (s : Strategy) (left : Collection α) (right : Collection β)
    (workers : Nat) (schedule : List Nat) : Crew (Except Failure (List (α × β) × Tally)) :=
  Crew.run left.count (q.unit s left right) workers schedule

/-- The same join, in parallel or one partition after the other. -/
def withParallel (q : JoinQuery) (parallel : Bool) : JoinQuery :=
  ⟨{ q.settings with join := { q.settings.join with parallel } }⟩

variable [BEq α] [BEq β]

/-- A join whose partitions are done by a crew. -/
def runBy (q : JoinQuery) (workers : Nat) (schedule : List Nat) (left : Collection α)
    (right : Collection β) : Except Failure (JoinOutput α β) := do
  sameTiling left right
  let s := q.strategy left right
  q.conclude s right ((q.crew s left right workers schedule).results left.count)

/-- A parallel join is done by a crew whose workers take turns until all have finished. -/
theorem run_withParallel_true (q : JoinQuery) (cores : Nat) (left : Collection α)
    (right : Collection β) :
    (q.withParallel true).run cores left right = q.runBy (workersFor cores left.count)
      (turns left.count (workersFor cores left.count)) left right := rfl

theorem run_withParallel_false (q : JoinQuery) (cores : Nat) (left : Collection α)
    (right : Collection β) :
    (q.withParallel false).run cores left right = (do
      sameTiling left right
      let s := q.strategy left right
      q.conclude s right ((List.range left.count).map (q.unit s left right))) := rfl

/-- A join fails if the collections cannot be joined, and else as the first partition that
fails. -/
theorem run_eq_error_iff {q : JoinQuery} {cores : Nat} {left : Collection α}
    {right : Collection β} {e : Failure} :
    q.run cores left right = .error e ↔ sameTiling left right = .error e ∨
      (sameTiling left right = .ok () ∧ ∃ i < left.count,
        q.unit (q.strategy left right) left right i = .error e ∧
          ∀ j < i, ∃ u, q.unit (q.strategy left right) left right j = .ok u) := by
  have hunits : (q.units cores (q.strategy left right) left right).mapM id = .error e ↔
      ∃ i < left.count, q.unit (q.strategy left right) left right i = .error e ∧
        ∀ j < i, ∃ u, q.unit (q.strategy left right) left right j = .ok u := by
    rw [units_eq, mapM_id_eq_error]
    simp only [getElem?_map_range]
    constructor
    · rintro ⟨i, ⟨hi, he⟩, hbefore⟩
      exact ⟨i, hi, he, fun j hj => (hbefore j hj).imp fun u h => h.2⟩
    · rintro ⟨i, hi, he, hbefore⟩
      exact ⟨i, ⟨hi, he⟩, fun j hj => (hbefore j hj).imp fun u h => ⟨hj.trans hi, h⟩⟩
  rw [← hunits, run, conclude]
  cases sameTiling left right with
  | error e' => simp [bind, Except.bind]
  | ok u =>
    cases (q.units cores (q.strategy left right) left right).mapM id with
    | error e' => simp [bind, Except.bind]
    | ok us => simp [bind, Except.bind, pure, Except.pure]

/-- Whoever does which partition and when, a crew that has finished has done each partition once,
and the join gives what it gives with one partition done after the other. -/
theorem runBy_eq_sequential (q : JoinQuery) (cores : Nat) (s : Strategy) (left : Collection α)
    (right : Collection β) {workers : Nat} (hw : 0 < workers) {schedule : List Nat}
    (hfin : (q.crew s left right workers schedule).isFinished = true) :
    (q.crew s left right workers schedule).gathered.Perm
      ((List.range left.count).map (doneBy (q.unit s left right))) ∧
    (q.crew s left right workers schedule).results left.count =
      (List.range left.count).map (q.unit s left right) ∧
    (q.strategy left right = s →
      q.runBy workers schedule left right = (q.withParallel false).run cores left right) ∧
    (q.withParallel true).run cores left right = (q.withParallel false).run cores left right ∧
    ∀ e, (q.withParallel false).run cores left right = .error e ↔ sameTiling left right = .error e ∨
      (sameTiling left right = .ok () ∧ ∃ i < left.count,
        q.unit (q.strategy left right) left right i = .error e ∧
          ∀ j < i, ∃ u, q.unit (q.strategy left right) left right j = .ok u) := by
  have haccount := Crew.account_run left.count workers (q.unit s left right) schedule
  have hresults : (q.crew s left right workers schedule).results left.count =
      (List.range left.count).map (q.unit s left right) := haccount.results_eq hw hfin
  refine ⟨haccount.gathered_perm hw hfin, hresults, ?_, ?_, fun e => run_eq_error_iff⟩
  · rintro rfl
    rw [run_withParallel_false, runBy]
    dsimp only
    rw [hresults]
  · rw [run_withParallel_true, run_withParallel_false, runBy]
    dsimp only
    rw [crew, ← inParallel_eq (workersFor_pos cores left.count)]
    rfl

/-- The second of two workers holds the first of four partitions while the other one does two and
claims the last; then both find that there is none left. -/
theorem runBy_crossing : ∃ left right, Tiling.quarters.partition crossingFeatures = .ok left ∧
    left.buildIndex .default = .ok right ∧
      (crossingJoin.crew (crossingJoin.strategy left right) left right 2
        [1, 0, 0, 0, 0, 0, 1, 1, 0, 0]).isFinished = true ∧
        crossingJoin.runBy 2 [1, 0, 0, 0, 0, 0, 1, 1, 0, 0] left right =
          (crossingJoin.withParallel false).run 4 left right := by
  obtain ⟨left, hleft⟩ : ∃ c, Tiling.quarters.partition crossingFeatures = .ok c :=
    exists_ok (by decide +kernel)
  have hright := Collection.buildIndex_ok IndexSettings.validate_default left
  have hcount : left.count = 4 := Collection.Prebuilt.bare.count_eq hleft
  refine ⟨left, _, hleft, hright, ?_⟩
  have hfin {s : Strategy} {right : Collection (Feature Nat)} :
      (crossingJoin.crew s left right 2 [1, 0, 0, 0, 0, 0, 1, 1, 0, 0]).isFinished = true := by
    rw [crew, hcount]
    generalize crossingJoin.unit s left right = work
    cbv
  exact ⟨hfin, (runBy_eq_sequential crossingJoin 4 _ left _ Nat.two_pos hfin).2.2.1 rfl⟩

end JoinQuery

end PlanarJoin
