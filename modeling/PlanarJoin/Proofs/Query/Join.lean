import PlanarJoin.Proofs.Matching.Pairs
import PlanarJoin.Proofs.Query.Crew
import PlanarJoin.Proofs.Tiling.Partition
import PlanarJoin.Proofs.Tiling.Uniform
import PlanarJoin.Query.Join

/-!
# A join gives every match once

Both parts of a match are placed into the cell that owns the match, and no other cell owns it.  So
the matches of all partitions together are the matches of the two lists, whichever way they are
found in each partition.

## Main results

* `Tiling.flatMap_partitions_perm`: what the partitions own together is everything, once.
* `JoinQuery.unit_ok`: each partition gives the matches that it owns.
* `JoinQuery.run_perm`: a join on a uniform tiling gives every match once.
-/

namespace PlanarJoin

open Envelope

variable {α β : Type}

/-! ## Gathering over partitions -/

/-- Pairs of which each is found in one place are all found once. -/
theorem flatMap_pairsOf_perm {n : Nat} {P : Nat → α → β → Bool} {q : α → β → Bool} {as : List α}
    {bs : List β}
    (hone : ∀ a ∈ as, ∀ b ∈ bs, q a b = true → ∃ i < n, ∀ j < n, P j a b = true ↔ j = i)
    (hnone : ∀ a ∈ as, ∀ b ∈ bs, ∀ i < n, P i a b = true → q a b = true) :
    ((List.range n).flatMap fun i => pairsOf (P i) as bs).Perm (pairsOf q as bs) := by
  simp only [pairsOf_eq_filter]
  refine flatMap_filter_perm ?_ ?_
  · intro x hx
    obtain ⟨ha, hb⟩ := List.pair_mem_product.mp hx
    exact hone x.1 ha x.2 hb
  · intro x hx
    obtain ⟨ha, hb⟩ := List.pair_mem_product.mp hx
    exact hnone x.1 ha x.2 hb

namespace Tiling

variable [Spatial α] [Spatial β] {t : Tiling} {as : List α} {bs : List β}

/-- The rule of a partition whose cell owns pairs. -/
def ruleOf (rel : Relation) (o : Ownership) : Rule := ⟨rel, some o⟩

/-- What the partitions own together is everything, once. -/
theorem flatMap_partitions_perm (hmade : t.Made) (honce : t.OwnedOnce) (rel : Relation)
    (hcov : ∀ a ∈ as, (Spatial.envelope a).isProper = true →
      t.extent.covers (Spatial.envelope a) = true)
    (hlocal : ∀ a ∈ as, ∀ b ∈ bs, rel.decides a b = true → (Spatial.envelope a).isProper = true ∧
      (Spatial.envelope b).isProper = true ∧
        (Spatial.envelope a).meets (Spatial.envelope b) = true) :
    ((List.range t.size).flatMap fun i => pairsOf (ruleOf rel (t.ownershipOf i)).accepts
      (as.filter (t.places i)) (bs.filter (t.places i))).Perm (pairsOf rel.decides as bs) := by
  simp only [pairsOf_filter]
  refine flatMap_pairsOf_perm ?_ ?_
  · intro a ha b hb hq
    obtain ⟨hpa, hpb, hm⟩ := hlocal a ha b hb hq
    obtain ⟨e, he, hea, heb⟩ :=
      hasPoint_overlap (ordered_of_isProper hpa) (ordered_of_isProper hpb) hm
    obtain ⟨i, hi, howns, honly⟩ :=
      honce.exists_owner hmade (hasPoint_of_covers (hcov a ha hpa) hea)
    refine ⟨i, hi, ?_⟩
    intro j hj
    rw [Bool.and_eq_true, Bool.and_eq_true, places_iff, places_iff, Rule.accepts, Bool.and_eq_true]
    change _ ∧ (t.ownershipOf j).ownsPair _ _ = true ∧ rel.decides a b = true ↔ _
    rw [Ownership.ownsPair_of_overlap he, honly j hj]
    constructor
    · rintro ⟨-, hj, -⟩
      exact hj
    · rintro rfl
      exact ⟨⟨hmade.mem_placement_of_owns howns hpa hea, hmade.mem_placement_of_owns howns hpb heb⟩,
        rfl, hq⟩
  · intro a _ b _ i _ hP
    obtain ⟨-, hacc⟩ := Bool.and_eq_true_iff.mp hP
    rw [Rule.accepts, Bool.and_eq_true] at hacc
    exact hacc.2

end Tiling

/-! ## Running a join -/

/-- Finite cells equal themselves. -/
theorem Tiling.Made.beq_self {t : Tiling} (ht : t.Made) : (t == t) = true := by
  have hcells : ∀ cs : List Envelope, (∀ c ∈ cs, c.isProper = true) → (cs == cs) = true := by
    intro cs hcs
    induction cs with
    | nil => rfl
    | cons c cs ih =>
      obtain ⟨ho, -⟩ := isProper_iff.mp (hcs c List.mem_cons_self)
      have hnum {x : Float} (hx : x.isNaN = false) : (x == x) = true :=
        Binary64.beq_iff.mpr ⟨hx, hx, rfl⟩
      have hc : (c == c) = true := by
        change (c.minX == c.minX && (c.maxX == c.maxX &&
          (c.minY == c.minY && c.maxY == c.maxY))) = true
        rw [hnum ho.minX_num, hnum ho.maxX_num, hnum ho.minY_num, hnum ho.maxY_num]
        rfl
      rw [List.cons_beq_cons, hc, ih fun d hd => hcs d (List.mem_cons_of_mem _ hd)]
      rfl
  exact hcells _ ht.proper

namespace JoinQuery

variable [Spatial α] [Spatial β] {t : Tiling} {as : List α} {bs : List β}
  {left₀ left : Collection α}
  {right₀ right : Collection β} {q : JoinQuery}

/-- The relation that a join tests. -/
def relation (q : JoinQuery) : Relation := .ofBoundary q.settings.join.boundary

omit [Spatial α] [Spatial β] in
/-- An index is only probed where there is one. -/
theorem strategy_cases (q : JoinQuery) (left : Collection α) (right : Collection β) :
    q.strategy left right = .pairwise ∨
    (q.strategy left right = .probe .right ∧ right.hasIndex = true) ∨
    (q.strategy left right = .probe .left ∧ left.hasIndex = true) ∨
    q.strategy left right = .build := by
  unfold strategy
  split
  · exact .inl rfl
  · split
    · next h => exact .inr (.inl ⟨rfl, h⟩)
    · split
      · next h => exact .inr (.inr (.inl ⟨rfl, h⟩))
      · exact .inr (.inr (.inr rfl))

section Parts

variable (hexact : t.exact = true) (hleft₀ : t.partition as = .ok left₀)
  (hright₀ : t.partition bs = .ok right₀) (hleft : left₀.Prebuilt left)
  (hright : right₀.Prebuilt right)

include hexact hright₀ hright in
theorem rule_ok (hmade : t.Made) {i : Nat} (hi : i < t.size) :
    q.rule right i = .ok (Tiling.ruleOf q.relation (t.ownershipOf i)) := by
  rw [rule, hright.ownership hright₀ hmade hexact hi]
  rfl

include hleft₀ hright₀ hleft hright in
/-- Each partition gives the matches that its rule accepts, whichever way they are found. -/
theorem unit_of_rule (hq : q.settings.validate = .ok ())
    (hqt : q.settings.index.sizeTiered = false) {i : Nat} (hi : i < t.size) {r : Rule}
    (hrule : q.rule right i = .ok r)
    (hlocal : r.Local (as.filter (t.places i)) (bs.filter (t.places i))) :
    ∃ u, q.unit (q.strategy left right) left right i = .ok u ∧
      u.1.Perm (pairsOf r.accepts (as.filter (t.places i)) (bs.filter (t.places i))) := by
  have hl := hleft.partition_eq hleft₀ i
  have hr := hright.partition_eq hright₀ i
  have hdrain {m : MatchStream α β} (hm : q.matchesIn (q.strategy left right) left right i = .ok m)
      (hperm : m.remaining.Perm
        (pairsOf r.accepts (as.filter (t.places i)) (bs.filter (t.places i)))) :
      ∃ u, q.unit (q.strategy left right) left right i = .ok u ∧
        u.1.Perm (pairsOf r.accepts (as.filter (t.places i)) (bs.filter (t.places i))) :=
    ⟨m.drain, by rw [unit, hm]; rfl, by rw [MatchStream.drain_fst]; exact hperm⟩
  rw [matchesIn, hrule] at hdrain
  rcases q.strategy_cases left right with h | ⟨h, hidx⟩ | ⟨h, hidx⟩ | h <;> rw [h] at hdrain ⊢
  · rw [hl, hr] at hdrain
    exact hdrain rfl (Rule.remaining_pairwise _ _ _)
  · obtain ⟨s, hs, ht, hindex⟩ := hright.index hright₀ hidx hi
    have hof : indexOf right i = .ok (.ofList s (bs.filter (t.places i))) := by rw [indexOf, hindex]
    rw [hl, hof] at hdrain
    exact hdrain rfl (Rule.remaining_probeRight (Index.serves_ofList hs (fun _ => ht) _) hlocal)
  · obtain ⟨s, hs, ht, hindex⟩ := hleft.index hleft₀ hidx hi
    have hof : indexOf left i = .ok (.ofList s (as.filter (t.places i))) := by rw [indexOf, hindex]
    rw [hr, hof] at hdrain
    exact hdrain rfl (Rule.remaining_probeLeft (Index.serves_ofList hs (fun _ => ht) _) hlocal)
  · rw [hl, hr] at hdrain
    have hv : q.settings.forJoin.validate = .ok () := hq
    refine hdrain ?_ (Rule.remaining_probeBuilt hv (fun _ => hqt) hlocal q.settings.join.buildSide)
    change Rule.probeBuilt? _ _ _ _ _ = _
    rw [Rule.probeBuilt?, hv]
    rfl

include hexact hleft₀ hright₀ hleft hright in
/-- Each partition gives the matches that it owns. -/
theorem unit_ok (hmade : t.Made) (hq : q.settings.validate = .ok ())
    (hqt : q.settings.index.sizeTiered = false)
    (hlocal : ∀ a ∈ as, ∀ b ∈ bs, q.relation.decides a b = true →
      (Spatial.envelope a).isProper = true ∧ (Spatial.envelope b).isProper = true ∧
        (Spatial.envelope a).meets (Spatial.envelope b) = true)
    {i : Nat} (hi : i < t.size) :
    ∃ u, q.unit (q.strategy left right) left right i = .ok u ∧
      u.1.Perm (pairsOf (Tiling.ruleOf q.relation (t.ownershipOf i)).accepts
        (as.filter (t.places i)) (bs.filter (t.places i))) := by
  refine unit_of_rule hleft₀ hright₀ hleft hright hq hqt hi (rule_ok hexact hright₀ hright hmade hi)
    ?_
  intro a ha b hb hacc
  rw [Rule.accepts, Bool.and_eq_true] at hacc
  exact hlocal a (List.mem_filter.mp ha).1 b (List.mem_filter.mp hb).1 hacc.2

include hleft₀ hright₀ hleft hright in
theorem sameTiling_ok (hmade : t.Made) : sameTiling left right = .ok () := by
  have hcount : left.count = right.count :=
    (hleft.count_eq hleft₀).trans (hright.count_eq hright₀).symm
  rw [sameTiling, hleft.same.2, hright.same.2, (Tiling.partition_spec hleft₀).1,
    (Tiling.partition_spec hright₀).1]
  dsimp only
  rw [if_pos hmade.beq_self, if_pos hcount]

end Parts

theorem workersFor_pos (cores n : Nat) : 0 < workersFor cores n :=
  Nat.le_max_right _ _

/-- Several workers give what one worker gives, however many cores there are. -/
theorem units_eq (q : JoinQuery) (cores : Nat) (s : Strategy) (left : Collection α)
    (right : Collection β) :
    q.units cores s left right = (List.range left.count).map (q.unit s left right) := by
  unfold units
  split
  · exact inParallel_eq (workersFor_pos _ _) _ _
  · rfl

section Run

variable {extent : Envelope} {columns rows : Nat} [BEq α] [BEq β]

omit [Spatial α] [Spatial β] in
/-- On a tiling that is exact no pair is dropped. -/
theorem distinct_of_exact (htiling : right.tiling = some t) (hexact : t.exact = true)
    (pairs : List (α × β)) : q.distinct right pairs = pairs := by
  rw [distinct, htiling, Option.any_some, hexact, Bool.true_or, if_pos rfl]

/-- A join on a uniform tiling gives every pair of objects that match once, with any settings and
any indexes. -/
theorem run_perm (ht : Tiling.uniform extent columns rows = .ok t)
    (hx : Tiling.Increasing (Tiling.columnBound extent columns) columns)
    (hy : Tiling.Increasing (Tiling.rowBound extent rows) rows) (hexact : t.exact = true)
    (hleft₀ : t.partition as = .ok left₀) (hright₀ : t.partition bs = .ok right₀)
    (hleft : left₀.Prebuilt left) (hright : right₀.Prebuilt right)
    (hq : q.settings.validate = .ok ()) (hqt : q.settings.index.sizeTiered = false)
    (hlocal : ∀ a ∈ as, ∀ b ∈ bs, q.relation.holds a b = .ok true →
      (Spatial.envelope a).isProper = true ∧ (Spatial.envelope b).isProper = true ∧
        (Spatial.envelope a).meets (Spatial.envelope b) = true) (cores : Nat) :
    ∃ out, q.run cores left right = .ok out ∧
      out.pairs.Perm (pairsOf q.relation.decides as bs) := by
  have hmade := (Tiling.made_of_make (Tiling.make_of_uniform ht).2).1
  have honce := Tiling.ownedOnce_of_uniform ht hx hy
  obtain ⟨-, -, -, -, hcov⟩ := Tiling.partition_spec hleft₀
  have hdecides := fun a ha b hb h => hlocal a ha b hb (Relation.decides_iff.mp h)
  obtain ⟨us, hus, hshare⟩ := exists_mapM_ok (f := q.unit (q.strategy left right) left right)
    (R := fun i u => u.1.Perm (pairsOf (Tiling.ruleOf q.relation (t.ownershipOf i)).accepts
      (as.filter (t.places i)) (bs.filter (t.places i)))) (l := List.range t.size) fun i hi =>
      unit_ok hexact hleft₀ hright₀ hleft hright hmade hq hqt hdecides (List.mem_range.mp hi)
  have hall := (flatMap_perm_of_forall₂ hshare).trans
    (Tiling.flatMap_partitions_perm hmade honce q.relation hcov hdecides)
  have hdistinct : q.distinct right (us.flatMap (·.1)) = us.flatMap (·.1) :=
    distinct_of_exact (hright.same.2.trans (Tiling.partition_spec hright₀).1) hexact _
  refine ⟨⟨q.strategy left right, q.distinct right (us.flatMap (·.1)),
    us.foldl (fun t u => t.add u.2) .zero⟩, ?_, hdistinct.symm ▸ hall⟩
  have hunits : (q.units cores (q.strategy left right) left right).mapM id = .ok us := by
    rw [units_eq, hleft.count_eq hleft₀, List.mapM_map]
    exact hus
  rw [run, sameTiling_ok hleft₀ hright₀ hleft hright hmade]
  dsimp only [bind, Except.bind]
  rw [conclude, hunits]
  rfl

end Run

/-- A point inside a quarter, and the one where all quarters meet. -/
def crossingFeatures : List (Feature Nat) :=
  [⟨1, .single (.point ⟨1.0, 1.0⟩)⟩, ⟨2, .single (.point ⟨5.0, 5.0⟩)⟩]

/-- A parallel join that uses an index. -/
def crossingJoin : JoinQuery := .ofJoinSettings ⟨true, true, false, .grid, .left, true⟩

/-- The copies of a point in four cells match once. -/
theorem run_crossing : ∃ left right out, Tiling.quarters.partition crossingFeatures = .ok left ∧
    left.buildIndex .default = .ok right ∧ crossingJoin.run 4 left right = .ok out ∧
      out.pairs.length = 2 := by
  obtain ⟨left, hleft⟩ : ∃ c, Tiling.quarters.partition crossingFeatures = .ok c :=
    exists_ok (by decide +kernel)
  have hright := Collection.buildIndex_ok IndexSettings.validate_default left
  have hmeet : ∀ a ∈ crossingFeatures, ∀ b ∈ crossingFeatures,
      crossingJoin.relation.decides a b = true → (Spatial.envelope a).isProper = true ∧
        (Spatial.envelope b).isProper = true ∧
          (Spatial.envelope a).meets (Spatial.envelope b) = true := by
    decide +kernel
  obtain ⟨out, hout, hperm⟩ := run_perm (q := crossingJoin) Tiling.uniform_quarters
    Tiling.increasing_columns_decade Tiling.increasing_rows_decade rfl hleft hleft .bare
    (.indexed rfl hright) IndexSettings.validate_default rfl
    (fun a ha b hb h => hmeet a ha b hb (Relation.decides_iff.mpr h)) 4
  have hcount :
      (pairsOf crossingJoin.relation.decides crossingFeatures crossingFeatures).length = 2 := by
    decide +kernel
  exact ⟨left, _, out, hleft, hright, hout, hperm.length_eq.trans hcount⟩

end JoinQuery

end PlanarJoin
