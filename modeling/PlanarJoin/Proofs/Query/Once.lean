import PlanarJoin.Proofs.Query.Distinct

/-!
# No pair is given twice

An index finds some of what it holds, none of it twice, whatever its settings: tiers may miss an
item, but give none again.  So a partition gives some of the pairs that its rule accepts, each no
more often than it occurs.  If the cells tile their box, one of them owns a pair; otherwise
repetitions are dropped.  Either way no two pairs of a join are equal, if no two objects of a side
are.

## Main definitions

* `Tiling.Separates`: a tiling of increasing columns and rows, or one on which nobody owns a pair.

## Main results

* `JoinQuery.unit_subperm`: a partition gives some of the pairs that its rule accepts.
* `JoinQuery.run_eq_ok_iff`: what a join that succeeds is made of.
* `JoinQuery.run_subperm`: a join succeeds, and has some of what the partitions accept.
* `JoinQuery.run_apart`: a join gives some of the matches, none twice.
-/

namespace PlanarJoin

open Envelope

variable {α β : Type}

/-! ## Pairs of unequal objects -/

/-- Of objects that are all unequal, no two pairs are equal. -/
theorem pairsOf_apart [BEq α] [BEq β] {p : α → β → Bool} {as : List α} {bs : List β}
    (has : as.Pairwise fun a a' => (a == a') = false)
    (hbs : bs.Pairwise fun b b' => (b == b') = false) :
    (pairsOf p as bs).Pairwise fun x y => (x == y) = false := by
  rw [pairsOf, List.pairwise_flatMap]
  constructor
  · intro a _
    rw [List.pairwise_map]
    refine (hbs.sublist List.filter_sublist).imp ?_
    intro b b' h
    exact Bool.and_eq_false_iff.mpr (.inr h)
  · refine has.imp ?_
    intro a a' h x hx y hy
    obtain ⟨b, -, rfl⟩ := List.mem_map.mp hx
    obtain ⟨b', -, rfl⟩ := List.mem_map.mp hy
    exact Bool.and_eq_false_iff.mpr (.inl h)

theorem apart_of_subperm {γ : Type} [BEq γ] [PartialEquivBEq γ] {xs ys : List γ}
    (h : xs.Subperm ys) (hys : ys.Pairwise fun x y => (x == y) = false) :
    xs.Pairwise fun x y => (x == y) = false := by
  obtain ⟨zs, hperm, hsub⟩ := h
  refine hperm.pairwise (hys.sublist hsub) ?_
  intro x y hxy
  rwa [BEq.comm]

variable [Spatial α] [Spatial β]

/-! ## Every index finds some of the pairs -/

namespace Rule

variable {r : Rule} {as : List α} {bs : List β}

/-- What an index of the right side leads to is accepted. -/
theorem pairsOf_findsRight_sublist (f : Frame) :
    (pairsOf (r.findsRight f) as bs).Sublist (pairsOf r.accepts as bs) :=
  pairsOf_sublist (fun _ _ h => (Bool.and_eq_true_iff.mp h).2) as bs

theorem pairsOf_findsLeft_sublist (f : Frame) :
    (pairsOf (r.findsLeft f) as bs).Sublist (pairsOf r.accepts as bs) :=
  pairsOf_sublist (fun _ _ h => (Bool.and_eq_true_iff.mp h).2) as bs

theorem remaining_probeRight_subperm {i : Index β} (hi : i.Holds (bs.filter hasProperEnvelope)) :
    (r.probeRight as i).remaining.Subperm (pairsOf r.accepts as bs) :=
  (remaining_findsRight hi).subperm.trans (pairsOf_findsRight_sublist _).subperm

theorem remaining_probeLeft_subperm {i : Index α} (hi : i.Holds (as.filter hasProperEnvelope)) :
    (r.probeLeft i bs).remaining.Subperm (pairsOf r.accepts as bs) :=
  (remaining_findsLeft hi).subperm.trans (pairsOf_findsLeft_sublist _).subperm

theorem remaining_probeBuilt_subperm (s : IndexSettings) (side : Side) :
    (r.probeBuilt s side as bs).remaining.Subperm (pairsOf r.accepts as bs) := by
  refine (r.remaining_findsBuilt s side as bs).subperm.trans ?_
  cases side with
  | left => exact (pairsOf_findsLeft_sublist _).subperm
  | right => exact (pairsOf_findsRight_sublist _).subperm

end Rule

theorem Collection.Indexed.exists_index {t : Tiling} {as : List α} {c₀ c : Collection α}
    (h : c₀.Indexed c) (h₀ : t.partition as = .ok c₀) (hc : c.hasIndex = true) {i : Nat}
    (hi : i < t.size) :
    ∃ s : IndexSettings, c.index? i = some (.ofList s (as.filter (t.places i))) := by
  obtain ⟨-, hnone, hcount, hpart, -⟩ := Tiling.partition_spec h₀
  cases h with
  | bare =>
    rw [hasIndex, hnone] at hc
    cases hc
  | built h => exact ⟨_, by rw [index?_buildIndex h (hcount ▸ hi), hpart]⟩

/-- Objects that are placed have proper envelopes, so the others do not matter. -/
theorem Tiling.filter_places_proper (t : Tiling) (i : Nat) (as : List α) :
    (as.filter hasProperEnvelope).filter (t.places i) = as.filter (t.places i) := by
  rw [List.filter_filter]
  refine List.filter_congr ?_
  intro a _
  cases h : t.places i a with
  | false => rfl
  | true => exact Tiling.isProper_of_places h

/-- A tiling on which no match is owned twice: one of equal columns and rows whose bounds increase,
or one whose cells do not tile their box, where matches have no owner. -/
inductive Tiling.Separates (t : Tiling) : Prop
  | uniform {extent : Envelope} {columns rows : Nat}
    (h : Tiling.uniform extent columns rows = .ok t)
    (hx : Tiling.Increasing (Tiling.columnBound extent columns) columns)
    (hy : Tiling.Increasing (Tiling.rowBound extent rows) rows)
  | unowned {cells : List Envelope} (h : Tiling.make cells = .ok t) (hexact : t.exact = false)

theorem Tiling.Separates.made {t : Tiling} (h : t.Separates) : t.Made := by
  cases h with
  | uniform h => exact (made_of_make (make_of_uniform h).2).1
  | unowned h => exact (made_of_make h).1

namespace JoinQuery

variable {t : Tiling} {as : List α} {bs : List β} {left₀ left : Collection α}
  {right₀ right : Collection β} {q : JoinQuery}

section Parts

variable (hleft₀ : t.partition as = .ok left₀) (hright₀ : t.partition bs = .ok right₀)
  (hleft : left₀.Indexed left) (hright : right₀.Indexed right)

include hleft₀ hright₀ hleft hright

/-- A partition gives some of the pairs that its rule accepts, whichever way they are found. -/
theorem unit_subperm (hq : q.settings.validate = .ok ()) {i : Nat} (hi : i < t.size) {r : Rule}
    (hrule : q.rule right i = .ok r) :
    ∃ u, q.unit (q.strategy left right) left right i = .ok u ∧
      u.1.Subperm (pairsOf r.accepts (as.filter (t.places i)) (bs.filter (t.places i))) := by
  have hl := hleft.partition_eq hleft₀ i
  have hr := hright.partition_eq hright₀ i
  have hdrain {m : MatchStream α β} (hm : q.matchesIn (q.strategy left right) left right i = .ok m)
      (hsub : m.remaining.Subperm
        (pairsOf r.accepts (as.filter (t.places i)) (bs.filter (t.places i)))) :
      ∃ u, q.unit (q.strategy left right) left right i = .ok u ∧
        u.1.Subperm (pairsOf r.accepts (as.filter (t.places i)) (bs.filter (t.places i))) :=
    ⟨m.drain, by rw [unit, hm]; rfl, by rw [MatchStream.drain_fst]; exact hsub⟩
  rw [matchesIn, hrule] at hdrain
  rcases q.strategy_cases left right with h | ⟨h, hidx⟩ | ⟨h, hidx⟩ | h <;> rw [h] at hdrain ⊢
  · rw [hl, hr] at hdrain
    exact hdrain rfl (Rule.remaining_pairwise _ _ _).subperm
  · obtain ⟨s, hindex⟩ := hright.exists_index hright₀ hidx hi
    have hof : indexOf right i = .ok (.ofList s (bs.filter (t.places i))) := by rw [indexOf, hindex]
    rw [hl, hof] at hdrain
    exact hdrain rfl (Rule.remaining_probeRight_subperm (Index.holds_ofList s _))
  · obtain ⟨s, hindex⟩ := hleft.exists_index hleft₀ hidx hi
    have hof : indexOf left i = .ok (.ofList s (as.filter (t.places i))) := by rw [indexOf, hindex]
    rw [hr, hof] at hdrain
    exact hdrain rfl (Rule.remaining_probeLeft_subperm (Index.holds_ofList s _))
  · rw [hl, hr] at hdrain
    have hv : q.settings.forJoin.validate = .ok () := hq
    refine hdrain ?_
      (Rule.remaining_probeBuilt_subperm q.settings.forJoin q.settings.join.buildSide)
    change Rule.probeBuilt? _ _ _ _ _ = _
    rw [Rule.probeBuilt?, hv]
    rfl

theorem sameTiling_of_indexed (hmade : t.Made) : sameTiling left right = .ok () := by
  have hcount : left.count = right.count :=
    (hleft.count_eq hleft₀).trans (hright.count_eq hright₀).symm
  rw [sameTiling, hleft.same.2, hright.same.2, (Tiling.partition_spec hleft₀).1,
    (Tiling.partition_spec hright₀).1]
  dsimp only
  rw [if_pos hmade.beq_self, if_pos hcount]

/-- All partitions succeed, and give some of the pairs that their rules accept. -/
theorem units_subperm (hmade : t.Made) (hq : q.settings.validate = .ok ()) :
    ∃ us, (List.range left.count).mapM (q.unit (q.strategy left right) left right) = .ok us ∧
      (us.flatMap (·.1)).Subperm ((List.range t.size).flatMap fun i =>
        pairsOf (⟨q.relation, t.owner? i⟩ : Rule).accepts (as.filter (t.places i))
          (bs.filter (t.places i))) := by
  have hunit : ∀ i ∈ List.range t.size, ∃ u,
      q.unit (q.strategy left right) left right i = .ok u ∧ u.1.Subperm
        (pairsOf (⟨q.relation, t.owner? i⟩ : Rule).accepts (as.filter (t.places i))
          (bs.filter (t.places i))) := by
    intro i hi
    have hi := List.mem_range.mp hi
    have hrule : q.rule right i = .ok ⟨q.relation, t.owner? i⟩ := by
      rw [rule, hright.ownership hright₀ hmade hi]
      rfl
    exact unit_subperm hleft₀ hright₀ hleft hright hq hi hrule
  obtain ⟨us, hus, hshare⟩ := exists_mapM_ok hunit
  refine ⟨us, ?_, flatMap_subperm_of_forall₂ hshare⟩
  rw [hleft.count_eq hleft₀]
  exact hus

end Parts

/-- What the partitions accept together are matches of the two lists. -/
theorem mem_of_accepted {x : α × β} (h : x ∈ (List.range t.size).flatMap fun i =>
    pairsOf (⟨q.relation, t.owner? i⟩ : Rule).accepts (as.filter (t.places i))
      (bs.filter (t.places i))) :
    x.1 ∈ as ∧ x.2 ∈ bs ∧ q.relation.holds x.1 x.2 = .ok true := by
  obtain ⟨i, -, hx⟩ := List.mem_flatMap.mp h
  obtain ⟨⟨ha, hb⟩, hacc⟩ := mem_pairsOf.mp hx
  rw [Rule.accepts, Bool.and_eq_true] at hacc
  exact ⟨(List.mem_filter.mp ha).1, (List.mem_filter.mp hb).1, Relation.decides_iff.mp hacc.2⟩

variable [BEq α] [BEq β]

/-- What a join that succeeds is made of. -/
theorem run_eq_ok_iff {cores : Nat} {out : JoinOutput α β} : q.run cores left right = .ok out ↔
    sameTiling left right = .ok () ∧
      ∃ us, (List.range left.count).mapM (q.unit (q.strategy left right) left right) = .ok us ∧
        out = ⟨q.strategy left right, q.distinct right (us.flatMap (·.1)),
          us.foldl (fun t u => t.add u.2) .zero⟩ := by
  rw [run, conclude, units_eq, List.mapM_map]
  change _ ↔ _ ∧ ∃ us, (List.range left.count).mapM
    (id ∘ q.unit (q.strategy left right) left right) = .ok us ∧ _
  cases sameTiling left right with
  | error f => simp [bind, Except.bind]
  | ok _ =>
    cases (List.range left.count).mapM (id ∘ q.unit (q.strategy left right) left right) with
    | error f => simp [bind, Except.bind]
    | ok us => simp [bind, Except.bind, pure, Except.pure, eq_comm]

/-- A join succeeds, and before repetitions are dropped it has some of what the partitions
accept. -/
theorem run_subperm (ht : t.Separates) (hleft₀ : t.partition as = .ok left₀)
    (hright₀ : t.partition bs = .ok right₀) (hleft : left₀.Indexed left)
    (hright : right₀.Indexed right) (hq : q.settings.validate = .ok ()) (cores : Nat) :
    ∃ xs tally, q.run cores left right = .ok ⟨q.strategy left right, q.distinct right xs, tally⟩ ∧
      xs.Subperm ((List.range t.size).flatMap fun i =>
        pairsOf (⟨q.relation, t.owner? i⟩ : Rule).accepts (as.filter (t.places i))
          (bs.filter (t.places i))) := by
  obtain ⟨us, hus, hsub⟩ := units_subperm hleft₀ hright₀ hleft hright ht.made hq
  have hsame := sameTiling_of_indexed hleft₀ hright₀ hleft hright ht.made
  exact ⟨us.flatMap (·.1), us.foldl (fun t u => t.add u.2) .zero,
    run_eq_ok_iff.mpr ⟨hsame, us, hus, rfl⟩, hsub⟩

variable [EquivBEq α] [EquivBEq β]

/-- Where each point of an exact tiling has one owner, no pair is accepted twice. -/
theorem accepted_apart (hmade : t.Made) (honce : t.OwnedOnce) (hexact : t.exact = true)
    (hcov : ∀ a ∈ as, (Spatial.envelope a).isProper = true →
      t.extent.covers (Spatial.envelope a) = true)
    (has : as.Pairwise fun a a' => (a == a') = false)
    (hbs : bs.Pairwise fun b b' => (b == b') = false)
    (hlocal : ∀ a ∈ as, ∀ b ∈ bs, (Spatial.envelope a).isProper = true →
      (Spatial.envelope b).isProper = true → q.relation.holds a b = .ok true →
        (Spatial.envelope a).meets (Spatial.envelope b) = true) :
    ((List.range t.size).flatMap fun i =>
      pairsOf (⟨q.relation, t.owner? i⟩ : Rule).accepts (as.filter (t.places i))
        (bs.filter (t.places i))).Pairwise fun x y => (x == y) = false := by
  -- objects without a proper envelope are placed nowhere, so they can be left out from the start
  have howner (i : Nat) : (⟨q.relation, t.owner? i⟩ : Rule) =
      Tiling.ruleOf q.relation (t.ownershipOf i) := by
    rw [Tiling.owner?, if_pos hexact]
    rfl
  simp only [howner, ← Tiling.filter_places_proper t _ as,
    ← Tiling.filter_places_proper t _ bs]
  refine apart_of_subperm (Tiling.flatMap_partitions_perm hmade honce q.relation ?_ ?_).subperm
    (pairsOf_apart (has.sublist List.filter_sublist) (hbs.sublist List.filter_sublist))
  · intro a ha
    exact hcov a (List.mem_filter.mp ha).1
  · intro a ha b hb hdecides
    obtain ⟨ha, hpa⟩ := List.mem_filter.mp ha
    obtain ⟨hb, hpb⟩ := List.mem_filter.mp hb
    exact ⟨hpa, hpb, hlocal a ha b hb hpa hpb (Relation.decides_iff.mp hdecides)⟩

/-- A join gives some of the matches, and no two pairs that are equal, if no two objects of a side
are, with any strategy and any indexes. -/
theorem run_apart (ht : t.Separates) (hleft₀ : t.partition as = .ok left₀)
    (hright₀ : t.partition bs = .ok right₀) (hleft : left₀.Indexed left)
    (hright : right₀.Indexed right) (has : as.Pairwise fun a a' => (a == a') = false)
    (hbs : bs.Pairwise fun b b' => (b == b') = false) (hq : q.settings.validate = .ok ())
    (hdup : q.settings.join.allowDuplicates = false)
    (hlocal : ∀ a ∈ as, ∀ b ∈ bs, (Spatial.envelope a).isProper = true →
      (Spatial.envelope b).isProper = true → q.relation.holds a b = .ok true →
        (Spatial.envelope a).meets (Spatial.envelope b) = true) (cores : Nat) :
    ∃ out, q.run cores left right = .ok out ∧ (out.pairs.Pairwise fun x y => (x == y) = false) ∧
      ∀ x ∈ out.pairs, x.1 ∈ as ∧ x.2 ∈ bs ∧ q.relation.holds x.1 x.2 = .ok true := by
  obtain ⟨xs, tally, hrun, hsub⟩ := run_subperm ht hleft₀ hright₀ hleft hright hq cores
  have hmade := ht.made
  have htiling : right.tiling = some t := hright.same.2.trans (Tiling.partition_spec hright₀).1
  have hmem (x : α × β) (hx : x ∈ xs) :
      x.1 ∈ as ∧ x.2 ∈ bs ∧ q.relation.holds x.1 x.2 = .ok true :=
    mem_of_accepted (hsub.subset hx)
  cases hexact : t.exact with
  | false =>
    rw [distinct_of_not_exact htiling hexact hdup] at hrun
    exact ⟨_, hrun, eraseDups_pairwise _, fun x hx => hmem x (mem_of_mem_eraseDups hx)⟩
  | true =>
    rw [distinct_of_exact htiling hexact] at hrun
    refine ⟨_, hrun, apart_of_subperm hsub ?_, hmem⟩
    cases ht with
    | uniform h hx hy =>
      exact accepted_apart hmade (Tiling.ownedOnce_of_uniform h hx hy) hexact
        (Tiling.partition_spec hleft₀).2.2.2.2 has hbs hlocal
    | unowned _ hnot =>
      rw [hexact] at hnot
      cases hnot

end JoinQuery

end PlanarJoin
