import PlanarJoin.Proofs.Query.Join
import PlanarJoin.Proofs.Query.Repeats
import PlanarJoin.Proofs.Tiling.Coverage

/-!
# Joins on cells that overlap

Where the cells do not tile their box nobody owns a pair, and every partition that holds both parts
of a match finds it.  If the cells leave no gap there is such a partition: the parts have a point in
common, and both are placed into a cell around it.  The first of equal pairs stays, so if equality
tells the items of each side apart, every match is given once.

## Main results

* `eraseDups_pairwise`, `exists_beq_eraseDups`: what is left of a list without its repetitions.
* `Tiling.exists_shared_cell`: envelopes that meet are placed into a common cell.
* `JoinQuery.units_mem`: together the partitions find every match and nothing else.
* `JoinQuery.run_distinct`: a join gives every match once.
-/

namespace PlanarJoin

open Envelope
open Collection (overlappingCells overlappingTiling quadrantSettings sharedFeatures)

/-! ## First occurrences -/

section FirstOccurrences

variable {γ : Type} [BEq γ]

/-- A list without its repetitions begins with its first item, and goes on without those that equal
it. -/
theorem eraseDups_induction {motive : List γ → Prop} (nil : motive [])
    (cons : ∀ x xs, motive (xs.filter fun y => !y == x) → motive (x :: xs)) (xs : List γ) :
    motive xs := by
  induction hn : xs.length using Nat.strong_induction_on generalizing xs with
  | _ n ih =>
    cases xs with
    | nil => exact nil
    | cons x xs =>
      refine cons x xs (ih _ ?_ _ rfl)
      rw [← hn, List.length_cons]
      exact Nat.lt_succ_of_le (List.length_filter_le _ _)

theorem mem_of_mem_eraseDups {xs : List γ} {x : γ} (h : x ∈ xs.eraseDups) : x ∈ xs := by
  induction xs using eraseDups_induction with
  | nil => exact h
  | cons y ys ih =>
    rw [List.eraseDups_cons] at h
    rcases List.mem_cons.mp h with rfl | h
    · exact List.mem_cons_self
    · exact List.mem_cons_of_mem _ (List.mem_filter.mp (ih h)).1

/-- No two of the items that stay are equal. -/
theorem eraseDups_pairwise [PartialEquivBEq γ] (xs : List γ) :
    xs.eraseDups.Pairwise fun x y => (x == y) = false := by
  induction xs using eraseDups_induction with
  | nil => exact .nil
  | cons x xs ih =>
    rw [List.eraseDups_cons]
    refine .cons ?_ ih
    intro y hy
    have hne := (List.mem_filter.mp (mem_of_mem_eraseDups hy)).2
    rwa [Bool.not_eq_true', BEq.comm] at hne

/-- Of equal items one stays. -/
theorem exists_beq_eraseDups [EquivBEq γ] {xs : List γ} {x : γ} (h : x ∈ xs) :
    ∃ y ∈ xs.eraseDups, (x == y) = true := by
  induction xs using eraseDups_induction with
  | nil => cases h
  | cons y ys ih =>
    rw [List.eraseDups_cons]
    by_cases hxy : (x == y) = true
    · exact ⟨y, List.mem_cons_self, hxy⟩
    · have hx : x ∈ ys := by
        rcases List.mem_cons.mp h with rfl | hx
        · exact absurd BEq.rfl hxy
        · exact hx
      obtain ⟨z, hz, hxz⟩ := ih (List.mem_filter.mpr ⟨hx, by simpa using hxy⟩)
      exact ⟨z, List.mem_cons_of_mem _ hz, hxz⟩

/-- Where equality tells the items apart, it stays what was there. -/
theorem mem_eraseDups_of_apart [EquivBEq γ] {xs : List γ}
    (hapart : ∀ x ∈ xs, ∀ y ∈ xs, (x == y) = true → x = y) {x : γ} :
    x ∈ xs.eraseDups ↔ x ∈ xs := by
  refine ⟨mem_of_mem_eraseDups, ?_⟩
  intro h
  obtain ⟨y, hy, hxy⟩ := exists_beq_eraseDups h
  rwa [hapart x h y (mem_of_mem_eraseDups hy) hxy]

/-- Features are equal if their names are. -/
instance {ι : Type} [BEq ι] [EquivBEq ι] : EquivBEq (Feature ι) where
  rfl {a} := BEq.rfl (a := a.id)
  symm {a b} h := BEq.symm (a := a.id) (b := b.id) h
  trans {a b c} h h' := BEq.trans (a := a.id) (b := b.id) (c := c.id) h h'

/-- Pairs are equal if their parts are. -/
instance instEquivBEqProd {α β : Type} [BEq α] [BEq β] [EquivBEq α] [EquivBEq β] :
    EquivBEq (α × β) where
  rfl {x} := Bool.and_eq_true_iff.mpr ⟨BEq.rfl, BEq.rfl⟩
  symm {x y} h := by
    obtain ⟨h₁, h₂⟩ := Bool.and_eq_true_iff.mp h
    exact Bool.and_eq_true_iff.mpr ⟨BEq.symm h₁, BEq.symm h₂⟩
  trans {x y z} h h' := by
    obtain ⟨h₁, h₂⟩ := Bool.and_eq_true_iff.mp h
    obtain ⟨h₁', h₂'⟩ := Bool.and_eq_true_iff.mp h'
    exact Bool.and_eq_true_iff.mpr ⟨BEq.trans h₁ h₁', BEq.trans h₂ h₂'⟩

/-- Items of which no two are equal are the same if they are equal. -/
theorem eq_of_beq_of_pairwise [EquivBEq γ] {xs : List γ}
    (h : xs.Pairwise fun x y => (x == y) = false) {x y : γ} (hx : x ∈ xs) (hy : y ∈ xs)
    (hxy : (x == y) = true) : x = y := by
  have : Std.Symm fun x y : γ => (x == y) = true → x = y :=
    ⟨fun x y h hyx => (h (BEq.symm hyx)).symm⟩
  have hall : xs.Pairwise fun x y => (x == y) = true → x = y := by
    refine h.imp ?_
    intro x y hne heq
    rw [hne] at heq
    cases heq
  exact hall.forall_of_forall (fun _ _ _ => rfl) hx hy hxy

end FirstOccurrences

variable {α β : Type} [Spatial α] [Spatial β] {t : Tiling} {as : List α} {bs : List β}

/-! ## A cell for every match -/

/-- Where the cells leave no gap, objects that meet in the box are placed into a common cell. -/
theorem Tiling.exists_shared_cell
    (hcover : ∀ x y, t.extent.hasPoint x y = true → ∃ c ∈ t.cells, c.hasPoint x y = true)
    {a : α} {b : β} (ha : (Spatial.envelope a).isProper = true)
    (hb : (Spatial.envelope b).isProper = true)
    (hext : t.extent.covers (Spatial.envelope a) = true)
    (hm : (Spatial.envelope a).meets (Spatial.envelope b) = true) :
    ∃ i < t.size, t.places i a = true ∧ t.places i b = true := by
  obtain ⟨e, -, hea, heb⟩ := hasPoint_overlap (ordered_of_isProper ha) (ordered_of_isProper hb) hm
  obtain ⟨c, hc, hce⟩ := hcover _ _ (hasPoint_of_covers hext hea)
  obtain ⟨i, hi⟩ := List.mem_iff_getElem?.mp hc
  exact ⟨i, (List.getElem?_eq_some_iff.mp hi).1,
    places_iff.mpr (mem_placement.mpr ⟨ha, c, hi, meets_of_hasPoint hce hea⟩),
    places_iff.mpr (mem_placement.mpr ⟨hb, c, hi, meets_of_hasPoint hce heb⟩)⟩

namespace JoinQuery

variable {left₀ left : Collection α} {right₀ right : Collection β} {q : JoinQuery}

theorem rule_of_not_exact (hexact : t.exact = false) (hright₀ : t.partition bs = .ok right₀)
    (hright : right₀.Prebuilt right) (hmade : t.Made) {i : Nat} (hi : i < t.size) :
    q.rule right i = .ok ⟨q.relation, none⟩ := by
  rw [rule, hright.toIndexed.ownership hright₀ hmade hi, Tiling.owner?, hexact,
    if_neg Bool.false_ne_true]
  rfl

theorem accepts_of_no_owner (rel : Relation) (a : α) (b : β) :
    (⟨rel, none⟩ : Rule).accepts a b = rel.decides a b := rfl

section Parts

variable (hmade : t.Made) (hexact : t.exact = false) (hleft₀ : t.partition as = .ok left₀)
  (hright₀ : t.partition bs = .ok right₀) (hleft : left₀.Prebuilt left)
  (hright : right₀.Prebuilt right) (hq : q.settings.validate = .ok ())
  (hqt : q.settings.index.sizeTiered = false)
  (hlocal : ∀ a ∈ as, ∀ b ∈ bs, (Spatial.envelope a).isProper = true →
    (Spatial.envelope b).isProper = true → q.relation.holds a b = .ok true →
      (Spatial.envelope a).meets (Spatial.envelope b) = true)

include hmade hexact hleft₀ hright₀ hleft hright hq hqt hlocal

/-- All partitions succeed, and give the pairs of what they hold for which the relation holds. -/
theorem units_ok (cores : Nat) :
    ∃ us, (q.units cores (q.strategy left right) left right).mapM id = .ok us ∧
    (us.flatMap (·.1)).Perm ((List.range t.size).flatMap fun i =>
      pairsOf q.relation.decides (as.filter (t.places i)) (bs.filter (t.places i))) := by
  have hunit : ∀ i ∈ List.range t.size, ∃ u,
      q.unit (q.strategy left right) left right i = .ok u ∧ u.1.Perm
        (pairsOf q.relation.decides (as.filter (t.places i)) (bs.filter (t.places i))) := by
    intro i hi
    have hi := List.mem_range.mp hi
    refine unit_of_rule hleft₀ hright₀ hleft hright hq hqt hi
      (rule_of_not_exact hexact hright₀ hright hmade hi) ?_
    intro a ha b hb hacc
    obtain ⟨ha, hpa⟩ := List.mem_filter.mp ha
    obtain ⟨hb, hpb⟩ := List.mem_filter.mp hb
    have hpa := Tiling.isProper_of_places hpa
    have hpb := Tiling.isProper_of_places hpb
    rw [accepts_of_no_owner] at hacc
    exact ⟨hpa, hpb, hlocal a ha b hb hpa hpb (Relation.decides_iff.mp hacc)⟩
  obtain ⟨us, hus, hshare⟩ := exists_mapM_ok hunit
  refine ⟨us, ?_, flatMap_perm_of_forall₂ hshare⟩
  rw [units_eq, hleft.count_eq hleft₀, List.mapM_map]
  exact hus

/-- Together the partitions find every match and nothing else. -/
theorem units_mem (hcover : ∀ x y, t.extent.hasPoint x y = true →
      ∃ c ∈ t.cells, c.hasPoint x y = true) (cores : Nat) :
    ∃ us, (q.units cores (q.strategy left right) left right).mapM id = .ok us ∧
      ∀ a b, (a, b) ∈ us.flatMap (·.1) ↔ (a ∈ as ∧ (Spatial.envelope a).isProper = true) ∧
        (b ∈ bs ∧ (Spatial.envelope b).isProper = true) ∧ q.relation.holds a b = .ok true := by
  obtain ⟨us, hus, hperm⟩ := units_ok hmade hexact hleft₀ hright₀ hleft hright hq hqt hlocal cores
  obtain ⟨-, -, -, -, hext⟩ := Tiling.partition_spec hleft₀
  refine ⟨us, hus, ?_⟩
  intro a b
  rw [hperm.mem_iff, List.mem_flatMap]
  simp only [mem_pairsOf, List.mem_range, List.mem_filter, Relation.decides_iff]
  constructor
  · rintro ⟨i, -, ⟨⟨ha, hpa⟩, hb, hpb⟩, hholds⟩
    exact ⟨⟨ha, Tiling.isProper_of_places hpa⟩, ⟨hb, Tiling.isProper_of_places hpb⟩, hholds⟩
  · rintro ⟨⟨ha, hpa⟩, ⟨hb, hpb⟩, hholds⟩
    obtain ⟨i, hi, hia, hib⟩ := Tiling.exists_shared_cell hcover hpa hpb (hext a ha hpa)
      (hlocal a ha b hb hpa hpb hholds)
    exact ⟨i, hi, ⟨⟨ha, hia⟩, hb, hib⟩, hholds⟩

end Parts

variable [BEq α] [BEq β]

omit [Spatial α] [Spatial β] in
/-- Without ownership the first of equal pairs stays, unless they are all asked for. -/
theorem distinct_of_not_exact (htiling : right.tiling = some t) (hexact : t.exact = false)
    (hdup : q.settings.join.allowDuplicates = false) (pairs : List (α × β)) :
    q.distinct right pairs = pairs.eraseDups := by
  rw [distinct, htiling, Option.any_some, hexact, hdup, Bool.or_false, if_neg Bool.false_ne_true]

/-- Where the cells leave no gap but do not tile their box, a join of objects that equality tells
apart gives every match of objects with proper envelopes once, with any strategy. -/
theorem run_distinct [EquivBEq α] [EquivBEq β] {cells : List Envelope}
    (h : Tiling.make cells = .ok t) (hexact : t.exact = false)
    (hcover : ∀ x y, t.extent.hasPoint x y = true → ∃ c ∈ cells, c.hasPoint x y = true)
    (hleft₀ : t.partition as = .ok left₀) (hright₀ : t.partition bs = .ok right₀)
    (hleft : left₀.Prebuilt left) (hright : right₀.Prebuilt right)
    (has : as.Pairwise fun a a' => (a == a') = false)
    (hbs : bs.Pairwise fun b b' => (b == b') = false)
    (hq : q.settings.validate = .ok ()) (hqt : q.settings.index.sizeTiered = false)
    (hdup : q.settings.join.allowDuplicates = false)
    (hlocal : ∀ a ∈ as, ∀ b ∈ bs, (Spatial.envelope a).isProper = true →
      (Spatial.envelope b).isProper = true → q.relation.holds a b = .ok true →
        (Spatial.envelope a).meets (Spatial.envelope b) = true) (cores : Nat) :
    ∃ out, q.run cores left right = .ok out ∧ out.pairs.Pairwise (fun x y => (x == y) = false) ∧
      ∀ a b, (a, b) ∈ out.pairs ↔ (a ∈ as ∧ (Spatial.envelope a).isProper = true) ∧
        (b ∈ bs ∧ (Spatial.envelope b).isProper = true) ∧ q.relation.holds a b = .ok true := by
  obtain ⟨hmade, rfl⟩ := Tiling.made_of_make h
  obtain ⟨us, hus, hmem⟩ :=
    units_mem hmade hexact hleft₀ hright₀ hleft hright hq hqt hlocal hcover cores
  have hdistinct : q.distinct right (us.flatMap (·.1)) = (us.flatMap (·.1)).eraseDups :=
    distinct_of_not_exact (hright.same.2.trans (Tiling.partition_spec hright₀).1) hexact hdup _
  -- pairs that are equal have equal parts, which are the same object
  have hapart : ∀ x ∈ us.flatMap (·.1), ∀ y ∈ us.flatMap (·.1), (x == y) = true → x = y := by
    rintro ⟨a, b⟩ hx ⟨a', b'⟩ hy hxy
    obtain ⟨⟨ha, -⟩, ⟨hb, -⟩, -⟩ := (hmem a b).mp hx
    obtain ⟨⟨ha', -⟩, ⟨hb', -⟩, -⟩ := (hmem a' b').mp hy
    obtain ⟨haa, hbb⟩ := Bool.and_eq_true_iff.mp hxy
    exact Prod.ext (eq_of_beq_of_pairwise has ha ha' haa) (eq_of_beq_of_pairwise hbs hb hb' hbb)
  refine ⟨⟨q.strategy left right, q.distinct right (us.flatMap (·.1)),
    us.foldl (fun t u => t.add u.2) .zero⟩, ?_, ?_, ?_⟩
  · rw [run, sameTiling_ok hleft₀ hright₀ hleft hright hmade]
    dsimp only [bind, Except.bind]
    rw [conclude, hus]
    rfl
  · dsimp only
    rw [hdistinct]
    exact eraseDups_pairwise _
  · intro a b
    dsimp only
    rw [hdistinct, mem_eraseDups_of_apart hapart, hmem]

/-- A feature in both of two cells is found in both, and its match is given once. -/
theorem run_sharedFeatures : ∃ left right out,
    Tiling.make overlappingCells = .ok overlappingTiling ∧ overlappingTiling.exact = false ∧
      overlappingTiling.partition sharedFeatures = .ok left ∧
        left.buildIndex quadrantSettings = .ok right ∧ crossingJoin.run 4 left right = .ok out ∧
          out.pairs.Pairwise (fun x y => (x == y) = false) ∧
            out.pairs.map (Prod.map Feature.id Feature.id) = [(1, 1), (2, 2)] := by
  have hmake : Tiling.make overlappingCells = .ok overlappingTiling :=
    Tiling.make_of_proper (by decide) (by decide +kernel)
  have hexact : overlappingTiling.exact = false := by decide +kernel
  have hcover := ((Tiling.made_of_make hmake).1.gapless_iff).mp (by decide +kernel)
  obtain ⟨left, hleft⟩ : ∃ c, overlappingTiling.partition sharedFeatures = .ok c :=
    exists_ok (by decide +kernel)
  have hright :=
    Collection.buildIndex_ok (s := quadrantSettings) IndexSettings.validate_default left
  have hmeet : ∀ a ∈ sharedFeatures, ∀ b ∈ sharedFeatures,
      crossingJoin.relation.decides a b = true →
        (Spatial.envelope a).meets (Spatial.envelope b) = true := by
    decide +kernel
  have hapart : sharedFeatures.Pairwise fun a b => (a == b) = false := by decide
  obtain ⟨out, hout, hdistinct, -⟩ := run_distinct (q := crossingJoin) hmake hexact hcover hleft
    hleft .bare (.indexed rfl hright) hapart hapart IndexSettings.validate_default rfl rfl
    (fun a ha b hb _ _ h => hmeet a ha b hb (Relation.decides_iff.mpr h)) 4
  refine ⟨left, _, out, hmake, hexact, hleft, hright, hout, hdistinct, ?_⟩
  have hrun : ((overlappingTiling.partition sharedFeatures).toOption.bind fun left =>
      (left.buildIndex quadrantSettings).toOption.bind fun right =>
        (crossingJoin.run 4 left right).toOption.map fun out =>
          out.pairs.map (Prod.map Feature.id Feature.id)) = some [(1, 1), (2, 2)] := by
    decide +kernel
  rw [hleft] at hrun
  simpa only [Except.toOption, Option.bind_some, hright, hout, Option.map_some,
    Option.some.injEq] using hrun

end JoinQuery

end PlanarJoin
