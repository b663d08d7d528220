import PlanarJoin.Proofs.Query.Once

/-!
# Groups and counts

A join lists the right objects of each left one, or counts its pairs.  Both go through the pairs and
enter each of them into a table, under a key that equals its left object.  So the keys are the same,
those of a group are its right objects without repetitions, and a count is their number with them.
The two agree on a key just if no two of its pairs have equal right objects.  Pairs of a join that
are all unequal have none under a left object; but joins of discs put the pairs of all discs around
a center under this center.

## Main definitions

* `under`: what pairs give under a key.
* `enter`: an entry into a table, joined to what stands under an equal key.
* `CenterRow`: what is listed and counted for a center.

## Main results

* `foldl_enter`: a table that pairs were entered into.
* `groupPairs_eq`, `countPairs_eq`: the groups and the counts of some pairs.
* `JoinQuery.counts_eq_grouped`: for each left object a join counts as many pairs as it lists
  objects.
* `JoinQuery.centerRows`: for a center it does if no two of its discs match equal objects.
-/

namespace PlanarJoin

open Collection (overlappingCells overlappingTiling quadrantSettings sharedFeatures)

/-! ## Without repetitions -/

section Repetitions

variable {γ : Type} [BEq γ]

/-- A list of items of which no two are equal is without repetitions. -/
theorem eraseDups_of_pairwise [PartialEquivBEq γ] {xs : List γ}
    (h : xs.Pairwise fun x y => (x == y) = false) : xs.eraseDups = xs := by
  induction xs with
  | nil => rfl
  | cons x xs ih =>
    obtain ⟨hx, hxs⟩ := List.pairwise_cons.mp h
    have hkeep : xs.filter (fun y => !y == x) = xs := by
      refine List.filter_eq_self.mpr ?_
      intro y hy
      rw [BEq.comm, hx y hy]
      rfl
    rw [List.eraseDups_cons, hkeep, ih hxs]

theorem eraseDups_sublist (xs : List γ) : xs.eraseDups.Sublist xs := by
  induction xs using eraseDups_induction with
  | nil => exact .slnil
  | cons x xs ih =>
    rw [List.eraseDups_cons]
    exact (ih.trans List.filter_sublist).cons_cons x

theorem length_eraseDups_iff [PartialEquivBEq γ] (xs : List γ) :
    xs.length = xs.eraseDups.length ↔ xs.Pairwise fun x y => (x == y) = false := by
  constructor
  · intro h
    have hpairwise := eraseDups_pairwise xs
    rwa [(eraseDups_sublist xs).eq_of_length h.symm] at hpairwise
  · intro h
    rw [eraseDups_of_pairwise h]

/-- One more item stays if none before equals it. -/
theorem eraseDups_concat [EquivBEq γ] (xs : List γ) (y : γ) :
    (xs ++ [y]).eraseDups = if xs.any (· == y) then xs.eraseDups else xs.eraseDups ++ [y] := by
  induction xs using eraseDups_induction with
  | nil => rfl
  | cons x xs ih =>
    rw [List.cons_append, List.eraseDups_cons, List.filter_append, List.eraseDups_cons,
      List.any_cons]
    cases hxy : x == y with
    | true =>
      rw [List.filter_cons_of_neg (by rw [BEq.comm, hxy]; exact Bool.false_ne_true),
        List.filter_nil, List.append_nil, Bool.true_or, if_pos rfl]
    | false =>
      have hany : (xs.filter fun z => !z == x).any (· == y) = xs.any (· == y) := by
        rw [List.any_filter]
        congr 1
        funext z
        cases hzy : z == y with
        | false => exact Bool.and_false _
        | true =>
          have hzx : (z == x) = false := by
            rw [← Bool.not_eq_true]
            intro hzx
            rw [BEq.trans (BEq.symm hzx) hzy] at hxy
            cases hxy
          rw [hzx]
          rfl
      rw [List.filter_cons_of_pos (by rw [BEq.comm, hxy]; rfl), List.filter_nil, ih, hany,
        Bool.false_or]
      split <;> rfl

theorem any_eraseDups [EquivBEq γ] (xs : List γ) (y : γ) :
    xs.eraseDups.any (· == y) = xs.any (· == y) := by
  rw [Bool.eq_iff_iff, List.any_eq_true, List.any_eq_true]
  constructor
  · rintro ⟨x, hx, hxy⟩
    exact ⟨x, mem_of_mem_eraseDups hx, hxy⟩
  · rintro ⟨x, hx, hxy⟩
    obtain ⟨z, hz, hxz⟩ := exists_beq_eraseDups hx
    exact ⟨z, hz, BEq.trans (BEq.symm hxz) hxy⟩

end Repetitions

/-! ## Tables -/

section Tables

variable {κ γ ω : Type} [BEq κ]

/-- What pairs give under a key, in order. -/
def under (k : κ) (ps : List (κ × γ)) : List γ :=
  (ps.filter (·.1 == k)).map (·.2)

theorem under_concat (k : κ) (ps : List (κ × γ)) (p : κ × γ) :
    under k (ps ++ [p]) = if p.1 == k then under k ps ++ [p.2] else under k ps := by
  rw [under, List.filter_append, List.map_append, List.filter_cons]
  split
  · rfl
  · exact List.append_nil _

theorem mem_under {k : κ} {ps : List (κ × γ)} {x : γ} :
    x ∈ under k ps ↔ ∃ k', (k', x) ∈ ps ∧ (k' == k) = true := by
  simp [under]

/-- Enters a pair into a table: joined to what stands under an equal key, or at the end. -/
def enter (first : γ → ω) (join : ω → γ → ω) : List (κ × ω) → κ × γ → List (κ × ω)
  | [], (k, x) => [(k, first x)]
  | (l, v) :: rows, (k, x) =>
    if l == k then (l, join v x) :: rows else (l, v) :: enter first join rows (k, x)

variable [EquivBEq κ] {first : γ → ω} {join : ω → γ → ω} {k : κ} {x : γ}

/-- An entry under a key that a table has changes this row alone. -/
theorem enter_map {ks : List κ} (hks : ks.Pairwise fun k l => (k == l) = false) (f : κ → ω) :
    enter first join (ks.map fun l => (l, f l)) (k, x) =
      if ks.any (· == k) then ks.map fun l => (l, if l == k then join (f l) x else f l)
      else ks.map (fun l => (l, f l)) ++ [(k, first x)] := by
  induction ks with
  | nil => rfl
  | cons l ks ih =>
    obtain ⟨hl, hks⟩ := List.pairwise_cons.mp hks
    rw [List.map_cons, enter, ih hks, List.any_cons]
    cases hlk : l == k with
    | true =>
      have hrest : ks.map (fun l => (l, f l)) =
          ks.map fun l => (l, if l == k then join (f l) x else f l) := by
        refine List.map_congr_left ?_
        intro m hm
        have hmk : (m == k) = false := by
          rw [← Bool.not_eq_true]
          intro hmk
          have hlm := BEq.trans hlk (BEq.symm hmk)
          rw [hl m hm] at hlm
          cases hlm
        rw [hmk, if_neg Bool.false_ne_true]
      rw [if_pos rfl, Bool.true_or, if_pos rfl, List.map_cons, hlk, if_pos rfl, hrest]
    | false =>
      rw [if_neg Bool.false_ne_true, Bool.false_or]
      split
      · rw [List.map_cons, hlk, if_neg Bool.false_ne_true]
      · rfl

/-- A table that pairs were entered into has a row for each of their keys, in the order in which
they came first, and in it what comes of all that the pairs give under this key. -/
theorem foldl_enter (value : List γ → ω) (hfirst : ∀ x, value [x] = first x)
    (hjoin : ∀ xs x, xs ≠ [] → value (xs ++ [x]) = join (value xs) x) (ps : List (κ × γ)) :
    ps.foldl (enter first join) [] =
      (ps.map (·.1)).eraseDups.map fun k => (k, value (under k ps)) := by
  induction ps using List.reverseRecOn with
  | nil => rfl
  | append_singleton ps p ih =>
    obtain ⟨k, x⟩ := p
    rw [List.foldl_append, ih, List.foldl_cons, List.foldl_nil, List.map_append, List.map_cons,
      List.map_nil, eraseDups_concat, enter_map (eraseDups_pairwise _), any_eraseDups]
    have hunder (l : κ) (hl : (k == l) = false) : under l (ps ++ [(k, x)]) = under l ps := by
      rw [under_concat, hl, if_neg Bool.false_ne_true]
    cases hany : (ps.map (·.1)).any (· == k) with
    | true =>
      rw [if_pos rfl, if_pos rfl]
      refine List.map_congr_left ?_
      intro l hl
      cases hlk : l == k with
      | true =>
        obtain ⟨⟨l', y⟩, hp, rfl⟩ := List.mem_map.mp (mem_of_mem_eraseDups hl)
        have hne : under l' ps ≠ [] := List.ne_nil_of_mem (mem_under.mpr ⟨l', hp, BEq.rfl⟩)
        rw [if_pos rfl, under_concat, BEq.symm hlk, if_pos rfl, hjoin _ _ hne]
      | false => rw [if_neg Bool.false_ne_true, hunder l (by rw [BEq.comm, hlk])]
    | false =>
      have hother (p : κ × γ) (hp : p ∈ ps) : (p.1 == k) = false := by
        rw [List.any_eq_false] at hany
        exact eq_false_of_ne_true (hany p.1 (List.mem_map_of_mem hp))
      have hnew : under k (ps ++ [(k, x)]) = [x] := by
        rw [under_concat, BEq.rfl, if_pos rfl, under,
          List.filter_eq_nil_iff.mpr fun p hp => ne_true_of_eq_false (hother p hp)]
        rfl
      rw [if_neg Bool.false_ne_true, if_neg Bool.false_ne_true, List.map_append, List.map_singleton,
        hnew, hfirst]
      congr 1
      refine List.map_congr_left ?_
      intro l hl
      obtain ⟨p, hp, rfl⟩ := List.mem_map.mp (mem_of_mem_eraseDups hl)
      rw [hunder p.1 (by rw [BEq.comm, hother p hp])]

end Tables

section Groups

variable {κ γ : Type} [BEq κ] [EquivBEq κ] {ps : List (κ × γ)}

theorem countPairs_eq (ps : List (κ × γ)) :
    countPairs ps = (ps.map (·.1)).eraseDups.map fun k => (k, (under k ps).length) := by
  have henter (rows : List (κ × Nat)) (p : κ × γ) :
      countPairs.count rows p.1 = enter (fun _ => 1) (fun n _ => n + 1) rows p := by
    induction rows with
    | nil => rfl
    | cons row rows ih => rw [countPairs.count, enter, ih]
  simp only [countPairs, henter]
  exact foldl_enter List.length (fun _ => rfl) (fun _ _ _ => List.length_append) ps

variable [BEq γ] [EquivBEq γ]

/-- The right objects under each key, without repetitions. -/
theorem groupPairs_eq (ps : List (κ × γ)) :
    groupPairs ps = (ps.map (·.1)).eraseDups.map fun k => (k, (under k ps).eraseDups) := by
  have henter (rows : List (κ × List γ)) (p : κ × γ) : groupPairs.insert rows p =
      enter (fun x => [x]) (fun xs x => if xs.contains x then xs else xs ++ [x]) rows p := by
    induction rows with
    | nil => rfl
    | cons row rows ih => rw [groupPairs.insert, enter, ih]
  have hfold : groupPairs ps =
      ps.foldl (enter (fun x => [x]) fun xs x => if xs.contains x then xs else xs ++ [x]) [] :=
    congrArg (fun f => ps.foldl f []) (funext₂ henter)
  rw [hfold]
  refine foldl_enter List.eraseDups (fun _ => rfl) (fun xs x _ => ?_) ps
  -- an object is looked for among those listed so far, which is as good as among all
  rw [eraseDups_concat, ← any_eraseDups, List.contains_eq_any_beq]
  simp only [BEq.comm]

/-- Groups and counts have the same keys, in the same order. -/
theorem keys_eq (ps : List (κ × γ)) :
    (groupPairs ps).map (·.1) = (ps.map (·.1)).eraseDups ∧
      (countPairs ps).map (·.1) = (ps.map (·.1)).eraseDups := by
  rw [groupPairs_eq, countPairs_eq]
  simp only [List.map_map, Function.comp_def, List.map_id', and_self]

/-- Where equality tells keys and objects apart, the groups list the pairs and nothing else. -/
theorem mem_groupPairs {k : κ} {x : γ}
    (hkeys : ∀ p ∈ ps, ∀ p' ∈ ps, (p.1 == p'.1) = true → p.1 = p'.1)
    (hitems : ∀ p ∈ ps, ∀ p' ∈ ps, (p.2 == p'.2) = true → p.2 = p'.2) :
    (k, x) ∈ ps ↔ ∃ xs, (k, xs) ∈ groupPairs ps ∧ x ∈ xs := by
  simp only [groupPairs_eq, List.mem_map, Prod.mk.injEq]
  constructor
  · intro h
    refine ⟨_, ⟨k, ?_, rfl, rfl⟩, ?_⟩
    · refine (mem_eraseDups_of_apart ?_).mpr (List.mem_map_of_mem h)
      simpa only [List.forall_mem_map] using hkeys
    · refine (mem_eraseDups_of_apart ?_).mpr (mem_under.mpr ⟨k, h, BEq.rfl⟩)
      intro y hy z hz
      obtain ⟨l, hly, -⟩ := mem_under.mp hy
      obtain ⟨m, hmz, -⟩ := mem_under.mp hz
      exact hitems (l, y) hly (m, z) hmz
  · rintro ⟨-, ⟨k, hk, rfl, rfl⟩, hx⟩
    obtain ⟨p, hp, rfl⟩ := List.mem_map.mp (mem_of_mem_eraseDups hk)
    obtain ⟨l, hl, hlk⟩ := mem_under.mp (mem_of_mem_eraseDups hx)
    rwa [← hkeys _ hl p hp hlk]

omit [EquivBEq κ] [EquivBEq γ] in
/-- No two pairs under a key have equal objects just if no two pairs with such a key do. -/
theorem under_apart_iff {k : κ} : ((under k ps).Pairwise fun x y => (x == y) = false) ↔
    ps.Pairwise fun p q => (p.1 == k) = true → (q.1 == k) = true → (p.2 == q.2) = false := by
  rw [under, List.pairwise_map, List.pairwise_filter]

/-- Of pairs that are all unequal, the count of a key is the number of objects in its group. -/
theorem countPairs_of_apart (h : ps.Pairwise fun x y => (x == y) = false) :
    countPairs ps = (groupPairs ps).map fun g => (g.1, g.2.length) := by
  rw [groupPairs_eq, countPairs_eq, List.map_map]
  refine List.map_congr_left ?_
  intro k _
  have hunder : (under k ps).Pairwise fun x y => (x == y) = false := by
    rw [under_apart_iff]
    refine h.imp ?_
    intro p q hne hp hq
    rw [← Bool.not_eq_true]
    intro hpq
    have heq : (p == q) = true := Bool.and_eq_true_iff.mpr ⟨BEq.trans hp (BEq.symm hq), hpq⟩
    rw [heq] at hne
    cases hne
  rw [Function.comp_apply, eraseDups_of_pairwise hunder]

end Groups

namespace JoinQuery

variable {α β : Type} [Spatial α] [Spatial β] [BEq α] [BEq β] [EquivBEq α] [EquivBEq β] {t : Tiling}
  {as : List α} {bs : List β} {left₀ left : Collection α} {right₀ right : Collection β}
  {q : JoinQuery}

/-! ## Joins -/

/-- Where repetitions are not asked for, a join of objects that are all unequal counts for each left
object as many pairs as it lists right objects, with any strategy and any indexes. -/
theorem counts_eq_grouped (ht : t.Separates) (hleft₀ : t.partition as = .ok left₀)
    (hright₀ : t.partition bs = .ok right₀) (hleft : left₀.Indexed left)
    (hright : right₀.Indexed right) (has : as.Pairwise fun a a' => (a == a') = false)
    (hbs : bs.Pairwise fun b b' => (b == b') = false) (hq : q.settings.validate = .ok ())
    (hdup : q.settings.join.allowDuplicates = false)
    (hlocal : ∀ a ∈ as, ∀ b ∈ bs, (Spatial.envelope a).isProper = true →
      (Spatial.envelope b).isProper = true → q.relation.holds a b = .ok true →
        (Spatial.envelope a).meets (Spatial.envelope b) = true) (cores : Nat) :
    ∃ out groups, q.run cores left right = .ok out ∧ q.grouped cores left right = .ok groups ∧
      q.counts cores left right = .ok (groups.map fun g => (g.1, g.2.length)) ∧
      ((groups.map (·.1)).Pairwise fun k l => (k == l) = false) ∧
      (∀ g ∈ groups, g.2.Pairwise fun b b' => (b == b') = false) ∧
      ∀ a b, (a, b) ∈ out.pairs ↔ ∃ bs, (a, bs) ∈ groups ∧ b ∈ bs := by
  obtain ⟨out, hrun, hapart, hmem⟩ :=
    run_apart ht hleft₀ hright₀ hleft hright has hbs hq hdup hlocal cores
  refine ⟨out, groupPairs out.pairs, hrun, ?_, ?_, ?_, ?_, ?_⟩
  · rw [grouped, hrun]
    rfl
  · rw [counts, hrun, ← countPairs_of_apart hapart]
    rfl
  · rw [(keys_eq out.pairs).1]
    exact eraseDups_pairwise _
  · intro g hg
    rw [groupPairs_eq] at hg
    obtain ⟨k, -, rfl⟩ := List.mem_map.mp hg
    exact eraseDups_pairwise _
  · intro a b
    refine mem_groupPairs ?_ ?_
    · intro p hp p' hp' h
      exact eq_of_beq_of_pairwise has (hmem p hp).1 (hmem p' hp').1 h
    · intro p hp p' hp' h
      exact eq_of_beq_of_pairwise hbs (hmem p hp).2.1 (hmem p' hp').2.1 h

/-- A feature in both of two cells is listed once and counted once. -/
theorem counts_sharedFeatures : ∃ left right groups,
    Tiling.make overlappingCells = .ok overlappingTiling ∧ overlappingTiling.exact = false ∧
      overlappingTiling.partition sharedFeatures = .ok left ∧
        left.buildIndex quadrantSettings = .ok right ∧
          crossingJoin.grouped 4 left right = .ok groups ∧
            crossingJoin.counts 4 left right = .ok (groups.map fun g => (g.1, g.2.length)) ∧
              groups.map (fun g => (g.1.id, g.2.map Feature.id)) = [(1, [1]), (2, [2])] := by
  have hmake : Tiling.make overlappingCells = .ok overlappingTiling :=
    Tiling.make_of_proper (by decide) (by decide +kernel)
  have hexact : overlappingTiling.exact = false := by decide +kernel
  obtain ⟨left, hleft⟩ : ∃ c, overlappingTiling.partition sharedFeatures = .ok c :=
    exists_ok (by decide +kernel)
  have hright :=
    Collection.buildIndex_ok (s := quadrantSettings) IndexSettings.validate_default left
  have hmeet : ∀ a ∈ sharedFeatures, ∀ b ∈ sharedFeatures,
      crossingJoin.relation.decides a b = true →
        (Spatial.envelope a).meets (Spatial.envelope b) = true := by
    decide +kernel
  have hapart : sharedFeatures.Pairwise fun a b => (a == b) = false := by decide
  obtain ⟨out, groups, -, hgrouped, hcounts, -⟩ := counts_eq_grouped (q := crossingJoin)
    (.unowned hmake hexact) hleft hleft .bare (.built hright) hapart hapart
    IndexSettings.validate_default rfl
    (fun a ha b hb _ _ h => hmeet a ha b hb (Relation.decides_iff.mpr h)) 4
  refine ⟨left, _, groups, hmake, hexact, hleft, hright, hgrouped, hcounts, ?_⟩
  have hrun : ((overlappingTiling.partition sharedFeatures).toOption.bind fun left =>
      (left.buildIndex quadrantSettings).toOption.bind fun right =>
        (crossingJoin.grouped 4 left right).toOption.map fun groups =>
          groups.map fun g => (g.1.id, g.2.map Feature.id)) = some [(1, [1]), (2, [2])] := by
    decide +kernel
  rw [hleft] at hrun
  simpa only [Except.toOption, Option.bind_some, hright, hgrouped, Option.map_some,
    Option.some.injEq] using hrun

end JoinQuery

/-! ## Joins of discs -/

/-- Discs are equal if their parts are. -/
instance {γ : Type} [BEq γ] [EquivBEq γ] : EquivBEq (Disc γ) where
  rfl {d} := Bool.and_eq_true_iff.mpr ⟨BEq.rfl, BEq.rfl⟩
  symm {d e} h := by
    obtain ⟨hc, hr⟩ := Bool.and_eq_true_iff.mp h
    exact Bool.and_eq_true_iff.mpr ⟨BEq.symm hc, BEq.symm hr⟩
  trans {d e f} h h' := by
    obtain ⟨hc, hr⟩ := Bool.and_eq_true_iff.mp h
    obtain ⟨hc', hr'⟩ := Bool.and_eq_true_iff.mp h'
    exact Bool.and_eq_true_iff.mpr ⟨BEq.trans hc hc', BEq.trans hr hr'⟩

/-- Items are equal if they are of one kind and equal. -/
instance {ι : Type} [BEq ι] [EquivBEq ι] : EquivBEq (Item ι) where
  rfl {a} :=
    match a with
    | .feature f => BEq.rfl (a := f)
    | .disc d => BEq.rfl (a := d)
    | .nested d => BEq.rfl (a := d)
  symm {a b} h :=
    match a, b, h with
    | .feature f, .feature _, h => BEq.symm (a := f) h
    | .disc d, .disc _, h => BEq.symm (a := d) h
    | .nested d, .nested _, h => BEq.symm (a := d) h
  trans {a b c} h h' :=
    match a, b, c, h, h' with
    | .feature f, .feature _, .feature _, h, h' => BEq.trans (a := f) h h'
    | .disc d, .disc _, .disc _, h, h' => BEq.trans (a := d) h h'
    | .nested d, .nested _, .nested _, h, h' => BEq.trans (a := d) h h'

section Centers

variable {γ β : Type} [BEq γ] [BEq β]

/-- The center of each disc, with the right object that matches the disc. -/
def centered (pairs : List (Disc γ × β)) : List (γ × β) :=
  pairs.map fun p => (p.1.center, p.2)

/-- What is listed and what is counted for a center, of the pairs of a join of discs. -/
structure CenterRow (pairs : List (Disc γ × β)) (g : γ × List β) (c : γ × Nat) : Prop where
  key : g.1 = c.1
  listed : ∀ b, g.2.any (· == b) = true ↔
    ∃ p ∈ pairs, (p.1.center == g.1) = true ∧ (p.2 == b) = true
  apart : g.2.Pairwise fun b b' => (b == b') = false
  counted : c.2 = pairs.countP (·.1.center == g.1)
  agrees : c.2 = g.2.length ↔ pairs.Pairwise fun p p' => (p.1.center == g.1) = true →
    (p'.1.center == g.1) = true → (p.2 == p'.2) = false

omit [BEq β] in
/-- Under a center are the objects that match the discs around it. -/
theorem under_centered (k : γ) (pairs : List (Disc γ × β)) :
    under k (centered pairs) = (pairs.filter (·.1.center == k)).map (·.2) := by
  rw [under, centered, List.filter_map, List.map_map]
  rfl

/-- Groups and counts of the pairs of centers, row by row. -/
theorem centerRows_centered [EquivBEq γ] [EquivBEq β] (pairs : List (Disc γ × β)) :
    List.Forall₂ (CenterRow pairs) (groupPairs (centered pairs)) (countPairs (centered pairs)) := by
  rw [groupPairs_eq, countPairs_eq, List.forall₂_map_left_iff, List.forall₂_map_right_iff,
    List.forall₂_same]
  intro k _
  refine ⟨rfl, ?_, eraseDups_pairwise _, ?_, ?_⟩
  · intro b
    rw [any_eraseDups, under_centered, List.any_map, List.any_filter, List.any_eq_true]
    simp only [Bool.and_eq_true, Function.comp_apply]
  · rw [under_centered, List.length_map, List.countP_eq_length_filter]
  · rw [length_eraseDups_iff, under_apart_iff, centered, List.pairwise_map]

/-- Two unequal discs around a center match equal objects. -/
def SharedAround (pairs : List (Disc γ × β)) (k : γ) : Prop :=
  ∃ p ∈ pairs, ∃ p' ∈ pairs, (p.1.center == k) = true ∧ (p'.1.center == k) = true ∧
    (p.1 == p'.1) = false ∧ (p.2 == p'.2) = true

/-- Of pairs that are all unequal, a center has as many as it lists objects unless two of its discs
share one. -/
theorem CenterRow.agrees_iff [EquivBEq γ] [EquivBEq β] {pairs : List (Disc γ × β)}
    {g : γ × List β} {c : γ × Nat} (h : CenterRow pairs g c)
    (hapart : pairs.Pairwise fun p p' => (p == p') = false) :
    c.2 = g.2.length ↔ ¬ SharedAround pairs g.1 := by
  rw [h.agrees]
  constructor
  · rintro hagrees ⟨p, hp, p', hp', hk, hk', hdiscs, hitems⟩
    have hsymm : Std.Symm fun p p' : Disc γ × β => (p.1.center == g.1) = true →
        (p'.1.center == g.1) = true → (p.2 == p'.2) = false :=
      ⟨fun p p' h hk' hk => by rw [BEq.comm, h hk hk']⟩
    have hne : p ≠ p' := by
      rintro rfl
      rw [BEq.rfl] at hdiscs
      cases hdiscs
    rw [hagrees.forall hp hp' hne hk hk'] at hitems
    cases hitems
  · intro hnone
    refine hapart.imp_of_mem ?_
    intro p p' hp hp' hne hk hk'
    by_contra hitems
    rw [Bool.not_eq_false] at hitems
    refine hnone ⟨p, hp, p', hp', hk, hk', ?_, hitems⟩
    rw [← Bool.not_eq_true]
    intro hdiscs
    rw [show (p == p') = true from Bool.and_eq_true_iff.mpr ⟨hdiscs, hitems⟩] at hne
    cases hne

end Centers

namespace JoinQuery

variable {γ β : Type} [Spatial γ] [Spatial β] [BEq γ] [BEq β] [EquivBEq γ] [EquivBEq β] {t : Tiling}
  {ds : List (Disc γ)} {bs : List β} {left₀ left : Collection (Disc γ)}
  {right₀ right : Collection β} {q : JoinQuery}

/-- A join of discs lists and counts the same centers.  It counts as many pairs for a center as it
lists objects just if no two of these pairs have equal objects.  Where repetitions are not asked
for, the discs are all unequal and so are the objects, this is so unless two discs around the center
match the same object. -/
theorem centerRows (ht : t.Separates) (hleft₀ : t.partition ds = .ok left₀)
    (hright₀ : t.partition bs = .ok right₀) (hleft : left₀.Indexed left)
    (hright : right₀.Indexed right) (hds : ds.Pairwise fun d d' => (d == d') = false)
    (hbs : bs.Pairwise fun b b' => (b == b') = false) (hq : q.settings.validate = .ok ())
    (hdup : q.settings.join.allowDuplicates = false) (cores : Nat) :
    ∃ out groups counts, q.run cores left right = .ok out ∧
      q.withinDistanceGrouped cores left right = .ok groups ∧
      q.withinDistanceCounts cores left right = .ok counts ∧
      ((groups.map (·.1)).Pairwise fun k l => (k == l) = false) ∧
      List.Forall₂ (CenterRow out.pairs) groups counts ∧
      ((∀ d ∈ ds, ∀ b ∈ bs, (Spatial.envelope d).isProper = true →
        (Spatial.envelope b).isProper = true → q.relation.holds d b = .ok true →
          (Spatial.envelope d).meets (Spatial.envelope b) = true) →
        List.Forall₂ (fun g c => c.2 = g.2.length ↔ ¬ SharedAround out.pairs g.1) groups counts) := by
  obtain ⟨xs, tally, hrun, -⟩ := run_subperm ht hleft₀ hright₀ hleft hright hq cores
  refine ⟨_, groupPairs (centered (q.distinct right xs)),
    countPairs (centered (q.distinct right xs)), hrun, ?_, ?_, ?_, centerRows_centered _, ?_⟩
  · rw [withinDistanceGrouped, withinDistance, hrun]
    rfl
  · rw [withinDistanceCounts, withinDistance, hrun]
    rfl
  · rw [(keys_eq _).1]
    exact eraseDups_pairwise _
  · intro hlocal
    obtain ⟨out, hout, hapart, -⟩ :=
      run_apart ht hleft₀ hright₀ hleft hright hds hbs hq hdup hlocal cores
    rw [hrun] at hout
    obtain rfl := Except.ok.inj hout
    exact (centerRows_centered _).imp fun _ _ h => h.agrees_iff hapart

theorem usableRadius_one : usableRadius 1.0 = true := by decide +kernel

/-- Two discs around one feature. -/
def nestedDiscs : List (Disc (Feature Nat)) :=
  [⟨⟨1, .single (.point ⟨3.0, 3.0⟩)⟩, 1.0, usableRadius_one⟩,
    ⟨⟨1, .single (.point ⟨3.0, 3.0⟩)⟩, 2.0, by decide +kernel⟩]

/-- A feature in both discs. -/
def innermostFeature : List (Feature Nat) :=
  [⟨7, .single (.point ⟨3.0, 3.0⟩)⟩]

/-- A feature in both discs around a center is listed once and counted twice. -/
theorem centerRows_nestedDiscs : ∃ left right out groups counts,
    Tiling.quarters.partition nestedDiscs = .ok left ∧
      Tiling.quarters.partition innermostFeature = .ok right ∧
        JoinQuery.default.run 4 left right = .ok out ∧
          JoinQuery.default.withinDistanceGrouped 4 left right = .ok groups ∧
            JoinQuery.default.withinDistanceCounts 4 left right = .ok counts ∧
              List.Forall₂ (CenterRow out.pairs) groups counts ∧
                (∀ g ∈ groups, SharedAround out.pairs g.1) ∧
                  groups.map (fun g => (g.1.id, g.2.map Feature.id)) = [(1, [7])] ∧
                    counts.map (fun c => (c.1.id, c.2)) = [(1, 2)] := by
  obtain ⟨left, hleft⟩ : ∃ c, Tiling.quarters.partition nestedDiscs = .ok c :=
    exists_ok (by decide +kernel)
  obtain ⟨right, hright⟩ : ∃ c, Tiling.quarters.partition innermostFeature = .ok c :=
    exists_ok (by decide +kernel)
  have hmeet : ∀ d ∈ nestedDiscs, ∀ b ∈ innermostFeature,
      JoinQuery.default.relation.decides d b = true →
        (Spatial.envelope d).meets (Spatial.envelope b) = true := by
    decide +kernel
  have hdiscs : nestedDiscs.Pairwise fun d d' => (d == d') = false := by decide +kernel
  obtain ⟨out, groups, counts, hrun, hgrouped, hcounts, -, hrows, hagree⟩ :=
    centerRows (q := JoinQuery.default) (.uniform Tiling.uniform_quarters
      Tiling.increasing_columns_decade Tiling.increasing_rows_decade) hleft hright .bare .bare
      hdiscs (List.pairwise_singleton _ _) IndexSettings.validate_default rfl 4
  have hagree := hagree fun d hd b hb _ _ h => hmeet d hd b hb (Relation.decides_iff.mpr h)
  have hgroups : groups.map (fun g => (g.1.id, g.2.map Feature.id)) = [(1, [7])] := by
    have h : ((Tiling.quarters.partition nestedDiscs).toOption.bind fun left =>
        (Tiling.quarters.partition innermostFeature).toOption.bind fun right =>
          (JoinQuery.default.withinDistanceGrouped 4 left right).toOption.map fun groups =>
            groups.map fun g => (g.1.id, g.2.map Feature.id)) = some [(1, [7])] := by
      decide +kernel
    rw [hleft, hright] at h
    simpa only [Except.toOption, Option.bind_some, hgrouped, Option.map_some,
      Option.some.injEq] using h
  have hcounted : counts.map (fun c => (c.1.id, c.2)) = [(1, 2)] := by
    have h : ((Tiling.quarters.partition nestedDiscs).toOption.bind fun left =>
        (Tiling.quarters.partition innermostFeature).toOption.bind fun right =>
          (JoinQuery.default.withinDistanceCounts 4 left right).toOption.map fun counts =>
            counts.map fun c => (c.1.id, c.2)) = some [(1, 2)] := by
      decide +kernel
    rw [hleft, hright] at h
    simpa only [Except.toOption, Option.bind_some, hcounts, Option.map_some,
      Option.some.injEq] using h
  refine ⟨left, right, out, groups, counts, hleft, hright, hrun, hgrouped, hcounts, hrows, ?_,
    hgroups, hcounted⟩
  obtain ⟨g, rfl, hg⟩ := List.map_eq_singleton_iff.mp hgroups
  obtain ⟨c, rfl, hc⟩ := List.map_eq_singleton_iff.mp hcounted
  obtain ⟨-, hitems⟩ := Prod.mk.inj hg
  obtain ⟨-, hcount⟩ := Prod.mk.inj hc
  have hlength : g.2.length = 1 := by
    rw [← List.length_map Feature.id, hitems, List.length_singleton]
  have hshared := (List.forall₂_cons.mp hagree).1
  rw [hcount, hlength] at hshared
  intro g' hg'
  obtain rfl := List.mem_singleton.mp hg'
  by_contra hnone
  exact absurd (hshared.mpr hnone) (by decide)

end JoinQuery

end PlanarJoin
