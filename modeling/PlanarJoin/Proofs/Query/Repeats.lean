import PlanarJoin.Proofs.Query.Nearest

/-!
# How often the nearest repeat an object

An object has a copy in every cell that it meets, and each partition ranks the copies that it owns.
Where the cells do not tile their box there is no ownership, and every partition ranks all that it
holds.  The nearest of a collection are taken from everything that is ranked, so an object is given
as often as that.

## Main definitions

* `Tiling.rankers`: how many partitions rank an object.
* `Tiling.copies`: objects, each as often as it is ranked.

## Main results

* `Tiling.rankers_le_one`: where every point has one owner, one partition ranks an object.
* `Tiling.rankers_of_not_exact`: without ownership, all partitions that hold an object rank it.
* `Collection.nearest_subperm_copies`: nothing is given more often than it is ranked.
* `Collection.nodup_of_ownedOnce`: where every point has one owner, no object is repeated.
* `Collection.nearest_nodup_iff`: no object is repeated just if none at a finite distance is ranked
  twice.
-/

namespace PlanarJoin

open Envelope

variable {α : Type} [Spatial α] {t : Tiling} {as : List α} {a : α}

namespace Tiling

/-! ## Ranked copies -/

/-- How many partitions rank an object. -/
def rankers (t : Tiling) (a : α) : Nat :=
  (List.range t.size).countP (t.ranks · a)

/-- Objects, each as often as it is ranked. -/
def copies (t : Tiling) (as : List α) : List α :=
  as.flatMap fun a => List.replicate (t.rankers a) a

theorem flatMap_ranks_perm (t : Tiling) (as : List α) :
    ((List.range t.size).flatMap fun i => as.filter (t.ranks i)).Perm (t.copies as) :=
  flatMap_filter_perm_replicate t.size t.ranks as

/-- Where every point has one owner, an object has one. -/
theorem rankers_le_one (ht : t.Made) (honce : t.OwnedOnce) (hexact : t.exact = true) (a : α) :
    t.rankers a ≤ 1 := by
  have howns {i : Nat} (hi : i < t.size) (h : t.ranks i a = true) :
      t.Owns i (Spatial.envelope a).minX (Spatial.envelope a).minY := by
    refine ⟨t.ownershipOf i, ht.make_eq hi, ?_⟩
    have hown := (Bool.and_eq_true_iff.mp h).2
    rwa [owner?, if_pos hexact] at hown
  rcases Nat.eq_zero_or_pos (t.rankers a) with hzero | hpos
  · exact hzero.trans_le (Nat.zero_le 1)
  · -- whatever else ranks the object owns its corner too, so it is the same partition
    obtain ⟨i, hi, hranks⟩ := List.countP_pos_iff.mp hpos
    have hi := List.mem_range.mp hi
    refine (countP_range_eq_one hi fun j hj => ⟨fun h => ?_, fun h => h ▸ hranks⟩).le
    exact honce.unique j i _ _ (howns hj h) (howns hi hranks)

/-- Where there are no owners, an object is ranked by every partition that holds it. -/
theorem rankers_of_not_exact (h : t.exact = false) (a : α) :
    t.rankers a = (t.placement (Spatial.envelope a)).length := by
  rw [rankers, List.countP_eq_length_filter]
  refine List.Perm.length_eq ((List.perm_ext_iff_of_nodup (List.nodup_range.filter _)
    (nodup_placement t _)).mpr ?_)
  intro i
  have howner : t.owner? i = none := by rw [owner?, h, if_neg Bool.false_ne_true]
  rw [List.mem_filter, List.mem_range, ranks, howner, ownsObject, Bool.and_true, places_iff]
  refine and_iff_right_of_imp ?_
  intro hi
  obtain ⟨-, c, hc, -⟩ := mem_placement.mp hi
  exact (List.getElem?_eq_some_iff.mp hc).1

end Tiling

/-- Ranked copies have different names just if no object at a finite distance has two. -/
theorem Tiling.nodup_copies_iff {ι : Type} {name : α → ι} (h : (as.map name).Nodup) (t : Tiling)
    (p : Coord) : ((finiteRanked p (t.copies as)).map (name ·.item)).Nodup ↔
      ∀ a ∈ as, hasFiniteDistance p a = true → t.rankers a ≤ 1 := by
  have hnames : (finiteRanked p (t.copies as)).map (name ·.item) = as.flatMap fun a =>
      List.replicate (if hasFiniteDistance p a then t.rankers a else 0) (name a) := by
    have hmap : (finiteRanked p (t.copies as)).map (name ·.item) =
        ((finiteRanked p (t.copies as)).map (·.item)).map name := (List.map_map).symm
    rw [hmap, map_item_finiteRanked, copies, List.filter_flatMap, List.map_flatMap]
    refine List.flatMap_congr ?_
    intro a _
    rw [List.filter_replicate]
    split <;> simp
  rw [hnames, nodup_flatMap_replicate h]
  refine forall₂_congr fun a _ => ?_
  by_cases hd : hasFiniteDistance p a = true <;> simp [hd]

namespace Collection

variable {c₀ c : Collection α} {p : Coord} {k : Nat} {useIndex : Bool}

/-! ## What is given -/

/-- A partition gives some of what it ranks, none twice. -/
theorem nearestIn_subperm (ht : t.Made) (h₀ : t.partition as = .ok c₀) (hc : c₀.Indexed c)
    (useIndex : Bool) {i : Nat} (hi : i < t.size) :
    ∃ es, c.nearestIn p k useIndex i = .ok es ∧
      es.Subperm (finiteRanked p (as.filter (t.ranks i))) := by
  obtain ⟨es, hscan, hkeeps⟩ := nearestIn_scan (p := p) (k := k) ht h₀ hc hi
  rw [nearestIn, hc.ownership h₀ ht hi] at hscan ⊢
  cases useIndex with
  | false => exact ⟨es, hscan, hkeeps.subperm⟩
  | true =>
    cases hx : c.index? i with
    | none => exact ⟨es, hscan, hkeeps.subperm⟩
    | some x =>
      obtain ⟨s, rfl⟩ := hc.index? h₀ hi hx
      refine ⟨_, rfl, ((Index.holds_ofList s _).nearestOwned_subperm _ p k).trans ?_⟩
      rw [← filter_ownsObject_partition h₀ hc, hc.partition_eq h₀]
      exact finiteRanked_subperm (List.filter_sublist.filter _).subperm

/-- Nothing is given more often than it is ranked. -/
theorem nearest_subperm_copies (ht : t.Made) (h₀ : t.partition as = .ok c₀) (hc : c₀.Indexed c)
    (hidx : useIndex = true → c.hasIndex = true) : ∃ out, c.nearest p k useIndex = .ok out ∧
      out.Subperm (finiteRanked p (t.copies as)) := by
  obtain ⟨lists, hout, hall⟩ := nearest_of_parts (hc.count_eq h₀) hidx fun i hi =>
    nearestIn_subperm (p := p) (k := k) ht h₀ hc useIndex hi
  -- all partitions together give some of all that is ranked, and the merge picks from that
  have hparts := flatten_subperm_of_forall₂ ((List.forall₂_map_right_iff
    (f := fun i => finiteRanked p (as.filter (t.ranks i)))).mpr hall.flip)
  rw [← finiteRanked_flatMap] at hparts
  refine ⟨_, hout, (mergeNearest_spec lists k).1.subperm.trans ?_⟩
  exact (List.filter_sublist.subperm.trans hparts).trans
    (finiteRanked_perm (t.flatMap_ranks_perm as)).subperm

theorem nearest_scan (ht : t.Made) (h₀ : t.partition as = .ok c₀) (hc : c₀.Indexed c) (p : Coord)
    (k : Nat) : ∃ out, c.nearest p k false = .ok out ∧
      Keeps k (finiteRanked p (t.copies as)) out := by
  have hscan : ∀ i < t.size, ∃ es, c.nearestIn p k false i = .ok es ∧
      Enough k (finiteRanked p (as.filter (t.ranks i))) es := fun i hi =>
    (nearestIn_scan ht h₀ hc hi).imp fun _ h => ⟨h.1, h.2.enough⟩
  obtain ⟨lists, hout, hall⟩ :=
    nearest_of_parts (hc.count_eq h₀) (absurd · Bool.false_ne_true) hscan
  refine ⟨_, hout, (keeps_mergeNearest hall).congr ?_ .rfl⟩
  exact finiteRanked_perm (t.flatMap_ranks_perm as)

theorem hasIndex_of_nearest {out : List (Ranked α)} (h : c.nearest p k useIndex = .ok out)
    (huse : useIndex = true) : c.hasIndex = true := by
  by_contra hnone
  rw [nearest, huse, Bool.eq_false_of_not_eq_true hnone] at h
  cases h

section Names

variable {ι : Type} {name : α → ι} (ht : t.Made) (h₀ : t.partition as = .ok c₀) (hc : c₀.Indexed c)
  (hname : (as.map name).Nodup)

include ht h₀ hc hname

/-- No object is repeated if none at a finite distance is ranked twice. -/
theorem nodup_of_rankers (hone : ∀ a ∈ as, hasFiniteDistance p a = true → t.rankers a ≤ 1)
    {out : List (Ranked α)} (hout : c.nearest p k useIndex = .ok out) :
    (out.map (name ·.item)).Nodup := by
  obtain ⟨out', hout', hsub⟩ :=
    nearest_subperm_copies (p := p) (k := k) ht h₀ hc (hasIndex_of_nearest hout)
  obtain rfl : out' = out := Except.ok.inj (hout'.symm.trans hout)
  obtain ⟨given, hperm, hsublist⟩ := hsub
  have hcopies := (Tiling.nodup_copies_iff hname t p).mpr hone
  exact (hperm.map _).nodup_iff.mp ((hsublist.map _).nodup hcopies)

/-- Where every point has one owner, no object is repeated. -/
theorem nodup_of_ownedOnce (honce : t.OwnedOnce) (hexact : t.exact = true)
    {out : List (Ranked α)} (hout : c.nearest p k useIndex = .ok out) :
    (out.map (name ·.item)).Nodup :=
  nodup_of_rankers ht h₀ hc hname (fun a _ _ => Tiling.rankers_le_one ht honce hexact a) hout

/-- If no object is repeated, none at a finite distance is ranked twice: when as many are asked for
as there are copies, all of them are given. -/
theorem rankers_of_nodup
    (h : ∀ k out, c.nearest p k false = .ok out → (out.map (name ·.item)).Nodup) :
    ∀ a ∈ as, hasFiniteDistance p a = true → t.rankers a ≤ 1 := by
  obtain ⟨out, hout, hkeeps⟩ := nearest_scan ht h₀ hc p (finiteRanked p (t.copies as)).length
  have hall := hkeeps.subperm.perm_of_length_le (hkeeps.1.trans (Nat.min_self _)).ge
  exact (Tiling.nodup_copies_iff hname t p).mp ((hall.map _).nodup_iff.mp (h _ out hout))

end Names

/-- The nearest of a collection, with or without its indexes, are given no more often than they are
ranked.  Among objects with different names, no name is repeated, however many are asked for, just
if no object at a finite distance is ranked twice. -/
theorem nearest_nodup_iff {ι : Type} {cells : List Envelope} (h : Tiling.make cells = .ok t)
    (h₀ : t.partition as = .ok c₀) (hc : c₀.Indexed c) {name : α → ι} (hname : (as.map name).Nodup)
    (p : Coord) :
    (∀ k useIndex, (useIndex = true → c.hasIndex = true) → ∃ out, c.nearest p k useIndex = .ok out ∧
      out.Subperm (finiteRanked p (t.copies as))) ∧
    ((∀ k useIndex out, c.nearest p k useIndex = .ok out → (out.map (name ·.item)).Nodup) ↔
      ∀ a ∈ as, hasFiniteDistance p a = true → t.rankers a ≤ 1) := by
  have ht := (Tiling.made_of_make h).1
  refine ⟨fun k useIndex => nearest_subperm_copies ht h₀ hc, ?_, ?_⟩
  · intro hnodup
    exact rankers_of_nodup ht h₀ hc hname fun k out hout => hnodup k false out hout
  · intro hone k useIndex out hout
    exact nodup_of_rankers ht h₀ hc hname hone hout

/-- Two cells that overlap. -/
def overlappingCells : List Envelope :=
  [⟨0.0, 10.0, 0.0, 10.0⟩, ⟨5.0, 15.0, 0.0, 10.0⟩]

def overlappingTiling : Tiling :=
  ⟨overlappingCells, hullAll overlappingCells,
    Tiling.tiles overlappingCells (hullAll overlappingCells)⟩

/-- A feature in both cells and one in the first. -/
def sharedFeatures : List (Feature Nat) :=
  [⟨1, .single (.point ⟨7.0, 5.0⟩)⟩, ⟨2, .single (.point ⟨1.0, 5.0⟩)⟩]

/-- The feature in both cells is given twice, in place of the other one. -/
theorem nearest_sharedFeatures : ∃ c₀ c, Tiling.make overlappingCells = .ok overlappingTiling ∧
    overlappingTiling.partition sharedFeatures = .ok c₀ ∧
      c₀.buildIndex quadrantSettings = .ok c ∧
        ∀ useIndex, ∃ out, c.nearest ⟨7.0, 5.0⟩ 2 useIndex = .ok out ∧
          out.map (·.item.id) = [1, 1] := by
  have hmake : Tiling.make overlappingCells = .ok overlappingTiling :=
    Tiling.make_of_proper (by decide) (by decide +kernel)
  obtain ⟨c₀, h₀⟩ : ∃ c₀, overlappingTiling.partition sharedFeatures = .ok c₀ :=
    exists_ok (by decide +kernel)
  have hc := buildIndex_ok (s := quadrantSettings) IndexSettings.validate_default c₀
  refine ⟨c₀, _, hmake, h₀, hc, ?_⟩
  intro useIndex
  have hids : (sharedFeatures.map Feature.id).Nodup := by decide
  obtain ⟨out, hout, -⟩ :=
    (nearest_nodup_iff hmake h₀ (.built hc) hids ⟨7.0, 5.0⟩).1 2 useIndex fun _ => rfl
  refine ⟨out, hout, ?_⟩
  have hrun : ((overlappingTiling.partition sharedFeatures).toOption.bind fun c₀ =>
      (c₀.buildIndex quadrantSettings).toOption.bind fun c =>
        (c.nearest ⟨7.0, 5.0⟩ 2 useIndex).toOption.map (·.map (·.item.id))) = some [1, 1] := by
    cases useIndex <;> decide +kernel
  rw [h₀] at hrun
  simpa only [Except.toOption, Option.bind_some, hc, hout, Option.map_some,
    Option.some.injEq] using hrun

end Collection

end PlanarJoin
