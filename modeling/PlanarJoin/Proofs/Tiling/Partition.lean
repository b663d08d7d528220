import PlanarJoin.Proofs.Tiling.Ownership
import PlanarJoin.Tiling.Collection

/-!
# What partitions hold

Partitioning places the objects one by one.  In the end each partition holds, in the order in which
they came, the objects that are placed into its cell.

## Main definitions

* `Tiling.places`: whether an object is placed into a cell.
* `Collection.Indexed`: a collection with or without an index of each partition.
* `Collection.Prebuilt`: the same, where the indexes have no tiers.

## Main results

* `Tiling.placeObject_ok`: what placing one object does.
* `Tiling.partition_spec`: what the partitions hold in the end.
* `Collection.index?_buildIndex`: building indexes gives each partition an index of what it holds.
-/

namespace PlanarJoin

variable {α : Type}

namespace Tiling

/-! ## One object -/

/-- Dealing appends the object to a partition as often as its cell is listed. -/
theorem getElem?_deal (parts : List (List α)) (a : α) (cells : List Nat) (i : Nat) :
    (deal parts a cells)[i]? = parts[i]?.map (· ++ List.replicate (cells.count i) a) := by
  unfold deal
  induction cells generalizing parts with
  | nil => simp
  | cons c cells ih =>
    rw [List.foldl_cons, ih, List.getElem?_modify, List.count_cons]
    by_cases h : c = i
    · subst h
      cases parts[c]? with
      | none => rfl
      | some as => simp [List.replicate_succ]
    · simp [h]

theorem length_deal (parts : List (List α)) (a : α) (cells : List Nat) :
    (deal parts a cells).length = parts.length := by
  unfold deal
  induction cells generalizing parts with
  | nil => rfl
  | cons c cells ih => rw [List.foldl_cons, ih, List.length_modify]

theorem nodup_placement (t : Tiling) (e : Envelope) : (t.placement e).Nodup := by
  unfold placement
  split
  · refine List.Sublist.nodup (List.filter_sublist.map _) ?_
    rw [List.zipIdx_map_snd]
    exact List.nodup_range'
  · exact List.nodup_nil

variable [Spatial α] {t : Tiling} {as : List α} {a : α}

/-- Whether an object is placed into a cell. -/
def places (t : Tiling) (i : Nat) (a : α) : Bool :=
  decide (i ∈ t.placement (Spatial.envelope a))

theorem places_iff {i : Nat} : t.places i a = true ↔ i ∈ t.placement (Spatial.envelope a) :=
  decide_eq_true_iff

theorem isProper_of_places {i : Nat} (h : t.places i a = true) :
    (Spatial.envelope a).isProper = true :=
  (mem_placement.mp (places_iff.mp h)).1

/-- Placing an object appends it to the partitions of its cells; nothing else changes. -/
theorem placeObject_ok {parts parts' : List (List α)} (h : t.placeObject parts a = .ok parts') :
    parts'.length = parts.length ∧
    (∀ i, parts'[i]? = parts[i]?.map (· ++ [a].filter (t.places i))) ∧
    ((Spatial.envelope a).isProper = true → t.extent.covers (Spatial.envelope a) = true) := by
  unfold placeObject at h
  dsimp only at h
  split at h
  · next hp =>
    obtain rfl := Except.ok.inj h
    rw [Bool.not_eq_true'] at hp
    refine ⟨rfl, ?_, fun hp' => by rw [hp] at hp'; cases hp'⟩
    intro i
    have hplaces : t.places i a = false := by
      rw [← Bool.not_eq_true]
      intro hi
      rw [isProper_of_places hi] at hp
      cases hp
    simp [hplaces]
  · split at h
    · cases h
    · next hc =>
      obtain rfl := Except.ok.inj h
      refine ⟨length_deal _ _ _, ?_, fun _ => by simpa using hc⟩
      intro i
      rw [getElem?_deal, (nodup_placement t _).count]
      congr 2
      funext as
      by_cases hi : i ∈ t.placement (Spatial.envelope a)
      · rw [if_pos hi, List.filter_cons_of_pos (places_iff.mpr hi)]
        rfl
      · rw [if_neg hi, List.filter_cons_of_neg (fun hp => hi (places_iff.mp hp))]
        rfl

/-! ## All objects -/

/-- Placing several objects appends to each partition those that are placed into its cell. -/
theorem foldlM_placeObject {parts parts' : List (List α)}
    (h : as.foldlM t.placeObject parts = .ok parts') :
    parts'.length = parts.length ∧
    (∀ i, parts'[i]? = parts[i]?.map (· ++ as.filter (t.places i))) ∧
    ∀ a ∈ as, (Spatial.envelope a).isProper = true →
      t.extent.covers (Spatial.envelope a) = true := by
  induction as generalizing parts with
  | nil =>
    obtain rfl := Except.ok.inj h
    refine ⟨rfl, ?_, fun a ha => absurd ha List.not_mem_nil⟩
    intro i
    simp
  | cons a as ih =>
    rw [List.foldlM_cons] at h
    cases hp : t.placeObject parts a with
    | error f =>
      rw [hp] at h
      cases h
    | ok next =>
      rw [hp] at h
      obtain ⟨hlen, hget, hcov⟩ := placeObject_ok hp
      obtain ⟨hlen', hget', hcov'⟩ := ih h
      refine ⟨hlen'.trans hlen, ?_, ?_⟩
      · intro i
        rw [hget', hget, Option.map_map]
        congr 1
        funext bs
        rw [Function.comp_apply, List.append_assoc, ← List.filter_append, List.singleton_append]
      · intro b hb
        rcases List.mem_cons.mp hb with rfl | hb
        · exact hcov
        · exact hcov' b hb

/-- Objects can be partitioned if the box around all cells covers those with a proper envelope. -/
theorem exists_partition (h : ∀ a ∈ as, (Spatial.envelope a).isProper = true →
    t.extent.covers (Spatial.envelope a) = true) : ∃ c, t.partition as = .ok c := by
  suffices H : ∀ parts, ∃ parts', as.foldlM t.placeObject parts = .ok parts' by
    obtain ⟨parts, hparts⟩ := H (List.replicate t.size [])
    exact ⟨_, by rw [partition, hparts]; rfl⟩
  induction as with
  | nil => exact fun parts => ⟨parts, rfl⟩
  | cons a as ih =>
    obtain ⟨ha, has⟩ := List.forall_mem_cons.mp h
    intro parts
    obtain ⟨next, hnext⟩ : ∃ next, t.placeObject parts a = .ok next := by
      unfold placeObject
      dsimp only
      split
      · exact ⟨_, rfl⟩
      · next hp => exact ⟨_, by rw [if_neg (by simp [ha (by simpa using hp)])]⟩
    rw [List.foldlM_cons, hnext]
    exact ih has next

/-- Each partition holds the objects that are placed into its cell, in the order in which they
came. -/
theorem partition_spec {c : Collection α} (h : t.partition as = .ok c) :
    c.tiling = some t ∧ c.indexes = none ∧ c.count = t.size ∧
    (∀ i, c.partition i = as.filter (t.places i)) ∧
    ∀ a ∈ as, (Spatial.envelope a).isProper = true →
      t.extent.covers (Spatial.envelope a) = true := by
  unfold partition at h
  cases hf : as.foldlM t.placeObject (List.replicate t.size []) with
  | error f =>
    rw [hf] at h
    cases h
  | ok parts =>
    rw [hf] at h
    obtain rfl := Except.ok.inj h
    obtain ⟨hlen, hget, hcov⟩ := foldlM_placeObject hf
    refine ⟨rfl, rfl, by simpa [Collection.count] using hlen, ?_, hcov⟩
    intro i
    rw [Collection.partition, List.getD_eq_getElem?_getD, hget, List.getElem?_replicate]
    split
    · simp
    · next hi =>
      symm
      rw [Option.map_none, Option.getD_none, List.filter_eq_nil_iff]
      intro a _ hp
      obtain ⟨-, c, hc, -⟩ := mem_placement.mp (places_iff.mp hp)
      exact hi (List.getElem?_eq_some_iff.mp hc).1

end Tiling

namespace Collection

/-! ## Indexes -/

variable [Spatial α] {s : IndexSettings} {c c' : Collection α}

theorem buildIndex_spec (h : c.buildIndex s = .ok c') :
    c' = { c with indexes := some (c.partitions.map (Index.ofList s)) } ∧
      (c.partitions ≠ [] → s.validate = .ok ()) := by
  obtain ⟨hb, rfl⟩ := buildIndex_eq_ok.mp h
  exact build_of_ok hb

theorem buildIndex_ok (hs : s.validate = .ok ()) (c : Collection α) :
    c.buildIndex s = .ok { c with indexes := some (c.partitions.map (Index.ofList s)) } :=
  buildIndex_eq_ok.mpr ⟨build_ok hs c, (build_of_ok (build_ok hs c)).1⟩

/-- Building indexes gives each partition an index of what it holds. -/
theorem index?_buildIndex (h : c.buildIndex s = .ok c') {i : Nat} (hi : i < c.count) :
    c'.index? i = some (Index.ofList s (c.partition i)) := by
  obtain ⟨rfl, -⟩ := buildIndex_spec h
  have hpart : c.partitions[i]? = some (c.partition i) := by
    rw [partition, List.getD_eq_getElem?_getD, List.getElem?_eq_getElem hi, Option.getD_some]
  rw [index?, Option.bind_some, List.getElem?_map, hpart, Option.map_some]

end Collection

/-- A collection as it was, or with an index of each partition that has no tiers. -/
inductive Collection.Prebuilt [Spatial α] (c : Collection α) : Collection α → Prop
  | bare : Prebuilt c c
  | indexed {s : IndexSettings} {c' : Collection α} (hs : s.sizeTiered = false)
    (h : c.buildIndex s = .ok c') : Prebuilt c c'

/-- A collection as it was, or with an index of each partition under any settings. -/
inductive Collection.Indexed [Spatial α] (c : Collection α) : Collection α → Prop
  | bare : Indexed c c
  | built {s : IndexSettings} {c' : Collection α} (h : c.buildIndex s = .ok c') : Indexed c c'

namespace Collection.Indexed

variable [Spatial α] {t : Tiling} {as : List α} {c₀ c : Collection α}

theorem same (h : Indexed c₀ c) : c.partitions = c₀.partitions ∧ c.tiling = c₀.tiling := by
  cases h with
  | bare => exact ⟨rfl, rfl⟩
  | built h =>
    obtain ⟨rfl, -⟩ := buildIndex_spec h
    exact ⟨rfl, rfl⟩

theorem partition_eq (h : Indexed c₀ c) (h₀ : t.partition as = .ok c₀) (i : Nat) :
    c.partition i = as.filter (t.places i) := by
  obtain ⟨-, -, -, hpart, -⟩ := Tiling.partition_spec h₀
  rw [← hpart, partition, partition, h.same.1]

theorem count_eq (h : Indexed c₀ c) (h₀ : t.partition as = .ok c₀) : c.count = t.size := by
  obtain ⟨-, -, hcount, -⟩ := Tiling.partition_spec h₀
  rw [← hcount, count, count, h.same.1]

theorem ownership (h : Indexed c₀ c) (h₀ : t.partition as = .ok c₀) (ht : t.Made) {i : Nat}
    (hi : i < t.size) : c.ownership i = .ok (t.owner? i) := by
  rw [Collection.ownership, h.same.2, (Tiling.partition_spec h₀).1]
  exact ht.ownership_eq hi

/-- If a partition has an index, it is one of what the partition holds. -/
theorem index? (h : Indexed c₀ c) (h₀ : t.partition as = .ok c₀) {i : Nat} (hi : i < t.size)
    {x : Index α} (hx : c.index? i = some x) :
    ∃ s : IndexSettings, x = .ofList s (as.filter (t.places i)) := by
  obtain ⟨-, hnone, hcount, hpart, -⟩ := Tiling.partition_spec h₀
  cases h with
  | bare =>
    rw [Collection.index?, hnone] at hx
    cases hx
  | built h =>
    rw [index?_buildIndex h (hcount ▸ hi), hpart] at hx
    exact ⟨_, (Option.some.inj hx).symm⟩

end Collection.Indexed

namespace Collection.Prebuilt

variable [Spatial α] {t : Tiling} {as : List α} {c₀ c : Collection α}

theorem toIndexed (h : Prebuilt c₀ c) : c₀.Indexed c := by
  cases h with
  | bare => exact .bare
  | indexed _ h => exact .built h

theorem same (h : Prebuilt c₀ c) : c.partitions = c₀.partitions ∧ c.tiling = c₀.tiling :=
  h.toIndexed.same

theorem partition_eq (h : Prebuilt c₀ c) (h₀ : t.partition as = .ok c₀) (i : Nat) :
    c.partition i = as.filter (t.places i) :=
  h.toIndexed.partition_eq h₀ i

theorem count_eq (h : Prebuilt c₀ c) (h₀ : t.partition as = .ok c₀) : c.count = t.size :=
  h.toIndexed.count_eq h₀

theorem ownership (h : Prebuilt c₀ c) (h₀ : t.partition as = .ok c₀) (ht : t.Made)
    (hexact : t.exact = true) {i : Nat} (hi : i < t.size) :
    c.ownership i = .ok (some (t.ownershipOf i)) := by
  rw [h.toIndexed.ownership h₀ ht hi, Tiling.owner?, if_pos hexact]

/-- An indexed collection has an index of each partition, under valid settings. -/
theorem index (h : Prebuilt c₀ c) (h₀ : t.partition as = .ok c₀) (hc : c.hasIndex = true) {i : Nat}
    (hi : i < t.size) : ∃ s : IndexSettings, s.validate = .ok () ∧ s.sizeTiered = false ∧
      c.index? i = some (.ofList s (as.filter (t.places i))) := by
  obtain ⟨-, hnone, hcount, hpart, -⟩ := Tiling.partition_spec h₀
  cases h with
  | bare =>
    rw [hasIndex, hnone] at hc
    cases hc
  | indexed hs h =>
    have hi₀ : i < c₀.count := hcount ▸ hi
    refine ⟨_, (buildIndex_spec h).2 (List.ne_nil_of_length_pos (Nat.zero_lt_of_lt hi₀)), hs, ?_⟩
    rw [index?_buildIndex h hi₀, hpart]

end Collection.Prebuilt

end PlanarJoin
