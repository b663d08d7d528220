import PlanarJoin.Proofs.Tiling.Partition

/-!
# Partitioning fails at the first object that reaches outside

An object with a proper envelope that the box around all cells does not cover cannot be placed.
Partitioning goes through the objects in order, so the failure names the first such object; without
one there is a collection, in which each partition holds what meets its cell.

## Main definitions

* `Tiling.strays`: whether an object reaches outside the tiling.
* `Tiling.settles`: whether an object belongs into a cell.

## Main results

* `Tiling.placeObject_of_strays`, `Tiling.exists_placeObject`: one object fails, or is placed.
* `Tiling.foldlM_placeObject_eq_error`: many objects fail at the first that strays.
* `Tiling.partition_eq_filter`: what a partition holds, by the cell.
* `Tiling.partition_contents`: when partitioning fails, and what the partitions hold if it does not.
-/

namespace PlanarJoin

open Envelope

namespace Tiling

variable {α : Type} [Spatial α] {t : Tiling} {as : List α} {a : α}

/-- Whether an object reaches outside the tiling.  An object without a proper envelope does not. -/
def strays (t : Tiling) (a : α) : Bool :=
  (Spatial.envelope a).isProper && !t.extent.covers (Spatial.envelope a)

/-- Whether an object belongs into a cell. -/
def settles (cell : Envelope) (a : α) : Bool :=
  (Spatial.envelope a).isProper && cell.meets (Spatial.envelope a)

/-! ## When it fails -/

theorem placeObject_of_strays (h : t.strays a = true) (parts : List (List α)) :
    t.placeObject parts a = .error (.outsideGrid (Spatial.envelope a) t.extent) := by
  obtain ⟨hp, hc⟩ := Bool.and_eq_true_iff.mp h
  simp only [placeObject, hp, hc, Bool.not_true, Bool.false_eq_true, if_false, if_true]

/-- An object that does not stray can be placed, or is left out. -/
theorem exists_placeObject (h : t.strays a = false) (parts : List (List α)) :
    ∃ parts', t.placeObject parts a = .ok parts' := by
  unfold placeObject
  dsimp only
  split
  · exact ⟨_, rfl⟩
  · next hp =>
    rw [Bool.not_eq_true, Bool.not_eq_false'] at hp
    rw [strays, hp, Bool.true_and] at h
    exact ⟨_, by rw [if_neg (by rw [h]; nofun)]⟩

/-- Objects fail at the first that strays. -/
theorem foldlM_placeObject_eq_error (parts : List (List α)) {f : Failure} :
    as.foldlM t.placeObject parts = .error f ↔
      ∃ a, as.find? t.strays = some a ∧ f = .outsideGrid (Spatial.envelope a) t.extent := by
  induction as generalizing parts with
  | nil => exact iff_of_false nofun fun ⟨_, h, _⟩ => nomatch h
  | cons a as ih =>
    rw [List.foldlM_cons]
    cases ha : t.strays a with
    | true =>
      rw [placeObject_of_strays ha, List.find?_cons_of_pos ha]
      constructor
      · intro h
        exact ⟨a, rfl, (Except.error.inj h).symm⟩
      · rintro ⟨b, hb, rfl⟩
        obtain rfl := Option.some.inj hb
        rfl
    | false =>
      obtain ⟨parts', hnext⟩ := exists_placeObject ha parts
      rw [hnext, List.find?_cons_of_neg (by rw [ha]; nofun)]
      exact ih parts'

theorem partition_eq_error {f : Failure} : t.partition as = .error f ↔
    ∃ a, as.find? t.strays = some a ∧ f = .outsideGrid (Spatial.envelope a) t.extent := by
  rw [← foldlM_placeObject_eq_error (List.replicate t.size [])]
  unfold partition
  cases as.foldlM t.placeObject (List.replicate t.size []) with
  | error g => simp only [Except.map, Except.error.injEq]
  | ok parts => exact iff_of_false nofun nofun

/-! ## What partitions hold -/

theorem places_eq_settles {i : Nat} {cell : Envelope} (hi : t.cells[i]? = some cell) :
    t.places i a = settles cell a := by
  rw [Bool.eq_iff_iff, places_iff, mem_placement, settles, Bool.and_eq_true]
  refine and_congr_right fun _ => ?_
  constructor
  · rintro ⟨c, hc, hm⟩
    obtain rfl := Option.some.inj (hi.symm.trans hc)
    exact hm
  · exact fun hm => ⟨cell, hi, hm⟩

/-- A partition holds the objects that belong into its cell, in order. -/
theorem partition_eq_filter {c : Collection α} (h : t.partition as = .ok c) {i : Nat}
    {cell : Envelope} (hi : t.cells[i]? = some cell) :
    c.partition i = as.filter (settles cell) := by
  obtain ⟨-, -, -, hpart, -⟩ := partition_spec h
  rw [hpart]
  exact List.filter_congr fun a _ => places_eq_settles hi

theorem settles_of_hasPoint {cell : Envelope} {x y : Float}
    (ha : (Spatial.envelope a).isProper = true) (hc : cell.hasPoint x y = true)
    (hp : (Spatial.envelope a).hasPoint x y = true) : settles cell a = true :=
  Bool.and_eq_true_iff.mpr ⟨ha, meets_of_hasPoint hc hp⟩

/-- Partitioning fails exactly if an object reaches outside the tiling, and the failure names the
first one.  Otherwise there is a partition for each cell.  It holds, in the order in which they came
and once each, the objects with a proper envelope that meets the cell; so any two whose envelopes
share a point with the cell are both in it. -/
theorem partition_contents (t : Tiling) (as : List α) :
    (∀ f, t.partition as = .error f ↔
      ∃ a, as.find? t.strays = some a ∧ f = .outsideGrid (Spatial.envelope a) t.extent) ∧
    (∀ f, t.partition as = .error f → f.kind = .input) ∧
    ∀ c, t.partition as = .ok c → c.count = t.cells.length ∧
      ∀ i cell, t.cells[i]? = some cell → c.partition i = as.filter (settles cell) ∧
        ∀ a ∈ as, ∀ b ∈ as, (Spatial.envelope a).isProper = true →
          (Spatial.envelope b).isProper = true → ∀ x y, cell.hasPoint x y = true →
          (Spatial.envelope a).hasPoint x y = true → (Spatial.envelope b).hasPoint x y = true →
          a ∈ c.partition i ∧ b ∈ c.partition i := by
  refine ⟨fun f => partition_eq_error, fun f h => ?_,
    fun c h => ⟨(partition_spec h).2.2.1, fun i cell hi => ?_⟩⟩
  · obtain ⟨a, -, rfl⟩ := partition_eq_error.mp h
    rfl
  have hpart := partition_eq_filter h hi
  refine ⟨hpart, fun a ha b hb hpa hpb x y hc hxa hxb => ?_⟩
  rw [hpart]
  exact ⟨List.mem_filter.mpr ⟨ha, settles_of_hasPoint hpa hc hxa⟩,
    List.mem_filter.mpr ⟨hb, settles_of_hasPoint hpb hc hxb⟩⟩

end Tiling

end PlanarJoin
