import Mathlib.Data.Int.LeastGreatest
import PlanarJoin.Proofs.Envelope.Order
import PlanarJoin.Tiling.Basic

/-!
# Owners of points

Every cell of a tiling owns the points of a half-open box.  A point with an owner lies in the box
around all cells, and everything that holds the point is placed into the cell of its owner.  Whether
every point of the box has exactly one owner can be told from the points where the edges of cells
cross.

## Main definitions

* `Tiling.Made`: a tiling of proper cells with the box around them.
* `Tiling.Owns`: a partition owns a point.
* `Tiling.OwnedOnce`: every point of the box has one owner, and no point has two.
* `Tiling.owners`: the partitions that own a point by the rule of the tiling.

## Main results

* `Tiling.mem_placement_of_owns`: what holds a point is placed into the cell of its owner.
* `Tiling.existsUnique_owner_iff`: one owner everywhere is one owner at the crossings.
-/

namespace PlanarJoin

open Binary64 Envelope

/-! ## Spans -/

/-- A rank lies in a span that contains its upper end only if that is the end of everything. -/
def InSpan (low high last v : Int) : Prop :=
  low ≤ v ∧ (v < high ∨ v = high ∧ high = last)

theorem inSpan_iff {low high last v : Float} (hl : low.isNaN = false) (hh : high.isNaN = false)
    (he : last.isNaN = false) : Ownership.inSpan low high last v = true ↔
      v.isNaN = false ∧ InSpan (rank low) (rank high) (rank last) (rank v) := by
  simp only [Ownership.inSpan, Bool.and_eq_true, Bool.or_eq_true, decide_eq_true_eq, lt_iff, le_iff,
    beq_iff, hl, hh, he, true_and, InSpan]
  constructor
  · rintro ⟨⟨hv, h₁⟩, ⟨-, h₂⟩ | ⟨⟨-, h₂⟩, h₃⟩⟩
    · exact ⟨hv, h₁, .inl h₂⟩
    · exact ⟨hv, h₁, .inr ⟨h₂, h₃⟩⟩
  · rintro ⟨hv, h₁, h₂ | ⟨h₂, h₃⟩⟩
    · exact ⟨⟨hv, h₁⟩, .inl ⟨hv, h₂⟩⟩
    · exact ⟨⟨hv, h₁⟩, .inr ⟨⟨hv, h₂⟩, h₃⟩⟩

theorem InSpan.le {low high last v : Int} (h : InSpan low high last v) : low ≤ v ∧ v ≤ high := by
  obtain ⟨hl, hh | ⟨hh, -⟩⟩ := h <;> omega

/-- A pair is owned where the lower left corner of what it shares is. -/
theorem Ownership.ownsPair_of_overlap {o : Ownership} {a b e : Envelope}
    (h : a.overlap? b = some e) :
    o.ownsPair a b = o.ownsPoint e.minX e.minY := by
  rw [ownsPair, h]

namespace Tiling

/-- A tiling of proper cells with the box around them. -/
structure Made (t : Tiling) : Prop where
  nonempty : t.cells ≠ []
  proper : ∀ c ∈ t.cells, c.isProper = true
  extent_eq : t.extent = hullAll t.cells
  exact_eq : t.exact = tiles t.cells t.extent

variable {t : Tiling} {cells : List Envelope} {a b : Envelope} {x y : Float} {i j : Nat}

theorem find?_eq_none (h : ∀ c ∈ cells, c.isProper = true) :
    cells.find? (!·.isProper) = none := by
  rw [List.find?_eq_none]
  intro c hc
  simp [h c hc]

theorem make_of_proper (hne : cells ≠ []) (h : ∀ c ∈ cells, c.isProper = true) :
    make cells = .ok ⟨cells, hullAll cells, tiles cells (hullAll cells)⟩ := by
  rw [make, if_neg (by simpa using hne), find?_eq_none h]

/-- Making a tiling takes the cells as they are, if they are proper. -/
theorem made_of_make (h : make cells = .ok t) : t.Made ∧ t.cells = cells := by
  unfold make at h
  split at h
  · cases h
  · next hne =>
    split at h
    · cases h
    · next hfind =>
      obtain rfl := Except.ok.inj h
      rw [List.find?_eq_none] at hfind
      exact ⟨⟨by simpa using hne, by simpa using hfind, rfl, rfl⟩, rfl⟩

theorem Made.isHull (ht : t.Made) : IsHull t.extent t.cells := by
  rw [ht.extent_eq]
  exact isHull_hullAll ht.nonempty fun c hc => ordered_of_isProper (ht.proper c hc)

/-! ## Owners -/

/-- A partition owns a point. -/
def Owns (t : Tiling) (i : Nat) (x y : Float) : Prop :=
  ∃ o, Ownership.make t.cells i = .ok o ∧ o.ownsPoint x y = true

theorem Made.ownership (ht : t.Made) {c : Envelope} (hc : t.cells[i]? = some c) :
    Ownership.make t.cells i = .ok ⟨t.cells, i, c, t.extent⟩ := by
  rw [Ownership.make, hc, find?_eq_none ht.proper, ht.extent_eq]

/-- The ownership of a partition that has a cell. -/
def ownershipOf (t : Tiling) (i : Nat) : Ownership :=
  ⟨t.cells, i, t.cells.getD i t.extent, t.extent⟩

theorem Made.make_eq (ht : t.Made) (hi : i < t.size) :
    Ownership.make t.cells i = .ok (t.ownershipOf i) := by
  have hc : t.cells[i]? = some (t.cells.getD i t.extent) := by
    rw [List.getD_eq_getElem?_getD, List.getElem?_eq_getElem hi, Option.getD_some]
  exact ht.ownership hc

/-- The ownership of a partition; there is none where the tiling is not exact. -/
def owner? (t : Tiling) (i : Nat) : Option Ownership :=
  if t.exact then some (t.ownershipOf i) else none

theorem Made.ownership_eq (ht : t.Made) (hi : i < t.size) : t.ownership i = .ok (t.owner? i) := by
  rw [Tiling.ownership, owner?, ht.make_eq hi]
  split <;> rfl

theorem Made.exists_cell (ht : t.Made) {o : Ownership} (h : Ownership.make t.cells i = .ok o) :
    ∃ c, t.cells[i]? = some c ∧ o = ⟨t.cells, i, c, t.extent⟩ := by
  cases hc : t.cells[i]? with
  | none =>
    rw [Ownership.make, hc] at h
    cases h
  | some c =>
    rw [ht.ownership hc] at h
    exact ⟨c, rfl, (Except.ok.inj h).symm⟩

/-- A partition owns a point if the point lies in the half-open box of its cell. -/
theorem Made.owns_iff (ht : t.Made) : t.Owns i x y ↔ ∃ c, t.cells[i]? = some c ∧
    (x.isNaN = false ∧ InSpan (rank c.minX) (rank c.maxX) (rank t.extent.maxX) (rank x)) ∧
      y.isNaN = false ∧ InSpan (rank c.minY) (rank c.maxY) (rank t.extent.maxY) (rank y) := by
  have he := ht.isHull.ordered
  have hspan {c : Envelope} (hc : t.cells[i]? = some c) :
      (⟨t.cells, i, c, t.extent⟩ : Ownership).ownsPoint x y = true ↔
      (x.isNaN = false ∧ InSpan (rank c.minX) (rank c.maxX) (rank t.extent.maxX) (rank x)) ∧
        y.isNaN = false ∧ InSpan (rank c.minY) (rank c.maxY) (rank t.extent.maxY) (rank y) := by
    have ho := ordered_of_isProper (ht.proper c (List.mem_of_getElem? hc))
    rw [Ownership.ownsPoint, Bool.and_eq_true, inSpan_iff ho.minX_num ho.maxX_num he.maxX_num,
      inSpan_iff ho.minY_num ho.maxY_num he.maxY_num]
  constructor
  · rintro ⟨o, ho, hp⟩
    obtain ⟨c, hc, rfl⟩ := ht.exists_cell ho
    exact ⟨c, hc, (hspan hc).mp hp⟩
  · rintro ⟨c, hc, hp⟩
    exact ⟨_, ht.ownership hc, (hspan hc).mpr hp⟩

theorem Made.hasPoint_of_owns (ht : t.Made) (h : t.Owns i x y) :
    ∃ c, t.cells[i]? = some c ∧ c.hasPoint x y = true := by
  obtain ⟨c, hc, ⟨hx, hsx⟩, hy, hsy⟩ := ht.owns_iff.mp h
  have ho := ordered_of_isProper (ht.proper c (List.mem_of_getElem? hc))
  exact ⟨c, hc, hasPoint_iff.mpr ⟨ho, ⟨hx, hy⟩, hsx.le, hsy.le⟩⟩

theorem Made.extent_hasPoint_of_owns (ht : t.Made) (h : t.Owns i x y) :
    t.extent.hasPoint x y = true := by
  obtain ⟨c, hc, hp⟩ := ht.hasPoint_of_owns h
  exact hasPoint_of_covers (ht.isHull.covers c (List.mem_of_getElem? hc)) hp

/-- A proper envelope is placed into the cells that it meets. -/
theorem mem_placement : i ∈ t.placement a ↔
    a.isProper = true ∧ ∃ c, t.cells[i]? = some c ∧ c.meets a = true := by
  unfold placement
  split
  · next ha =>
    simp only [List.mem_map, List.mem_filter, List.mem_zipIdx_iff_getElem?, ha, true_and]
    constructor
    · rintro ⟨⟨c, k⟩, ⟨hc, hm⟩, rfl⟩
      exact ⟨c, hc, hm⟩
    · rintro ⟨c, hc, hm⟩
      exact ⟨(c, i), ⟨hc, hm⟩, rfl⟩
  · next ha => simp [ha]

theorem Made.mem_placement_of_owns (ht : t.Made) (h : t.Owns i x y) (ha : a.isProper = true)
    (hp : a.hasPoint x y = true) : i ∈ t.placement a := by
  obtain ⟨c, hc, hcp⟩ := ht.hasPoint_of_owns h
  exact mem_placement.mpr ⟨ha, c, hc, meets_of_hasPoint hcp hp⟩

/-- Every point of the box has one owner, and no point has two. -/
structure OwnedOnce (t : Tiling) : Prop where
  total : ∀ x y, t.extent.hasPoint x y = true → ∃ i, t.Owns i x y
  unique : ∀ i j x y, t.Owns i x y → t.Owns j x y → i = j

/-- Every point of the box has its owner among the partitions. -/
theorem OwnedOnce.exists_owner (ho : t.OwnedOnce) (ht : t.Made)
    (hp : t.extent.hasPoint x y = true) :
    ∃ i < t.size, t.Owns i x y ∧
      ∀ j < t.size, (t.ownershipOf j).ownsPoint x y = true ↔ j = i := by
  obtain ⟨i, hi⟩ := ho.total x y hp
  obtain ⟨c, hc, -⟩ := ht.hasPoint_of_owns hi
  have hsize : i < t.size := (List.getElem?_eq_some_iff.mp hc).1
  refine ⟨i, hsize, hi, fun j hj => ⟨fun hown => ?_, ?_⟩⟩
  · exact ho.unique j i x y ⟨_, ht.make_eq hj, hown⟩ hi
  · rintro rfl
    obtain ⟨o, hmake, hown⟩ := hi
    obtain rfl : t.ownershipOf j = o := Except.ok.inj ((ht.make_eq hj).symm.trans hmake)
    exact hown

/-! ## Crossings -/

section Edges

variable {lo hi : Envelope → Float} {last v : Float}

/-- The bounds of some cells on one axis. -/
def edges (lo hi : Envelope → Float) (cells : List Envelope) : List Float :=
  cells.flatMap fun c => [lo c, hi c]

theorem lo_mem_edges {c : Envelope} (hc : c ∈ cells) : lo c ∈ edges lo hi cells :=
  List.mem_flatMap.mpr ⟨c, hc, by simp⟩

theorem hi_mem_edges {c : Envelope} (hc : c ∈ cells) : hi c ∈ edges lo hi cells :=
  List.mem_flatMap.mpr ⟨c, hc, by simp⟩

/-- The last edge that is not behind a number lies in the same spans as the number. -/
theorem exists_edge (lo hi : Envelope → Float) (cells : List Envelope)
    (hv : ∃ c ∈ cells, rank (lo c) ≤ rank v) (hlast : rank v ≤ rank last) :
    ∃ w ∈ edges lo hi cells, rank w ≤ rank v ∧ ∀ c ∈ cells,
      (InSpan (rank (lo c)) (rank (hi c)) (rank last) (rank v) ↔
        InSpan (rank (lo c)) (rank (hi c)) (rank last) (rank w)) := by
  obtain ⟨c₀, hc₀, hle₀⟩ := hv
  obtain ⟨k, ⟨w, hw, rfl, hwv⟩, hmax⟩ := Int.exists_greatest_of_bdd
    (P := fun k => ∃ w ∈ edges lo hi cells, rank w = k ∧ rank w ≤ rank v)
    ⟨rank v, by rintro z ⟨w, -, rfl, h⟩; exact h⟩ ⟨_, lo c₀, lo_mem_edges hc₀, rfl, hle₀⟩
  refine ⟨w, hw, hwv, ?_⟩
  intro c hc
  have hlo : rank (lo c) ≤ rank v ↔ rank (lo c) ≤ rank w :=
    ⟨fun h => hmax _ ⟨_, lo_mem_edges hc, rfl, h⟩, fun h => by omega⟩
  have hhi : rank (hi c) ≤ rank v ↔ rank (hi c) ≤ rank w :=
    ⟨fun h => hmax _ ⟨_, hi_mem_edges hc, rfl, h⟩, fun h => by omega⟩
  unfold InSpan
  omega

end Edges

/-- The partitions that own a point by the rule of the tiling, in ascending order. -/
def owners (t : Tiling) (x y : Float) : List Nat :=
  (List.range t.size).filter fun i =>
    match t.ownership i with
    | .ok (some o) => o.ownsPoint x y
    | _ => false

theorem nodup_owners (t : Tiling) (x y : Float) : (t.owners x y).Nodup :=
  List.nodup_range.filter _

/-- The rule of a tiling gives owners only where the cells are taken for exact. -/
theorem Made.mem_owners (ht : t.Made) : i ∈ t.owners x y ↔ t.exact = true ∧ t.Owns i x y := by
  rw [owners, List.mem_filter, List.mem_range, Tiling.ownership]
  cases hexact : t.exact with
  | false => simp
  | true =>
    simp only [if_true, true_and]
    constructor
    · rintro ⟨hi, h⟩
      rw [ht.ownership (List.getElem?_eq_getElem hi)] at h
      exact ⟨_, ht.ownership (List.getElem?_eq_getElem hi), h⟩
    · rintro ⟨o, ho, hp⟩
      obtain ⟨c, hc, rfl⟩ := ht.exists_cell ho
      refine ⟨(List.getElem?_eq_some_iff.mp hc).1, ?_⟩
      rw [ho]
      exact hp

theorem Made.mem_owners_iff (ht : t.Made) : i ∈ t.owners x y ↔
    ∃ o, t.ownership i = .ok (some o) ∧ o.ownsPoint x y = true := by
  rw [ht.mem_owners, Tiling.ownership, Owns]
  cases t.exact with
  | false => simp
  | true =>
    simp only [if_true, true_and]
    cases Ownership.make t.cells i with
    | error f => simp [Except.map]
    | ok o => simp [Except.map]

theorem length_eq_one_iff_existsUnique {l : List Nat} (h : l.Nodup) :
    l.length = 1 ↔ ∃! i, i ∈ l := by
  rw [List.length_eq_one_iff]
  constructor
  · rintro ⟨i, rfl⟩
    exact ⟨i, List.mem_singleton_self i, fun j hj => List.mem_singleton.mp hj⟩
  · rintro ⟨i, hi, hu⟩
    refine ⟨i, List.perm_singleton.mp ((List.perm_ext_iff_of_nodup h (by simp)).mpr ?_)⟩
    intro j
    rw [List.mem_singleton]
    exact ⟨hu j, fun hj => hj ▸ hi⟩

theorem isNaN_of_mem_edges {lo hi : Envelope → Float} {w : Float}
    (hcells : ∀ c ∈ cells, (lo c).isNaN = false ∧ (hi c).isNaN = false)
    (hw : w ∈ edges lo hi cells) : w.isNaN = false := by
  obtain ⟨c, hc, hcw⟩ := List.mem_flatMap.mp hw
  simp only [List.mem_cons, List.not_mem_nil, or_false] at hcw
  rcases hcw with rfl | rfl
  · exact (hcells c hc).1
  · exact (hcells c hc).2

theorem Made.isNaN_of_mem_edgesX (ht : t.Made) (h : x ∈ edges minX maxX t.cells) :
    x.isNaN = false :=
  isNaN_of_mem_edges (fun c hc =>
    have ho := ordered_of_isProper (ht.proper c hc)
    ⟨ho.minX_num, ho.maxX_num⟩) h

theorem Made.isNaN_of_mem_edgesY (ht : t.Made) (h : y ∈ edges minY maxY t.cells) :
    y.isNaN = false :=
  isNaN_of_mem_edges (fun c hc =>
    have ho := ordered_of_isProper (ht.proper c hc)
    ⟨ho.minY_num, ho.maxY_num⟩) h

/-- Edges of cells cross inside the box around all cells. -/
theorem Made.extent_hasPoint_crossing (ht : t.Made) (hx : x ∈ edges minX maxX t.cells)
    (hy : y ∈ edges minY maxY t.cells) : t.extent.hasPoint x y = true := by
  refine hasPoint_iff.mpr ⟨ht.isHull.ordered,
    ⟨ht.isNaN_of_mem_edgesX hx, ht.isNaN_of_mem_edgesY hy⟩, ?_, ?_⟩
  · obtain ⟨c, hc, hcx⟩ := List.mem_flatMap.mp hx
    obtain ⟨-, ho, ⟨h₁, h₂⟩, -⟩ := covers_iff.mp (ht.isHull.covers c hc)
    have := ho.le_x
    simp only [List.mem_cons, List.not_mem_nil, or_false] at hcx
    rcases hcx with rfl | rfl <;> omega
  · obtain ⟨c, hc, hcy⟩ := List.mem_flatMap.mp hy
    obtain ⟨-, ho, -, h₁, h₂⟩ := covers_iff.mp (ht.isHull.covers c hc)
    have := ho.le_y
    simp only [List.mem_cons, List.not_mem_nil, or_false] at hcy
    rcases hcy with rfl | rfl <;> omega

/-- The last edges that are not behind a point cross in a point with the same owners. -/
theorem Made.exists_crossing (ht : t.Made) (h : t.extent.hasPoint x y = true) :
    ∃ u ∈ edges minX maxX t.cells, ∃ v ∈ edges minY maxY t.cells,
      ∀ i, t.Owns i x y ↔ t.Owns i u v := by
  obtain ⟨-, ⟨hx, hy⟩, ⟨hx₁, hx₂⟩, hy₁, hy₂⟩ := hasPoint_iff.mp h
  -- the least bound of all cells is not behind the point, so there is a last such edge
  obtain ⟨a, ha, hax⟩ := ht.isHull.minX_attained
  obtain ⟨b, hb, hby⟩ := ht.isHull.minY_attained
  obtain ⟨u, hu, -, hxu⟩ := exists_edge minX maxX t.cells
    ⟨a, ha, by omega⟩ hx₂
  obtain ⟨v, hv, -, hyv⟩ := exists_edge minY maxY t.cells
    ⟨b, hb, by omega⟩ hy₂
  refine ⟨u, hu, v, hv, ?_⟩
  intro i
  rw [ht.owns_iff, ht.owns_iff]
  refine exists_congr fun c => and_congr_right fun hc => ?_
  have hc := List.mem_of_getElem? hc
  rw [hxu c hc, hyv c hc]
  simp only [hx, hy, ht.isNaN_of_mem_edgesX hu, ht.isNaN_of_mem_edgesY hv, true_and]

/-- Whether the rule of a tiling gives one owner to every crossing of edges. -/
def crossingsOwnedOnce (t : Tiling) : Bool :=
  (edges minX maxX t.cells).all fun x => (edges minY maxY t.cells).all fun y =>
    (t.owners x y).length == 1

/-- The rule of a tiling gives one owner to every point of the box just if it gives one to every
crossing of edges.  That the areas of the cells add up is not enough. -/
theorem existsUnique_owner_iff (h : make cells = .ok t) :
    (∀ x y, t.extent.hasPoint x y = true →
      ∃! i, ∃ o, t.ownership i = .ok (some o) ∧ o.ownsPoint x y = true) ↔
    t.crossingsOwnedOnce = true := by
  have ht := (made_of_make h).1
  simp only [← ht.mem_owners_iff, ← length_eq_one_iff_existsUnique (t.nodup_owners _ _),
    crossingsOwnedOnce, List.all_eq_true, beq_iff_eq]
  constructor
  · intro hall x hx y hy
    exact hall x y (ht.extent_hasPoint_crossing hx hy)
  · -- every other point has the owners of the crossing before it
    intro hall x y hp
    obtain ⟨u, hu, v, hv, howns⟩ := ht.exists_crossing hp
    have hsame : (t.owners x y).Perm (t.owners u v) := by
      refine (List.perm_ext_iff_of_nodup (t.nodup_owners x y) (t.nodup_owners u v)).mpr ?_
      intro i
      rw [ht.mem_owners, ht.mem_owners, howns i]
    rw [hsame.length_eq]
    exact hall u hu v hv

/-- Two small cells with a gap between them. -/
def gapCells : List Envelope :=
  [⟨0.0, 1e-6, 0.0, 1e-6⟩, ⟨2e-6, 3e-6, 0.0, 1e-6⟩]

/-- The tolerance lets pass what is missing between cells this small. -/
theorem gap_not_owned : make gapCells = .ok ⟨gapCells, hullAll gapCells, true⟩ ∧
    ¬ ∀ x y, (hullAll gapCells).hasPoint x y = true →
      ∃! i, ∃ o, (⟨gapCells, hullAll gapCells, true⟩ : Tiling).ownership i = .ok (some o) ∧
        o.ownsPoint x y = true := by
  have hmake : make gapCells = .ok ⟨gapCells, hullAll gapCells, true⟩ := by
    rw [make_of_proper (by decide) (by decide +kernel)]
    have : tiles gapCells (hullAll gapCells) = true := by decide +kernel
    rw [this]
  exact ⟨hmake, fun hall => absurd ((existsUnique_owner_iff hmake).mp hall) (by decide +kernel)⟩

end Tiling

end PlanarJoin
