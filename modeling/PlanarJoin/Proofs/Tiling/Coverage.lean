import PlanarJoin.Proofs.Binary64.Arithmetic
import PlanarJoin.Proofs.Geometry.Bounds
import PlanarJoin.Proofs.Tiling.Partition

/-!
# What partitioning loses

Objects are accepted if the box around all cells covers them, and placed into the cells that they
meet.  Where cells leave a part of the box free, an object can be accepted and placed nowhere.
Whether there is such a part can be told from the places where cells begin and from those right
behind their ends.

## Main definitions

* `Tiling.KeepsAll`: partitioning stores every object with a proper envelope.
* `Tiling.gapless`: whether no place next to the edges of cells is free.

## Main results

* `Tiling.stored_iff`: an object is stored if it meets a cell.
* `Tiling.gapless_iff`: a tiling is gapless if every point of the box lies in a cell.
* `Tiling.partition_keeps_iff`: partitioning stores every object just if the cells leave no gap.
-/

namespace PlanarJoin

open Binary64 Envelope

/-! ## Points by rank -/

/-- Whether an envelope contains the points with these ranks. -/
def Envelope.hasRanks (e : Envelope) (i j : Int) : Bool :=
  decide ((rank e.minX ≤ i ∧ i ≤ rank e.maxX) ∧ rank e.minY ≤ j ∧ j ≤ rank e.maxY)

theorem Envelope.hasRanks_iff {e : Envelope} {i j : Int} : e.hasRanks i j = true ↔
    (rank e.minX ≤ i ∧ i ≤ rank e.maxX) ∧ rank e.minY ≤ j ∧ j ≤ rank e.maxY :=
  decide_eq_true_iff

theorem Envelope.hasPoint_iff_hasRanks {e : Envelope} (he : e.Ordered) {x y : Float}
    (hx : x.isNaN = false) (hy : y.isNaN = false) :
    e.hasPoint x y = true ↔ e.hasRanks (rank x) (rank y) = true := by
  rw [hasPoint_iff, hasRanks_iff]
  simp only [he, hx, hy, true_and, and_self]

theorem Envelope.meets_ofPoint {e : Envelope} (he : e.Ordered) {x y : Float}
    (hx : x.isNaN = false) (hy : y.isNaN = false) :
    e.meets (ofPoint x y) = true ↔ e.hasPoint x y = true := by
  have hpoint : (ofPoint x y).Ordered := ⟨hx, hx, hy, hy, le_rfl, le_rfl⟩
  rw [meets_iff he hpoint, hasPoint_iff]
  constructor
  · rintro ⟨⟨h₁, h₂⟩, h₃, h₄⟩
    exact ⟨he, ⟨hx, hy⟩, ⟨h₁, h₂⟩, h₃, h₄⟩
  · rintro ⟨-, -, ⟨h₁, h₂⟩, h₃, h₄⟩
    exact ⟨⟨h₁, h₂⟩, h₃, h₄⟩

namespace Tiling

variable {t : Tiling} {cells : List Envelope}

/-! ## Gaps -/

section Starts

variable (lo hi : Envelope → Float)

/-- The ranks where some cells begin, and those right behind their ends. -/
def starts (cells : List Envelope) : List Int :=
  cells.flatMap fun c => [rank (lo c), rank (hi c) + 1]

/-- The last start that is not behind a rank lies in the same cells as the rank. -/
theorem exists_start (cells : List Envelope) {i : Int} (h : ∃ c ∈ cells, rank (lo c) ≤ i) :
    ∃ s ∈ starts lo hi cells, s ≤ i ∧ ∀ c ∈ cells,
      (rank (lo c) ≤ i ↔ rank (lo c) ≤ s) ∧ (i ≤ rank (hi c) ↔ s ≤ rank (hi c)) := by
  obtain ⟨c₀, hc₀, hle₀⟩ := h
  obtain ⟨s, ⟨hs, hsi⟩, hmax⟩ := Int.exists_greatest_of_bdd
    (P := fun s => s ∈ starts lo hi cells ∧ s ≤ i) ⟨i, fun s h => h.2⟩
    ⟨_, List.mem_flatMap.mpr ⟨c₀, hc₀, List.mem_cons_self⟩, hle₀⟩
  refine ⟨s, hs, hsi, ?_⟩
  intro c hc
  have hlo : rank (lo c) ≤ i → rank (lo c) ≤ s := fun h =>
    hmax _ ⟨List.mem_flatMap.mpr ⟨c, hc, by simp⟩, h⟩
  have hhi : rank (hi c) + 1 ≤ i → rank (hi c) + 1 ≤ s := fun h =>
    hmax _ ⟨List.mem_flatMap.mpr ⟨c, hc, by simp⟩, h⟩
  omega

end Starts

/-- Whether no place of the box is free among those where cells begin and those right behind their
ends. -/
def gapless (t : Tiling) : Bool :=
  (starts minX maxX t.cells).all fun i => (starts minY maxY t.cells).all fun j =>
    !t.extent.hasRanks i j || t.cells.any (·.hasRanks i j)

/-- A tiling is gapless if every place of the box lies in a cell. -/
theorem Made.gapless_iff_hasRanks (ht : t.Made) : t.gapless = true ↔
    ∀ i j, t.extent.hasRanks i j = true → ∃ c ∈ t.cells, c.hasRanks i j = true := by
  simp only [gapless, List.all_eq_true, Bool.or_eq_true, Bool.not_eq_true', List.any_eq_true]
  constructor
  · intro h i j hij
    obtain ⟨⟨hi₁, hi₂⟩, hj₁, hj₂⟩ := hasRanks_iff.mp hij
    obtain ⟨a, ha, hax⟩ := ht.isHull.minX_attained
    obtain ⟨b, hb, hby⟩ := ht.isHull.minY_attained
    obtain ⟨s, hs, hsi, hscells⟩ := exists_start minX maxX t.cells (i := i) ⟨a, ha, by omega⟩
    obtain ⟨r, hr, hrj, hrcells⟩ := exists_start minY maxY t.cells (i := j) ⟨b, hb, by omega⟩
    have hbox : t.extent.hasRanks s r = true := by
      have := (hscells a ha).1
      have := (hrcells b hb).1
      exact hasRanks_iff.mpr (by omega)
    rcases h s hs r hr with hfree | ⟨c, hc, hcell⟩
    · rw [hbox] at hfree
      cases hfree
    · have hcell := hasRanks_iff.mp hcell
      have := hscells c hc
      have := hrcells c hc
      exact ⟨c, hc, hasRanks_iff.mpr (by omega)⟩
  · intro h i _ j _
    cases hij : t.extent.hasRanks i j with
    | false => exact .inl rfl
    | true => exact .inr (h i j hij)

/-- A tiling is gapless if every point of the box lies in a cell. -/
theorem Made.gapless_iff (ht : t.Made) : t.gapless = true ↔
    ∀ x y, t.extent.hasPoint x y = true → ∃ c ∈ t.cells, c.hasPoint x y = true := by
  have ho := ht.isHull.ordered
  rw [ht.gapless_iff_hasRanks]
  constructor
  · intro h x y hp
    obtain ⟨-, ⟨hx, hy⟩, -⟩ := hasPoint_iff.mp hp
    obtain ⟨c, hc, hcell⟩ := h _ _ ((hasPoint_iff_hasRanks ho hx hy).mp hp)
    exact ⟨c, hc, (hasPoint_iff_hasRanks (ordered_of_isProper (ht.proper c hc)) hx hy).mpr hcell⟩
  · intro h i j hij
    obtain ⟨⟨hi₁, hi₂⟩, hj₁, hj₂⟩ := hasRanks_iff.mp hij
    obtain ⟨-, hx₁, hx₂, hy₁, hy₂⟩ := isProper_iff.mp (ht.isHull.isProper ht.proper)
    obtain ⟨x, hx, rfl⟩ := exists_rank_eq (k := i) (by have := (isFinite_iff.mp hx₁).2; omega)
      (by have := (isFinite_iff.mp hx₂).2; omega)
    obtain ⟨y, hy, rfl⟩ := exists_rank_eq (k := j) (by have := (isFinite_iff.mp hy₁).2; omega)
      (by have := (isFinite_iff.mp hy₂).2; omega)
    obtain ⟨c, hc, hcell⟩ := h x y ((hasPoint_iff_hasRanks ho hx hy).mpr hij)
    exact ⟨c, hc, (hasPoint_iff_hasRanks (ordered_of_isProper (ht.proper c hc)) hx hy).mp hcell⟩

/-! ## Stored objects -/

/-- An object is stored if it has a proper envelope that meets a cell. -/
theorem stored_iff {α : Type} [Spatial α] {as : List α} {c : Collection α}
    (h : t.partition as = .ok c) {a : α} (ha : a ∈ as) : (∃ i, a ∈ c.partition i) ↔
      (Spatial.envelope a).isProper = true ∧
        ∃ e ∈ t.cells, e.meets (Spatial.envelope a) = true := by
  obtain ⟨-, -, -, hpart, -⟩ := partition_spec h
  constructor
  · rintro ⟨i, hi⟩
    rw [hpart] at hi
    obtain ⟨hproper, e, he, hm⟩ := mem_placement.mp (places_iff.mp (List.mem_filter.mp hi).2)
    exact ⟨hproper, e, List.mem_of_getElem? he, hm⟩
  · rintro ⟨hproper, e, he, hm⟩
    obtain ⟨i, hi⟩ := List.mem_iff_getElem?.mp he
    refine ⟨i, ?_⟩
    rw [hpart]
    exact List.mem_filter.mpr ⟨ha, places_iff.mpr (mem_placement.mpr ⟨hproper, e, hi, hm⟩)⟩

/-- Partitioning stores every object with a proper envelope, whenever it succeeds. -/
def KeepsAll (t : Tiling) : Prop :=
  ∀ (α : Type) [Spatial α] (as : List α) (c : Collection α), t.partition as = .ok c →
    ∀ a ∈ as, (Spatial.envelope a).isProper = true → ∃ i, a ∈ c.partition i

/-- The lower left corner of an accepted object lies in the box, hence in a cell. -/
theorem Made.keepsAll (ht : t.Made) (h : t.gapless = true) : t.KeepsAll := by
  intro α _ as c hc a ha hproper
  obtain ⟨-, -, -, -, hcovers⟩ := partition_spec hc
  have hcorner := hasPoint_corner (ordered_of_isProper hproper)
  obtain ⟨e, he, hp⟩ := ht.gapless_iff.mp h _ _ (hasPoint_of_covers (hcovers a ha hproper) hcorner)
  exact (stored_iff hc ha).mpr ⟨hproper, e, he, meets_of_hasPoint hp hcorner⟩

/-- A feature at a point of the box is accepted, and stored only if the point lies in a cell. -/
theorem Made.gapless_of_keepsAll (ht : t.Made) (h : t.KeepsAll) : t.gapless = true := by
  refine ht.gapless_iff.mpr ?_
  intro x y hp
  obtain ⟨ho, ⟨hx, hy⟩, ⟨h₁, h₂⟩, h₃, h₄⟩ := hasPoint_iff.mp hp
  obtain ⟨-, fx₁, fx₂, fy₁, fy₂⟩ := isProper_iff.mp (ht.isHull.isProper ht.proper)
  have hpoint : (ofPoint x y).Ordered := ⟨hx, hx, hy, hy, le_rfl, le_rfl⟩
  have hfx : x.isFinite = true := isFinite_iff.mpr
    ⟨hx, (isFinite_iff.mp fx₁).2.1.trans_le h₁, h₂.trans_lt (isFinite_iff.mp fx₂).2.2⟩
  have hfy : y.isFinite = true := isFinite_iff.mpr
    ⟨hy, (isFinite_iff.mp fy₁).2.1.trans_le h₃, h₄.trans_lt (isFinite_iff.mp fy₂).2.2⟩
  have hproper : (ofPoint x y).isProper = true := isProper_iff.mpr ⟨hpoint, hfx, hfx, hfy, hfy⟩
  have hcovers : t.extent.covers (ofPoint x y) = true :=
    covers_iff.mpr ⟨ho, hpoint, ⟨h₁, h₂⟩, h₃, h₄⟩
  have henvelope : Spatial.envelope (⟨0, .single (.point ⟨x, y⟩)⟩ : Feature Nat) = ofPoint x y :=
    Geometry.envelope_point x y
  obtain ⟨c, hc⟩ : ∃ c, t.partition [(⟨0, .single (.point ⟨x, y⟩)⟩ : Feature Nat)] = .ok c :=
    t.exists_partition fun a ha _ => by rw [List.mem_singleton.mp ha, henvelope]; exact hcovers
  have hstored := h _ _ c hc _ (List.mem_singleton_self _) (henvelope ▸ hproper)
  obtain ⟨-, e, he, hm⟩ := (stored_iff hc (List.mem_singleton_self _)).mp hstored
  rw [henvelope] at hm
  exact ⟨e, he, (meets_ofPoint (ordered_of_isProper (ht.proper e he)) hx hy).mp hm⟩

/-- An object with a proper envelope that partitioning accepts is stored just if it meets a cell.
Partitioning stores every such object just if the cells leave no gap in the box around them. -/
theorem partition_keeps_iff (h : make cells = .ok t) :
    (∀ (α : Type) [Spatial α] (as : List α) (c : Collection α), t.partition as = .ok c →
      ∀ a ∈ as, (Spatial.envelope a).isProper = true →
        ((∃ i, a ∈ c.partition i) ↔ ∃ e ∈ cells, e.meets (Spatial.envelope a) = true)) ∧
    (t.KeepsAll ↔ t.gapless = true) := by
  obtain ⟨ht, rfl⟩ := made_of_make h
  refine ⟨?_, ht.gapless_of_keepsAll, ht.keepsAll⟩
  intro α _ as c hc a ha hproper
  rw [stored_iff hc ha]
  exact and_iff_right hproper

/-- Two cells with a gap between them. -/
def apartCells : List Envelope :=
  [⟨0.0, 1.0, 0.0, 1.0⟩, ⟨2.0, 3.0, 0.0, 1.0⟩]

/-- A feature in the gap. -/
def strayFeature : Feature Nat :=
  ⟨7, .single (.point ⟨1.5, 0.5⟩)⟩

/-- The feature is accepted and stored nowhere. -/
theorem strayFeature_lost : ∃ t c, make apartCells = .ok t ∧ t.gapless = false ∧
    t.partition [strayFeature] = .ok c ∧ (Spatial.envelope strayFeature).isProper = true ∧
      ¬ ∃ i, strayFeature ∈ c.partition i := by
  have hmake : make apartCells =
      .ok ⟨apartCells, hullAll apartCells, tiles apartCells (hullAll apartCells)⟩ :=
    make_of_proper (by decide) (by decide +kernel)
  obtain ⟨c, hc⟩ : ∃ c, Tiling.partition
      ⟨apartCells, hullAll apartCells, tiles apartCells (hullAll apartCells)⟩ [strayFeature] =
        .ok c :=
    exists_partition (by decide +kernel)
  have hproper : (Spatial.envelope strayFeature).isProper = true := by decide +kernel
  refine ⟨_, c, hmake, by decide +kernel, hc, hproper, ?_⟩
  rw [(partition_keeps_iff hmake).1 _ _ c hc _ (List.mem_singleton_self _) hproper]
  decide +kernel

end Tiling

end PlanarJoin
