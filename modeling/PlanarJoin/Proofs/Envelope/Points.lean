import Mathlib.Data.Set.Basic
import PlanarJoin.Proofs.Binary64.Bounded
import PlanarJoin.Proofs.Envelope.Order

/-!
# Envelopes as sets of points

An extent is a proper envelope or the empty one, as hulls of proper envelopes are.  It is the set of
its points: extents are equal as floats, where both zeros are one, if they have the same points.  So
the laws of hulls and overlaps are those of sets.  An extent covers another that is not empty if it
has all its points; the empty one has none, and covering says nothing about it.

## Main definitions

* `Envelope.points`: the points of an envelope.
* `Envelope.IsExtent`: a proper envelope or the empty one.
* `Envelope.IsLargest`: the largest envelope within two.

## Main results

* `Envelope.beq_iff_points`: extents are equal if they have the same points.
* `Envelope.covers_iff_points`, `Envelope.meets_iff_points`: relations on points.
* `Envelope.points_hull_subset_iff`: the hull is the least envelope around two extents.
* `Envelope.foldl_hull_perm`: extents have the same hull in every order.
* `Envelope.points_overlap`, `Envelope.isLargest_overlap`: the overlap has the points that two
  extents share, and is the largest envelope within both.
* `Envelope.extent_laws`: hulls, overlaps and covering.
-/

namespace PlanarJoin.Envelope

open Binary64

/-- The points of an envelope. -/
def points (e : Envelope) : Set (Float × Float) :=
  {p | e.hasPoint p.1 p.2 = true}

/-- A proper envelope or the empty one. -/
def IsExtent (e : Envelope) : Prop :=
  e.isProper = true ∨ e = .empty

variable {a b c d e : Envelope} {es fs : List Envelope}

/-! ## Points -/

theorem mem_points {p : Float × Float} : p ∈ e.points ↔ e.hasPoint p.1 p.2 = true :=
  Iff.rfl

theorem points_empty : empty.points = ∅ := by
  refine Set.eq_empty_of_forall_notMem fun p hp => ?_
  exact absurd (hasPoint_iff.mp hp).1.isEmpty (by decide)

theorem corners_mem_points (he : e.Ordered) :
    (e.minX, e.minY) ∈ e.points ∧ (e.maxX, e.maxY) ∈ e.points :=
  ⟨hasPoint_corner he, hasPoint_iff.mpr
    ⟨he, ⟨he.maxX_num, he.maxY_num⟩, ⟨he.le_x, le_rfl⟩, he.le_y, le_rfl⟩⟩

/-- An envelope covers an ordered one if it has all its points. -/
theorem covers_iff_points (hb : b.Ordered) : a.covers b = true ↔ b.points ⊆ a.points := by
  refine ⟨fun h p hp => hasPoint_of_covers h hp, fun h => ?_⟩
  obtain ⟨hlow, hhigh⟩ := corners_mem_points hb
  obtain ⟨ha, -, ⟨hx₁, -⟩, hy₁, -⟩ := hasPoint_iff.mp (h hlow)
  obtain ⟨-, -, ⟨-, hx₂⟩, -, hy₂⟩ := hasPoint_iff.mp (h hhigh)
  exact covers_iff.mpr ⟨ha, hb, ⟨hx₁, hx₂⟩, hy₁, hy₂⟩

theorem covers_self (he : e.Ordered) : e.covers e = true :=
  (covers_iff_points he).mpr le_rfl

/-! ## Extents -/

theorem IsExtent.isProper (h : e.IsExtent) (hne : e.isEmpty = false) : e.isProper = true := by
  obtain h | rfl := h
  · exact h
  · exact absurd hne (by decide)

theorem IsExtent.cases (h : e.IsExtent) :
    (e = .empty ∧ e.points = ∅) ∨ (e.isProper = true ∧ e.Ordered ∧ e.points.Nonempty) := by
  obtain h | rfl := h
  · have ho := ordered_of_isProper h
    exact .inr ⟨h, ho, _, (corners_mem_points ho).1⟩
  · exact .inl ⟨rfl, points_empty⟩

/-! ## Equality -/

theorem beq_eq (a b : Envelope) : (a == b) =
    (a.minX == b.minX && (a.maxX == b.maxX && (a.minY == b.minY && a.maxY == b.maxY))) :=
  rfl

/-- What is equal to an ordered envelope as floats is ordered, with bounds of the same ranks. -/
theorem beq_iff_rank (ha : a.Ordered) : (a == b) = true ↔ b.Ordered ∧
    (rank a.minX = rank b.minX ∧ rank a.maxX = rank b.maxX) ∧
      rank a.minY = rank b.minY ∧ rank a.maxY = rank b.maxY := by
  simp only [beq_eq, Bool.and_eq_true, beq_iff, ha.minX_num, ha.maxX_num, ha.minY_num, ha.maxY_num,
    true_and]
  constructor
  · rintro ⟨⟨nx₁, hx₁⟩, ⟨nx₂, hx₂⟩, ⟨ny₁, hy₁⟩, ny₂, hy₂⟩
    exact ⟨⟨nx₁, nx₂, ny₁, ny₂, hx₁ ▸ hx₂ ▸ ha.le_x, hy₁ ▸ hy₂ ▸ ha.le_y⟩, ⟨hx₁, hx₂⟩, hy₁, hy₂⟩
  · rintro ⟨hb, ⟨hx₁, hx₂⟩, hy₁, hy₂⟩
    exact ⟨⟨hb.minX_num, hx₁⟩, ⟨hb.maxX_num, hx₂⟩, ⟨hb.minY_num, hy₁⟩, hb.maxY_num, hy₂⟩

/-- The empty envelope is equal to no proper one, since its bounds are infinite. -/
theorem beq_empty_of_isProper (hb : b.isProper = true) : (empty == b) = false := by
  refine Bool.eq_false_iff.mpr fun h => ?_
  rw [beq_eq, Bool.and_eq_true, beq_iff] at h
  have hinfinite : rank empty.minX = top := by decide
  have hfinite := (isFinite_iff.mp (finite_of_isProper hb).1).2.2
  exact absurd h.1.2.2 (hinfinite ▸ hfinite.ne')

theorem covers_antisymm (hab : a.covers b = true) (hba : b.covers a = true) : (a == b) = true := by
  obtain ⟨ha, hb, ⟨h₁, h₂⟩, h₃, h₄⟩ := covers_iff.mp hab
  obtain ⟨-, -, ⟨k₁, k₂⟩, k₃, k₄⟩ := covers_iff.mp hba
  exact (beq_iff_rank ha).mpr
    ⟨hb, ⟨le_antisymm h₁ k₁, le_antisymm k₂ h₂⟩, le_antisymm h₃ k₃, le_antisymm k₄ h₄⟩

/-- Extents are equal as floats if they have the same points. -/
theorem beq_iff_points (ha : a.IsExtent) (hb : b.IsExtent) :
    (a == b) = true ↔ a.points = b.points := by
  obtain ⟨rfl, hpa⟩ | ⟨-, hoa, hpa⟩ := ha.cases
  · obtain ⟨rfl, hpb⟩ | ⟨hb, hob, hpb⟩ := hb.cases
    · exact iff_of_true (by decide) rfl
    · refine iff_of_false ?_ (hpa ▸ hpb.ne_empty.symm)
      rw [beq_empty_of_isProper hb]
      exact Bool.false_ne_true
  · obtain ⟨rfl, hpb⟩ | ⟨-, hob, hpb⟩ := hb.cases
    · refine iff_of_false (fun h => ?_) (hpb ▸ hpa.ne_empty)
      exact absurd ((beq_iff_rank hoa).mp h).1.isEmpty (by decide)
    · refine ⟨fun h => ?_, fun h => ?_⟩
      · obtain ⟨-, ⟨hx₁, hx₂⟩, hy₁, hy₂⟩ := (beq_iff_rank hoa).mp h
        refine Set.ext fun p => ?_
        rw [mem_points, mem_points, hasPoint_iff, hasPoint_iff, hx₁, hx₂, hy₁, hy₂]
        simp only [hoa, hob, true_and]
      · exact covers_antisymm ((covers_iff_points hob).mpr h.ge) ((covers_iff_points hoa).mpr h.le)

/-- Extents are equal as floats if the same envelopes are around them. -/
theorem beq_of_points_subset_iff (ha : a.IsExtent) (hb : b.IsExtent)
    (h : ∀ c : Envelope, a.points ⊆ c.points ↔ b.points ⊆ c.points) : (a == b) = true :=
  (beq_iff_points ha hb).mpr (Set.Subset.antisymm ((h b).mpr le_rfl) ((h a).mp le_rfl))

/-! ## Hulls -/

theorem hull_empty_right (ha : a.IsExtent) : a.hull empty = a := by
  obtain ⟨rfl, -⟩ | ⟨-, ho, -⟩ := ha.cases
  · exact hull_empty _
  · rw [hull, ho.isEmpty, if_neg Bool.false_ne_true, if_pos (by decide)]

theorem hull_self (a : Envelope) : a.hull a = a := by
  have hlower (x : Float) : lower x x = x := by
    rw [lower, ite_self]
  have hupper (x : Float) : upper x x = x := by
    rw [upper, ite_self]
  rw [hull, hlower, hupper, hlower, hupper, ite_self, ite_self]

theorem isHull_pair (ha : a.Ordered) (hb : b.Ordered) : IsHull (a.hull b) [a, b] :=
  (isHull_singleton ha).hull hb

/-- The hull of extents is one. -/
theorem IsExtent.hull (ha : a.IsExtent) (hb : b.IsExtent) : (a.hull b).IsExtent := by
  obtain ⟨rfl, -⟩ | ⟨hpa, hoa, -⟩ := ha.cases
  · rwa [hull_empty]
  · obtain ⟨rfl, -⟩ | ⟨hpb, hob, -⟩ := hb.cases
    · rwa [hull_empty_right ha]
    · refine .inl ((isHull_pair hoa hob).isProper fun e he => ?_)
      rcases List.mem_pair.mp he with rfl | rfl
      · exact hpa
      · exact hpb

/-- The hull is the least envelope around two extents: what is around it is around both. -/
theorem points_hull_subset_iff (ha : a.IsExtent) (hb : b.IsExtent) :
    (a.hull b).points ⊆ c.points ↔ a.points ⊆ c.points ∧ b.points ⊆ c.points := by
  obtain ⟨rfl, hpa⟩ | ⟨-, hoa, -⟩ := ha.cases
  · simp [hull_empty, hpa]
  · obtain ⟨rfl, hpb⟩ | ⟨-, hob, -⟩ := hb.cases
    · simp [hull_empty_right ha, hpb]
    · have hh := isHull_pair hoa hob
      rw [← covers_iff_points hoa, ← covers_iff_points hob, ← covers_iff_points hh.ordered]
      refine ⟨fun h => ?_, fun ⟨h₁, h₂⟩ => hh.least fun e he => ?_⟩
      · exact ⟨covers_trans h (hh.covers a (by simp)), covers_trans h (hh.covers b (by simp))⟩
      · rcases List.mem_pair.mp he with rfl | rfl
        · exact h₁
        · exact h₂

theorem hull_comm (ha : a.IsExtent) (hb : b.IsExtent) : (a.hull b == b.hull a) = true := by
  refine beq_of_points_subset_iff (ha.hull hb) (hb.hull ha) fun c => ?_
  rw [points_hull_subset_iff ha hb, points_hull_subset_iff hb ha, and_comm]

theorem hull_assoc (ha : a.IsExtent) (hb : b.IsExtent) (hc : c.IsExtent) :
    ((a.hull b).hull c == a.hull (b.hull c)) = true := by
  refine beq_of_points_subset_iff ((ha.hull hb).hull hc) (ha.hull (hb.hull hc)) fun d => ?_
  rw [points_hull_subset_iff (ha.hull hb) hc, points_hull_subset_iff ha hb,
    points_hull_subset_iff ha (hb.hull hc), points_hull_subset_iff hb hc, and_assoc]

theorem isExtent_foldl_hull (ha : a.IsExtent) (hes : ∀ e ∈ es, e.IsExtent) :
    (es.foldl hull a).IsExtent := by
  induction es generalizing a with
  | nil => exact ha
  | cons e es ih =>
    rw [List.forall_mem_cons] at hes
    exact ih (ha.hull hes.1) hes.2

/-- What is around the hull of some extents is around all of them. -/
theorem points_foldl_hull_subset_iff (ha : a.IsExtent) (hes : ∀ e ∈ es, e.IsExtent) :
    (es.foldl hull a).points ⊆ c.points ↔
      a.points ⊆ c.points ∧ ∀ e ∈ es, e.points ⊆ c.points := by
  induction es generalizing a with
  | nil => simp
  | cons e es ih =>
    rw [List.forall_mem_cons] at hes
    rw [List.foldl_cons, ih (ha.hull hes.1) hes.2, points_hull_subset_iff ha hes.1,
      List.forall_mem_cons, and_assoc]

/-- The hull of some extents is the same in every order, as floats. -/
theorem foldl_hull_perm (ha : a.IsExtent) (hes : ∀ e ∈ es, e.IsExtent) (h : es.Perm fs) :
    (es.foldl hull a == fs.foldl hull a) = true := by
  have hfs : ∀ e ∈ fs, e.IsExtent := fun e he => hes e (h.mem_iff.mpr he)
  refine beq_of_points_subset_iff (isExtent_foldl_hull ha hes) (isExtent_foldl_hull ha hfs)
    fun c => ?_
  rw [points_foldl_hull_subset_iff ha hes, points_foldl_hull_subset_iff ha hfs]
  simp only [h.mem_iff]

/-! ## Overlaps -/

theorem isProper_of_meets (ha : a.IsExtent) (hb : b.IsExtent) (h : a.meets b = true) :
    a.isProper = true ∧ b.isProper = true :=
  ⟨ha.isProper (isEmpty_of_meets h).1, hb.isProper (isEmpty_of_meets h).2⟩

/-- Extents meet if they share a point. -/
theorem meets_iff_points (ha : a.IsExtent) (hb : b.IsExtent) :
    a.meets b = true ↔ (a.points ∩ b.points).Nonempty := by
  constructor
  · intro h
    obtain ⟨hpa, hpb⟩ := isProper_of_meets ha hb h
    obtain ⟨e, -, hma, hmb⟩ :=
      hasPoint_overlap (ordered_of_isProper hpa) (ordered_of_isProper hpb) h
    exact ⟨(e.minX, e.minY), hma, hmb⟩
  · rintro ⟨p, hpa, hpb⟩
    exact meets_of_hasPoint hpa hpb

/-- The overlap has the points that two ordered envelopes share. -/
theorem points_overlap (ha : a.Ordered) (hb : b.Ordered) (h : a.overlap? b = some d) :
    d.Ordered ∧ d.points = a.points ∩ b.points := by
  rw [overlap?] at h
  split at h
  · next hm =>
    obtain rfl := Option.some.inj h
    obtain ⟨⟨h₁, h₂⟩, h₃, h₄⟩ := (meets_iff ha hb).mp hm
    obtain ⟨nx₁, hx₁⟩ := rank_upper ha.minX_num hb.minX_num
    obtain ⟨nx₂, hx₂⟩ := rank_lower ha.maxX_num hb.maxX_num
    obtain ⟨ny₁, hy₁⟩ := rank_upper ha.minY_num hb.minY_num
    obtain ⟨ny₂, hy₂⟩ := rank_lower ha.maxY_num hb.maxY_num
    have := ha.le_x
    have := hb.le_x
    have := ha.le_y
    have := hb.le_y
    have hd : Ordered ⟨upper a.minX b.minX, lower a.maxX b.maxX, upper a.minY b.minY,
        lower a.maxY b.maxY⟩ :=
      ⟨nx₁, nx₂, ny₁, ny₂, by dsimp only; omega, by dsimp only; omega⟩
    refine ⟨hd, Set.ext fun p => ?_⟩
    rw [Set.mem_inter_iff, mem_points, mem_points, mem_points, hasPoint_iff, hasPoint_iff,
      hasPoint_iff]
    simp only [hd, ha, hb, true_and, hx₁, hx₂, hy₁, hy₂, max_le_iff, le_min_iff]
    tauto
  · cases h

theorem isProper_of_covers (ha : a.isProper = true) (h : a.covers b = true) :
    b.isProper = true := by
  obtain ⟨-, hb, ⟨h₁, h₂⟩, h₃, h₄⟩ := covers_iff.mp h
  obtain ⟨hx₁, hx₂, hy₁, hy₂⟩ := finite_of_isProper ha
  exact isProper_iff.mpr ⟨hb, isFinite_between hx₁ hx₂ hb.minX_num ⟨h₁, hb.le_x.trans h₂⟩,
    isFinite_between hx₁ hx₂ hb.maxX_num ⟨h₁.trans hb.le_x, h₂⟩,
    isFinite_between hy₁ hy₂ hb.minY_num ⟨h₃, hb.le_y.trans h₄⟩,
    isFinite_between hy₁ hy₂ hb.maxY_num ⟨h₃.trans hb.le_y, h₄⟩⟩

/-- The largest envelope within two: both cover it, and what both cover it covers. -/
structure IsLargest (d a b : Envelope) : Prop where
  proper : d.isProper = true
  left : a.covers d = true
  right : b.covers d = true
  greatest : ∀ e : Envelope, a.covers e = true → b.covers e = true → d.covers e = true

/-- The overlap of two proper envelopes is the largest within both. -/
theorem isLargest_overlap (ha : a.isProper = true) (hb : b.isProper = true)
    (h : a.overlap? b = some d) : IsLargest d a b := by
  obtain ⟨hd, hpoints⟩ := points_overlap (ordered_of_isProper ha) (ordered_of_isProper hb) h
  have hleft : a.covers d = true :=
    (covers_iff_points hd).mpr (hpoints ▸ Set.inter_subset_left)
  refine ⟨isProper_of_covers ha hleft, hleft,
    (covers_iff_points hd).mpr (hpoints ▸ Set.inter_subset_right), fun e hae hbe => ?_⟩
  have he := (covers_iff.mp hae).2.1
  rw [covers_iff_points he, hpoints]
  exact Set.subset_inter ((covers_iff_points he).mp hae) ((covers_iff_points he).mp hbe)

theorem isSome_overlap (a b : Envelope) : (a.overlap? b).isSome = a.meets b := by
  rw [overlap?]
  cases a.meets b <;> rfl

/-- Extents overlap in the same envelope in either order, as floats. -/
theorem overlap_comm (ha : a.IsExtent) (hb : b.IsExtent) :
    (a.overlap? b == b.overlap? a) = true := by
  have hsome : (a.overlap? b).isSome = (b.overlap? a).isSome := by
    rw [isSome_overlap, isSome_overlap, Bool.eq_iff_iff, meets_iff_points ha hb,
      meets_iff_points hb ha, Set.inter_comm]
  cases hab : a.overlap? b with
  | none =>
    rw [hab, Option.isSome_none] at hsome
    rw [Option.isNone_iff_eq_none.mp (Option.isSome_eq_false_iff.mp hsome.symm)]
    rfl
  | some d =>
    rw [hab, Option.isSome_some] at hsome
    obtain ⟨e, hba⟩ := Option.isSome_iff_exists.mp hsome.symm
    obtain ⟨hpa, hpb⟩ := isProper_of_meets ha hb (by rw [← isSome_overlap, hab, Option.isSome_some])
    have hd := isLargest_overlap hpa hpb hab
    have he := isLargest_overlap hpb hpa hba
    rw [hba]
    exact covers_antisymm (hd.greatest e he.right he.left) (he.greatest d hd.right hd.left)

/-! ## The laws -/

/-- The laws of envelopes that are proper or empty.  Hulls can be taken in any grouping and order,
and give the least envelope around all; the empty one adds nothing.  Envelopes meet if they overlap,
which is if they share a point, and the overlap is the largest within both.  Covering orders the
proper ones, and what covers an envelope meets all that it meets.  Equality is that of floats, where
both zeros are one. -/
theorem extent_laws (ha : a.IsExtent) (hb : b.IsExtent) (hc : c.IsExtent) :
    ((a.hull b).IsExtent ∧ ((a.hull b).hull c == a.hull (b.hull c)) = true ∧
      (a.hull b == b.hull a) = true ∧ a.hull a = a ∧ empty.hull a = a ∧ a.hull empty = a) ∧
    ((∀ d : Envelope,
        (a.hull b).points ⊆ d.points ↔ a.points ⊆ d.points ∧ b.points ⊆ d.points) ∧
      (a.isProper = true → b.isProper = true → IsSmallest (a.hull b) [a, b]) ∧
      ∀ es fs : List Envelope, (∀ e ∈ es, e.IsExtent) → es.Perm fs →
        (es.foldl hull a == fs.foldl hull a) = true) ∧
    ((a.meets b = true ↔ (a.overlap? b).isSome = true) ∧
      (a.meets b = true ↔ ∃ x y, a.hasPoint x y = true ∧ b.hasPoint x y = true) ∧
      (a.overlap? b == b.overlap? a) = true ∧
      ∀ d, a.overlap? b = some d → IsLargest d a b) ∧
    ((a.isProper = true → a.covers a = true) ∧
      (a.covers b = true → b.covers a = true → (a == b) = true) ∧
      (a.covers b = true → b.covers c = true → a.covers c = true) ∧
      (a.covers b = true → b.meets c = true → a.meets c = true)) := by
  refine ⟨⟨ha.hull hb, hull_assoc ha hb hc, hull_comm ha hb, hull_self a, hull_empty a,
    hull_empty_right ha⟩, ⟨fun d => points_hull_subset_iff ha hb, fun hpa hpb => ?_,
    fun es fs hes => foldl_hull_perm ha hes⟩, ⟨?_, ?_, overlap_comm ha hb, fun d hd => ?_⟩,
    ⟨fun hpa => covers_self (ordered_of_isProper hpa), covers_antisymm, covers_trans,
      fun hab hm => ?_⟩⟩
  · have hh := isHull_pair (ordered_of_isProper hpa) (ordered_of_isProper hpb)
    exact ⟨hh.covers, fun _ d hd => hh.least hd, fun h => absurd h (List.cons_ne_nil _ _)⟩
  · rw [isSome_overlap]
  · exact (meets_iff_points ha hb).trans Prod.exists
  · have hm : a.meets b = true := by rw [← isSome_overlap, hd, Option.isSome_some]
    obtain ⟨hpa, hpb⟩ := isProper_of_meets ha hb hm
    exact isLargest_overlap hpa hpb hd
  · exact meets_of_covers hab (ordered_of_isProper (isProper_of_meets hb hc hm).2) hm

/-- Two boxes that touch along an edge, and the empty envelope. -/
theorem extent_laws_touching :
    (([⟨1.0, 2.0, 0.5, 3.0⟩, empty].foldl hull ⟨0.0, 1.0, 0.0, 1.0⟩ : Envelope) ==
      [empty, ⟨1.0, 2.0, 0.5, 3.0⟩].foldl hull ⟨0.0, 1.0, 0.0, 1.0⟩) = true ∧
    (∃ x y, hasPoint ⟨0.0, 1.0, 0.0, 1.0⟩ x y = true ∧ hasPoint ⟨1.0, 2.0, 0.5, 3.0⟩ x y = true) ∧
    IsLargest ⟨1.0, 1.0, 0.5, 1.0⟩ ⟨0.0, 1.0, 0.0, 1.0⟩ ⟨1.0, 2.0, 0.5, 3.0⟩ := by
  have hb : IsExtent ⟨1.0, 2.0, 0.5, 3.0⟩ := .inl (by decide)
  obtain ⟨-, ⟨-, -, hfold⟩, ⟨-, hmeets, -, hoverlap⟩, -⟩ :=
    extent_laws (a := ⟨0.0, 1.0, 0.0, 1.0⟩) (c := empty) (.inl (by decide)) hb (.inr rfl)
  refine ⟨hfold _ _ ?_ (.swap _ _ _), hmeets.mp (by decide), hoverlap _ ?_⟩
  · intro e he
    rcases List.mem_pair.mp he with rfl | rfl
    · exact hb
    · exact .inr rfl
  · rw [overlap?, if_pos (by decide)]
    rfl

end PlanarJoin.Envelope
