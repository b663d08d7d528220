import PlanarJoin.Proofs.Binary64.Bounded
import PlanarJoin.Proofs.Envelope.Growing
import PlanarJoin.Proofs.Tiling.Partition
import PlanarJoin.Proofs.Tiling.Uniform

/-!
# Grids around their objects

The grid around some envelopes is meant to accept objects that have them: it is made of the box
around them, which is widened by a half where it has no width or height.  It does accept them where
the computed bounds of columns and rows are finite and the widened box has a width and a height.
Rounding can take both away: it loses a half beside a large number, and a box from end to end of the
floats is too long to be cut into steps.

## Main definitions

* `Tiling.Cuttable`: a range can be cut into so many parts.
* `Tiling.padding`, `Tiling.box`: how far a range is widened, and the box that is cut.
* `Tiling.Accepts`: a grid around some envelopes accepts them.
* `Tiling.plane`: the square in which a half to either side is not lost.

## Main results

* `Tiling.cuttable_of_moderate`: a range of a moderate size can be cut.
* `Tiling.accepts_iff`: a grid accepts its envelopes just if both sides of the box can be cut, and
  so if the envelopes lie in the plane.
-/

namespace PlanarJoin

open Binary64 Envelope

namespace Tiling

/-! ## Cuts of a range -/

section Cuts

variable {low high : Float} {count i : Nat}

/-- The bounds at which a range is cut. -/
def cut (low high : Float) (count : Nat) : Nat → Float :=
  bound low high ((high - low) / Float.ofNat count) count

/-- A range can be cut if it has a length and its last part begins at a finite number. -/
def Cuttable (low high : Float) (count : Nat) : Prop :=
  low < high ∧ (cut low high count (count - 1)).isFinite = true

instance (low high : Float) (count : Nat) : Decidable (Cuttable low high count) :=
  inferInstanceAs (Decidable (low < high ∧ (cut low high count (count - 1)).isFinite = true))

theorem cut_of_lt (low high : Float) (h : i < count) :
    cut low high count i = low + Float.ofNat i * ((high - low) / Float.ofNat count) :=
  if_neg h.ne

theorem cut_self : cut low high count count = high :=
  if_pos rfl

variable (hlow : low.isFinite = true) (hhigh : high.isFinite = true) (h0 : 0 < count)
  (h64 : count < 2 ^ 64)

include hlow hhigh h0 h64

/-- The steps of a range that can be cut are finite and not negative. -/
theorem Cuttable.step (h : Cuttable low high count) :
    ((high - low) / Float.ofNat count).isFinite = true ∧
      0 ≤ value ((high - low) / Float.ofNat count) := by
  obtain ⟨hlt, hlast⟩ := h
  rw [cut_of_lt _ _ (Nat.sub_lt h0 Nat.one_pos)] at hlast
  have hstep := (isFinite_of_mul (isFinite_of_add hlast).2).2
  have hcount := bounded_ofNat h64
  have hone := one_le_value_ofNat h64 h0
  have hwidth := isFinite_of_div hstep hcount.1
  have hnonneg : 0 ≤ value (high - low) := by
    have hpos := (lt_iff.mp ((zero_lt_sub_iff hlow hhigh).mpr hlt)).2.2
    exact (value_le_value_iff (x := 0.0) (by decide) hwidth).mpr hpos.le
  have hnear := (nearest_div hwidth hcount.1 (by linarith)).2
  refine ⟨hstep, (value_le_value_iff (x := 0.0) (by decide) hstep).mpr ?_⟩
  exact nearest_zero.mono hnear (div_nonneg hnonneg (by linarith))

/-- Each part of a range that can be cut begins at a finite number, the first one where the range
does. -/
theorem Cuttable.begin (h : Cuttable low high count) :
    (∀ i < count, (cut low high count i).isFinite = true) ∧
      rank (cut low high count 0) = rank low := by
  obtain ⟨hstep, hstep0⟩ := h.step hlow hhigh h0 h64
  have hlast := h.2
  rw [cut_of_lt _ _ (Nat.sub_lt h0 Nat.one_pos)] at hlast
  have hprod := (isFinite_of_add hlast).2
  have hmultiple {i : ℕ} (hi : i < count) :=
    multiple_le (show count - 1 < 2 ^ 64 by omega) hstep hstep0 hprod (show i ≤ count - 1 by omega)
  constructor
  · intro i hi
    obtain ⟨hfin, hmin, hmax⟩ := hmultiple hi
    obtain ⟨hnum, hnear⟩ := nearest_add hlow hfin
    rw [cut_of_lt _ _ hi]
    exact isFinite_between hlow hlast hnum ⟨(nearest_value hlow).mono hnear (by linarith),
      hnear.mono (nearest_add hlow hprod).2 (by linarith)⟩
  · have hsum := (nearest_add hlow (hmultiple h0).1).2
    rw [value_multiple_zero hstep, add_zero] at hsum
    rw [cut_of_lt _ _ h0]
    exact hsum.unique (nearest_value hlow)

theorem Cuttable.isFinite_cut (h : Cuttable low high count) (hi : i ≤ count) :
    (cut low high count i).isFinite = true := by
  rcases hi.lt_or_eq with hi | rfl
  · exact (h.begin hlow hhigh h0 h64).1 i hi
  · rw [cut_self]
    exact hhigh

/-- The first part of a range that can be cut reaches down to where the range begins, and the last
one up to where it ends. -/
theorem Cuttable.reach (h : Cuttable low high count) :
    rank (lower (cut low high count 0) (cut low high count (0 + 1))) ≤ rank low ∧
      rank high ≤ rank (upper (cut low high count (count - 1))
        (cut low high count (count - 1 + 1))) := by
  have hnum {i : ℕ} (hi : i ≤ count) := isNaN_of_isFinite (h.isFinite_cut hlow hhigh h0 h64 hi)
  have hl := (rank_lower (hnum h0.le) (hnum (show 0 + 1 ≤ count from h0))).2
  have hu := (rank_upper (hnum (Nat.sub_le count 1)) (hnum le_rfl)).2
  have hzero := (h.begin hlow hhigh h0 h64).2
  rw [Nat.sub_add_cancel h0, hu, hl, hzero, cut_self]
  exact ⟨min_le_left _ _, le_max_right _ _⟩

/-- A range of a moderate size can be cut into any number of parts. -/
theorem cuttable_of_moderate (hlt : low < high) (hl : |value low| ≤ 2 ^ 53)
    (hh : |value high| ≤ 2 ^ 53) : Cuttable low high count := by
  obtain ⟨hl, hl'⟩ := abs_le.mp hl
  obtain ⟨hh, hh'⟩ := abs_le.mp hh
  obtain ⟨hwnum, hwnear⟩ := nearest_sub hhigh hlow
  obtain ⟨hwidth, hwidth'⟩ := bounded_of_nearest (k := 54) hwnum hwnear (by norm_num)
    (abs_le.mpr ⟨by linarith, by linarith⟩)
  have hone := one_le_value_ofNat h64 h0
  obtain ⟨hsnum, hsnear⟩ := nearest_div hwidth (bounded_ofNat h64).1 (by linarith)
  obtain ⟨hstep, hstep'⟩ := bounded_of_nearest (k := 54) hsnum hsnear (by norm_num)
    ((abs_div_le hone).trans hwidth')
  obtain ⟨hcfin, hcount⟩ := bounded_ofNat (show count - 1 < 2 ^ 64 by omega)
  obtain ⟨hpnum, hpnear⟩ := nearest_mul hcfin hstep
  obtain ⟨hprod, hprod'⟩ := bounded_of_nearest (k := 118) hpnum hpnear (by norm_num) (by
    rw [abs_mul]
    calc _ ≤ (2 : ℚ) ^ 64 * 2 ^ 54 := mul_le_mul hcount hstep' (abs_nonneg _) (by norm_num)
      _ = 2 ^ 118 := by norm_num)
  obtain ⟨hp, hp'⟩ := abs_le.mp hprod'
  obtain ⟨hbnum, hbnear⟩ := nearest_add hlow hprod
  refine ⟨hlt, ?_⟩
  rw [cut_of_lt _ _ (Nat.sub_lt h0 Nat.one_pos)]
  exact (bounded_of_nearest (k := 119) hbnum hbnear (by norm_num)
    (abs_le.mpr ⟨by linarith, by linarith⟩)).1

/-- If the last part of a range with a length has finite bounds, the range can be cut, unless it is
too long and the last part is the only one: that one begins at no number. -/
theorem cuttable_of_last (hlt : low < high)
    (hlast : (lower (cut low high count (count - 1)) high).isFinite = true ∧
      (upper (cut low high count (count - 1)) high).isFinite = true) :
    Cuttable low high count ∨ count = 1 ∧ (high - low).isFinite = false ∧
      (cut low high count 0).isNaN = true := by
  by_cases hfin : (cut low high count (count - 1)).isFinite = true
  · exact .inl ⟨hlt, hfin⟩
  right
  have hcfin := (bounded_ofNat (show count - 1 < 2 ^ 64 by omega)).1
  have hone := one_le_value_ofNat h64 h0
  have hnan : (cut low high count (count - 1)).isNaN = true := by
    by_contra hnum
    rw [Bool.not_eq_true] at hnum
    have hl := (rank_lower hnum (isNaN_of_isFinite hhigh)).2
    have hu := (rank_upper hnum (isNaN_of_isFinite hhigh)).2
    have := (isFinite_iff.mp hlast.1).2
    have := (isFinite_iff.mp hlast.2).2
    exact hfin (isFinite_iff.mpr ⟨hnum, by omega, by omega⟩)
  have hcut := cut_of_lt low high (Nat.sub_lt h0 Nat.one_pos)
  have hwidth := (nearest_sub hhigh hlow).1
  obtain rfl : count = 1 := by
    by_contra hne
    have hmany := one_le_value_ofNat (show count - 1 < 2 ^ 64 by omega) (by omega)
    have hnum := isNaN_add hlow (isNaN_mul hcfin (by linarith)
      (isNaN_div hwidth (bounded_ofNat h64).1 (by linarith)))
    rw [← hcut, hnan] at hnum
    cases hnum
  refine ⟨rfl, ?_, hnan⟩
  by_contra hlen
  rw [Bool.not_eq_false] at hlen
  have hnum := isNaN_add hlow (nearest_mul hcfin
    (isFinite_div hlen (bounded_ofNat h64).1 hone)).1
  rw [← hcut, hnan] at hnum
  cases hnum

end Cuts

/-! ## Widened ranges -/

/-- How far a range is widened on each side: by a half if it has no length. -/
def padding (length : Float) : Float :=
  if 0.0 < length then 0.0 else 0.5

theorem padding_spec (length : Float) : (padding length).isFinite = true ∧
    0 ≤ rank (padding length) ∧ |value (padding length)| ≤ 1 := by
  unfold padding
  split
  · exact ⟨by decide, by decide, by rw [show value 0.0 = 0 from rfl]; norm_num⟩
  · exact ⟨by decide, by decide, by rw [value_oneHalf]; norm_num⟩

theorem lower_of_isNaN {a b : Float} (ha : a.isNaN = true) (hb : b.isNaN = false) :
    lower a b = b := by
  rw [lower, if_neg]
  rw [hb, Bool.or_false, decide_eq_true_eq, lt_iff, ha]
  rintro ⟨h, -⟩
  cases h

/-- The square in which numbers are no more than a half apart: a half to either side is not lost. -/
def plane : Envelope :=
  ⟨-4503599627370496.0, 4503599627370496.0, -4503599627370496.0, 4503599627370496.0⟩

theorem abs_value_le_of_plane {x : Float} (hx : x.isFinite = true)
    (h : rank plane.minX ≤ rank x ∧ rank x ≤ rank plane.maxX) : |value x| ≤ 2 ^ 52 := by
  have hl := (value_le_value_iff (by decide) hx).mpr h.1
  have hh := (value_le_value_iff hx (by decide)).mpr h.2
  have hlow : value plane.minX = -2 ^ 52 := by decide +kernel
  have hhigh : value plane.maxX = 2 ^ 52 := by decide +kernel
  exact abs_le.mpr ⟨by linarith, by linarith⟩

section Padding

variable {x y : Float} (hx : x.isFinite = true) (hy : y.isFinite = true) (hle : rank x ≤ rank y)

include hx hy hle

theorem padding_cases : x < y ∨ value x = value y ∧ padding (y - x) = 0.5 := by
  by_cases hlt : x < y
  · exact .inl hlt
  · refine .inr ⟨?_, if_neg fun h => hlt ((zero_lt_sub_iff hx hy).mp h)⟩
    rw [lt_iff, not_and, not_and] at hlt
    have hge := not_lt.mp (hlt (isNaN_of_isFinite hx) (isNaN_of_isFinite hy))
    exact le_antisymm ((value_le_value_iff hx hy).mpr hle) ((value_le_value_iff hy hx).mpr hge)

omit hle in
theorem widened :
    ((x - padding (y - x)).isFinite = true ∧ (y + padding (y - x)).isFinite = true) ∧
      rank (x - padding (y - x)) ≤ rank x ∧ rank y ≤ rank (y + padding (y - x)) := by
  obtain ⟨hfin, h0, h1⟩ := padding_spec (y - x)
  exact ⟨⟨(isFinite_shifted hx hfin h1).1, (isFinite_shifted hy hfin h1).2⟩,
    rank_sub_le_self (isNaN_of_isFinite hx) hfin h0,
    rank_le_add_self (isNaN_of_isFinite hy) hfin h0⟩

/-- A widened range is too long for a float only if it was longer than nothing before. -/
theorem isFinite_length (h : rank (y + padding (y - x)) ≤ rank x) :
    ((y + padding (y - x)) - (x - padding (y - x))).isFinite = true := by
  have hup := (widened hx hy).2.2
  rcases padding_cases hx hy hle with hlt | ⟨heq, hp⟩
  · have := (lt_iff.mp hlt).2.2
    omega
  · rw [hp]
    exact isFinite_widened_sub hx hy heq

/-- A widened range of a moderate size has a length and a moderate size. -/
theorem widened_of_moderate (hbx : |value x| ≤ 2 ^ 52) (hby : |value y| ≤ 2 ^ 52) :
    x - padding (y - x) < y + padding (y - x) ∧
      |value (x - padding (y - x))| ≤ 2 ^ 53 ∧ |value (y + padding (y - x))| ≤ 2 ^ 53 := by
  obtain ⟨⟨hsub, hadd⟩, hdown, hup⟩ := widened hx hy
  obtain ⟨hfin, -, hp⟩ := padding_spec (y - x)
  obtain ⟨hsnum, hsnear⟩ := nearest_sub hx hfin
  obtain ⟨hanum, hanear⟩ := nearest_add hy hfin
  obtain ⟨hl, hl'⟩ := abs_le.mp hbx
  obtain ⟨hh, hh'⟩ := abs_le.mp hby
  obtain ⟨hp0, hp1⟩ := abs_le.mp hp
  refine ⟨?_, (bounded_of_nearest hsnum hsnear (by norm_num)
    (abs_le.mpr ⟨by linarith, by linarith⟩)).2, (bounded_of_nearest hanum hanear (by norm_num)
    (abs_le.mpr ⟨by linarith, by linarith⟩)).2⟩
  rcases padding_cases hx hy hle with hlt | ⟨-, hp⟩
  · have hlt := (lt_iff.mp hlt).2.2
    exact lt_iff.mpr ⟨isNaN_of_isFinite hsub, isNaN_of_isFinite hadd, by omega⟩
  · rw [hp]
    exact sub_half_lt_add_half hx hy hle hbx

theorem cuttable_widened {count : Nat} (h0 : 0 < count) (h64 : count < 2 ^ 64)
    (hlow : rank plane.minX ≤ rank x) (hhigh : rank y ≤ rank plane.maxX) :
    Cuttable (x - padding (y - x)) (y + padding (y - x)) count := by
  obtain ⟨⟨hsub, hadd⟩, -⟩ := widened hx hy
  obtain ⟨hlt, hl, hh⟩ := widened_of_moderate hx hy hle
    (abs_value_le_of_plane hx ⟨hlow, hle.trans hhigh⟩)
    (abs_value_le_of_plane hy ⟨hlow.trans hle, hhigh⟩)
  exact cuttable_of_moderate hsub hadd h0 h64 hlt hl hh

/-- If the last part of a widened range has finite bounds and some part reaches down to where the
range began before, the range can be cut. -/
theorem cuttable_of_parts {count : Nat} (h0 : 0 < count) (h64 : count < 2 ^ 64) {b : Nat → Float}
    (hb : b = cut (x - padding (y - x)) (y + padding (y - x)) count)
    (hlt : x - padding (y - x) < y + padding (y - x))
    (hlast : (lower (b (count - 1)) (b count)).isFinite = true ∧
      (upper (b (count - 1)) (b count)).isFinite = true)
    (hreach : ∃ i < count, rank (lower (b i) (b (i + 1))) ≤ rank x) :
    Cuttable (x - padding (y - x)) (y + padding (y - x)) count := by
  obtain ⟨⟨hsub, hadd⟩, -⟩ := widened hx hy
  subst hb
  rw [cut_self] at hlast
  rcases cuttable_of_last hsub hadd h0 h64 hlt hlast with h | ⟨rfl, hlen, hnan⟩
  · exact h
  · obtain ⟨i, hi, hrank⟩ := hreach
    obtain rfl : i = 0 := by omega
    rw [zero_add, cut_self, lower_of_isNaN hnan (isNaN_of_isFinite hadd)] at hrank
    rw [isFinite_length hx hy hle hrank] at hlen
    cases hlen

end Padding

/-! ## Grids of a box -/

section Box

variable {e : Envelope} (columns rows : Nat) {t : Tiling} (he : e.isProper = true)

include he in
/-- The cells of a box stand between the cuts of its sides. -/
theorem mem_uniformCells {c : Envelope} :
    c ∈ uniformCells e columns rows ↔ ∃ i < columns, ∃ j < rows,
      c = .ofBounds (cut e.minX e.maxX columns i) (cut e.minX e.maxX columns (i + 1))
        (cut e.minY e.maxY rows j) (cut e.minY e.maxY rows (j + 1)) := by
  have hne : ¬ e.isEmpty = true := by
    rw [(ordered_of_isProper he).isEmpty]
    exact Bool.false_ne_true
  simp only [uniformCells, List.mem_flatMap, List.mem_map, List.mem_range, width, height,
    if_neg hne]
  constructor
  · rintro ⟨j, hj, i, hi, rfl⟩
    rw [slot_eq hi, slot_eq hj]
    exact ⟨i, hi, j, hj, rfl⟩
  · rintro ⟨i, hi, j, hj, rfl⟩
    refine ⟨j, hj, i, hi, ?_⟩
    rw [slot_eq hi, slot_eq hj]
    rfl

theorem isProper_ofBounds {x₁ x₂ y₁ y₂ : Float} (hx₁ : x₁.isFinite = true)
    (hx₂ : x₂.isFinite = true) (hy₁ : y₁.isFinite = true) (hy₂ : y₂.isFinite = true) :
    (Envelope.ofBounds x₁ x₂ y₁ y₂).isProper = true := by
  obtain ⟨nx₁, hx₁⟩ := isFinite_iff.mp hx₁
  obtain ⟨nx₂, hx₂⟩ := isFinite_iff.mp hx₂
  obtain ⟨ny₁, hy₁⟩ := isFinite_iff.mp hy₁
  obtain ⟨ny₂, hy₂⟩ := isFinite_iff.mp hy₂
  obtain ⟨nl, hl⟩ := rank_lower nx₁ nx₂
  obtain ⟨nr, hr⟩ := rank_upper nx₁ nx₂
  obtain ⟨nb, hb⟩ := rank_lower ny₁ ny₂
  obtain ⟨nt, ht⟩ := rank_upper ny₁ ny₂
  refine isProper_iff.mpr ⟨⟨nl, nr, nb, nt, ?_, ?_⟩, isFinite_iff.mpr ⟨nl, ?_⟩,
    isFinite_iff.mpr ⟨nr, ?_⟩, isFinite_iff.mpr ⟨nb, ?_⟩, isFinite_iff.mpr ⟨nt, ?_⟩⟩ <;>
      dsimp only [ofBounds] <;> omega

variable {columns rows}

include he

/-- A grid of a proper box with columns and rows is made if the box has a width and a height and all
cells are proper. -/
theorem uniform_ok_iff (hcols : 0 < columns) (hrows : 0 < rows) (hsize : columns * rows < 2 ^ 64) :
    uniform e columns rows = .ok t ↔ (e.minX < e.maxX ∧ e.minY < e.maxY) ∧
      make (uniformCells e columns rows) = .ok t := by
  obtain ⟨ho, hx₁, hx₂, hy₁, hy₂⟩ := isProper_iff.mp he
  have hne : ¬ e.isEmpty = true := by
    rw [ho.isEmpty]
    exact Bool.false_ne_true
  have hlength {a b : Float} (ha : a.isFinite = true) (hb : b.isFinite = true) :
      decide (b - a ≤ 0.0) = false ↔ a < b := by
    have hnum := (nearest_sub hb ha).1
    rw [← zero_lt_sub_iff ha hb, decide_eq_false_iff_not, le_iff, lt_iff]
    simp only [hnum, show (0.0 : Float).isNaN = false from rfl, true_and, not_le]
  have hsides : (decide (e.maxX - e.minX ≤ 0.0) || decide (e.maxY - e.minY ≤ 0.0)) = false ↔
      e.minX < e.maxX ∧ e.minY < e.maxY := by
    rw [Bool.or_eq_false_iff, hlength hx₁ hx₂, hlength hy₁ hy₂]
  rw [uniform, if_neg (by omega)]
  simp only [he, width, height, if_neg hne, Bool.not_true, Bool.false_or]
  split
  · next h =>
    constructor
    · intro h'
      cases h'
    · rintro ⟨hlt, -⟩
      rw [hsides.mpr hlt] at h
      cases h
  · next h =>
    rw [Bool.not_eq_true] at h
    rw [if_neg (show ¬ Nat.pow 2 64 ≤ columns * rows from Nat.not_le.mpr hsize)]
    exact ⟨fun h' => ⟨hsides.mp h, h'⟩, And.right⟩

end Box

/-! ## Grids around envelopes -/

/-- The box around the proper ones of some envelopes, widened where it has no width or height. -/
def box (es : List Envelope) : Envelope :=
  let e := hullAll (es.filter Envelope.isProper)
  e.grow (padding e.width) (padding e.height)

/-- The grid around some envelopes can be made, its box covers every proper one of them, and it
rejects no objects that have these envelopes. -/
def Accepts (es : List Envelope) (columns rows : Nat) : Prop :=
  ∃ t, covering es columns rows = .ok t ∧
    (∀ e ∈ es, e.isProper = true → t.extent.covers e = true) ∧
    ∀ {α : Type} [Spatial α] (as : List α), (∀ a ∈ as, Spatial.envelope a ∈ es) →
      ∃ c, t.partition as = .ok c

section Around

variable {es : List Envelope} {columns rows : Nat} (hes : ∃ e ∈ es, e.isProper = true)

include hes

theorem isHull_proper :
    IsHull (hullAll (es.filter Envelope.isProper)) (es.filter Envelope.isProper) ∧
      (hullAll (es.filter Envelope.isProper)).isProper = true := by
  obtain ⟨e, he, hp⟩ := hes
  have hproper : ∀ e ∈ es.filter Envelope.isProper, e.isProper = true :=
    fun e he => (List.mem_filter.mp he).2
  have hull := isHull_hullAll (List.ne_nil_of_mem (List.mem_filter.mpr ⟨he, hp⟩))
    fun e he => ordered_of_isProper (hproper e he)
  exact ⟨hull, hull.isProper hproper⟩

theorem box_eq {h : Envelope} (hh : hullAll (es.filter Envelope.isProper) = h) :
    box es = ⟨h.minX - padding (h.maxX - h.minX), h.maxX + padding (h.maxX - h.minX),
      h.minY - padding (h.maxY - h.minY), h.maxY + padding (h.maxY - h.minY)⟩ := by
  have hne := (ordered_of_isProper (isHull_proper hes).2).isEmpty
  subst hh
  simp only [box, grow, width, height, hne, Bool.false_eq_true, if_false]

/-- The box is proper and covers the proper envelopes. -/
theorem box_spec : (box es).isProper = true ∧
    (box es).covers (hullAll (es.filter Envelope.isProper)) = true := by
  obtain ⟨ho, hx₁, hx₂, hy₁, hy₂⟩ := isProper_iff.mp (isHull_proper hes).2
  obtain ⟨⟨fx₁, fx₂⟩, hl, hr⟩ := widened hx₁ hx₂
  obtain ⟨⟨fy₁, fy₂⟩, hb, ht⟩ := widened hy₁ hy₂
  have hord : Ordered (box es) := by
    rw [box_eq hes rfl]
    exact ⟨isNaN_of_isFinite fx₁, isNaN_of_isFinite fx₂, isNaN_of_isFinite fy₁,
      isNaN_of_isFinite fy₂, hl.trans (ho.le_x.trans hr), hb.trans (ho.le_y.trans ht)⟩
  rw [isProper_iff, covers_iff]
  refine ⟨⟨hord, ?_⟩, hord, ho, ?_⟩ <;> rw [box_eq hes rfl]
  · exact ⟨fx₁, fx₂, fy₁, fy₂⟩
  · exact ⟨⟨hl, hr⟩, hb, ht⟩

theorem covering_eq : covering es columns rows = uniform (box es) columns rows := by
  have hne := (ordered_of_isProper (isHull_proper hes).2).isEmpty
  rw [covering]
  simp only [hne, Bool.false_eq_true, if_false]
  rfl

theorem covers_of_covers_box {c : Envelope} (hc : c.covers (box es) = true) {e : Envelope}
    (he : e ∈ es) (hp : e.isProper = true) : c.covers e = true :=
  covers_trans hc (covers_trans (box_spec hes).2
    ((isHull_proper hes).1.covers e (List.mem_filter.mpr ⟨he, hp⟩)))

variable (hcols : 0 < columns) (hrows : 0 < rows) (hsize : columns * rows < 2 ^ 64)

include hcols hrows hsize

omit hes in
theorem counts_lt : columns < 2 ^ 64 ∧ rows < 2 ^ 64 :=
  ⟨(Nat.le_mul_of_pos_right columns hrows).trans_lt hsize,
    (Nat.le_mul_of_pos_left rows hcols).trans_lt hsize⟩

/-- If both sides of the box can be cut, the grid accepts the envelopes. -/
theorem accepts_of_cuttable (hx : Cuttable (box es).minX (box es).maxX columns)
    (hy : Cuttable (box es).minY (box es).maxY rows) : Accepts es columns rows := by
  have hp := (box_spec hes).1
  obtain ⟨ho, hx₁, hx₂, hy₁, hy₂⟩ := isProper_iff.mp hp
  obtain ⟨hc64, hr64⟩ := counts_lt hcols hrows hsize
  have hmem {i j : ℕ} (hi : i < columns) (hj : j < rows) :=
    (mem_uniformCells columns rows hp).mpr ⟨i, hi, j, hj, rfl⟩
  have hproper : ∀ c ∈ uniformCells (box es) columns rows, c.isProper = true := by
    intro c hc
    obtain ⟨i, hi, j, hj, rfl⟩ := (mem_uniformCells columns rows hp).mp hc
    exact isProper_ofBounds (hx.isFinite_cut hx₁ hx₂ hcols hc64 hi.le)
      (hx.isFinite_cut hx₁ hx₂ hcols hc64 hi) (hy.isFinite_cut hy₁ hy₂ hrows hr64 hj.le)
      (hy.isFinite_cut hy₁ hy₂ hrows hr64 hj)
  have hmake := make_of_proper (List.ne_nil_of_mem (hmem hcols hrows)) hproper
  have hok := (uniform_ok_iff hp hcols hrows hsize).mpr ⟨⟨hx.1, hy.1⟩, hmake⟩
  have hull := (made_of_make hmake).1.isHull
  have hcover : (hullAll (uniformCells (box es) columns rows)).covers (box es) = true := by
    obtain ⟨hord, -, ⟨hl, -⟩, hb, -⟩ := covers_iff.mp (hull.covers _ (hmem hcols hrows))
    obtain ⟨-, -, ⟨-, hr⟩, -, ht⟩ := covers_iff.mp (hull.covers _
      (hmem (Nat.sub_lt hcols Nat.one_pos) (Nat.sub_lt hrows Nat.one_pos)))
    obtain ⟨hl', hr'⟩ := hx.reach hx₁ hx₂ hcols hc64
    obtain ⟨hb', ht'⟩ := hy.reach hy₁ hy₂ hrows hr64
    exact covers_iff.mpr ⟨hord, ho, ⟨hl.trans hl', hr'.trans hr⟩, hb.trans hb', ht'.trans ht⟩
  have hmembers (e : Envelope) (he : e ∈ es) (hep : e.isProper = true) :=
    covers_of_covers_box hes hcover he hep
  exact ⟨_, (covering_eq hes).trans hok, hmembers, fun as has =>
    exists_partition fun a ha hap => hmembers _ (has a ha) hap⟩

/-- If the grid accepts the envelopes, both sides of the box can be cut. -/
theorem cuttable_of_accepts (h : Accepts es columns rows) :
    Cuttable (box es).minX (box es).maxX columns ∧ Cuttable (box es).minY (box es).maxY rows := by
  obtain ⟨t, hok, hcov, -⟩ := h
  have hp := (box_spec hes).1
  obtain ⟨hull, hhp⟩ := isHull_proper hes
  obtain ⟨ho, hx₁, hx₂, hy₁, hy₂⟩ := isProper_iff.mp hhp
  obtain ⟨hc64, hr64⟩ := counts_lt hcols hrows hsize
  rw [covering_eq hes, uniform_ok_iff hp hcols hrows hsize] at hok
  obtain ⟨⟨hltx, hlty⟩, hmake⟩ := hok
  obtain ⟨hmade, hcells⟩ := made_of_make hmake
  have hcell {c : Envelope} := hcells ▸ mem_uniformCells columns rows hp (c := c)
  have hcover := hull.least fun e he => hcov e (List.mem_filter.mp he).1 (List.mem_filter.mp he).2
  obtain ⟨-, -, ⟨hdown, -⟩, hbelow, -⟩ := covers_iff.mp hcover
  -- the last cell is proper, and some cell reaches down to each lower side of the envelopes
  obtain ⟨hl, hr, hb, ht⟩ := finite_of_isProper (hmade.proper _ (hcell.mpr
    ⟨columns - 1, Nat.sub_lt hcols Nat.one_pos, rows - 1, Nat.sub_lt hrows Nat.one_pos, rfl⟩))
  rw [Nat.sub_add_cancel hcols, Nat.sub_add_cancel hrows] at hl hr hb ht
  obtain ⟨c, hc, hminX⟩ := hmade.isHull.minX_attained
  obtain ⟨i, hi, _, -, rfl⟩ := hcell.mp hc
  obtain ⟨c, hc, hminY⟩ := hmade.isHull.minY_attained
  obtain ⟨_, -, j, hj, rfl⟩ := hcell.mp hc
  rw [box_eq hes rfl] at *
  exact ⟨cuttable_of_parts hx₁ hx₂ ho.le_x hcols hc64 rfl hltx ⟨hl, hr⟩
      ⟨i, hi, hminX.symm.trans_le hdown⟩,
    cuttable_of_parts hy₁ hy₂ ho.le_y hrows hr64 rfl hlty ⟨hb, ht⟩
      ⟨j, hj, hminY.symm.trans_le hbelow⟩⟩

/-- Both sides of the box can be cut if the proper envelopes lie in the plane. -/
theorem cuttable_of_plane
    (hplane : ∀ e ∈ es, e.isProper = true → plane.covers e = true) :
    Cuttable (box es).minX (box es).maxX columns ∧ Cuttable (box es).minY (box es).maxY rows := by
  obtain ⟨hull, hhp⟩ := isHull_proper hes
  obtain ⟨ho, hx₁, hx₂, hy₁, hy₂⟩ := isProper_iff.mp hhp
  obtain ⟨hc64, hr64⟩ := counts_lt hcols hrows hsize
  obtain ⟨-, -, ⟨hl, hr⟩, hb, ht⟩ := covers_iff.mp
    (hull.least fun e he => hplane e (List.mem_filter.mp he).1 (List.mem_filter.mp he).2)
  rw [box_eq hes rfl]
  exact ⟨cuttable_widened hx₁ hx₂ ho.le_x hcols hc64 hl hr,
    cuttable_widened hy₁ hy₂ ho.le_y hrows hr64 hb ht⟩

end Around

/-- The grid around some envelopes, at least one of them proper, accepts them just if both sides of
their box can be cut: if the box has a width and a height, which it lacks where rounding has lost
the half that it is widened by, and if the last column and the last row begin at finite numbers.
Both is so if the envelopes lie in the plane. -/
theorem accepts_iff {es : List Envelope} {columns rows : Nat}
    (hes : ∃ e ∈ es, e.isProper = true) (hcols : 0 < columns) (hrows : 0 < rows)
    (hsize : columns * rows < 2 ^ 64) :
    (Accepts es columns rows ↔ Cuttable (box es).minX (box es).maxX columns ∧
      Cuttable (box es).minY (box es).maxY rows) ∧
    ((∀ e ∈ es, e.isProper = true → plane.covers e = true) → Accepts es columns rows) := by
  have hmp := cuttable_of_accepts hes hcols hrows hsize
  have hmpr := accepts_of_cuttable hes hcols hrows hsize
  refine ⟨⟨hmp, fun h => hmpr h.1 h.2⟩, ?_⟩
  intro hplane
  have h := cuttable_of_plane hes hcols hrows hsize hplane
  exact hmpr h.1 h.2

/-- A half is too little to widen a far point by, and the range from end to end is too long; a point
nearby is accepted. -/
theorem accepts_points : ¬ Accepts [⟨1e17, 1e17, 0.0, 0.0⟩] 1 1 ∧
    ¬ Accepts [⟨-1e308, 1e308, 0.0, 1.0⟩] 1 1 ∧ Accepts [⟨1.0, 1.0, 0.0, 0.0⟩] 2 3 := by
  refine ⟨fun h => ?_, fun h => ?_, ?_⟩
  · exact absurd ((accepts_iff (by decide) (by decide) (by decide) (by decide)).1.mp h)
      (by decide +kernel)
  · exact absurd ((accepts_iff (by decide +kernel) (by decide) (by decide) (by decide)).1.mp h)
      (by decide +kernel)
  · exact (accepts_iff (by decide) (by decide) (by decide) (by decide)).2 (by decide +kernel)

end Tiling

end PlanarJoin
