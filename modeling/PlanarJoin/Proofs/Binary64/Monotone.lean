import Mathlib.Data.Rat.Floor
import PlanarJoin.Proofs.Binary64.Arithmetic

/-!
# Monotone float arithmetic

Which bucket of a layout a coordinate falls into is computed by a difference, a quotient and a
truncation.  Each of the three is monotone on ranks, also where it overflows and where the quotient
is no number: a NaN has rank zero, and its whole part is zero.

## Main definitions

* `Binary64.IsPositive`: a float without the sign, or a NaN.
* `Binary64.DividesInOrder`: a float by which division is monotone.

## Main results

* `Binary64.rank_sub_le`, `Binary64.rank_div_le`: differences and quotients are monotone.
* `Binary64.isPositive_sub`: a difference in order has no sign, unless it is `-0.0`.
* `Binary64.isPositive_upper_sub_lower`: the difference of the larger and the smaller has no sign.
* `Binary64.add_sub_of_top`: a sum with infinity is infinite, and so is a difference.
* `Binary64.rank_double`: what doubling does to a rank.
* `Binary64.floorBelow_le`: the whole part below a count is monotone.
-/

namespace PlanarJoin.Binary64

open Float.Model (UnpackedFloat Format)
open Float.Model.UnpackedFloat

/-! ## Ranks of results -/

theorem rank_pack_infinity (s : Sign) :
    rankOf (Float.Model.pack (.infinity s)).unpack = s.apply top := by
  cases s <;> decide

theorem rank_pack_nan : rankOf (Float.Model.pack .notANumber).unpack = 0 := by decide

theorem rank_pack_zero (s : Sign) : rankOf (Float.Model.pack (.zero s)).unpack = 0 := by
  cases s <;> decide

theorem isInf_of_isFinite {u : UnpackedFloat} (h : u.isFinite = true) : u.isInf = false := by
  rcases u with s | _ | s | ⟨s, m, e, hm⟩
  · cases h
  · cases h
  · rfl
  · rfl

/-- A NaN has rank zero. -/
theorem rank_of_isNaN {x : Float} (h : x.isNaN = true) : rank x = 0 := by
  unfold rank
  change x.toModel.unpack.isNaN = true at h
  generalize x.toModel.unpack = u at h
  rcases u with s | _ | s | ⟨s, m, e, hm⟩
  · cases h
  · rfl
  · cases h
  · cases h

/-- What is not infinite has the value and the rank of a finite float; a NaN those of zero. -/
theorem exists_finite {u : UnpackedFloat} (hc : Canonical u) (hu : u.isInf = false) :
    ∃ v, Canonical v ∧ v.isFinite = true ∧ valueOf v = valueOf u ∧ rankOf v = rankOf u := by
  rcases u with s | _ | s | ⟨s, m, e, hm⟩
  · cases hu
  · exact ⟨.zero .positive, trivial, rfl, rfl, rfl⟩
  · exact ⟨_, hc, rfl, rfl, rfl⟩
  · exact ⟨_, hc, rfl, rfl, rfl⟩

theorem valueOf_le {u v : UnpackedFloat} (hcu : Canonical u) (hcv : Canonical v)
    (hu : u.isInf = false) (hv : v.isInf = false) (h : rankOf u ≤ rankOf v) :
    valueOf u ≤ valueOf v := by
  obtain ⟨u', hcu', hfu', hvu, hru⟩ := exists_finite hcu hu
  obtain ⟨v', hcv', hfv', hvv, hrv⟩ := exists_finite hcv hv
  rw [← hvu, ← hvv]
  by_contra hlt
  have := valueOf_lt hcv' hcu' hfv' hfu' (not_le.mp hlt)
  omega

theorem eq_infinity_of_top_le {u : UnpackedFloat} (hc : Canonical u) (h : top ≤ rankOf u) :
    u = .infinity .positive := by
  rcases u with s | _ | s | ⟨s, m, e, hm⟩
  · cases s with
    | negative => exact absurd h (by decide)
    | positive => rfl
  · exact absurd h (by decide)
  · exact absurd h (by simp [rankOf, top])
  · have := (rankOf_finite_lt_top hc).2
    omega

theorem eq_infinity_of_le_neg_top {u : UnpackedFloat} (hc : Canonical u) (h : rankOf u ≤ -top) :
    u = .infinity .negative := by
  rcases u with s | _ | s | ⟨s, m, e, hm⟩
  · cases s with
    | negative => rfl
    | positive => exact absurd h (by decide)
  · exact absurd h (by decide)
  · exact absurd h (by simp [rankOf, top])
  · have := (rankOf_finite_lt_top hc).1
    omega

/-! ## Differences -/

theorem sub_of_isNaN {u v : UnpackedFloat} (h : u.isNaN = true ∨ v.isNaN = true) :
    UnpackedFloat.sub .binary64 u v = .notANumber := by
  rcases u with s | _ | s | ⟨s, m, e, hm⟩ <;> rcases v with t | _ | t | ⟨t, n, f, hn⟩ <;>
    simp [UnpackedFloat.isNaN] at h <;> rfl

/-- The rank of a difference. -/
def differenceRank (u w : UnpackedFloat) : Int :=
  rankOf (Float.Model.pack (UnpackedFloat.sub .binary64 u w)).unpack

theorem differenceRank_le_top (u w : UnpackedFloat) :
    -top ≤ differenceRank u w ∧ differenceRank u w ≤ top :=
  rank_le_top (.ofModel (Float.Model.pack (UnpackedFloat.sub .binary64 u w)))

theorem differenceRank_of_infinity {w : UnpackedFloat} (hw : w.isFinite = true) (s : Sign) :
    differenceRank (.infinity s) w = s.apply top := by
  rw [differenceRank, ← rank_pack_infinity]
  rcases w with r | _ | r | ⟨r, m, e, hm⟩
  · cases hw
  · cases hw
  · rfl
  · rfl

/-- A number less an infinity is the other infinity, or no number. -/
theorem differenceRank_infinity {u : UnpackedFloat} (hc : Canonical u) (hu : u.isNaN = false)
    (s : Sign) : differenceRank u (.infinity s) =
      if rankOf u = s.apply top then 0 else (-s).apply top := by
  rcases u with r | _ | r | ⟨r, m, e, hm⟩
  · cases r <;> cases s <;> decide
  · cases hu
  · cases r <;> cases s <;> decide
  · have := rankOf_finite_lt_top hc
    have hne : rankOf (.finite r m e hm) ≠ s.apply top := by
      cases s <;> simp only [Sign.apply] <;> omega
    rw [if_neg hne]
    exact rank_pack_infinity (-s)

theorem differenceRank_nan (u : UnpackedFloat) : differenceRank u .notANumber = 0 := by
  rw [differenceRank, sub_of_isNaN (.inr rfl)]
  exact rank_pack_nan

/-- Taking the same finite number off two numbers keeps their order. -/
theorem differenceRank_le_finite {u v w : UnpackedFloat} (hcu : Canonical u) (hcv : Canonical v)
    (hcw : Canonical w) (hu : u.isNaN = false) (hv : v.isNaN = false) (hw : w.isFinite = true)
    (h : rankOf u ≤ rankOf v) : differenceRank u w ≤ differenceRank v w := by
  -- an infinity is the least or the greatest, and so is what is left of it
  by_cases hlow : rankOf u ≤ -top
  · obtain rfl := eq_infinity_of_le_neg_top hcu hlow
    rw [differenceRank_of_infinity hw]
    exact (differenceRank_le_top v w).1
  · by_cases hhigh : top ≤ rankOf v
    · obtain rfl := eq_infinity_of_top_le hcv hhigh
      rw [differenceRank_of_infinity hw]
      exact (differenceRank_le_top u w).2
    · have hfu := (isFinite_iff_rankOf hcu).mpr ⟨hu, not_le.mp hlow, by omega⟩
      have hfv := (isFinite_iff_rankOf hcv).mpr ⟨hv, by omega, not_le.mp hhigh⟩
      have hle := valueOf_le hcu hcv (isInf_of_isFinite hfu) (isInf_of_isFinite hfv) h
      exact (gives_sub hcu hcw hfu hw).2.mono (gives_sub hcv hcw hfv hw).2 (by linarith)

/-- Taking the same float off two numbers keeps their order. -/
theorem rank_sub_le {x y : Float} (m : Float) (h : x ≤ y) : rank (x - m) ≤ rank (y - m) := by
  obtain ⟨hx, hy, h⟩ := le_iff.mp h
  have hcx : Canonical x.toModel.unpack := canonical_unpack _
  have hcy : Canonical y.toModel.unpack := canonical_unpack _
  have hcm : Canonical m.toModel.unpack := canonical_unpack _
  have htop := rank_le_top x
  have htop' := rank_le_top y
  change differenceRank _ m.toModel.unpack ≤ differenceRank _ m.toModel.unpack
  generalize m.toModel.unpack = w at hcm
  unfold rank at h htop htop'
  by_cases hw : w.isFinite = true
  · exact differenceRank_le_finite hcx hcy hcm hx hy hw h
  · rcases w with s | _ | s | ⟨s, n, f, hn⟩
    · rw [differenceRank_infinity hcx hx, differenceRank_infinity hcy hy]
      cases s <;> simp only [Sign.apply, top] at * <;> split_ifs <;> omega
    · rw [differenceRank_nan, differenceRank_nan]
    · exact absurd rfl hw
    · exact absurd rfl hw

/-! ## Quotients -/

/-- An unpacked float without the sign, or a NaN. -/
def IsPositiveOf : UnpackedFloat → Prop
  | .infinity s | .zero s | .finite s _ _ _ => s = .positive
  | .notANumber => True

/-- A float without the sign, or a NaN. -/
def IsPositive (w : Float) : Prop :=
  IsPositiveOf w.toModel.unpack

/-- A float of positive rank has no sign. -/
theorem isPositiveOf_of_rankOf_pos {u : UnpackedFloat} (hc : Canonical u) (h : 0 < rankOf u) :
    IsPositiveOf u := by
  rcases u with s | _ | s | ⟨s, m, e, hm⟩
  · cases s with
    | negative => exact absurd h (by decide)
    | positive => rfl
  · trivial
  · exact absurd h (lt_irrefl 0)
  · cases s with
    | negative => exact absurd h (rankOf_finite_neg hm hc.2.1).not_gt
    | positive => rfl

/-- What has no sign does not lie below zero. -/
theorem rank_nonneg_of_isPositive {w : Float} (h : IsPositive w) : 0 ≤ rank w := by
  have hc : Canonical w.toModel.unpack := canonical_unpack _
  unfold IsPositive at h
  unfold rank
  generalize w.toModel.unpack = u at h hc
  rcases u with s | _ | s | ⟨s, m, e, hm⟩
  · obtain rfl : s = .positive := h
    decide
  · exact le_rfl
  · exact le_rfl
  · obtain rfl : s = .positive := h
    exact (rankOf_finite_pos hm hc.2.1).le

theorem isPositiveOf_packComponents (e : BitVec 11) (m : BitVec 52) :
    IsPositiveOf (UnpackedFloat.unpack .binary64 (packComponents .binary64 .positive e m)) := by
  simp only [UnpackedFloat.unpack, ofBitVec_unpackSign]
  split
  · split <;> trivial
  · split
    · split <;> trivial
    · rfl

/-- Packing keeps the sign. -/
theorem isPositiveOf_pack {u : UnpackedFloat} (h : IsPositiveOf u) :
    IsPositiveOf (UnpackedFloat.unpack .binary64 (UnpackedFloat.pack .binary64 u)) := by
  rcases u with s | _ | s | ⟨s, m, e, hm⟩
  · obtain rfl : s = .positive := h
    exact isPositiveOf_packComponents _ _
  · exact isPositiveOf_packComponents _ _
  · obtain rfl : s = .positive := h
    exact isPositiveOf_packComponents _ _
  · obtain rfl : s = .positive := h
    simp only [UnpackedFloat.pack]
    split
    · exact isPositiveOf_packComponents _ _
    · split <;> exact isPositiveOf_packComponents _ _

theorem isPositiveOf_roundWithAccuracy (m : ℕ) (e : ℤ) (acc : Accuracy) :
    IsPositiveOf (roundWithAccuracy .binary64 .positive m e acc) := by
  unfold roundWithAccuracy
  dsimp only
  split <;> rfl

/-- A quotient of floats without signs has none. -/
theorem isPositiveOf_div {u v : UnpackedFloat} (hu : IsPositiveOf u) (hv : IsPositiveOf v) :
    IsPositiveOf (UnpackedFloat.div .binary64 u v) := by
  rcases u with s | _ | s | ⟨s, m, e, hm⟩ <;> rcases v with t | _ | t | ⟨t, n, f, hn⟩ <;>
    first
    | trivial
    | obtain rfl : s = .positive := hu
      obtain rfl : t = .positive := hv
      first
      | rfl
      | exact isPositiveOf_roundWithAccuracy _ _ _

/-- A quotient of floats without signs has none, also where it is too small for a float. -/
theorem isPositive_div {x y : Float} (hx : IsPositive x) (hy : IsPositive y) : IsPositive (x / y) :=
  isPositiveOf_pack (isPositiveOf_div hx hy)

/-- The rank of a quotient. -/
def quotientRank (u w : UnpackedFloat) : Int :=
  rankOf (Float.Model.pack (UnpackedFloat.div .binary64 u w)).unpack

theorem quotientRank_le_top (u w : UnpackedFloat) :
    -top ≤ quotientRank u w ∧ quotientRank u w ≤ top :=
  rank_le_top (.ofModel (Float.Model.pack (UnpackedFloat.div .binary64 u w)))

/-- Dividing by zero gives an infinity or no number. -/
theorem quotientRank_zero (u : UnpackedFloat) (hu : Canonical u) :
    quotientRank u (.zero .positive) =
      if rankOf u < 0 then -top else if rankOf u = 0 then 0 else top := by
  unfold quotientRank
  rcases u with s | _ | s | ⟨s, m, e, hm⟩
  · cases s <;> decide
  · decide
  · cases s <;> decide
  · cases s with
    | negative =>
      rw [if_pos (rankOf_finite_neg hm hu.2.1)]
      exact rank_pack_infinity .negative
    | positive =>
      have := rankOf_finite_pos hm hu.2.1
      rw [if_neg (by omega), if_neg (by omega)]
      exact rank_pack_infinity .positive

theorem quotientRank_infinity (u : UnpackedFloat) (s : Sign) :
    quotientRank u (.infinity s) = 0 := by
  unfold quotientRank
  rcases u with t | _ | t | ⟨t, m, e, hm⟩
  · cases t <;> cases s <;> decide
  · cases s <;> decide
  · cases t <;> cases s <;> decide
  · exact rank_pack_zero (t / s)

theorem quotientRank_nan (u : UnpackedFloat) : quotientRank u .notANumber = 0 := by
  rcases u with t | _ | t | ⟨t, m, e, hm⟩ <;> exact rank_pack_nan

/-- All quotients by a float that is not finite have rank zero. -/
theorem rank_div_of_not_isFinite {w : Float} (hw : ¬ w.isFinite = true) (x : Float) :
    rank (x / w) = 0 := by
  change ¬ w.toModel.unpack.isFinite = true at hw
  change quotientRank _ w.toModel.unpack = 0
  generalize w.toModel.unpack = u at hw
  rcases u with s | _ | s | ⟨s, m, e, hm⟩
  · exact quotientRank_infinity _ s
  · exact quotientRank_nan _
  · exact absurd rfl hw
  · exact absurd rfl hw

/-- A quotient of what is not infinite by a finite number is nearest to the exact quotient; a NaN
counts as zero. -/
theorem nearest_quotientRank {u w : UnpackedFloat} (hu : u.isInf = false) (hw : w.isFinite = true)
    (hw0 : valueOf w ≠ 0) : Nearest (valueOf u / valueOf w) (quotientRank u w) := by
  rcases u with s | _ | s | ⟨s, m, e, hm⟩
  · cases hu
  · have h : quotientRank .notANumber w = 0 := by
      rcases w with t | _ | t | ⟨t, n, f, hn⟩ <;> exact rank_pack_nan
    rw [h, show valueOf .notANumber = 0 from rfl, zero_div]
    exact nearest_zero
  · exact (gives_div rfl hw hw0).2
  · exact (gives_div rfl hw hw0).2

theorem quotientRank_of_infinity (s : Sign) {n : ℕ} {f : ℤ} {hn : 0 < n} :
    quotientRank (.infinity s) (.finite .positive n f hn) = s.apply top := by
  cases s <;> exact rank_pack_infinity _

theorem quotientRank_le_finite {u v : UnpackedFloat} {n : ℕ} {f : ℤ} {hn : 0 < n}
    (hu : Canonical u) (hv : Canonical v) (h : rankOf u ≤ rankOf v) :
    quotientRank u (.finite .positive n f hn) ≤ quotientRank v (.finite .positive n f hn) := by
  have hpos : 0 < valueOf (.finite .positive n f hn) := by
    simp only [valueOf, Sign.apply]
    positivity
  by_cases hiu : u.isInf = true
  · rcases u with s | _ | s | ⟨s, m, e, hm⟩
    · cases s with
      | negative =>
        rw [quotientRank_of_infinity]
        exact (quotientRank_le_top v _).1
      | positive =>
        rw [eq_infinity_of_top_le hv h]
    · cases hiu
    · cases hiu
    · cases hiu
  · by_cases hiv : v.isInf = true
    · rcases v with s | _ | s | ⟨s, m, e, hm⟩
      · cases s with
        | negative =>
          rw [eq_infinity_of_le_neg_top hu h]
        | positive =>
          rw [quotientRank_of_infinity]
          exact (quotientRank_le_top u _).2
      · cases hiv
      · cases hiv
      · cases hiv
    · rw [Bool.not_eq_true] at hiu hiv
      have hle := valueOf_le hu hv hiu hiv h
      exact (nearest_quotientRank hiu rfl hpos.ne').mono (nearest_quotientRank hiv rfl hpos.ne')
        (by gcongr)

/-- Dividing by the same positive float keeps the order of ranks. -/
theorem rank_div_le {p q w : Float} (hw : IsPositive w) (h : rank p ≤ rank q) :
    rank (p / w) ≤ rank (q / w) := by
  have hp : Canonical p.toModel.unpack := canonical_unpack _
  have hq : Canonical q.toModel.unpack := canonical_unpack _
  change quotientRank _ w.toModel.unpack ≤ quotientRank _ w.toModel.unpack
  unfold IsPositive at hw
  unfold rank at h
  generalize w.toModel.unpack = d at hw
  rcases d with s | _ | s | ⟨s, n, f, hn⟩
  · rw [quotientRank_infinity, quotientRank_infinity]
  · rw [quotientRank_nan, quotientRank_nan]
  · obtain rfl : s = .positive := hw
    rw [quotientRank_zero _ hp, quotientRank_zero _ hq]
    simp only [top]
    split_ifs <;> omega
  · obtain rfl : s = .positive := hw
    exact quotientRank_le_finite hp hq h

/-- Division by a float keeps finite numbers in order. -/
def DividesInOrder (w : Float) : Prop :=
  ∀ x y : Float, x.isFinite = true → y.isFinite = true → x ≤ y → ¬ y / w < x / w

theorem dividesInOrder_of_isPositive {w : Float} (hw : IsPositive w) : DividesInOrder w := by
  intro x y _ _ hxy hlt
  obtain ⟨-, -, hrank⟩ := le_iff.mp hxy
  obtain ⟨-, -, hquot⟩ := lt_iff.mp hlt
  exact absurd (rank_div_le hw hrank) (not_le.mpr hquot)

/-- Divided by `-0.0`, a negative number is above a positive one. -/
theorem not_dividesInOrder_negZero : ¬ DividesInOrder (-0.0) := fun h =>
  h (-1.0) 1.0 (by decide) (by decide) (by decide) (by decide)

/-! ## Signs of differences -/

theorem isPositiveOf_normalize {i : ℤ} (hi : 0 ≤ i) (e : ℤ) :
    IsPositiveOf (UnpackedFloat.normalize .binary64 i e .positive) := by
  unfold UnpackedFloat.normalize
  split
  · next h => exact absurd (Int.compare_eq_lt.mp h) (not_lt.mpr hi)
  · rfl
  · exact isPositiveOf_roundWithAccuracy _ _ _

/-- A finite number less a finite number that is not larger has no sign. -/
theorem isPositiveOf_sub_finite {s t : Sign} {m n : ℕ} {e f : ℤ} {hm : 0 < m} {hn : 0 < n}
    (hu : Canonical (.finite s m e hm)) (hv : Canonical (.finite t n f hn))
    (h : rankOf (.finite t n f hn) ≤ rankOf (.finite s m e hm)) :
    IsPositiveOf (UnpackedFloat.sub .binary64 (.finite s m e hm) (.finite t n f hn)) := by
  have hdiff : 0 ≤ valueOf (.finite s m e hm) - valueOf (.finite t n f hn) :=
    sub_nonneg.mpr (valueOf_le hv hu rfl rfl h)
  rw [valueOf_sub_finite] at hdiff
  refine isPositiveOf_normalize ?_ _
  exact_mod_cast nonneg_of_mul_nonneg_left hdiff (by positivity)

/-- Of two numbers the larger less the smaller has no sign, unless they are `-0.0` and `0.0`. -/
theorem isPositiveOf_sub {u v : UnpackedFloat} (hu : Canonical u) (hv : Canonical v)
    (h : rankOf v ≤ rankOf u) (hz : u = .zero .negative → v ≠ .zero .positive) :
    IsPositiveOf (UnpackedFloat.sub .binary64 u v) := by
  have hzero (s : Sign) : rankOf (.zero s) = 0 := rfl
  have hinf (s : Sign) : rankOf (.infinity s) = s.apply top := rfl
  rcases u with s | _ | s | ⟨s, m, e, hm⟩ <;> rcases v with t | _ | t | ⟨t, n, f, hn⟩
  case finite.finite => exact isPositiveOf_sub_finite hu hv h
  case finite.infinity =>
    cases t with
    | negative => rfl
    | positive => exact absurd h (rankOf_finite_lt_top hu).2.not_ge
  case finite.zero =>
    cases s with
    | negative => exact absurd h (rankOf_finite_neg hm hu.2.1).not_ge
    | positive => rfl
  case infinity.finite =>
    cases s with
    | negative => exact absurd h (rankOf_finite_lt_top hv).1.not_ge
    | positive => rfl
  case zero.finite =>
    cases t with
    | negative => rfl
    | positive => exact absurd h (rankOf_finite_pos hn hv.2.1).not_ge
  case zero.zero =>
    cases s <;> cases t <;> first | rfl | exact absurd rfl (hz rfl)
  case infinity.infinity =>
    cases s <;> cases t <;> trivial
  case infinity.zero =>
    cases s <;> first | rfl | exact absurd h (by cases t <;> decide)
  case zero.infinity =>
    cases t <;> first | rfl | exact absurd h (by cases s <;> decide)
  all_goals trivial

/-- The difference of two floats of which the first is not less has no sign, unless they are `-0.0`
and `0.0`. -/
theorem isPositive_sub_of_not_lt {x y : Float} (h : ¬ x < y)
    (hz : x.toModel.unpack = .zero .negative → y.toModel.unpack ≠ .zero .positive) :
    IsPositive (x - y) := by
  have hpos : IsPositiveOf (UnpackedFloat.sub .binary64 x.toModel.unpack y.toModel.unpack) := by
    by_cases hnan : x.toModel.unpack.isNaN = true ∨ y.toModel.unpack.isNaN = true
    · rw [sub_of_isNaN hnan]
      trivial
    · rw [not_or, Bool.not_eq_true, Bool.not_eq_true] at hnan
      have hle : rank y ≤ rank x := not_lt.mp fun hlt => h (lt_iff.mpr ⟨hnan.1, hnan.2, hlt⟩)
      exact isPositiveOf_sub (canonical_unpack _) (canonical_unpack _) hle hz
  exact isPositiveOf_pack hpos

/-- The difference of two floats of which the first is not less has no sign, unless it is `-0.0`. -/
theorem isPositive_sub {x y : Float} (h : ¬ x < y) (hz : x - y ≠ -0.0) : IsPositive (x - y) := by
  refine isPositive_sub_of_not_lt h ?_
  intro hx hy
  have hsub : UnpackedFloat.sub .binary64 x.toModel.unpack y.toModel.unpack = .zero .negative := by
    rw [hx, hy]
    rfl
  exact hz (congrArg (fun u => Float.ofModel (Float.Model.pack u)) hsub)

/-- The larger of two floats less the smaller has no sign. -/
theorem isPositive_upper_sub_lower (x y : Float) : IsPositive (upper x y - lower x y) := by
  have hself (z : Float) : IsPositive (z - z) := by
    refine isPositive_sub_of_not_lt (fun h => lt_irrefl _ (lt_iff.mp h).2.2) ?_
    intro hneg hpos
    rw [hneg] at hpos
    cases hpos
  have hlt {a b : Float} (h : a < b) : IsPositive (b - a) := by
    have hrank := (lt_iff.mp h).2.2
    refine isPositive_sub_of_not_lt (fun h' => absurd (lt_iff.mp h').2.2 hrank.not_gt) ?_
    intro hb ha
    unfold rank at hrank
    rw [ha, hb] at hrank
    exact lt_irrefl _ hrank
  unfold upper lower
  simp only [Bool.or_eq_true, decide_eq_true_eq]
  split
  · next hupper =>
    split
    · exact hself x
    · next hlower => exact hlt (hupper.resolve_right fun hnan => hlower (.inr hnan))
  · next hupper =>
    split
    · next hlower => exact hlt (hlower.resolve_right fun hnan => hupper (.inr hnan))
    · exact hself y

/-! ## Infinite sums and doubling -/

theorem unpack_of_top_le {x : Float} (h : top ≤ rank x) :
    x.toModel.unpack = .infinity .positive := by
  have hc : Canonical x.toModel.unpack := canonical_unpack _
  unfold rank at h
  generalize x.toModel.unpack = u at hc h ⊢
  exact eq_infinity_of_top_le hc h

/-- A finite number and infinity make infinity, and the number less infinity is the other one. -/
theorem add_sub_of_top {x r : Float} (hx : x.isFinite = true) (hr : top ≤ rank r) :
    ((x + r).isNaN = false ∧ rank (x + r) = top) ∧
      (x - r).isNaN = false ∧ rank (x - r) = -top := by
  have hmodels : (x + r).toModel = Float.Model.pack (.infinity .positive) ∧
      (x - r).toModel = Float.Model.pack (.infinity .negative) := by
    change Float.Model.pack (UnpackedFloat.add .binary64 x.toModel.unpack r.toModel.unpack) = _ ∧
      Float.Model.pack (UnpackedFloat.sub .binary64 x.toModel.unpack r.toModel.unpack) = _
    change x.toModel.unpack.isFinite = true at hx
    rw [unpack_of_top_le hr]
    generalize x.toModel.unpack = u at hx
    rcases u with s | _ | s | ⟨s, m, e, hm⟩
    · cases hx
    · cases hx
    · exact ⟨rfl, rfl⟩
    · exact ⟨rfl, rfl⟩
  obtain ⟨hadd, hsub⟩ := hmodels
  unfold rank Float.isNaN
  rw [hadd, hsub]
  decide

theorem not_isFinite_add {x r : Float} (hx : x.isFinite = true) (hr : top ≤ rank r) :
    (x + r).isFinite = false := by
  have hrank := (add_sub_of_top hx hr).1.2
  cases hfin : (x + r).isFinite with
  | false => rfl
  | true => exact absurd (isFinite_iff.mp hfin).2.2 (by omega)

/-- A float of positive rank is finite or infinite, and a number. -/
theorem isFinite_of_rank {x : Float} (h0 : 0 < rank x) (h : rank x < top) : x.isFinite = true := by
  refine isFinite_iff.mpr ⟨?_, by simp only [top] at *; omega, h⟩
  by_contra hnan
  rw [Bool.not_eq_false] at hnan
  rw [rank_of_isNaN hnan] at h0
  exact lt_irrefl 0 h0

theorem isFinite_two : (2.0 : Float).isFinite = true := by decide

theorem value_two : value 2.0 = 2 := by
  have h : (2.0 : Float).toModel.unpack = .finite .positive (2 ^ 52) (-51) (by decide) := rfl
  rw [value, h, valueOf]
  norm_num [Sign.apply]

/-- Twice a magnitude is a binade further, or has twice as many of the least steps. -/
theorem nearestMagnitude_double {m : ℕ} {e : ℤ} {hm : 0 < m}
    (hc : Canonical (.finite .positive m e hm)) :
    NearestMagnitude (m * 2 ^ e * 2) (min ((m + (e + 1074) * 2 ^ 52) +
      min (m + (e + 1074) * 2 ^ 52) (2 ^ 52)) top) := by
  obtain ⟨hlt, he, -, hn⟩ := hc
  by_cases hm52 : 2 ^ 52 ≤ m
  · have hq : (m : ℚ) * 2 ^ e * 2 = m * 2 ^ (e + 1) := by
      rw [zpow_add_one₀ (by norm_num), mul_assoc]
    rw [hq]
    refine ⟨e + 1, m, by omega, mul_two_zpow_lt hlt _, .inr (le_mul_two_zpow hm52 _), ?_, ?_⟩
    · rw [mul_div_cancel_right₀ _ (by positivity)]
      exact rounds_intCast m
    · congr 1
      omega
  · obtain rfl : e = -1074 := by omega
    have hq (step : ℚ) : (m : ℚ) * step * 2 = ((2 * m : ℕ) : ℚ) * step := by
      push_cast
      ring
    rw [hq]
    refine ⟨-1074, (2 * m : ℕ), le_rfl, mul_two_zpow_lt (by omega) _, .inl rfl, ?_, ?_⟩
    · rw [mul_div_cancel_right₀ _ (by positivity)]
      exact rounds_intCast _
    · congr 1
      omega

/-- Doubling a positive float doubles its rank up to the length of a binade, and adds the length of
a binade from there on. -/
theorem rank_double {x : Float} (hx : 0 < rank x) :
    rank (x * 2.0) = min (rank x + min (rank x) (2 ^ 52)) top := by
  by_cases hfin : rank x < top
  · have hf := isFinite_of_rank hx hfin
    have hmul := (nearest_mul hf isFinite_two).2
    refine hmul.unique ?_
    have hc : Canonical x.toModel.unpack := canonical_unpack _
    rw [value_two]
    unfold value
    unfold rank at hx ⊢
    change x.toModel.unpack.isFinite = true at hf
    generalize x.toModel.unpack = u at hc hf hx
    rcases u with s | _ | s | ⟨s, m, e, hm⟩
    · cases hf
    · cases hf
    · exact absurd hx (lt_irrefl 0)
    · cases s with
      | negative => exact absurd hx (rankOf_finite_neg hm hc.2.1).not_gt
      | positive =>
        refine .inl ⟨?_, ?_⟩
        · simp only [valueOf, Sign.apply]
          positivity
        · simpa only [valueOf, rankOf, Sign.apply, Int.cast_natCast] using
            nearestMagnitude_double hc
  · have htop : rank x = top := le_antisymm (rank_le_top x).2 (not_lt.mp hfin)
    have hmul : rank (x * 2.0) = top := by
      change rankOf (Float.Model.pack (UnpackedFloat.mul .binary64 x.toModel.unpack
        (2.0 : Float).toModel.unpack)).unpack = top
      rw [unpack_of_top_le htop.ge]
      decide
    rw [hmul, htop]
    decide

/-! ## Truncations -/

theorem Extends.floor {em : ExtendedMantissa} {x : ℚ} (h : Extends em x) : ⌊x⌋₊ = em.mantissa := by
  obtain ⟨f, rfl, hf0, hf1, -⟩ := h
  rw [Nat.floor_eq_iff (by positivity)]
  constructor <;> linarith

/-- Shifting to exponent zero leaves the whole part. -/
theorem roundToInt_eq (s : Sign) (m : ℕ) (e : ℤ) :
    roundToInt s m e = s.apply (⌊(m : ℚ) * 2 ^ e⌋₊ : ℤ) := by
  rw [← decreaseExponent_value m e 0]
  simp only [roundToInt, shiftToExponent]
  refine congrArg (fun n : ℕ => s.apply (n : ℤ)) ?_
  have h := (extends_exact (decreaseExponent m e 0).1).shiftRight
    (0 - (decreaseExponent m e 0).2).toNat
  rw [← h.floor]
  congr 1
  have hexp : (decreaseExponent m e 0).2 = -((0 - (decreaseExponent m e 0).2).toNat : ℤ) := by
    simp only [decreaseExponent]
    omega
  rw [div_eq_mul_inv, ← zpow_natCast, ← zpow_neg, ← hexp]

/-- A float that is not infinite is truncated to its whole part, none below zero. -/
theorem toUInt64_of_not_isInf {u : UnpackedFloat} (hu : u.isInf = false) :
    u.toUInt64.toNat = min ⌊valueOf u⌋₊ (2 ^ 64 - 1) := by
  have hclamp (n : ℕ) : (UInt64.ofNatClamp n).toNat = min n (2 ^ 64 - 1) := by
    rw [UInt64.ofNatClamp]
    split
    · next h => simp only [UInt64.toNat_ofNatLT, UInt64.size] at h ⊢; omega
    · next h => simp only [UInt64.toNat_ofNatLT, UInt64.size] at h ⊢; omega
  rw [UnpackedFloat.toUInt64, hclamp]
  congr 1
  rcases u with s | _ | s | ⟨s, m, e, hm⟩
  · cases hu
  · simp [UnpackedFloat.toInt, valueOf]
  · simp [UnpackedFloat.toInt, valueOf]
  · rw [UnpackedFloat.toInt, roundToInt_eq, valueOf]
    cases s with
    | positive => simp [Sign.apply]
    | negative =>
      have hneg : (((Sign.negative.apply m : ℤ) : ℚ) * 2 ^ e) ≤ 0 := by
        simp only [Sign.apply]
        push_cast
        have : (0 : ℚ) ≤ m * 2 ^ e := by positivity
        linarith
      rw [Nat.floor_of_nonpos hneg]
      simp only [Sign.apply]
      omega

/-- Truncating is monotone. -/
theorem toUInt64_mono {p q : Float} (h : rank p ≤ rank q) :
    p.toUInt64.toNat ≤ q.toUInt64.toNat := by
  have hp : Canonical p.toModel.unpack := canonical_unpack _
  have hq : Canonical q.toModel.unpack := canonical_unpack _
  change p.toModel.unpack.toUInt64.toNat ≤ q.toModel.unpack.toUInt64.toNat
  unfold rank at h
  generalize p.toModel.unpack = u at hp h
  generalize q.toModel.unpack = v at hq h
  by_cases hu : u.isInf = true
  · rcases u with s | _ | s | ⟨s, m, e, hm⟩
    · cases s with
      | negative => exact Nat.zero_le _
      | positive => rw [eq_infinity_of_top_le hq h]
    · cases hu
    · cases hu
    · cases hu
  · by_cases hv : v.isInf = true
    · rcases v with s | _ | s | ⟨s, m, e, hm⟩
      · cases s with
        | negative => rw [eq_infinity_of_le_neg_top hp h]
        | positive => exact Nat.le_pred_of_lt (UnpackedFloat.toUInt64 u).toNat_lt
      · cases hv
      · cases hv
      · cases hv
    · rw [Bool.not_eq_true] at hu hv
      rw [toUInt64_of_not_isInf hu, toUInt64_of_not_isInf hv]
      exact min_le_min (Nat.floor_le_floor (valueOf_le hp hq hu hv h)) le_rfl

/-- Whole numbers below `2 ^ 53` of steps that are neither too small nor too large are floats. -/
theorem exists_valueOf_mul {n : ℕ} (hn : n < 2 ^ 53) {e : ℤ} (he : -1022 ≤ e) (he' : e ≤ 971) :
    ∃ u, Canonical u ∧ u.isFinite = true ∧ valueOf u = n * 2 ^ e := by
  rcases Nat.eq_zero_or_pos n with rfl | hpos
  · exact ⟨.zero .positive, trivial, rfl, by simp [valueOf]⟩
  · have hlog : n.log2 < 53 := (Nat.log2_lt hpos.ne').mpr hn
    have hlow : 2 ^ 52 ≤ n * 2 ^ (52 - n.log2) :=
      calc 2 ^ 52 = 2 ^ n.log2 * 2 ^ (52 - n.log2) := by rw [← pow_add]; congr 1; omega
        _ ≤ n * 2 ^ (52 - n.log2) := Nat.mul_le_mul_right _ (Nat.log2_self_le hpos.ne')
    have hhigh : n * 2 ^ (52 - n.log2) < 2 ^ 53 :=
      calc n * 2 ^ (52 - n.log2) < 2 ^ (n.log2 + 1) * 2 ^ (52 - n.log2) :=
            Nat.mul_lt_mul_of_pos_right Nat.lt_log2_self (by positivity)
        _ = 2 ^ 53 := by rw [← pow_add]; congr 1; omega
    refine ⟨.finite .positive (n * 2 ^ (52 - n.log2)) (n.log2 - 52 + e) (by positivity),
      ⟨hhigh, by omega, by omega, .inl hlow⟩, rfl, ?_⟩
    simp only [valueOf, Sign.apply]
    push_cast
    rw [mul_assoc, ← zpow_natCast, ← zpow_add₀ (by norm_num)]
    congr 2
    omega

theorem exists_valueOf_eq {n : ℕ} (hn : n < 2 ^ 53) :
    ∃ u, Canonical u ∧ u.isFinite = true ∧ valueOf u = n := by
  obtain ⟨u, hc, hu, hvalue⟩ := exists_valueOf_mul hn (e := 0) (by norm_num) (by norm_num)
  exact ⟨u, hc, hu, by rw [hvalue, zpow_zero, mul_one]⟩

/-- Whole numbers below `2 ^ 53` are far from the infinities. -/
theorem isFinite_ofNat {n : ℕ} (hn : n < 2 ^ 53) : (Float.ofNat n).isFinite = true := by
  obtain ⟨u, hc, hfin, hval⟩ := exists_valueOf_eq hn
  obtain ⟨hnan, hn'⟩ := nearest_ofNat hn
  rw [← hval] at hn'
  rw [isFinite_iff, hn'.unique (nearest_valueOf hc hfin)]
  refine ⟨hnan, ?_⟩
  rcases u with s | _ | s | ⟨s, m, e, hm⟩
  · cases hfin
  · cases hfin
  · simp [rankOf, top]
  · exact rankOf_finite_lt_top hc

/-- The float of a whole number below `2 ^ 53` is that number. -/
theorem value_ofNat {n : ℕ} (hn : n < 2 ^ 53) : value (Float.ofNat n) = n := by
  obtain ⟨u, hc, hfin, hval⟩ := exists_valueOf_eq hn
  have hn' := (nearest_ofNat hn).2
  rw [← hval] at hn' ⊢
  have hrank : rankOf (Float.ofNat n).toModel.unpack = rankOf u :=
    hn'.unique (nearest_valueOf hc hfin)
  have hcn : Canonical (Float.ofNat n).toModel.unpack := canonical_unpack _
  have hinf := isInf_of_isFinite (isFinite_ofNat hn)
  exact le_antisymm (valueOf_le hcn hc hinf (isInf_of_isFinite hfin) hrank.le)
    (valueOf_le hc hcn (isInf_of_isFinite hfin) hinf hrank.ge)

theorem rank_ofNat_pos {n : ℕ} (h0 : 0 < n) (hn : n < 2 ^ 53) : 0 < rank (Float.ofNat n) := by
  have hzero : rank (Float.ofNat 0) = 0 := by decide
  by_contra hle
  rw [not_lt, ← hzero, ← value_le_value_iff (isFinite_ofNat hn) (isFinite_ofNat (by omega)),
    value_ofNat hn, value_ofNat (by omega), Nat.cast_le] at hle
  omega

theorem toUInt64_whole {x : Float} {n : ℕ} (hx : x.isFinite = true) (h : value x = n)
    (hn : n < 2 ^ 64) : x.toUInt64.toNat = n := by
  have htrunc := toUInt64_of_not_isInf (isInf_of_isFinite hx)
  rw [show valueOf x.toModel.unpack = n from h, Nat.floor_natCast] at htrunc
  refine htrunc.trans ?_
  omega

/-- What does not reach a whole number is truncated to no more than that. -/
theorem toUInt64_le_of_not_le {n : ℕ} (hn : n < 2 ^ 53) {p : Float} (h : ¬ Float.ofNat n ≤ p) :
    p.toUInt64.toNat ≤ n := by
  have htrunc : (Float.ofNat n).toUInt64.toNat = n :=
    toUInt64_whole (isFinite_ofNat hn) (value_ofNat hn) (by omega)
  have hnan : (Float.ofNat n).isNaN = false := isNaN_of_isFinite (isFinite_ofNat hn)
  rw [← htrunc]
  refine toUInt64_mono ?_
  rw [le_iff, not_and, not_and] at h
  by_cases hp : p.isNaN = true
  · have hzero : Nearest (0 : ℚ) (rank p) := by
      rw [rank_of_isNaN hp]
      exact nearest_zero
    exact hzero.mono (nearest_ofNat hn).2 (Nat.cast_nonneg n)
  · have := h hnan (by simpa using hp)
    omega

theorem floorBelow_lt {p : Float} {count : ℕ} (h0 : 0 < count) (hc : count ≤ 2 ^ 53) :
    floorBelow p count < count := by
  unfold floorBelow
  split
  · omega
  · next hp =>
    have := toUInt64_le_of_not_le (show count - 1 < 2 ^ 53 by omega) hp
    omega

/-- The whole part below a count is monotone. -/
theorem floorBelow_le {p q : Float} {count : ℕ} (hc : count ≤ 2 ^ 53) (h : rank p ≤ rank q) :
    floorBelow p count ≤ floorBelow q count := by
  have hn : count - 1 < 2 ^ 53 := by omega
  unfold floorBelow
  split
  · next hp =>
    split
    · rfl
    · next hq =>
      rw [le_iff] at hp hq
      by_cases hnan : q.isNaN = true
      · have hzero : rank (Float.ofNat (count - 1)) ≤ rank (Float.ofNat 0) := by
          have hq0 := rank_of_isNaN hnan
          have : rank (Float.ofNat 0) = 0 := by decide
          omega
        rw [← value_le_value_iff (isFinite_ofNat hn) (isFinite_ofNat (by omega)), value_ofNat hn,
          value_ofNat (by omega), Nat.cast_le] at hzero
        omega
      · exact absurd ⟨hp.1, by simpa using hnan, by omega⟩ hq
  · next hp =>
    split
    · exact toUInt64_le_of_not_le hn hp
    · exact toUInt64_mono h

end PlanarJoin.Binary64
