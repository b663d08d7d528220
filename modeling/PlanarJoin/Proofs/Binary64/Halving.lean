import PlanarJoin.Proofs.Binary64.Monotone

/-!
# Halving and the middle of two floats

The middle of two floats is computed as half of their sum.  Where the sum does not overflow it is
the float nearest to the exact middle, although it is rounded twice: half of a float is a float,
unless it falls below the least step between floats, and there the sum has not been rounded.

## Main definitions

* `Binary64.leastStep`, `Binary64.OnGrid`: the least step between floats and its multiples.

## Main results

* `Binary64.nearest_half`: half of what is nearest to a sum of floats is nearest to half of the sum.
* `Binary64.nearest_middle`: the computed middle is the float nearest to the exact one.
* `Binary64.isFinite_half`: half of a finite float is finite.
* `Binary64.sub_le_middle`, `Binary64.middle_le_add`: what half of a range reaches its middle from.
-/

namespace PlanarJoin.Binary64

open Float.Model (UnpackedFloat Format)
open Float.Model.UnpackedFloat

/-! ## Steps -/

/-- The least step between floats. -/
def leastStep : ℚ := 2 ^ (-1074 : ℤ)

/-- A whole number of the least steps. -/
def OnGrid (q : ℚ) : Prop :=
  ∃ i : ℤ, q = i * leastStep

theorem OnGrid.add {p q : ℚ} (hp : OnGrid p) (hq : OnGrid q) : OnGrid (p + q) := by
  obtain ⟨i, rfl⟩ := hp
  obtain ⟨j, rfl⟩ := hq
  exact ⟨i + j, by push_cast; ring⟩

theorem OnGrid.neg {q : ℚ} (hq : OnGrid q) : OnGrid (-q) := by
  obtain ⟨i, rfl⟩ := hq
  exact ⟨-i, by push_cast; ring⟩

/-- Every float is a whole number of the least steps. -/
theorem onGrid_valueOf {u : UnpackedFloat} (hc : Canonical u) : OnGrid (valueOf u) := by
  have hzero : OnGrid 0 := ⟨0, by simp⟩
  rcases u with s | _ | s | ⟨s, m, e, hm⟩
  · exact hzero
  · exact hzero
  · exact hzero
  · obtain ⟨-, he, -⟩ := hc
    refine ⟨s.apply m * 2 ^ (e + 1074).toNat, ?_⟩
    rw [valueOf, leastStep, Int.cast_mul, Int.cast_pow, Int.cast_ofNat, mul_assoc, ← zpow_natCast,
      ← zpow_add₀ (by norm_num)]
    congr 2
    omega

theorem onGrid_value (x : Float) : OnGrid (value x) :=
  onGrid_valueOf (canonical_unpack _)

/-- Up to twice the length of a binade, floats are as many least steps as their rank says. -/
theorem valueOf_of_rankOf_le {u : UnpackedFloat} (hc : Canonical u) (hu : u.isFinite = true)
    (h0 : 0 ≤ rankOf u) (h : rankOf u ≤ 2 ^ 53) : valueOf u = rankOf u * leastStep := by
  rcases u with s | _ | s | ⟨s, m, e, hm⟩
  · cases hu
  · cases hu
  · simp [valueOf, rankOf]
  · cases s with
    | negative => exact absurd h0 (rankOf_finite_neg hm hc.2.1).not_ge
    | positive =>
      simp only [Canonical] at hc
      simp only [rankOf, valueOf, Sign.apply] at h ⊢
      obtain rfl | ⟨rfl, rfl⟩ : e = -1074 ∨ e = -1074 + 1 ∧ m = 2 ^ 52 := by omega
      · rw [leastStep]
        congr 2
      · rw [leastStep, zpow_add_one₀ (by norm_num), mul_comm _ (2 : ℚ), ← mul_assoc]
        norm_num

/-! ## Halves -/

/-- Half of a magnitude that is a number of steps is the same number of steps in the binade
below. -/
theorem nearestMagnitude_div_two {q : ℚ} {r t : ℤ} (ht : -1074 < t) (hlt : q < 2 ^ (t + 53))
    (hge : 2 ^ (t + 52) ≤ q) (hr : Rounds (q / 2 ^ t) r) :
    NearestMagnitude (q / 2) (min (r + (t - 1 + 1074) * 2 ^ 52) top) := by
  have hhalf (k : ℤ) : (2 : ℚ) ^ (t - 1 + k) * 2 = 2 ^ (t + k) := by
    rw [← zpow_add_one₀ (by norm_num)]
    congr 1
    ring
  have hstep : q / 2 / 2 ^ (t - 1) = q / 2 ^ t := by
    have := hhalf 0
    rw [add_zero, add_zero] at this
    rw [← this, mul_comm, div_div]
  refine ⟨t - 1, r, by omega, ?_, .inr ?_, by rwa [hstep], rfl⟩
  · have := hhalf 53
    linarith
  · have := hhalf 52
    linarith

/-- The same for a float whose steps are not the least ones. -/
theorem nearestMagnitude_finite_div_two {s : Sign} {m : ℕ} {e : ℤ} {hm : 0 < m}
    (hc : Canonical (.finite s m e hm)) (he : -1074 < e) :
    NearestMagnitude (m * 2 ^ e / 2) (m + (e - 1 + 1074) * 2 ^ 52) := by
  obtain ⟨hlt, -, he', hn⟩ := hc
  have hge : 2 ^ 52 ≤ m := hn.resolve_right he.ne'
  have hr : Rounds (m * 2 ^ e / 2 ^ e) m := by
    rw [mul_div_cancel_right₀ _ (by positivity)]
    exact rounds_intCast m
  have h := nearestMagnitude_div_two he (mul_two_zpow_lt hlt e) (le_mul_two_zpow hge e) hr
  rwa [min_eq_left (by simp only [top]; omega)] at h

/-- Half of the float nearest to a magnitude is nearest to half of the magnitude. -/
theorem nearest_half_of_nonneg {u : UnpackedFloat} (hc : Canonical u) (hu : u.isFinite = true)
    {q : ℚ} (hq : 0 ≤ q) (hgrid : OnGrid q) (h : NearestMagnitude q (rankOf u)) {k : ℤ}
    (hk : Nearest (valueOf u / 2) k) : Nearest (q / 2) k := by
  have h0 := h.nonneg hq
  obtain ⟨t, r, ht, hlt, hge, hr, hrank⟩ := h
  have hr53 := steps_le hlt hr
  rcases ht.eq_or_lt with rfl | ht
  · obtain ⟨i, rfl⟩ := hgrid
    rw [leastStep, mul_div_cancel_right₀ _ (by positivity)] at hr
    obtain rfl : i = r :=
      le_antisymm ((rounds_intCast i).mono hr le_rfl) (hr.mono (rounds_intCast i) le_rfl)
    have hrank : rankOf u = i := by
      simp only [top] at hrank
      omega
    rwa [valueOf_of_rankOf_le hc hu h0 (by omega), hrank] at hk
  · have hge := hge.resolve_left ht.ne'
    have hr52 := le_steps hge hr
    rcases u with s | _ | s | ⟨s, m, e, hm⟩
    · cases hu
    · cases hu
    · simp only [rankOf, top] at hrank
      omega
    · have htop := rankOf_finite_lt_top hc
      cases s with
      | negative => exact absurd h0 (rankOf_finite_neg hm hc.2.1).not_ge
      | positive =>
        simp only [rankOf, Sign.apply] at hrank htop
        have he : -1074 < e := by
          simp only [Canonical] at hc
          omega
        have hexact := nearestMagnitude_div_two ht hlt hge hr
        have hfloat := nearestMagnitude_finite_div_two hc he
        have hnum : (0 : ℚ) ≤ m * 2 ^ e / 2 := by positivity
        rw [hk.unique (.inl ⟨hnum, hfloat⟩),
          show (m : ℤ) + (e - 1 + 1074) * 2 ^ 52 = min (r + (t - 1 + 1074) * 2 ^ 52) top by omega]
        exact .inl ⟨by positivity, hexact⟩

theorem Nearest.neg {q : ℚ} {k : ℤ} (h : Nearest q k) : Nearest (-q) (-k) := by
  rcases h with ⟨hq, h⟩ | ⟨hq, h⟩
  · rcases hq.eq_or_lt with rfl | hq
    · have hk : k = 0 := Nearest.unique (.inl ⟨le_rfl, h⟩) nearest_zero
      rw [hk, neg_zero, neg_zero]
      exact nearest_zero
    · exact .inr ⟨neg_lt_zero.mpr hq, by rwa [neg_neg, neg_neg]⟩
  · exact .inl ⟨neg_nonneg.mpr hq.le, h⟩

/-- Half of the float nearest to a multiple of the least step is nearest to half of it. -/
theorem nearest_half {u : UnpackedFloat} (hc : Canonical u) (hu : u.isFinite = true) {q : ℚ}
    (hgrid : OnGrid q) (h : Nearest q (rankOf u)) {k : ℤ} (hk : Nearest (valueOf u / 2) k) :
    Nearest (q / 2) k := by
  rcases h with ⟨hq, h⟩ | ⟨hq, h⟩
  · exact nearest_half_of_nonneg hc hu hq hgrid h hk
  · obtain ⟨hfin, hvalue, hrank⟩ := neg_spec hu
    rw [← hrank] at h
    have hk := hk.neg
    rw [← neg_div, ← hvalue] at hk
    have hpos :=
      nearest_half_of_nonneg (canonical_neg hc) hfin (neg_nonneg.mpr hq.le) hgrid.neg h hk
    have := hpos.neg
    rwa [← neg_div, neg_neg, neg_neg] at this

/-! ## Floats -/

theorem nearest_div_two {x : Float} (hx : x.isFinite = true) :
    (x / 2.0).isNaN = false ∧ Nearest (value x / 2) (rank (x / 2.0)) := by
  have h := gives_div (u := x.toModel.unpack) (v := (2.0 : Float).toModel.unpack) hx isFinite_two
    (show value 2.0 ≠ 0 by rw [value_two]; norm_num)
  rw [show valueOf (2.0 : Float).toModel.unpack = 2 from value_two] at h
  exact h

/-- Half of a finite float is finite. -/
theorem isFinite_half {x : Float} (hx : x.isFinite = true) : (x / 2.0).isFinite = true := by
  obtain ⟨-, hlow, hhigh⟩ := isFinite_iff.mp hx
  obtain ⟨hnan, hhalf⟩ := nearest_div_two hx
  have hself := nearest_value hx
  refine isFinite_iff.mpr ⟨hnan, ?_⟩
  rcases le_total 0 (value x) with h | h
  · have := hhalf.mono hself (by linarith)
    have := nearest_zero.mono hhalf (by linarith)
    simp only [top] at *
    omega
  · have := hself.mono hhalf (by linarith)
    have := hhalf.mono nearest_zero (by linarith)
    simp only [top] at *
    omega

/-- The middle of two floats is the float nearest to the exact middle, if their sum is finite. -/
theorem nearest_middle {x y : Float} (hx : x.isFinite = true) (hy : y.isFinite = true)
    (h : (x + y).isFinite = true) :
    ((x + y) / 2.0).isNaN = false ∧
      Nearest ((value x + value y) / 2) (rank ((x + y) / 2.0)) := by
  obtain ⟨hnan, hhalf⟩ := nearest_div_two h
  exact ⟨hnan, nearest_half (canonical_unpack _) h ((onGrid_value x).add (onGrid_value y))
    (nearest_add hx hy).2 hhalf⟩

section Middle

variable {x y z h : Float} (hx : x.isFinite = true) (hy : y.isFinite = true)
  (hz : z.isFinite = true) (hh : h.isFinite = true) (hsum : (x + y).isFinite = true)
  (hlen : value y - value x ≤ 2 * value h)

include hx hy hz hh hsum hlen

/-- Half of a range, taken off a number that is not above it, does not lie above its middle. -/
theorem sub_le_middle (hle : rank z ≤ rank y) : z - h ≤ (x + y) / 2.0 := by
  obtain ⟨hnum, hsub⟩ := nearest_sub hz hh
  obtain ⟨hnum', hmiddle⟩ := nearest_middle hx hy hsum
  have hvalue := (value_le_value_iff hz hy).mpr hle
  exact le_iff.mpr ⟨hnum, hnum', hsub.mono hmiddle (by linarith)⟩

theorem middle_le_add (hle : rank x ≤ rank z) : (x + y) / 2.0 ≤ z + h := by
  obtain ⟨hnum, hadd⟩ := nearest_add hz hh
  obtain ⟨hnum', hmiddle⟩ := nearest_middle hx hy hsum
  have hvalue := (value_le_value_iff hx hz).mpr hle
  exact le_iff.mpr ⟨hnum', hnum, hmiddle.mono hadd (by linarith)⟩

end Middle

end PlanarJoin.Binary64
