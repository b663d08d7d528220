import PlanarJoin.Proofs.Binary64.Halving

/-!
# Results that stay finite

An operation on finite floats overflows only if the exact result lies beyond the largest float, and
not right beyond it: a sum with something small is the largest float again.  A result that is finite
comes from finite operands, and whether it is a number can be told from the operands too.

## Main definitions

* `Binary64.largest`: the value of the largest float.

## Main results

* `Binary64.nearest_natCast`: the float of a whole number is the one nearest to it.
* `Binary64.isFinite_of_nearest`: a result is finite if the exact one does not exceed the largest
  float by more than two.
* `Binary64.bounded_of_nearest`: a result lies within a power of two if the exact one does.
* `Binary64.isFinite_of_add`, `Binary64.isFinite_of_mul`, `Binary64.isFinite_of_div`: finite results
  come from finite operands.
* `Binary64.zero_lt_sub_iff`: the difference of two numbers in order is positive.
* `Binary64.sub_half_lt_add_half`: widened by a half on both sides, a range of a moderate size has a
  length.
-/

namespace PlanarJoin.Binary64

open Float.Model (UnpackedFloat Format)
open Float.Model.UnpackedFloat

variable {x y : Float} {q : ℚ}

/-! ## Whole numbers -/

/-- A whole number is read as a decimal without an exponent, from more bits than a float has. -/
theorem ofScientific_eq {n : ℕ} (hn : 0 < n) :
    UnpackedFloat.ofScientific .binary64 n 0 =
      roundWithAccuracy .binary64 .positive (n <<< Format.binary64.mantissaBits)
        (-(Format.binary64.mantissaBits : ℤ)) .exact := by
  have hzero : (0 : ℤ) ≤ 2 ^ Format.binary64.exponentBits := by positivity
  have hpow : 10 ^ Int.toNat 0 = 1 := rfl
  have hsign : Sign.positive * Sign.positive = Sign.positive := rfl
  unfold UnpackedFloat.ofScientific
  rw [dif_neg hn.ne', if_neg hzero.not_gt, if_neg (by omega), if_pos le_rfl]
  simp only [UnpackedFloat.mul, hpow, hsign, Nat.mul_one, add_zero]

theorem gives_ofScientific {n : ℕ} (hn : 0 < n) :
    Gives (UnpackedFloat.ofScientific .binary64 n 0) n := by
  -- moved up by as many bits as a float has, the number is long enough to be rounded
  have hlog : Format.binary64.mantissaBits ≤ (n <<< Format.binary64.mantissaBits).log2 := by
    have hpos : n <<< Format.binary64.mantissaBits ≠ 0 := by
      rw [Nat.shiftLeft_eq]
      positivity
    rw [Nat.le_log2 hpos, Nat.shiftLeft_eq]
    exact Nat.le_mul_of_pos_left _ hn
  have h := gives_roundWithAccuracy .positive (e := -(Format.binary64.mantissaBits : ℤ))
    (extends_exact (n <<< Format.binary64.mantissaBits)) (.inl (show 52 < _ from hlog).le)
  have hvalue : ((Sign.positive.apply 1 : ℤ) : ℚ) *
      (((n <<< Format.binary64.mantissaBits : ℕ) : ℚ) * 2 ^ (-(Format.binary64.mantissaBits : ℤ))) =
        n := by
    rw [Nat.shiftLeft_eq, Sign.apply, Int.cast_one, one_mul, Nat.cast_mul, Nat.cast_pow,
      Nat.cast_ofNat, mul_assoc, zpow_neg, zpow_natCast, mul_inv_cancel₀ (by positivity), mul_one]
  rw [ofScientific_eq hn]
  rwa [hvalue] at h

/-- The float of a whole number is the one nearest to it. -/
theorem nearest_natCast (n : ℕ) :
    (Float.ofNat n).isNaN = false ∧ Nearest n (rank (Float.ofNat n)) := by
  by_cases hn : n < 2 ^ 53
  · exact nearest_ofNat hn
  · have hlarge : Float.ofNat n = ⟨Float.Model.ofScientific n 0⟩ := by
      change Float.ofScientific n false 0 = _
      rw [Float.ofScientific, dif_neg (fun h => hn h.1)]
      rfl
    rw [hlarge]
    exact gives_ofScientific (by omega)

theorem rank_ofNat_le {m n : ℕ} (h : m ≤ n) : rank (Float.ofNat m) ≤ rank (Float.ofNat n) :=
  (nearest_natCast m).2.mono (nearest_natCast n).2 (by exact_mod_cast h)

/-! ## Bounds of results -/

/-- A result is not above a float that the exact one is not above. -/
theorem Nearest.value_le {u : UnpackedFloat} (h : Nearest q (rank x)) (hx : x.isFinite = true)
    (hc : Canonical u) (hu : u.isFinite = true) (hq : q ≤ valueOf u) : value x ≤ valueOf u :=
  valueOf_le (canonical_unpack _) hc (isInf_of_isFinite hx) (isInf_of_isFinite hu)
    (h.mono (nearest_valueOf hc hu) hq)

theorem Nearest.le_value {u : UnpackedFloat} (h : Nearest q (rank x)) (hx : x.isFinite = true)
    (hc : Canonical u) (hu : u.isFinite = true) (hq : valueOf u ≤ q) : valueOf u ≤ value x :=
  valueOf_le hc (canonical_unpack _) (isInf_of_isFinite hu) (isInf_of_isFinite hx)
    ((nearest_valueOf hc hu).mono h hq)

/-- The step between the largest floats. -/
def lastStep : ℚ := 2 ^ (971 : ℤ)

theorem eight_le_lastStep : 8 ≤ lastStep := by
  have h : (2 : ℚ) ^ (3 : ℤ) ≤ 2 ^ (971 : ℤ) := two_zpow_mono (by norm_num)
  norm_num at h
  exact h

/-- The value of the largest float. -/
def largest : ℚ := (2 ^ 53 - 1) * lastStep

/-- What exceeds the largest float by two is still rounded to it. -/
theorem nearestMagnitude_largest : NearestMagnitude (largest + 2) (top - 1) := by
  have hstep := eight_le_lastStep
  have hsplit (k : ℕ) : (2 : ℚ) ^ (971 + k : ℤ) = 2 ^ k * lastStep := by
    rw [add_comm, zpow_add₀ (by norm_num), zpow_natCast, lastStep]
  have hquot : (largest + 2) / lastStep = 2 ^ 53 - 1 + 2 / lastStep := by
    rw [largest, add_div, mul_div_cancel_right₀ _ (by positivity)]
  have hrest : 0 < 2 / lastStep ∧ 2 / lastStep ≤ 1 / 4 := by
    refine ⟨by positivity, ?_⟩
    rw [div_le_iff₀ (by positivity)]
    linarith
  refine ⟨971, 2 ^ 53 - 1, by norm_num, ?_, .inr ?_, ?_, by decide⟩
  · rw [show (971 + 53 : ℤ) = 971 + (53 : ℕ) from rfl, hsplit, largest]
    linarith
  · rw [show (971 + 52 : ℤ) = 971 + (52 : ℕ) from rfl, hsplit, largest]
    linarith
  · rw [← lastStep, Rounds, hquot]
    push_cast
    refine ⟨⟨by linarith, by linarith⟩, ?_⟩
    rintro (h | h) <;> exfalso <;> linarith

theorem largest_nonneg : 0 ≤ largest :=
  mul_nonneg (by norm_num) (by linarith [eight_le_lastStep])

/-- A result is finite if the exact one does not exceed the largest float by more than two. -/
theorem isFinite_of_nearest (hx : x.isNaN = false) (h : Nearest q (rank x))
    (hq : |q| ≤ largest + 2) : x.isFinite = true := by
  have hmax : Nearest (largest + 2) (top - 1) :=
    .inl ⟨by linarith [largest_nonneg], nearestMagnitude_largest⟩
  obtain ⟨hlow, hhigh⟩ := abs_le.mp hq
  have := h.mono hmax hhigh
  have := hmax.neg.mono h hlow
  exact isFinite_iff.mpr ⟨hx, by omega, by omega⟩

theorem abs_valueOf {s : Sign} {m : ℕ} {e : ℤ} {hm : 0 < m} :
    |valueOf (.finite s m e hm)| = m * 2 ^ e := by
  have hpos : (0 : ℚ) < 2 ^ e := by positivity
  cases s <;> simp [valueOf, Sign.apply, abs_mul, abs_of_pos hpos]

/-- No float exceeds the largest one. -/
theorem abs_value_le (x : Float) : |value x| ≤ largest := by
  have hc : Canonical x.toModel.unpack := canonical_unpack _
  have hzero : |(0 : ℚ)| ≤ largest := by rw [abs_zero]; exact largest_nonneg
  unfold value
  generalize x.toModel.unpack = u at hc
  rcases u with s | _ | s | ⟨s, m, e, hm⟩
  · exact hzero
  · exact hzero
  · exact hzero
  · obtain ⟨hlt, -, he, -⟩ := hc
    have hmant : (m : ℚ) ≤ 2 ^ 53 - 1 := by
      have : (m : ℚ) + 1 ≤ 2 ^ 53 := by exact_mod_cast hlt
      linarith
    rw [abs_valueOf, largest]
    exact mul_le_mul hmant (two_zpow_mono he) (by positivity) (by norm_num)

/-- Powers of two are floats, if they are neither too small nor too large. -/
theorem exists_valueOf_two_pow {k : ℕ} (hk : k ≤ 1000) :
    ∃ u, Canonical u ∧ u.isFinite = true ∧ valueOf u = 2 ^ k := by
  refine ⟨.finite .positive (2 ^ 52) (k - 52) (by positivity),
    ⟨by norm_num, by omega, by omega, .inl le_rfl⟩, rfl, ?_⟩
  have hsplit : (2 : ℚ) ^ 52 * 2 ^ ((k : ℤ) - 52) = 2 ^ k := by
    rw [← zpow_natCast (2 : ℚ) 52, ← zpow_add₀ (by norm_num), ← zpow_natCast]
    congr 1
    omega
  simp only [valueOf, Sign.apply]
  push_cast
  exact hsplit

/-- A result lies within a power of two if the exact one does. -/
theorem bounded_of_nearest (hx : x.isNaN = false) (h : Nearest q (rank x)) {k : ℕ}
    (hk : k ≤ 1000) (hq : |q| ≤ 2 ^ k) : x.isFinite = true ∧ |value x| ≤ 2 ^ k := by
  have hlarge : (2 : ℚ) ^ k ≤ largest + 2 :=
    calc (2 : ℚ) ^ k ≤ 2 ^ 1000 := pow_le_pow_right₀ (by norm_num) hk
      _ = 2 ^ 29 * lastStep := by
        rw [lastStep, ← zpow_natCast (2 : ℚ) 29, ← zpow_add₀ (by norm_num), ← zpow_natCast]
        rfl
      _ ≤ largest + 2 := by
        rw [largest]
        linarith [eight_le_lastStep]
  have hfin := isFinite_of_nearest hx h (hq.trans hlarge)
  obtain ⟨u, hc, hu, hvalue⟩ := exists_valueOf_two_pow hk
  obtain ⟨hnfin, hnvalue, -⟩ := neg_spec hu
  obtain ⟨hlow, hhigh⟩ := abs_le.mp hq
  refine ⟨hfin, abs_le.mpr ⟨?_, ?_⟩⟩
  · rw [← hvalue, ← hnvalue]
    exact h.le_value hfin (canonical_neg hc) hnfin (by rw [hnvalue, hvalue]; exact hlow)
  · rw [← hvalue]
    exact h.value_le hfin hc hu (by rw [hvalue]; exact hhigh)

/-- A quotient of a finite number and one other than zero is the float nearest to the exact
quotient. -/
theorem nearest_div (hx : x.isFinite = true) (hy : y.isFinite = true) (hy0 : value y ≠ 0) :
    (x / y).isNaN = false ∧ Nearest (value x / value y) (rank (x / y)) :=
  gives_div hx hy hy0

theorem abs_div_le (hy1 : 1 ≤ value y) : |value x / value y| ≤ |value x| := by
  rw [abs_div]
  exact div_le_self (abs_nonneg _) (hy1.trans (le_abs_self _))

theorem isFinite_div (hx : x.isFinite = true) (hy : y.isFinite = true) (hy1 : 1 ≤ value y) :
    (x / y).isFinite = true := by
  obtain ⟨hnum, hnear⟩ := nearest_div hx hy (by linarith)
  exact isFinite_of_nearest hnum hnear
    ((abs_div_le hy1).trans ((abs_value_le x).trans (by linarith)))

theorem isFinite_between {a b : Float} (ha : a.isFinite = true) (hb : b.isFinite = true)
    (hx : x.isNaN = false) (h : rank a ≤ rank x ∧ rank x ≤ rank b) : x.isFinite = true := by
  have := (isFinite_iff.mp ha).2
  have := (isFinite_iff.mp hb).2
  exact isFinite_iff.mpr ⟨hx, by omega, by omega⟩

section Counts

variable {m n : ℕ} (hn : n < 2 ^ 64)

include hn

/-- A count that fits a machine word is far from the infinities. -/
theorem bounded_ofNat : (Float.ofNat n).isFinite = true ∧ |value (Float.ofNat n)| ≤ 2 ^ 64 := by
  obtain ⟨hnum, hnear⟩ := nearest_natCast n
  refine bounded_of_nearest hnum hnear (by norm_num) ?_
  rw [Nat.abs_cast]
  exact_mod_cast hn.le

theorem value_ofNat_le (h : m ≤ n) : value (Float.ofNat m) ≤ value (Float.ofNat n) :=
  (value_le_value_iff (bounded_ofNat (h.trans_lt hn)).1 (bounded_ofNat hn).1).mpr (rank_ofNat_le h)

theorem one_le_value_ofNat (h : 0 < n) : 1 ≤ value (Float.ofNat n) := by
  have hone := value_ofNat_le hn h
  rwa [value_ofNat (by norm_num), Nat.cast_one] at hone

/-- Multiples of a step that is not negative grow with the count, so all up to a finite one are
finite. -/
theorem multiple_le {step : Float} (hstep : step.isFinite = true) (hstep0 : 0 ≤ value step)
    (hlast : (Float.ofNat n * step).isFinite = true) (h : m ≤ n) :
    (Float.ofNat m * step).isFinite = true ∧
      0 ≤ value (Float.ofNat m * step) ∧
        value (Float.ofNat m * step) ≤ value (Float.ofNat n * step) := by
  have hm := h.trans_lt hn
  have hzero : value 0.0 = 0 := rfl
  have hpos : 0 ≤ value (Float.ofNat m) := by
    have hle := value_ofNat_le hm (Nat.zero_le m)
    rwa [value_ofNat (by norm_num), Nat.cast_zero] at hle
  obtain ⟨hnum, hnear⟩ := nearest_mul (bounded_ofNat hm).1 hstep
  have hmin := nearest_zero.mono hnear (mul_nonneg hpos hstep0)
  have hmax := hnear.mono (nearest_mul (bounded_ofNat hn).1 hstep).2
    (mul_le_mul_of_nonneg_right (value_ofNat_le hn h) hstep0)
  have hfin := isFinite_between (a := 0.0) (by decide) hlast hnum ⟨hmin, hmax⟩
  exact ⟨hfin, hzero ▸ (value_le_value_iff (by decide) hfin).mpr hmin,
    (value_le_value_iff hfin hlast).mpr hmax⟩

end Counts

/-- No step at all adds nothing. -/
theorem value_multiple_zero {step : Float} (hstep : step.isFinite = true) :
    value (Float.ofNat 0 * step) = 0 := by
  obtain ⟨hnum, hnear⟩ := nearest_mul (bounded_ofNat (show 0 < 2 ^ 64 by norm_num)).1 hstep
  rw [value_ofNat (by norm_num), Nat.cast_zero, zero_mul] at hnear
  have hrank := hnear.unique nearest_zero
  have hfin : (Float.ofNat 0 * step).isFinite = true :=
    isFinite_iff.mpr ⟨hnum, by rw [hrank]; decide, by rw [hrank]; decide⟩
  have hzero : value 0.0 = 0 := rfl
  exact le_antisymm (hzero ▸ (value_le_value_iff hfin (by decide)).mpr hrank.le)
    (hzero ▸ (value_le_value_iff (by decide) hfin).mpr hrank.ge)

/-! ## Finite results -/

/-- Packing makes nothing finite. -/
theorem isFinite_of_pack {u : UnpackedFloat}
    (h : (Float.Model.pack u).unpack.isFinite = true) : u.isFinite = true := by
  rcases u with s | _ | s | ⟨s, m, e, hm⟩
  · cases s <;> exact absurd h (by decide)
  · exact absurd h (by decide)
  · rfl
  · rfl

/-- A finite sum has finite summands. -/
theorem isFinite_of_add (h : (x + y).isFinite = true) : x.isFinite = true ∧ y.isFinite = true := by
  have hsum := isFinite_of_pack
    (u := UnpackedFloat.add .binary64 x.toModel.unpack y.toModel.unpack) h
  change x.toModel.unpack.isFinite = true ∧ y.toModel.unpack.isFinite = true
  generalize x.toModel.unpack = u at hsum
  generalize y.toModel.unpack = v at hsum
  rcases u with s | _ | s | ⟨s, m, e, hm⟩ <;> rcases v with t | _ | t | ⟨t, n, f, hn⟩
  case infinity.infinity => cases s <;> cases t <;> cases hsum
  all_goals first
    | exact ⟨rfl, rfl⟩
    | cases hsum

/-- A finite product has finite factors. -/
theorem isFinite_of_mul (h : (x * y).isFinite = true) : x.isFinite = true ∧ y.isFinite = true := by
  have hprod := isFinite_of_pack
    (u := UnpackedFloat.mul .binary64 x.toModel.unpack y.toModel.unpack) h
  change x.toModel.unpack.isFinite = true ∧ y.toModel.unpack.isFinite = true
  generalize x.toModel.unpack = u at hprod
  generalize y.toModel.unpack = v at hprod
  rcases u with s | _ | s | ⟨s, m, e, hm⟩ <;> rcases v with t | _ | t | ⟨t, n, f, hn⟩
  all_goals first
    | exact ⟨rfl, rfl⟩
    | cases hprod

/-- A finite quotient by a finite number has a finite dividend. -/
theorem isFinite_of_div (h : (x / y).isFinite = true) (hy : y.isFinite = true) :
    x.isFinite = true := by
  have hquot := isFinite_of_pack
    (u := UnpackedFloat.div .binary64 x.toModel.unpack y.toModel.unpack) h
  change y.toModel.unpack.isFinite = true at hy
  change x.toModel.unpack.isFinite = true
  generalize x.toModel.unpack = u at hquot
  generalize y.toModel.unpack = v at hquot hy
  rcases u with s | _ | s | ⟨s, m, e, hm⟩
  case zero | finite => rfl
  all_goals
    rcases v with t | _ | t | ⟨t, n, f, hn⟩
    · cases hy
    · cases hy
    · cases hquot
    · cases hquot

/-! ## Results that are numbers -/

/-- A number that is not finite is an infinity. -/
theorem exists_infinity (hx : x.isNaN = false) (hfin : ¬ x.isFinite = true) :
    ∃ s, x.toModel.unpack = .infinity s := by
  change x.toModel.unpack.isNaN = false at hx
  change ¬ x.toModel.unpack.isFinite = true at hfin
  generalize x.toModel.unpack = u at hx hfin
  rcases u with s | _ | s | ⟨s, m, e, hm⟩
  · exact ⟨s, rfl⟩
  · cases hx
  · exact absurd rfl hfin
  · exact absurd rfl hfin

theorem isNaN_pack_infinity (s : Sign) :
    (Float.Model.pack (.infinity s)).unpack.isNaN = false := by
  cases s <;> decide

/-- A finite number and a number have a sum. -/
theorem isNaN_add (hx : x.isFinite = true) (hy : y.isNaN = false) : (x + y).isNaN = false := by
  by_cases hfin : y.isFinite = true
  · exact (nearest_add hx hfin).1
  · obtain ⟨s, hs⟩ := exists_infinity hy hfin
    change x.toModel.unpack.isFinite = true at hx
    change (Float.Model.pack (UnpackedFloat.add .binary64 x.toModel.unpack
      y.toModel.unpack)).unpack.isNaN = false
    rw [hs]
    generalize x.toModel.unpack = u at hx
    rcases u with t | _ | t | ⟨t, m, e, hm⟩
    · cases hx
    · cases hx
    · exact isNaN_pack_infinity s
    · exact isNaN_pack_infinity s

/-- A finite number other than zero and a number have a product. -/
theorem isNaN_mul (hx : x.isFinite = true) (hx0 : value x ≠ 0) (hy : y.isNaN = false) :
    (x * y).isNaN = false := by
  by_cases hfin : y.isFinite = true
  · exact (nearest_mul hx hfin).1
  · obtain ⟨s, hs⟩ := exists_infinity hy hfin
    change x.toModel.unpack.isFinite = true at hx
    change (Float.Model.pack (UnpackedFloat.mul .binary64 x.toModel.unpack
      y.toModel.unpack)).unpack.isNaN = false
    unfold value at hx0
    rw [hs]
    generalize x.toModel.unpack = u at hx hx0
    rcases u with t | _ | t | ⟨t, m, e, hm⟩
    · cases hx
    · cases hx
    · exact absurd rfl hx0
    · exact isNaN_pack_infinity (t * s)

/-- A number can be divided by a finite number other than zero. -/
theorem isNaN_div (hx : x.isNaN = false) (hy : y.isFinite = true) (hy0 : value y ≠ 0) :
    (x / y).isNaN = false := by
  by_cases hfin : x.isFinite = true
  · exact (nearest_div hfin hy hy0).1
  · obtain ⟨s, hs⟩ := exists_infinity hx hfin
    change y.toModel.unpack.isFinite = true at hy
    change (Float.Model.pack (UnpackedFloat.div .binary64 x.toModel.unpack
      y.toModel.unpack)).unpack.isNaN = false
    unfold value at hy0
    rw [hs]
    generalize y.toModel.unpack = u at hy hy0
    rcases u with t | _ | t | ⟨t, m, e, hm⟩
    · cases hy
    · cases hy
    · exact absurd rfl hy0
    · exact isNaN_pack_infinity (s / t)

/-! ## Widening by a half -/

theorem isFinite_oneHalf : (0.5 : Float).isFinite = true := by decide

theorem value_oneHalf : value 0.5 = 1 / 2 := by
  have h : (0.5 : Float).toModel.unpack = .finite .positive (2 ^ 52) (-53) (by decide) := rfl
  rw [value, h, valueOf]
  norm_num [Sign.apply]

/-- Whole numbers of halves are floats up to `2 ^ 52`. -/
theorem exists_valueOf_halves {i : ℤ} (hi : |i| ≤ 2 ^ 53) :
    ∃ u, Canonical u ∧ u.isFinite = true ∧ valueOf u = i / 2 := by
  suffices H : ∀ n : ℕ, n ≤ 2 ^ 53 → ∃ u, Canonical u ∧ u.isFinite = true ∧ valueOf u = n / 2 by
    have hnat : i.natAbs ≤ 2 ^ 53 := by
      obtain ⟨hlow, hhigh⟩ := abs_le.mp hi
      omega
    obtain ⟨u, hc, hu, hvalue⟩ := H i.natAbs hnat
    rcases Int.natAbs_eq i with h | h
    · refine ⟨u, hc, hu, ?_⟩
      rw [hvalue, h]
      simp
    · obtain ⟨hnu, hnvalue, -⟩ := neg_spec hu
      refine ⟨u.neg, canonical_neg hc, hnu, ?_⟩
      rw [hnvalue, hvalue, h]
      simp [neg_div]
  intro n hn
  rcases hn.lt_or_eq with hlt | rfl
  · obtain ⟨u, hc, hu, hvalue⟩ := exists_valueOf_mul hlt (e := -1) (by norm_num) (by norm_num)
    exact ⟨u, hc, hu, by rw [hvalue, zpow_neg_one, div_eq_mul_inv]⟩
  · obtain ⟨u, hc, hu, hvalue⟩ := exists_valueOf_two_pow (k := 52) (by norm_num)
    exact ⟨u, hc, hu, by rw [hvalue]; norm_num⟩

/-- A finite number stays finite if at most one is taken off or added. -/
theorem isFinite_shifted {p : Float} (hx : x.isFinite = true) (hp : p.isFinite = true)
    (hp1 : |value p| ≤ 1) : (x - p).isFinite = true ∧ (x + p).isFinite = true := by
  obtain ⟨hsub, hsub'⟩ := nearest_sub hx hp
  obtain ⟨hadd, hadd'⟩ := nearest_add hx hp
  obtain ⟨hlow, hhigh⟩ := abs_le.mp (abs_value_le x)
  obtain ⟨hp0, hp1⟩ := abs_le.mp hp1
  exact ⟨isFinite_of_nearest hsub hsub' (abs_le.mpr ⟨by linarith, by linarith⟩),
    isFinite_of_nearest hadd hadd' (abs_le.mpr ⟨by linarith, by linarith⟩)⟩

theorem isFinite_widened (hx : x.isFinite = true) :
    (x - 0.5).isFinite = true ∧ (x + 0.5).isFinite = true :=
  isFinite_shifted hx isFinite_oneHalf (by rw [value_oneHalf]; norm_num)

/-- A number widened by a half on both sides has a finite length: the sides do not both reach the
largest floats. -/
theorem isFinite_widened_sub (hx : x.isFinite = true) (hy : y.isFinite = true)
    (hxy : value x = value y) : ((y + 0.5) - (x - 0.5)).isFinite = true := by
  have hsub := (isFinite_widened hx).1
  have hadd := (isFinite_widened hy).2
  obtain ⟨hnum, hlen⟩ := nearest_sub hadd hsub
  have hlow := (nearest_sub hx isFinite_oneHalf).2
  have hhigh := (nearest_add hy isFinite_oneHalf).2
  rw [value_oneHalf] at hlow hhigh
  obtain ⟨hl, hl'⟩ := abs_le.mp (abs_value_le (x - 0.5))
  obtain ⟨hh, hh'⟩ := abs_le.mp (abs_value_le (y + 0.5))
  obtain ⟨u, hcu, hu, hvu⟩ := exists_valueOf_halves (i := 1) (by norm_num)
  obtain ⟨v, hcv, hv, hvv⟩ := exists_valueOf_halves (i := -1) (by norm_num)
  push_cast at hvu hvv
  refine isFinite_of_nearest hnum hlen (abs_le.mpr ?_)
  rcases le_total 0 (value y) with h | h
  · have := hlow.le_value hsub hcv hv (by linarith)
    have := hhigh.le_value hadd hcu hu (by linarith)
    constructor <;> linarith
  · have := hlow.value_le hsub hcv hv (by linarith)
    have := hhigh.value_le hadd hcu hu (by linarith)
    constructor <;> linarith

/-- The difference of two finite numbers is positive if they are in order, however close they
are. -/
theorem zero_lt_sub_iff (hx : x.isFinite = true) (hy : y.isFinite = true) :
    0.0 < y - x ↔ x < y := by
  obtain ⟨hnum, hdiff⟩ := nearest_sub hy hx
  have hzero : rank 0.0 = 0 := rfl
  have hvalue : value x < value y ↔ rank x < rank y := by
    rw [← not_le, ← not_le, value_le_value_iff hy hx]
  rw [lt_iff, lt_iff, ← hvalue]
  simp only [hnum, isNaN_of_isFinite hx, isNaN_of_isFinite hy, hzero, true_and,
    show (0.0 : Float).isNaN = false from rfl]
  constructor
  · intro h
    by_contra hle
    have := hdiff.mono nearest_zero (by linarith)
    omega
  · intro h
    obtain ⟨i, hi⟩ := (onGrid_value y).add (onGrid_value x).neg
    have hstep : 0 < leastStep := by
      rw [leastStep]
      positivity
    have hpos : 0 < i := by
      have : 0 < (i : ℚ) * leastStep := by linarith
      exact_mod_cast (mul_pos_iff_of_pos_right hstep).mp this
    have hone : (1 : ℚ) ≤ i := by exact_mod_cast hpos
    have hleast : Nearest leastStep 1 := by
      have h := nearest_valueOf (u := .finite .positive 1 (-1074) Nat.one_pos)
        ⟨by norm_num, le_rfl, by norm_num, .inr rfl⟩ rfl
      simpa [valueOf, rankOf, Sign.apply, leastStep] using h
    have := hleast.mono hdiff (by nlinarith)
    omega

/-- Widened by a half on both sides, a range that begins between `-2 ^ 52` and `2 ^ 52` has a
length: there are floats half apart around its beginning. -/
theorem sub_half_lt_add_half (hx : x.isFinite = true) (hy : y.isFinite = true)
    (hle : rank x ≤ rank y) (hbound : |value x| ≤ 2 ^ 52) : x - 0.5 < y + 0.5 := by
  have hsub := (isFinite_widened hx).1
  have hadd := (isFinite_widened hy).2
  have hlow := (nearest_sub hx isFinite_oneHalf).2
  have hhigh := (nearest_add hy isFinite_oneHalf).2
  rw [value_oneHalf] at hlow hhigh
  have hvalue := (value_le_value_iff hx hy).mpr hle
  obtain ⟨hb, hb'⟩ := abs_le.mp hbound
  obtain ⟨i, hi⟩ : ∃ i : ℤ, i = min ⌊2 * value x⌋ (2 ^ 53 - 1) := ⟨_, rfl⟩
  have hfloor : (⌊2 * value x⌋ : ℚ) ≤ 2 * value x := Int.floor_le _
  have hfloor' : 2 * value x < ⌊2 * value x⌋ + 1 := Int.lt_floor_add_one _
  have hfloor₀ : -2 ^ 53 ≤ ⌊2 * value x⌋ := Int.le_floor.mpr (by push_cast; linarith)
  have hup : (i : ℚ) ≤ 2 * value x := by
    have : (i : ℚ) ≤ ⌊2 * value x⌋ := by exact_mod_cast hi ▸ min_le_left _ _
    linarith
  have hdown : 2 * value x - 1 ≤ i := by
    rcases min_choice ⌊2 * value x⌋ (2 ^ 53 - 1) with h | h
    · rw [hi, h]
      linarith
    · rw [hi, h]
      push_cast
      linarith
  obtain ⟨u, hcu, hu, hvu⟩ := exists_valueOf_halves (i := i) (abs_le.mpr (by omega))
  obtain ⟨v, hcv, hv, hvv⟩ := exists_valueOf_halves (i := i + 1) (abs_le.mpr (by omega))
  push_cast at hvv
  have := hlow.value_le hsub hcu hu (by linarith)
  have := hhigh.le_value hadd hcv hv (by linarith)
  refine lt_iff.mpr ⟨isNaN_of_isFinite hsub, isNaN_of_isFinite hadd, ?_⟩
  rw [← not_le, ← value_le_value_iff hadd hsub]
  linarith

end PlanarJoin.Binary64
