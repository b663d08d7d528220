import Mathlib.Algebra.Order.Archimedean.Basic
import PlanarJoin.Proofs.Binary64.Whole

/-!
# Roots of floats

The mantissa of a root is the whole part of an exact root, with what is known of the rest: whether
there is any, and whether it is more than a half.  The exact root need not be rational.  Some
rational number has the same whole part and the same is known of its rest, so the root is the float
nearest to it, and it lies to the exact root as the whole numbers of steps do.

## Main results

* `Binary64.gives_sqrt`, `Binary64.nearest_sqrt`: a root is the float nearest to a number that is
  not told from the exact root by coarse numbers.
* `Binary64.value_sqrt_le`, `Binary64.lt_value_sqrt`: how the root lies to whole numbers.
* `Binary64.rank_one_le_sqrt`: the root of a number from one on is one at least.
-/

namespace PlanarJoin.Binary64

open Float.Model (UnpackedFloat Format)
open Float.Model.UnpackedFloat

/-! ## The mantissa of a root -/

/-- What is known of the rest when the whole part of a root is taken. -/
def rootAccuracy (M : ℕ) : Accuracy :=
  if M - M.sqrt * M.sqrt = 0 then .exact
  else .inexact (if M - M.sqrt * M.sqrt ≤ M.sqrt then .lt else .gt)

/-- Some rational number has the same whole part and the same is known of its rest, and it lies to
whole numbers as the root does. -/
theorem exists_extends_sqrt (M : ℕ) :
    ∃ ρ : ℚ, Extends (.ofMantissaAndAccuracy M.sqrt (rootAccuracy M)) ρ ∧
      ∀ j : ℕ, (j * j ≤ M → j ≤ ρ) ∧ (M ≤ j * j → ρ ≤ j) := by
  have hle := Nat.sqrt_le M
  -- it is enough to say what is added to the whole part, if anything is
  suffices H : ∃ f : ℚ, Extends (.ofMantissaAndAccuracy M.sqrt (rootAccuracy M)) (M.sqrt + f) ∧
      0 ≤ f ∧ f ≤ 1 ∧ (M = M.sqrt * M.sqrt → f = 0) by
    obtain ⟨f, hext, hf0, hf1, hexact⟩ := H
    refine ⟨M.sqrt + f, hext, fun j => ⟨fun hj => ?_, fun hj => ?_⟩⟩
    · have hroot : (j : ℚ) ≤ M.sqrt := by exact_mod_cast Nat.le_sqrt.mpr hj
      linarith
    · rcases hle.eq_or_lt with heq | hlt
      · have hroot : (M.sqrt : ℚ) ≤ j := by
          exact_mod_cast Nat.mul_self_le_mul_self_iff.mp (heq.le.trans hj)
        linarith [hexact heq.symm]
      · have hroot : (M.sqrt : ℚ) + 1 ≤ j := by
          exact_mod_cast Nat.mul_self_lt_mul_self_iff.mp (hlt.trans_le hj)
        linarith
  unfold rootAccuracy
  split
  · exact ⟨0, by rw [add_zero]; exact extends_exact _, le_rfl, zero_le_one, fun _ => rfl⟩
  · next hrest =>
    have hne : M ≠ M.sqrt * M.sqrt := by omega
    split
    · refine ⟨1 / 4, ⟨1 / 4, rfl, by norm_num, by norm_num, ?_, ?_⟩, by norm_num, by norm_num,
        fun h => absurd h hne⟩ <;>
      norm_num [ExtendedMantissa.ofMantissaAndAccuracy]
    · refine ⟨3 / 4, ⟨3 / 4, rfl, by norm_num, by norm_num, ?_, ?_⟩, by norm_num, by norm_num,
        fun h => absurd h hne⟩ <;>
      norm_num [ExtendedMantissa.ofMantissaAndAccuracy]

/-- The exponent of a root: an even one of the number is halved, low enough for 53 bits. -/
def rootExponent (m : ℕ) (e : ℤ) : ℤ :=
  min (e / 2) (max (((m.log2 : ℤ) + e + 2) / 2 - 53) (-1074))

theorem sqrtCore_eq (m : ℕ) (e : ℤ) : sqrtCore .binary64 m e =
    let M := m <<< (e - 2 * rootExponent m e).toNat
    (M.sqrt, rootExponent m e, rootAccuracy M) := by
  have ht : min (e.ediv 2)
      (Format.binary64.targetExponent ((Float.Model.totalExponent m e + 1).ediv 2)) =
        rootExponent m e := by
    simp only [Format.targetExponent, Float.Model.totalExponent, Format.mantissaBits,
      Format.minExponent, rootExponent]
    change min (e / 2) (max (((m.log2 : ℤ) + 1 + e + 1) / 2 - 53) (-1074)) = _
    omega
  rw [sqrtCore]
  simp only [ht]
  rfl

section Core

variable {m : ℕ} {e : ℤ} (hm : 0 < m)

/-- The number over the exponent of its root. -/
theorem root_scale (m : ℕ) (e : ℤ) :
    (m : ℚ) * 2 ^ e =
      (m <<< (e - 2 * rootExponent m e).toNat : ℕ) * (2 ^ rootExponent m e) ^ 2 := by
  have he : 2 * rootExponent m e ≤ e := by
    rw [rootExponent]
    omega
  rw [Nat.shiftLeft_eq, Nat.cast_mul, Nat.cast_pow, Nat.cast_ofNat, mul_assoc, ← zpow_natCast,
    ← zpow_natCast (2 ^ rootExponent m e), ← zpow_mul, ← zpow_add₀ (by norm_num)]
  congr 2
  push_cast
  omega

include hm

/-- The mantissa of a root has 53 bits, unless the exponent is the least. -/
theorem root_bits : 52 ≤ (m <<< (e - 2 * rootExponent m e).toNat).sqrt.log2 ∨
    rootExponent m e ≤ -1074 := by
  refine or_iff_not_imp_right.mpr fun hexp => ?_
  have hbits : 104 ≤ m.log2 + (e - 2 * rootExponent m e).toNat := by
    rw [rootExponent] at hexp ⊢
    omega
  have hwide : 2 ^ 52 * 2 ^ 52 ≤ m <<< (e - 2 * rootExponent m e).toNat :=
    calc 2 ^ 52 * 2 ^ 52 ≤ 2 ^ (m.log2 + (e - 2 * rootExponent m e).toNat) :=
          (pow_add 2 52 52).symm.trans_le (Nat.pow_le_pow_right (by norm_num) hbits)
      _ = 2 ^ m.log2 * 2 ^ (e - 2 * rootExponent m e).toNat := pow_add 2 _ _
      _ ≤ m <<< (e - 2 * rootExponent m e).toNat := by
        rw [Nat.shiftLeft_eq]
        exact Nat.mul_le_mul_right _ (Nat.log2_self_le hm.ne')
  have hroot := Nat.le_sqrt.mpr hwide
  exact (Nat.le_log2 (by omega)).mpr hroot

/-- The steps of a root are no coarser than the size of the number asks for. -/
theorem rootExponent_le {k : ℤ} (hk : -1021 ≤ k) (hlt : (m : ℚ) * 2 ^ e < 2 ^ (2 * k)) :
    rootExponent m e ≤ k - 53 := by
  have hlog : (2 : ℚ) ^ m.log2 ≤ m := by exact_mod_cast Nat.log2_self_le hm.ne'
  have hpow : (2 : ℚ) ^ ((m.log2 : ℤ) + e) < 2 ^ (2 * k) := by
    rw [zpow_add₀ (by norm_num), zpow_natCast]
    exact (mul_le_mul_of_nonneg_right hlog (by positivity)).trans_lt hlt
  have hsize := (zpow_lt_zpow_iff_right₀ (by norm_num : (1 : ℚ) < 2)).mp hpow
  rw [rootExponent]
  omega

/-- The root is rounded from a number that lies to whole numbers of its steps as the exact root
does. -/
theorem gives_sqrt : ∃ q : ℚ, Gives (UnpackedFloat.sqrt .binary64 (.finite .positive m e hm)) q ∧
    ∀ j : ℕ,
      ((j * 2 ^ rootExponent m e) ^ 2 ≤ (m : ℚ) * 2 ^ e → j * 2 ^ rootExponent m e ≤ q) ∧
      ((m : ℚ) * 2 ^ e ≤ (j * 2 ^ rootExponent m e) ^ 2 → q ≤ j * 2 ^ rootExponent m e) := by
  obtain ⟨ρ, hext, hρ⟩ := exists_extends_sqrt (m <<< (e - 2 * rootExponent m e).toNat)
  refine ⟨ρ * 2 ^ rootExponent m e, ?_, fun j => ?_⟩
  · have hround := gives_roundWithAccuracy .positive hext (root_bits hm)
    rw [show ((Sign.positive.apply 1 : ℤ) : ℚ) = 1 from rfl, one_mul] at hround
    rw [UnpackedFloat.sqrt, sqrtCore_eq]
    exact hround
  · have hpos : (0 : ℚ) < 2 ^ rootExponent m e := by positivity
    have hcancel (a b : ℚ) :
        a * 2 ^ rootExponent m e ≤ b * 2 ^ rootExponent m e ↔ a ≤ b :=
      mul_le_mul_iff_left₀ hpos
    have hcancel' (a b : ℚ) :
        a * (2 ^ rootExponent m e) ^ 2 ≤ b * (2 ^ rootExponent m e) ^ 2 ↔ a ≤ b :=
      mul_le_mul_iff_left₀ (pow_pos hpos 2)
    obtain ⟨hbelow, habove⟩ := hρ j
    rw [root_scale m e, mul_pow]
    simp only [hcancel, hcancel']
    rw [pow_two]
    exact ⟨fun h => hbelow (by exact_mod_cast h), fun h => habove (by exact_mod_cast h)⟩

end Core

/-! ## The root of a float -/

variable {x : Float}

/-- A root is the float nearest to a number that lies to coarse numbers as the exact root does. -/
theorem nearest_sqrt (hx : x.isFinite = true) (h0 : 0 < value x) {k : ℤ} (hk : -1021 ≤ k)
    (hlt : value x < 2 ^ (2 * k)) :
    x.sqrt.isNaN = false ∧ ∃ q : ℚ, Nearest q (rank x.sqrt) ∧ ∀ j : ℕ,
      ((j * 2 ^ (k - 53)) ^ 2 ≤ value x → j * 2 ^ (k - 53) ≤ q) ∧
      (value x ≤ (j * 2 ^ (k - 53)) ^ 2 → q ≤ j * 2 ^ (k - 53)) := by
  unfold value at h0 hlt ⊢
  change (Float.Model.pack (UnpackedFloat.sqrt .binary64 x.toModel.unpack)).isNaN = false ∧
    ∃ q : ℚ, Nearest q
      (rankOf (Float.Model.pack (UnpackedFloat.sqrt .binary64 x.toModel.unpack)).unpack) ∧ _
  change x.toModel.unpack.isFinite = true at hx
  generalize x.toModel.unpack = u at hx h0 hlt ⊢
  rcases u with s | _ | s | ⟨_ | _, m, e, hm⟩
  · cases hx
  · cases hx
  · exact absurd h0 (lt_irrefl _)
  · simp only [valueOf, Sign.apply, Int.cast_neg, Int.cast_natCast, neg_mul] at h0
    have : (0 : ℚ) ≤ m * 2 ^ e := by positivity
    linarith
  simp only [valueOf, Sign.apply, Int.cast_natCast] at h0 hlt ⊢
  have hcoarse := rootExponent_le hm hk hlt
  obtain ⟨q, hgives, hgrid⟩ := gives_sqrt (e := e) hm
  refine ⟨hgives.1, q, hgives.2, fun j => ?_⟩
  have hj : (j : ℚ) * 2 ^ (k - 53) =
      (j * 2 ^ (k - 53 - rootExponent m e).toNat : ℕ) * 2 ^ rootExponent m e := by
    rw [Nat.cast_mul, Nat.cast_pow, Nat.cast_ofNat, mul_assoc, ← zpow_natCast,
      ← zpow_add₀ (by norm_num)]
    congr 2
    omega
  rw [hj]
  exact hgrid _

/-- The root of a float is not above a whole number whose square is not below the float. -/
theorem value_sqrt_le (hx : x.isFinite = true) (h0 : 0 < value x) {c : ℕ} (hc : c ≤ 2 ^ 52)
    (hle : value x ≤ c ^ 2) :
    x.sqrt.isFinite = true ∧ 0 ≤ value x.sqrt ∧ value x.sqrt ≤ c := by
  have hc' : (c : ℚ) ≤ 2 ^ 52 := by exact_mod_cast hc
  have hlt : value x < 2 ^ (2 * (53 : ℤ)) := by
    have hsq : (c : ℚ) ^ 2 ≤ (2 ^ 52) ^ 2 := by gcongr
    norm_num at hsq ⊢
    linarith
  obtain ⟨hnum, q, hq, hgrid⟩ := nearest_sqrt hx h0 (by norm_num) hlt
  have hq0 : 0 ≤ q := by simpa [h0.le] using (hgrid 0).1
  have hqc : q ≤ c := by simpa [hle] using (hgrid c).2
  have hfin : x.sqrt.isFinite = true :=
    (bounded_of_nearest hnum hq (k := 52) (by norm_num)
      (by rw [abs_of_nonneg hq0]; exact hqc.trans hc')).1
  obtain ⟨u, hcan, hu, hvalue⟩ := exists_valueOf_whole (hc.trans (by norm_num))
  refine ⟨hfin, ?_, ?_⟩
  · exact (value_le_value_iff (by decide : (0.0 : Float).isFinite = true) hfin).mpr
      (nearest_zero.mono hq hq0)
  · rw [← hvalue]
    exact hq.value_le hfin hcan hu (by rw [hvalue]; exact hqc)

/-- The root of a small float is above a whole number if the float reaches one more than its
square. -/
theorem lt_value_sqrt (hx : x.isFinite = true) (hlt : value x < 2 ^ 52) {b : ℕ}
    (hle : (b : ℚ) ^ 2 + 1 ≤ value x) (hfin : x.sqrt.isFinite = true) : b < value x.sqrt := by
  have hb : b < 2 ^ 26 := by
    have hsq : (b : ℚ) ^ 2 < (2 ^ 26) ^ 2 := by linarith
    exact_mod_cast lt_of_pow_lt_pow_left₀ 2 (by norm_num) hsq
  have hb' : (b : ℚ) + 1 ≤ 2 ^ 26 := by exact_mod_cast hb
  have h0 : 0 < value x := by linarith [sq_nonneg (b : ℚ)]
  obtain ⟨-, q, hq, hgrid⟩ := nearest_sqrt hx h0 (k := 26) (by norm_num) (by norm_num; exact hlt)
  -- the next float above the whole number has a square below the next whole one
  have hstep : ((b * 2 ^ 27 + 1 : ℕ) : ℚ) * 2 ^ (26 - 53 : ℤ) = b + 1 / 2 ^ 27 := by
    norm_num
    ring
  have hbelow : (b + 1 / 2 ^ 27 : ℚ) ≤ q := by
    rw [← hstep]
    refine (hgrid _).1 (le_trans ?_ hle)
    rw [hstep]
    nlinarith [(Nat.cast_nonneg b : (0 : ℚ) ≤ b)]
  obtain ⟨u, hcan, hu, hvalue⟩ := exists_valueOf_mul (show b * 2 ^ 27 + 1 < 2 ^ 53 by omega)
    (e := 26 - 53) (by norm_num) (by norm_num)
  rw [hstep] at hvalue
  have hroot := hq.le_value hfin hcan hu (by rw [hvalue]; exact hbelow)
  rw [hvalue] at hroot
  refine lt_of_lt_of_le ?_ hroot
  norm_num

/-- The root of a float from one on is one at least. -/
theorem rank_one_le_sqrt (hx : x.isFinite = true) (h1 : 1 ≤ value x) :
    rank 1.0 ≤ rank x.sqrt := by
  obtain ⟨n, hlow, hhigh⟩ := exists_nat_pow_near h1 (by norm_num : (1 : ℚ) < 4)
  have hpow (k : ℕ) : (4 : ℚ) ^ k = 2 ^ (2 * (k : ℤ)) := by
    rw [zpow_mul, zpow_natCast]
    norm_num
  rw [hpow, Nat.cast_succ] at hhigh
  obtain ⟨-, q, hq, hgrid⟩ := nearest_sqrt hx (by linarith) (by omega) hhigh
  have hstep : ((2 ^ 52 : ℕ) : ℚ) * 2 ^ ((n : ℤ) + 1 - 53) = 2 ^ n := by
    rw [Nat.cast_pow, Nat.cast_ofNat, ← zpow_natCast, ← zpow_add₀ (by norm_num), ← zpow_natCast]
    congr 1
    push_cast
    ring
  have hsquare : ((2 : ℚ) ^ n) ^ 2 ≤ value x := by
    rw [← pow_mul, mul_comm, pow_mul]
    norm_num
    exact hlow
  have hbelow := (hgrid (2 ^ 52)).1 (by rwa [hstep])
  rw [hstep] at hbelow
  refine (nearest_value isFinite_one).mono hq ?_
  rw [value_one]
  exact (one_le_pow₀ (by norm_num)).trans hbelow

theorem rank_sqrt_of_top (hx : top ≤ rank x) : rank x.sqrt = top := by
  change rankOf (Float.Model.pack (UnpackedFloat.sqrt .binary64 x.toModel.unpack)).unpack = top
  rw [unpack_of_top_le hx]
  decide

end PlanarJoin.Binary64
