import Mathlib.Algebra.Order.Floor.Ring
import PlanarJoin.Proofs.Binary64.Rounding

/-!
# The rank of a computed float

Every operation computes an exact mantissa and exponent, or a mantissa with what is known of the
rest, and hands them to one rounding step.  That step gives the float nearest to the exact number,
and so does every operation on finite floats.

## Main definitions

* `Binary64.Extends`: a mantissa with its two residual bits stands for a rational number.

## Main results

* `Binary64.roundWithAccuracy_spec`: the rounding step gives the nearest float.
* `Binary64.nearest_add`, `Binary64.nearest_sub`, `Binary64.nearest_mul`, `Binary64.gives_div`: the
  operations on finite floats round the exact result.
-/

namespace PlanarJoin.Binary64

open Float.Model (UnpackedFloat Format)
open Float.Model.UnpackedFloat

/-! ## Packing -/

theorem ofBitVec_unpackSign (s : Sign) (e : BitVec 11) (m : BitVec 52) :
    Sign.ofBitVec (unpackSign (packComponents .binary64 s e m)) = s := by
  have h : unpackSign (packComponents .binary64 s e m) = s.toBitVec := by
    refine BitVec.eq_of_getLsbD_eq ?_
    intro i hi
    obtain rfl : i = 0 := by omega
    have hbit : (s.toBitVec ++ e ++ m).getLsbD 63 = s.toBitVec.getLsbD 0 := by
      rw [BitVec.getLsbD_append, BitVec.getLsbD_append]
      rfl
    rw [unpackSign, BitVec.getLsbD_cast, BitVec.getLsbD_extractLsb]
    exact hbit
  rw [h]
  cases s <;> rfl

/-- The rank of a float is its bits read as a number, less the sign. -/
theorem rankOf_unpack_packComponents (s : Sign) {e : BitVec 11} (m : BitVec 52) (he : e ≠ -1#_) :
    (UnpackedFloat.unpack .binary64 (packComponents .binary64 s e m)).isNaN = false ∧
      rankOf (UnpackedFloat.unpack .binary64 (packComponents .binary64 s e m)) =
        s.apply (e.toNat * 2 ^ 52 + m.toNat) := by
  simp only [UnpackedFloat.unpack, unpackMantissa_packComponents, unpackExponent_packComponents,
    ofBitVec_unpackSign, he, if_false]
  by_cases he0 : e = 0#_
  · subst he0
    by_cases hm0 : m = 0#_
    · subst hm0
      refine ⟨rfl, ?_⟩
      cases s <;> simp [rankOf, Sign.apply]
    · simp only [hm0, if_true, dite_false]
      refine ⟨rfl, ?_⟩
      rw [rankOf]
      refine congrArg s.apply ?_
      simp [Format.exponentBias]
  · simp only [he0, if_false]
    refine ⟨rfl, ?_⟩
    simp only [rankOf, Format.exponentBias, toNat_implicit]
    refine congrArg s.apply ?_
    push_cast
    ring

/-- Packing keeps the rank, up to that of infinity. -/
theorem rankOf_unpack_pack (s : Sign) {m : ℕ} {e : ℤ} (hm : 0 < m) (hlt : m < 2 ^ 53)
    (he : -1074 ≤ e) (hn : 2 ^ 52 ≤ m ∨ e = -1074) :
    (UnpackedFloat.unpack .binary64 (UnpackedFloat.pack .binary64 (.finite s m e hm))).isNaN =
        false ∧
      rankOf (UnpackedFloat.unpack .binary64 (UnpackedFloat.pack .binary64 (.finite s m e hm))) =
        s.apply (min (m + (e + 1074) * 2 ^ 52) top) := by
  have hbias : (e + (Format.binary64.exponentBias : ℕ) +
      (Format.binary64.mantissaBitsWithoutImplicit : ℕ)).toNat = (e + 1075).toNat := by
    simp only [Format.exponentBias]
    omega
  simp only [UnpackedFloat.pack, hbias]
  split
  · next hbig =>
    simp only [packedInfinity, UnpackedFloat.unpack, unpackExponent_packComponents,
      unpackMantissa_packComponents, ofBitVec_unpackSign, if_true]
    refine ⟨rfl, congrArg s.apply ?_⟩
    simp only [top]
    omega
  · next hfits =>
    split
    · next hlog =>
      have hlog : m.log2 = 52 := by simpa [Format.mantissaBits] using hlog
      have hle : 2 ^ 52 ≤ m := (Nat.le_log2 hm.ne').mp hlog.ge
      have hexp : BitVec.ofNat 11 (e + 1075).toNat ≠ -1#_ := by
        intro h
        have := congrArg BitVec.toNat h
        simp at this
        omega
      obtain ⟨hnan, hrank⟩ := rankOf_unpack_packComponents s (BitVec.ofNat 52 m) hexp
      refine ⟨hnan, hrank.trans ?_⟩
      refine congrArg s.apply ?_
      simp only [BitVec.toNat_ofNat, top]
      omega
    · next hlog =>
      have hlt : m < 2 ^ 52 := by
        by_contra hge
        have := (Nat.le_log2 hm.ne').mpr (not_lt.mp hge)
        have := (Nat.log2_lt hm.ne').mpr hlt
        exact hlog (by simp only [Format.mantissaBits]; omega)
      obtain ⟨hnan, hrank⟩ :=
        rankOf_unpack_packComponents s (e := 0#11) (BitVec.ofNat 52 m) (by decide)
      refine ⟨hnan, hrank.trans ?_⟩
      refine congrArg s.apply ?_
      simp only [BitVec.toNat_ofNat, top]
      omega

/-- Every magnitude below that of infinity is the rank of a float, with either sign. -/
theorem exists_rank_apply (s : Sign) {k : ℤ} (h0 : 0 < k) (h : k < top) :
    ∃ x : Float, x.isNaN = false ∧ rank x = s.apply k := by
  obtain ⟨m, e, hm, hlt, he, hn, hk⟩ : ∃ (m : ℕ) (e : ℤ), 0 < m ∧ m < 2 ^ 53 ∧ -1074 ≤ e ∧
      (2 ^ 52 ≤ m ∨ e = -1074) ∧ (m : ℤ) + (e + 1074) * 2 ^ 52 = k := by
    by_cases hsmall : k < 2 ^ 52
    · exact ⟨k.toNat, -1074, by omega, by omega, le_rfl, .inr rfl, by omega⟩
    · exact ⟨(k % 2 ^ 52 + 2 ^ 52).toNat, k / 2 ^ 52 - 1 - 1074, by omega, by omega, by omega,
        .inl (by omega), by omega⟩
  obtain ⟨hnan, hrank⟩ := rankOf_unpack_pack s hm hlt he hn
  refine ⟨.ofModel (Float.Model.pack (.finite s m e hm)), hnan, hrank.trans ?_⟩
  rw [hk, min_eq_left h.le]

/-- Every integer between the infinities is the rank of a float. -/
theorem exists_rank_eq {k : ℤ} (hlow : -top < k) (hhigh : k < top) :
    ∃ x : Float, x.isNaN = false ∧ rank x = k := by
  rcases lt_trichotomy k 0 with h | rfl | h
  · obtain ⟨x, hx, hrank⟩ := exists_rank_apply .negative (neg_pos.mpr h) (by omega)
    exact ⟨x, hx, hrank.trans (neg_neg k)⟩
  · exact ⟨0.0, by decide, by decide⟩
  · exact exists_rank_apply .positive h hhigh

/-! ## The rounding step -/

/-- The mantissa and the two residual bits stand for `x`: the round bit says whether the rest is a
half at least, the sticky bit whether it is neither nothing nor a half. -/
def Extends (em : ExtendedMantissa) (x : ℚ) : Prop :=
  ∃ f : ℚ, x = em.mantissa + f ∧ 0 ≤ f ∧ f < 1 ∧ (em.roundBit = true ↔ 1 / 2 ≤ f) ∧
    (em.stickyBit = true ↔ f ≠ 0 ∧ f ≠ 1 / 2)

theorem extends_exact (m : ℕ) : Extends (.ofMantissaAndAccuracy m .exact) m :=
  ⟨0, by simp [ExtendedMantissa.ofMantissaAndAccuracy], le_rfl, by norm_num,
    by simp [ExtendedMantissa.ofMantissaAndAccuracy],
    by simp [ExtendedMantissa.ofMantissaAndAccuracy]⟩

/-- A shift halves the number. -/
theorem Extends.shiftRightOne {em : ExtendedMantissa} {x : ℚ} (h : Extends em x) :
    Extends em.shiftRightOne (x / 2) := by
  obtain ⟨f, hx, hf0, hf1, hround, hsticky⟩ := h
  have hdiv : (em.mantissa : ℚ) = 2 * (em.mantissa / 2 : ℕ) + (em.mantissa % 2 : ℕ) := by
    exact_mod_cast (Nat.div_add_mod em.mantissa 2).symm
  -- the new sticky bit collects both old bits: the old rest is not nothing
  have hrest : (em.roundBit || em.stickyBit) = true ↔ f ≠ 0 := by
    rw [Bool.or_eq_true, hround, hsticky]
    constructor
    · rintro (h | h)
      · exact fun h0 => by linarith
      · exact h.1
    · intro h0
      by_cases hhalf : f = 1 / 2
      · exact .inl hhalf.ge
      · exact .inr ⟨h0, hhalf⟩
  rcases Nat.mod_two_eq_zero_or_one em.mantissa with hm | hm
  · rw [hm, Nat.cast_zero, add_zero] at hdiv
    refine ⟨f / 2, by simp only [ExtendedMantissa.shiftRightOne]; linarith, by linarith,
      by linarith, ?_, ?_⟩
    · simp only [ExtendedMantissa.shiftRightOne, hm]
      constructor
      · intro h
        cases h
      · intro h
        linarith
    · simp only [ExtendedMantissa.shiftRightOne, hrest]
      constructor
      · intro h
        exact ⟨by simpa using h, fun h => by linarith⟩
      · rintro ⟨h, -⟩
        simpa using h
  · rw [hm, Nat.cast_one] at hdiv
    refine ⟨(1 + f) / 2, by simp only [ExtendedMantissa.shiftRightOne]; linarith, by linarith,
      by linarith, ?_, ?_⟩
    · simp only [ExtendedMantissa.shiftRightOne, hm]
      exact ⟨fun _ => by linarith, fun _ => rfl⟩
    · simp only [ExtendedMantissa.shiftRightOne, hrest]
      constructor
      · intro h
        exact ⟨fun h => by linarith, fun h' => h (by linarith)⟩
      · rintro ⟨-, h⟩ h0
        exact h (by rw [h0]; norm_num)

theorem Extends.shiftRight {em : ExtendedMantissa} {x : ℚ} (h : Extends em x) (n : ℕ) :
    Extends (em >>> n) (x / 2 ^ n) := by
  change Extends (n.repeat ExtendedMantissa.shiftRightOne em) _
  induction n with
  | zero => simpa [Nat.repeat] using h
  | succ n ih =>
    rw [pow_succ, ← div_div]
    exact ih.shiftRightOne

/-- Rounding the mantissa by its residual bits gives the nearest integer. -/
theorem Extends.rounds {em : ExtendedMantissa} {x : ℚ} (h : Extends em x) :
    Rounds x em.roundedMantissa := by
  obtain ⟨f, rfl, hf0, hf1, hround, hsticky⟩ := h
  rcases em with ⟨m, r, s⟩
  dsimp only at hround hsticky ⊢
  cases r with
  | false =>
    have hlt : f < 1 / 2 := by simpa using hround
    have hr : (⟨m, false, s⟩ : ExtendedMantissa).roundedMantissa = m := by cases s <;> rfl
    rw [hr]
    refine ⟨⟨by push_cast; linarith, by push_cast; linarith⟩, ?_⟩
    rintro (h | h) <;> push_cast at h <;> exfalso <;> linarith
  | true =>
    have hge : 1 / 2 ≤ f := by simpa using hround
    cases s with
    | false =>
      have hf : f = 1 / 2 := by
        by_contra hne
        have h0 : f ≠ 0 := fun h0 => by linarith
        exact Bool.false_ne_true (hsticky.mpr ⟨h0, hne⟩)
      have hr : (⟨m, true, false⟩ : ExtendedMantissa).roundedMantissa = m + m % 2 := rfl
      have hm := Nat.mod_two_eq_zero_or_one m
      rw [hr, hf]
      refine ⟨⟨?_, ?_⟩, fun _ => by push_cast; omega⟩ <;> rcases hm with hm | hm <;>
        rw [hm] <;> push_cast <;> linarith
    | true =>
      have hf : f ≠ 0 ∧ f ≠ 1 / 2 := by simpa using hsticky
      have hgt : 1 / 2 < f := lt_of_le_of_ne hge (Ne.symm hf.2)
      have hr : (⟨m, true, true⟩ : ExtendedMantissa).roundedMantissa = m + 1 := rfl
      rw [hr]
      refine ⟨⟨by push_cast; linarith, by push_cast; linarith⟩, ?_⟩
      rintro (h | h) <;> push_cast at h <;> exfalso <;> linarith

/-- The exponent that a mantissa of `m.log2 + 1` bits is shifted to. -/
theorem targetExponent_eq (m : ℕ) (e : ℤ) :
    Format.binary64.targetExponent (Float.Model.totalExponent m e) =
      max ((m.log2 : ℤ) + e - 52) (-1074) := by
  simp only [Format.targetExponent, Float.Model.totalExponent, Format.mantissaBits,
    Format.minExponent]
  omega

theorem shiftRight_zero (em : ExtendedMantissa) : em >>> 0 = em := rfl

/-- The step between floats around a number whose whole part is `m`, in units of `2 ^ e`. -/
theorem binade {m : ℕ} {e t : ℤ} {x : ℚ} (hm : m ≤ x) (hm' : x < m + 1)
    (hb : 52 ≤ m.log2 ∨ e ≤ -1074) (ht : max ((m.log2 : ℤ) + e - 52) (-1074) = t) :
    x * 2 ^ e < 2 ^ (t + 53) ∧ (t = -1074 ∨ 2 ^ (t + 52) ≤ x * 2 ^ e) := by
  constructor
  · -- the exponent was chosen for the bits of the whole part, which bound the rest too
    have hle : (m : ℚ) + 1 ≤ 2 ^ (m.log2 + 1) := by exact_mod_cast Nat.lt_log2_self
    have hpow : (2 : ℚ) ^ (m.log2 + 1) * 2 ^ e ≤ 2 ^ (t + 53) := by
      rw [← zpow_natCast, ← zpow_add₀ (by norm_num)]
      exact two_zpow_mono (by push_cast; omega)
    exact lt_of_lt_of_le (mul_lt_mul_of_pos_right (by linarith) (by positivity)) hpow
  · rcases eq_or_ne t (-1074) with h | h
    · exact .inl h
    · have hm0 : m ≠ 0 := by
        rintro rfl
        simp at hb ht
        omega
      have hle : (2 : ℚ) ^ m.log2 ≤ m := by exact_mod_cast Nat.log2_self_le hm0
      have hpow : (2 : ℚ) ^ (t + 52) = 2 ^ m.log2 * 2 ^ e := by
        rw [← zpow_natCast, ← zpow_add₀ (by norm_num)]
        congr 1
        omega
      rw [hpow]
      exact .inr (mul_le_mul_of_nonneg_right (by linarith) (by positivity))

/-- The first shift puts the number into steps of that size, and its residual bits round it. -/
theorem shiftToTargetExponent_spec {m : ℕ} {e t : ℤ} {acc : Accuracy} {x : ℚ}
    (hx : Extends (.ofMantissaAndAccuracy m acc) x)
    (ht : max ((m.log2 : ℤ) + e - 52) (-1074) = t) (het : e ≤ t) :
    (shiftToTargetExponent .binary64 m e acc).2 = t ∧
      Rounds (x * 2 ^ e / 2 ^ t) (shiftToTargetExponent .binary64 m e acc).1.roundedMantissa := by
  have hshift : e + ((t - e).toNat : ℤ) = t := by omega
  simp only [shiftToTargetExponent, targetExponent_eq, ht, shiftToExponent]
  refine ⟨hshift, ?_⟩
  have hpow : (2 : ℚ) ^ t = 2 ^ e * 2 ^ (t - e).toNat := by
    rw [← zpow_natCast, ← zpow_add₀ (by norm_num), hshift]
  have hq : x * 2 ^ e / 2 ^ t = x / 2 ^ (t - e).toNat := by
    rw [hpow]
    field_simp
  rw [hq]
  exact (hx.shiftRight _).rounds

/-- A rounded mantissa is put into 53 bits: it has more only if it is the next power of two. -/
theorem renormalize {r : ℕ} {t : ℤ} (ht : -1074 ≤ t) (hr : r ≤ 2 ^ 53)
    (hn : 2 ^ 52 ≤ r ∨ t = -1074) :
    let p := shiftToTargetExponent .binary64 r t .exact
    p.1.mantissa < 2 ^ 53 ∧ -1074 ≤ p.2 ∧ (2 ^ 52 ≤ p.1.mantissa ∨ p.2 = -1074) ∧
      (p.1.mantissa : ℤ) + (p.2 + 1074) * 2 ^ 52 = r + (t + 1074) * 2 ^ 52 := by
  simp only [shiftToTargetExponent, shiftToExponent, targetExponent_eq]
  rcases hr.lt_or_eq with hlt | rfl
  · have hlog : r.log2 ≤ 52 := by
      rcases Nat.eq_zero_or_pos r with rfl | h0
      · simp
      · have := (Nat.log2_lt h0.ne').mpr hlt
        omega
    have h0 : (max ((r.log2 : ℤ) + t - 52) (-1074) - t).toNat = 0 := by omega
    rw [h0, shiftRight_zero, ExtendedMantissa.ofMantissaAndAccuracy]
    exact ⟨hlt, by omega, by simpa using hn, by simp⟩
  · have h1 : (max (((2 ^ 53 : ℕ).log2 : ℤ) + t - 52) (-1074) - t).toNat = 1 := by
      rw [Nat.log2_two_pow]
      omega
    have hm : (ExtendedMantissa.ofMantissaAndAccuracy (2 ^ 53) .exact >>> 1).mantissa = 2 ^ 52 :=
      rfl
    rw [h1, hm]
    refine ⟨by norm_num, by omega, .inl le_rfl, ?_⟩
    push_cast
    ring

/-- The rounding step gives the float nearest to the exact number. -/
theorem roundWithAccuracy_spec (s : Sign) {m : ℕ} {e : ℤ} {acc : Accuracy} {x : ℚ}
    (hx : Extends (.ofMantissaAndAccuracy m acc) x) (hb : 52 ≤ m.log2 ∨ e ≤ -1074) :
    ∃ k, NearestMagnitude (x * 2 ^ e) k ∧
      (Float.Model.pack (roundWithAccuracy .binary64 s m e acc)).isNaN = false ∧
      rankOf (Float.Model.pack (roundWithAccuracy .binary64 s m e acc)).unpack = s.apply k := by
  have hm : (m : ℚ) ≤ x ∧ x < m + 1 := by
    obtain ⟨f, hxf, hf0, hf1, -⟩ := hx
    have hmant : (ExtendedMantissa.ofMantissaAndAccuracy m acc).mantissa = m := by
      rcases acc with _ | _ | _ | _ <;> rfl
    rw [hmant] at hxf
    constructor <;> linarith
  generalize ht : max ((m.log2 : ℤ) + e - 52) (-1074) = t
  obtain ⟨hlt, hge⟩ := binade hm.1 hm.2 hb ht
  obtain ⟨hsnd, hr⟩ := shiftToTargetExponent_spec hx ht (by omega)
  generalize hfst : (shiftToTargetExponent .binary64 m e acc).1.roundedMantissa = r at hr
  have hr53 : r ≤ 2 ^ 53 := by exact_mod_cast steps_le hlt hr
  have hrn : 2 ^ 52 ≤ r ∨ t = -1074 := by
    refine hge.symm.imp ?_ id
    intro h
    exact_mod_cast le_steps h hr
  obtain ⟨hm53, he, hn, hrank⟩ := renormalize (by omega) hr53 hrn
  refine ⟨_, ⟨t, r, by omega, hlt, hge, hr, rfl⟩, ?_⟩
  simp only [roundWithAccuracy, hfst, hsnd]
  split
  · next h0 =>
    rw [h0] at hn hrank
    have hzero : (r : ℤ) + (t + 1074) * 2 ^ 52 = 0 := by
      rw [← hrank, hn.resolve_left (by norm_num)]
      rfl
    rw [hzero]
    cases s <;> exact ⟨by decide, by decide⟩
  · next h0 =>
    obtain ⟨hnan, hres⟩ := rankOf_unpack_pack s (Nat.pos_of_ne_zero h0) hm53 he hn
    exact ⟨hnan, hres.trans (by rw [hrank])⟩

/-! ## Operations -/

/-- A computed float is a number, the one nearest to `q`. -/
def Gives (u : UnpackedFloat) (q : ℚ) : Prop :=
  (Float.Model.pack u).isNaN = false ∧ Nearest q (rankOf (Float.Model.pack u).unpack)

theorem gives_zero (s : Sign) : Gives (.zero s) 0 := by
  refine ⟨by cases s <;> decide, ?_⟩
  have h : rankOf (Float.Model.pack (.zero s)).unpack = 0 := by cases s <;> decide
  rw [h]
  exact nearest_zero

/-- A float that needs no rounding gives its own value. -/
theorem gives_valueOf {s : Sign} {m : ℕ} {e : ℤ} {hm : 0 < m} (hc : Canonical (.finite s m e hm)) :
    Gives (.finite s m e hm) (valueOf (.finite s m e hm)) := by
  obtain ⟨hlt, he, he', hn⟩ := id hc
  obtain ⟨hnan, hrank⟩ := rankOf_unpack_pack s hm hlt he hn
  have hmin : min ((m : ℤ) + (e + 1074) * 2 ^ 52) top = m + (e + 1074) * 2 ^ 52 := by
    simp only [top]
    omega
  refine ⟨hnan, ?_⟩
  rw [show rankOf (Float.Model.pack (.finite s m e hm)).unpack = rankOf (.finite s m e hm) from
    hrank.trans (by rw [hmin, rankOf])]
  exact nearest_valueOf hc rfl

/-- A mantissa with its residual bits gives the signed number that they stand for. -/
theorem gives_roundWithAccuracy (s : Sign) {m : ℕ} {e : ℤ} {acc : Accuracy} {x : ℚ}
    (hx : Extends (.ofMantissaAndAccuracy m acc) x) (hb : 52 ≤ m.log2 ∨ e ≤ -1074) :
    Gives (roundWithAccuracy .binary64 s m e acc) ((s.apply 1 : ℤ) * (x * 2 ^ e)) := by
  obtain ⟨k, hk, hnan, hrank⟩ := roundWithAccuracy_spec s hx hb
  refine ⟨hnan, hrank ▸ Nearest.of_sign s ?_ hk⟩
  obtain ⟨f, hxf, hf0, -⟩ := hx
  rw [hxf]
  positivity

theorem decreaseExponent_value (m : ℕ) (e t : ℤ) :
    ((decreaseExponent m e t).1 : ℚ) * 2 ^ (decreaseExponent m e t).2 = m * 2 ^ e := by
  simp only [decreaseExponent, Nat.shiftLeft_eq]
  push_cast
  rw [mul_assoc, ← zpow_natCast, ← zpow_add₀ (by norm_num)]
  congr 2
  omega

/-- Rounding an exact mantissa gives the number. -/
theorem gives_round (s : Sign) {m : ℕ} (hm : 0 < m) (e : ℤ) :
    Gives (UnpackedFloat.round .binary64 s m e) ((s.apply 1 : ℤ) * (m * 2 ^ e)) := by
  simp only [UnpackedFloat.round, targetExponent_eq]
  rw [← decreaseExponent_value m e (max ((m.log2 : ℤ) + e - 52) (-1074))]
  refine gives_roundWithAccuracy s (extends_exact _) ?_
  simp only [decreaseExponent, Nat.shiftLeft_eq]
  generalize hk : (e - max ((m.log2 : ℤ) + e - 52) (-1074)).toNat = k
  refine or_iff_not_imp_right.mpr ?_
  intro h
  rw [Nat.le_log2 (by positivity)]
  calc 2 ^ 52 ≤ 2 ^ (m.log2 + k) := Nat.pow_le_pow_right (by norm_num) (by omega)
    _ = 2 ^ m.log2 * 2 ^ k := pow_add 2 _ _
    _ ≤ m * 2 ^ k := Nat.mul_le_mul_right _ (Nat.log2_self_le hm.ne')

theorem gives_normalize (i e : ℤ) (s : Sign) :
    Gives (UnpackedFloat.normalize .binary64 i e s) (i * 2 ^ e) := by
  unfold UnpackedFloat.normalize
  split
  · next h =>
    have hi : i < 0 := Int.compare_eq_lt.mp h
    have hcast : (((-i).toNat : ℕ) : ℚ) = -i := by
      exact_mod_cast Int.toNat_of_nonneg (by omega : 0 ≤ -i)
    have := gives_round .negative (m := (-i).toNat) (by omega) e
    rw [hcast] at this
    simpa [Sign.apply] using this
  · next h =>
    have hi : i = 0 := Int.compare_eq_eq.mp h
    simpa [hi] using gives_zero s
  · next h =>
    have hi : 0 < i := Int.compare_eq_gt.mp h
    have hcast : ((i.toNat : ℕ) : ℚ) = i := by exact_mod_cast Int.toNat_of_nonneg hi.le
    have := gives_round .positive (m := i.toNat) (by omega) e
    rw [hcast] at this
    simpa [Sign.apply] using this

/-- Over the smaller exponent the difference of two numbers is a whole number. -/
theorem valueOf_sub_finite {s t : Sign} {m n : ℕ} {e f : ℤ} {hm : 0 < m} {hn : 0 < n} :
    valueOf (.finite s m e hm) - valueOf (.finite t n f hn) =
      ((s.apply (decreaseExponent m e (min e f)).1 -
        t.apply (decreaseExponent n f (min e f)).1 : ℤ) : ℚ) * 2 ^ min e f := by
  have he : (decreaseExponent m e (min e f)).2 = min e f := by
    simp only [decreaseExponent]
    omega
  have hf : (decreaseExponent n f (min e f)).2 = min e f := by
    simp only [decreaseExponent]
    omega
  have hme := decreaseExponent_value m e (min e f)
  have hnf := decreaseExponent_value n f (min e f)
  rw [he] at hme
  rw [hf] at hnf
  rw [Int.cast_sub, apply_mul, apply_mul t, sub_mul, mul_assoc, mul_assoc, Int.cast_natCast,
    Int.cast_natCast, hme, hnf, valueOf, valueOf, apply_mul, apply_mul t, mul_assoc, mul_assoc,
    Int.cast_natCast, Int.cast_natCast]

theorem gives_sub_finite {s t : Sign} {m n : ℕ} {e f : ℤ} {hm : 0 < m} {hn : 0 < n} :
    Gives (UnpackedFloat.sub .binary64 (.finite s m e hm) (.finite t n f hn))
      (valueOf (.finite s m e hm) - valueOf (.finite t n f hn)) := by
  rw [valueOf_sub_finite]
  exact gives_normalize (s.apply (decreaseExponent m e (min e f)).1 -
    t.apply (decreaseExponent n f (min e f)).1) (min e f) .positive

theorem valueOf_neg {s : Sign} {m : ℕ} {e : ℤ} {hm : 0 < m} :
    valueOf (.finite (-s) m e hm) = -valueOf (.finite s m e hm) := by
  have hs : (-s).apply m = -s.apply m := by
    cases s with
    | negative => exact (Int.neg_neg _).symm
    | positive => rfl
  rw [valueOf, valueOf, hs, Int.cast_neg, neg_mul]

theorem sign_mul_apply (s t : Sign) : (s * t).apply 1 = s.apply 1 * t.apply 1 := by
  cases s <;> cases t <;> rfl

theorem sign_div_apply (s t : Sign) :
    (((s / t).apply 1 : ℤ) : ℚ) = (s.apply 1 : ℤ) / (t.apply 1 : ℤ) := by
  have h : (s / t).apply 1 * t.apply 1 = s.apply 1 := by cases s <;> cases t <;> rfl
  have ht : ((t.apply 1 : ℤ) : ℚ) ≠ 0 := by cases t <;> norm_num [Sign.apply]
  rw [eq_div_iff ht]
  exact_mod_cast h

theorem gives_sub {u v : UnpackedFloat} (hu : Canonical u) (hv : Canonical v)
    (hfu : u.isFinite = true) (hfv : v.isFinite = true) :
    Gives (UnpackedFloat.sub .binary64 u v) (valueOf u - valueOf v) := by
  rcases u with s | _ | s | ⟨s, m, e, hm⟩
  · cases hfu
  · cases hfu
  · rcases v with t | _ | t | ⟨t, n, f, hn⟩
    · cases hfv
    · cases hfv
    · rw [show valueOf (.zero s) - valueOf (.zero t) = 0 from sub_zero 0]
      change Gives (if s == -t then .zero s else .zero .positive) 0
      split <;> exact gives_zero _
    · rw [show valueOf (.zero s) = 0 from rfl, zero_sub, ← valueOf_neg]
      exact gives_valueOf hv
  · rcases v with t | _ | t | ⟨t, n, f, hn⟩
    · cases hfv
    · cases hfv
    · rw [show valueOf (.zero t) = 0 from rfl, sub_zero]
      exact gives_valueOf hu
    · exact gives_sub_finite

/-- Adding is taking off the number with the other sign. -/
theorem add_eq_sub_neg (u v : UnpackedFloat) :
    UnpackedFloat.add .binary64 u v = UnpackedFloat.sub .binary64 u v.neg := by
  have hneg (t : Sign) : -(-t) = t := by cases t <;> rfl
  have happly (t : Sign) (n : ℕ) : (-t).apply (n : ℤ) = -t.apply n := by
    cases t with
    | negative => exact (Int.neg_neg _).symm
    | positive => rfl
  rcases u with s | _ | s | ⟨s, m, e, hm⟩ <;> rcases v with t | _ | t | ⟨t, n, f, hn⟩ <;>
    simp only [UnpackedFloat.add, UnpackedFloat.sub, UnpackedFloat.neg, hneg, happly,
      sub_neg_eq_add]

theorem canonical_neg {v : UnpackedFloat} (hv : Canonical v) : Canonical v.neg := by
  rcases v with t | _ | t | ⟨t, n, f, hn⟩
  · trivial
  · trivial
  · trivial
  · exact hv

/-- Turning the sign of a finite number negates its value and its rank. -/
theorem neg_spec {v : UnpackedFloat} (hv : v.isFinite = true) :
    v.neg.isFinite = true ∧ valueOf v.neg = -valueOf v ∧ rankOf v.neg = -rankOf v := by
  rcases v with t | _ | t | ⟨t, n, f, hn⟩
  · cases hv
  · cases hv
  · exact ⟨rfl, neg_zero.symm, rfl⟩
  · refine ⟨rfl, valueOf_neg, ?_⟩
    cases t with
    | negative => exact (Int.neg_neg _).symm
    | positive => rfl

theorem gives_add {u v : UnpackedFloat} (hu : Canonical u) (hv : Canonical v)
    (hfu : u.isFinite = true) (hfv : v.isFinite = true) :
    Gives (UnpackedFloat.add .binary64 u v) (valueOf u + valueOf v) := by
  obtain ⟨hfin, hvalue, -⟩ := neg_spec hfv
  have h := gives_sub hu (canonical_neg hv) hfu hfin
  rw [hvalue, sub_neg_eq_add] at h
  rw [add_eq_sub_neg]
  exact h

/-- A product of two mantissas is exact. -/
theorem gives_mul {u v : UnpackedFloat} (hu : Canonical u) (hv : Canonical v)
    (hfu : u.isFinite = true) (hfv : v.isFinite = true) :
    Gives (UnpackedFloat.mul .binary64 u v) (valueOf u * valueOf v) := by
  rcases u with s | _ | s | ⟨s, m, e, hm⟩
  · cases hfu
  · cases hfu
  · rw [show valueOf (.zero s) = 0 from rfl, zero_mul]
    rcases v with t | _ | t | ⟨t, n, f, hn⟩
    · cases hfv
    · cases hfv
    · exact gives_zero _
    · exact gives_zero _
  · rcases v with t | _ | t | ⟨t, n, f, hn⟩
    · cases hfv
    · cases hfv
    · rw [show valueOf (.zero t) = 0 from rfl, mul_zero]
      exact gives_zero _
    · -- the product has 53 bits if a factor has, and else lies below all normal floats
      have hbits : 52 ≤ (m * n).log2 ∨ e + f ≤ -1074 := by
        simp only [Canonical] at hu hv
        rw [Nat.le_log2 (by positivity)]
        rcases hu.2.2.2 with hm' | he
        · exact .inl (hm'.trans (Nat.le_mul_of_pos_right _ hn))
        · rcases hv.2.2.2 with hn' | hf
          · exact .inl (hn'.trans (Nat.le_mul_of_pos_left _ hm))
          · exact .inr (by omega)
      have h := gives_roundWithAccuracy (s * t) (extends_exact (m * n)) hbits
      have hq : valueOf (.finite s m e hm) * valueOf (.finite t n f hn) =
          ((s * t).apply 1 : ℤ) * (((m * n : ℕ) : ℚ) * 2 ^ (e + f)) := by
        rw [sign_mul_apply, valueOf, valueOf, apply_mul, apply_mul t, zpow_add₀ (by norm_num)]
        push_cast
        ring
      rw [hq]
      exact h

/-- The quotient of two mantissas with its remainder stands for the fraction. -/
theorem extends_div (m : ℕ) {n : ℕ} (hn : 0 < n) :
    Extends (.ofMantissaAndAccuracy (m / n) (accuracyOfFraction (m % n) n)) (m / n : ℚ) := by
  have hn' : (0 : ℚ) < n := by exact_mod_cast hn
  have hm : (m : ℚ) = n * (m / n : ℕ) + (m % n : ℕ) := by exact_mod_cast (Nat.div_add_mod m n).symm
  have hlt : ((m % n : ℕ) : ℚ) < n := by exact_mod_cast Nat.mod_lt m hn
  generalize m % n = r at hm hlt
  have hx : (m / n : ℚ) = (m / n : ℕ) + r / n := by
    rw [hm]
    field_simp
  have hf0 : (0 : ℚ) ≤ r / n := by positivity
  have hf1 : (r / n : ℚ) < 1 := (div_lt_one hn').mpr hlt
  unfold accuracyOfFraction
  split
  · next h0 =>
    exact ⟨r / n, hx, hf0, hf1, by simp [h0, ExtendedMantissa.ofMantissaAndAccuracy],
      by simp [h0, ExtendedMantissa.ofMantissaAndAccuracy]⟩
  · next h0 =>
    have hne : (r / n : ℚ) ≠ 0 := div_ne_zero (by exact_mod_cast h0) hn'.ne'
    rcases Nat.lt_trichotomy (2 * r) n with h | h | h
    · rw [Nat.compare_eq_lt.mpr h]
      have hhalf : (r / n : ℚ) < 1 / 2 := by
        rw [div_lt_div_iff₀ hn' (by norm_num)]
        exact_mod_cast (by omega : r * 2 < 1 * n)
      exact ⟨r / n, hx, hf0, hf1, by simpa [ExtendedMantissa.ofMantissaAndAccuracy] using hhalf,
        by simpa [ExtendedMantissa.ofMantissaAndAccuracy, hne] using hhalf.ne⟩
    · rw [Nat.compare_eq_eq.mpr h]
      have hhalf : (r / n : ℚ) = 1 / 2 := by
        rw [div_eq_div_iff hn'.ne' (by norm_num)]
        exact_mod_cast (by omega : r * 2 = 1 * n)
      exact ⟨r / n, hx, hf0, hf1, by simp [hhalf, ExtendedMantissa.ofMantissaAndAccuracy],
        by simp [hhalf, ExtendedMantissa.ofMantissaAndAccuracy]⟩
    · rw [Nat.compare_eq_gt.mpr h]
      have hhalf : 1 / 2 < (r / n : ℚ) := by
        rw [div_lt_div_iff₀ (by norm_num) hn']
        exact_mod_cast (by omega : 1 * n < r * 2)
      exact ⟨r / n, hx, hf0, hf1, by simpa [ExtendedMantissa.ofMantissaAndAccuracy] using hhalf.le,
        by simpa [ExtendedMantissa.ofMantissaAndAccuracy, hne] using hhalf.ne'⟩

/-- The dividend is widened until the quotient has 53 bits, or to the least exponent. -/
theorem gives_div_finite {s t : Sign} {m n : ℕ} {e f : ℤ} {hm : 0 < m} {hn : 0 < n} :
    Gives (UnpackedFloat.div .binary64 (.finite s m e hm) (.finite t n f hn))
      (valueOf (.finite s m e hm) / valueOf (.finite t n f hn)) := by
  generalize hT' : min (e - f) (Format.binary64.targetExponent
    (Float.Model.totalExponent m e - Float.Model.totalExponent n f)) = T
  generalize hk : (e - f - T).toNat = k
  have hmin : T = min (e - f) (max ((m.log2 : ℤ) + e - (n.log2 + f) - 53) (-1074)) := by
    rw [← hT']
    simp only [Format.targetExponent, Float.Model.totalExponent, Format.mantissaBits,
      Format.minExponent]
    omega
  -- the dividend was widened by `k` bits, enough for a quotient of 53
  have hbits : 52 ≤ (m <<< k / n).log2 ∨ T ≤ -1074 := by
    refine or_iff_not_imp_right.mpr ?_
    intro h
    have hle : 2 ^ 52 ≤ m <<< k / n := by
      rw [Nat.le_div_iff_mul_le hn, Nat.shiftLeft_eq]
      calc 2 ^ 52 * n ≤ 2 ^ 52 * 2 ^ (n.log2 + 1) := Nat.mul_le_mul_left _ Nat.lt_log2_self.le
        _ = 2 ^ (n.log2 + 53) := by rw [← pow_add, show 52 + (n.log2 + 1) = n.log2 + 53 by omega]
        _ ≤ 2 ^ (m.log2 + k) := Nat.pow_le_pow_right (by norm_num) (by omega)
        _ = 2 ^ m.log2 * 2 ^ k := pow_add 2 _ _
        _ ≤ m * 2 ^ k := Nat.mul_le_mul_right _ (Nat.log2_self_le hm.ne')
    exact (Nat.le_log2 (by omega)).mpr hle
  have h := gives_roundWithAccuracy (s / t) (extends_div (m <<< k) hn) hbits
  have hq : valueOf (.finite s m e hm) / valueOf (.finite t n f hn) =
      ((s / t).apply 1 : ℤ) * ((((m <<< k : ℕ) : ℚ) / n) * 2 ^ T) := by
    have hpow : ((m <<< k : ℕ) : ℚ) * 2 ^ T * 2 ^ f = m * 2 ^ e := by
      rw [Nat.shiftLeft_eq]
      push_cast
      rw [mul_assoc, mul_assoc, ← zpow_natCast, ← zpow_add₀ (by norm_num),
        ← zpow_add₀ (by norm_num)]
      congr 2
      omega
    rw [valueOf, valueOf, apply_mul, apply_mul t, sign_div_apply, Int.cast_natCast,
      Int.cast_natCast, mul_assoc, ← hpow]
    field_simp
  rw [hq]
  subst hk hT'
  exact h

theorem gives_div {u v : UnpackedFloat} (hfu : u.isFinite = true) (hfv : v.isFinite = true)
    (hv0 : valueOf v ≠ 0) : Gives (UnpackedFloat.div .binary64 u v) (valueOf u / valueOf v) := by
  rcases v with t | _ | t | ⟨t, n, f, hn⟩
  · cases hfv
  · cases hfv
  · exact absurd rfl hv0
  · rcases u with s | _ | s | ⟨s, m, e, hm⟩
    · cases hfu
    · cases hfu
    · rw [show valueOf (.zero s) = 0 from rfl, zero_div]
      exact gives_zero _
    · exact gives_div_finite

theorem nearest_sub {x y : Float} (hx : x.isFinite = true) (hy : y.isFinite = true) :
    (x - y).isNaN = false ∧ Nearest (value x - value y) (rank (x - y)) :=
  gives_sub (canonical_unpack _) (canonical_unpack _) hx hy

theorem nearest_add {x y : Float} (hx : x.isFinite = true) (hy : y.isFinite = true) :
    (x + y).isNaN = false ∧ Nearest (value x + value y) (rank (x + y)) :=
  gives_add (canonical_unpack _) (canonical_unpack _) hx hy

theorem nearest_mul {x y : Float} (hx : x.isFinite = true) (hy : y.isFinite = true) :
    (x * y).isNaN = false ∧ Nearest (value x * value y) (rank (x * y)) :=
  gives_mul (canonical_unpack _) (canonical_unpack _) hx hy

/-! ## Whole numbers -/

/-- The float one, as the literals of whole numbers use it. -/
def one : Float := Float.exactlyRepresentablePowersOfTen[0]

theorem isFinite_one : one.isFinite = true := by decide

theorem value_one : value one = 1 := by
  have h : one.toModel.unpack = .finite .positive (2 ^ 52) (-52) (by decide) := rfl
  rw [value, h, valueOf]
  norm_num [Sign.apply]

theorem ofNat_eq {n : ℕ} (hn : n < 2 ^ 53) : Float.ofNat n = n.toUInt64.toFloat * one := by
  change Float.ofScientific n false 0 = _
  rw [Float.ofScientific, dif_pos ⟨hn, by decide⟩]
  rfl

theorem nearest_toFloat (w : UInt64) :
    w.toFloat.isNaN = false ∧ Nearest w.toNat (rank w.toFloat) := by
  have h := gives_normalize w.toNat 0 .positive
  rw [zpow_zero, mul_one] at h
  exact h

/-- A machine word is far from the infinities. -/
theorem isFinite_toFloat (w : UInt64) : w.toFloat.isFinite = true := by
  obtain ⟨hnan, hw⟩ := nearest_toFloat w
  have hpow : NearestMagnitude (2 ^ 64) (2 ^ 52 + (12 + 1074) * 2 ^ 52) := by
    refine ⟨12, 2 ^ 52, by norm_num, by norm_num, .inr (by norm_num), ?_, by norm_num [top]⟩
    have h := rounds_intCast (2 ^ 52)
    norm_num at h ⊢
    exact h
  have hle : (w.toNat : ℚ) ≤ 2 ^ 64 := by exact_mod_cast w.toNat_lt.le
  have h0 : (0 : ℚ) ≤ w.toNat := Nat.cast_nonneg _
  have hmax := hw.mono (.inl ⟨by norm_num, hpow⟩) hle
  have hmin := nearest_zero.mono hw h0
  refine isFinite_iff.mpr ⟨hnan, ?_, ?_⟩ <;> simp only [top] <;> omega

/-- Below `2 ^ 53`, the float of a whole number is the one nearest to it. -/
theorem nearest_ofNat {n : ℕ} (hn : n < 2 ^ 53) :
    (Float.ofNat n).isNaN = false ∧ Nearest n (rank (Float.ofNat n)) := by
  have hw : n.toUInt64.toNat = n := by
    rw [Nat.toUInt64, UInt64.toNat_ofNat']
    exact Nat.mod_eq_of_lt (by omega)
  have hfin := isFinite_toFloat n.toUInt64
  obtain ⟨hnan, hmul⟩ := nearest_mul hfin isFinite_one
  rw [value_one, mul_one] at hmul
  rw [ofNat_eq hn, hmul.unique (nearest_value hfin)]
  refine ⟨hnan, ?_⟩
  have h := (nearest_toFloat n.toUInt64).2
  rw [hw] at h
  exact h

end PlanarJoin.Binary64
