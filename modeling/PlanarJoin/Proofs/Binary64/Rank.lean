import Mathlib
import PlanarJoin.Binary64.Order

/-!
# The order of floats by rank

A float that is a number has a rank: the integer that counts the floats between zero and it,
negative below zero.  Both zeros have rank zero.  Comparing floats is comparing ranks, so the order
of floats that are numbers is the order of the integers.

## Main definitions

* `Binary64.Canonical`: what unpacking a float gives: a mantissa of full width or the least
  exponent.
* `Binary64.rankOf`, `Binary64.rank`: the rank of an unpacked float, and of a float.
* `Binary64.top`: the rank of infinity.

## Main results

* `Binary64.lt_iff`, `Binary64.le_iff`, `Binary64.beq_iff`: comparisons of floats on ranks.
* `Binary64.isFinite_iff`: the finite floats are those with a rank between the infinities.
-/

namespace PlanarJoin.Binary64

open Float.Model (UnpackedFloat Format)
open Float.Model.UnpackedFloat

/-- The rank of infinity. -/
def top : Int := 2047 * 2 ^ 52

/-- The rank of an unpacked float; the exponent counts in steps of `2 ^ 52` mantissas. -/
def rankOf : UnpackedFloat → Int
  | .infinity s => s.apply top
  | .notANumber => 0
  | .zero _ => 0
  | .finite s m e _ => s.apply (m + (e + 1074) * 2 ^ 52)

/-- What unpacking a float gives: the mantissa has 53 bits, or fewer at the least exponent. -/
def Canonical : UnpackedFloat → Prop
  | .finite _ m e _ => m < 2 ^ 53 ∧ -1074 ≤ e ∧ e ≤ 971 ∧ (2 ^ 52 ≤ m ∨ e = -1074)
  | _ => True

/-! ## Unpacked floats -/

theorem toNat_implicit (v : BitVec 52) : (1#1 ++ v).toNat = 2 ^ 52 + v.toNat := by
  have h := Nat.two_pow_add_eq_or_of_lt v.isLt 1
  rw [BitVec.toNat_append, Nat.shiftLeft_eq, Nat.mul_comm]
  exact h.symm

/-- Unpacking reads the mantissa and the exponent off their fields. -/
theorem canonical_unpack (b : BitVec 64) : Canonical (unpack .binary64 b) := by
  have hm : (@unpackMantissa .binary64 b).toNat < 2 ^ 52 := BitVec.isLt _
  have he : (@unpackExponent .binary64 b).toNat < 2 ^ 11 := BitVec.isLt _
  simp only [unpack]
  split
  · split <;> trivial
  · next hne =>
    have hlt : (@unpackExponent .binary64 b).toNat ≠ 2047 := by
      intro h
      exact hne (BitVec.eq_of_toNat_eq (by rw [h]; rfl))
    split
    · split
      · trivial
      · next hz _ =>
        have h0 : (@unpackExponent .binary64 b).toNat = 0 := by rw [hz]; rfl
        simp only [Canonical, Format.exponentBias, h0]
        omega
    · next hnz =>
      have h0 : (@unpackExponent .binary64 b).toNat ≠ 0 := by
        intro h
        exact hnz (BitVec.eq_of_toNat_eq (by rw [h]; rfl))
      simp only [Canonical, Format.exponentBias, toNat_implicit]
      omega

theorem rankOf_finite_pos {m : Nat} {e : Int} (hm : 0 < m) (he : -1074 ≤ e) :
    0 < rankOf (.finite .positive m e hm) := by
  simp only [rankOf, Sign.apply]
  omega

theorem rankOf_finite_neg {m : Nat} {e : Int} (hm : 0 < m) (he : -1074 ≤ e) :
    rankOf (.finite .negative m e hm) < 0 := by
  simp only [rankOf, Sign.apply]
  omega

theorem rankOf_finite_lt_top {s : Sign} {m : Nat} {e : Int} {hm : 0 < m}
    (hc : Canonical (.finite s m e hm)) :
    -top < rankOf (.finite s m e hm) ∧ rankOf (.finite s m e hm) < top := by
  simp only [Canonical] at hc
  cases s <;> simp only [rankOf, Sign.apply, top] <;> omega

/-- The finite numbers are those between the infinities. -/
theorem isFinite_iff_rankOf {u : UnpackedFloat} (hc : Canonical u) :
    u.isFinite = true ↔ u.isNaN = false ∧ -top < rankOf u ∧ rankOf u < top := by
  rcases u with s | _ | s | ⟨s, m, e, hm⟩
  · cases s <;> simp [UnpackedFloat.isFinite, rankOf, Sign.apply]
  · simp [UnpackedFloat.isFinite, UnpackedFloat.isNaN]
  · simp [UnpackedFloat.isFinite, UnpackedFloat.isNaN, rankOf, top]
  · simpa [UnpackedFloat.isFinite, UnpackedFloat.isNaN] using rankOf_finite_lt_top hc

/-- Of two magnitudes the one with the larger exponent is larger, and with the same exponent the one
with the larger mantissa: just so the ranks. -/
theorem compare_magnitudes {m n : Nat} {e f : Int} {s t : Sign} {hm : 0 < m} {hn : 0 < n}
    (hc : Canonical (.finite s m e hm)) (hd : Canonical (.finite t n f hn)) :
    (compare e f).then (compare m n) =
      compare ((m : Int) + (e + 1074) * 2 ^ 52) (n + (f + 1074) * 2 ^ 52) := by
  simp only [Canonical] at hc hd
  rcases Int.lt_trichotomy e f with h | rfl | h
  · rw [Int.compare_eq_lt.mpr h, Int.compare_eq_lt.mpr (by omega)]
    rfl
  · rw [Int.compare_eq_eq.mpr rfl]
    rcases Nat.lt_trichotomy m n with h | rfl | h
    · rw [Nat.compare_eq_lt.mpr h, Int.compare_eq_lt.mpr (by omega)]
      rfl
    · rw [Nat.compare_eq_eq.mpr rfl, Int.compare_eq_eq.mpr rfl]
      rfl
    · rw [Nat.compare_eq_gt.mpr h, Int.compare_eq_gt.mpr (by omega)]
      rfl
  · rw [Int.compare_eq_gt.mpr h, Int.compare_eq_gt.mpr (by omega)]
    rfl

theorem compare_neg (i j : Int) : compare (-i) (-j) = compare j i := by
  rcases Int.lt_trichotomy i j with h | rfl | h
  · rw [Int.compare_eq_gt.mpr h, Int.compare_eq_gt.mpr (by omega)]
  · rw [Int.compare_eq_eq.mpr rfl, Int.compare_eq_eq.mpr rfl]
  · rw [Int.compare_eq_lt.mpr h, Int.compare_eq_lt.mpr (by omega)]

/-- Numbers compare as their ranks do. -/
theorem compare_eq {a b : UnpackedFloat} (ha : Canonical a) (hb : Canonical b)
    (hna : a.isNaN = false) (hnb : b.isNaN = false) :
    a.compare b = some (compare (rankOf a) (rankOf b)) := by
  rcases a with s | _ | s | ⟨s, m, e, hm⟩
  · rcases b with t | _ | t | ⟨t, n, f, hn⟩
    · cases s <;> cases t <;> rfl
    · cases hnb
    · cases s <;> rfl
    · have := rankOf_finite_lt_top hb
      cases s <;> simp only [UnpackedFloat.compare, Option.some.injEq]
      · exact (Int.compare_eq_lt.mpr this.1).symm
      · exact (Int.compare_eq_gt.mpr this.2).symm
  · cases hna
  · rcases b with t | _ | t | ⟨t, n, f, hn⟩
    · cases t <;> rfl
    · cases hnb
    · rfl
    · cases t <;> simp only [UnpackedFloat.compare, Option.some.injEq]
      · exact (Int.compare_eq_gt.mpr (rankOf_finite_neg hn hb.2.1)).symm
      · exact (Int.compare_eq_lt.mpr (rankOf_finite_pos hn hb.2.1)).symm
  · have hlt := rankOf_finite_lt_top ha
    rcases b with t | _ | t | ⟨t, n, f, hn⟩
    · cases t <;> cases s <;> simp only [UnpackedFloat.compare, Option.some.injEq]
      all_goals first
        | exact (Int.compare_eq_gt.mpr hlt.1).symm
        | exact (Int.compare_eq_lt.mpr hlt.2).symm
    · cases hnb
    · cases s <;> simp only [UnpackedFloat.compare, Option.some.injEq]
      · exact (Int.compare_eq_lt.mpr (rankOf_finite_neg hm ha.2.1)).symm
      · exact (Int.compare_eq_gt.mpr (rankOf_finite_pos hm ha.2.1)).symm
    · cases s <;> cases t <;> simp only [UnpackedFloat.compare, Option.some.injEq]
      · rw [compare_magnitudes ha hb, Int.compare_swap]
        exact (compare_neg _ _).symm
      · have := rankOf_finite_neg hm ha.2.1
        have := rankOf_finite_pos hn hb.2.1
        exact (Int.compare_eq_lt.mpr (by omega)).symm
      · have := rankOf_finite_pos hm ha.2.1
        have := rankOf_finite_neg hn hb.2.1
        exact (Int.compare_eq_gt.mpr (by omega)).symm
      · exact compare_magnitudes ha hb

/-! ## Floats -/

/-- The rank of a float, zero for a NaN. -/
def rank (x : Float) : Int :=
  rankOf x.toModel.unpack

theorem compare_unpack {x y : Float} (hx : x.isNaN = false) (hy : y.isNaN = false) :
    x.toModel.unpack.compare y.toModel.unpack = some (compare (rank x) (rank y)) :=
  compare_eq (canonical_unpack _) (canonical_unpack _) hx hy

theorem compare_nan {a b : UnpackedFloat} (h : a.isNaN = true ∨ b.isNaN = true) :
    a.compare b = none := by
  rcases a with s | _ | s | ⟨s, m, e, hm⟩ <;> rcases b with t | _ | t | ⟨t, n, f, hn⟩ <;>
    simp [UnpackedFloat.isNaN] at h <;> rfl

/-- What a comparison of floats is on ranks. -/
theorem compared (x y : Float) :
    (x.isNaN = false ∧ y.isNaN = false ∧
      x.toModel.unpack.compare y.toModel.unpack = some (compare (rank x) (rank y))) ∨
    ((x.isNaN = true ∨ y.isNaN = true) ∧ x.toModel.unpack.compare y.toModel.unpack = none) := by
  by_cases h : x.isNaN = true ∨ y.isNaN = true
  · exact .inr ⟨h, compare_nan h⟩
  · have hx : x.isNaN = false := by simpa using fun hx => h (.inl hx)
    have hy : y.isNaN = false := by simpa using fun hy => h (.inr hy)
    exact .inl ⟨hx, hy, compare_unpack hx hy⟩

theorem not_numbers {x y : Float} {P : Prop} (h : x.isNaN = true ∨ y.isNaN = true) :
    ¬ (x.isNaN = false ∧ y.isNaN = false ∧ P) := by
  rintro ⟨hx, hy, -⟩
  rcases h with h | h
  · exact Bool.noConfusion (hx.symm.trans h)
  · exact Bool.noConfusion (hy.symm.trans h)

/-- Of two floats the first is less if both are numbers and its rank is less. -/
theorem lt_iff {x y : Float} :
    x < y ↔ x.isNaN = false ∧ y.isNaN = false ∧ rank x < rank y := by
  have hdef : x < y ↔ x.toModel.unpack.compare y.toModel.unpack = some .lt := by
    change (decide (_ = true) = true) ↔ _
    simp [Float.Model.lt, UnpackedFloat.lt]
  rw [hdef]
  rcases compared x y with ⟨hx, hy, h⟩ | ⟨hn, h⟩
  · rw [h, Option.some.injEq, Int.compare_eq_lt]
    simp only [hx, hy, true_and]
  · rw [h]
    exact iff_of_false (fun h => nomatch h) (not_numbers hn)

/-- Of two floats the first is at most the second if both are numbers and its rank is. -/
theorem le_iff {x y : Float} :
    x ≤ y ↔ x.isNaN = false ∧ y.isNaN = false ∧ rank x ≤ rank y := by
  have hdef : x ≤ y ↔ (x.toModel.unpack.compare y.toModel.unpack).any (·.isLE) = true := by
    change (decide (_ = true) = true) ↔ _
    rw [Bool.decide_eq_true]
    rfl
  rw [hdef]
  rcases compared x y with ⟨hx, hy, h⟩ | ⟨hn, h⟩
  · rw [h, Option.any_some, Int.isLE_compare]
    simp only [hx, hy, true_and]
  · rw [h]
    exact iff_of_false (fun h => nomatch h) (not_numbers hn)

/-- Two floats are equal as numbers if both are numbers of the same rank. -/
theorem beq_iff {x y : Float} :
    (x == y) = true ↔ x.isNaN = false ∧ y.isNaN = false ∧ rank x = rank y := by
  have hdef : (x == y) = true ↔ x.toModel.unpack.compare y.toModel.unpack = some .eq := by
    change (x.toModel.unpack.compare y.toModel.unpack == some .eq) = true ↔ _
    exact beq_iff_eq
  rw [hdef]
  rcases compared x y with ⟨hx, hy, h⟩ | ⟨hn, h⟩
  · rw [h, Option.some.injEq, Int.compare_eq_eq]
    simp only [hx, hy, true_and]
  · rw [h]
    exact iff_of_false (fun h => nomatch h) (not_numbers hn)

theorem isFinite_iff {x : Float} :
    x.isFinite = true ↔ x.isNaN = false ∧ -top < rank x ∧ rank x < top :=
  isFinite_iff_rankOf (canonical_unpack _)

theorem isNaN_of_isFinite {x : Float} (h : x.isFinite = true) : x.isNaN = false :=
  (isFinite_iff.mp h).1

/-- No float lies outside the infinities. -/
theorem rank_le_top (x : Float) : -top ≤ rank x ∧ rank x ≤ top := by
  have hc : Canonical x.toModel.unpack := canonical_unpack _
  unfold rank
  generalize x.toModel.unpack = u at hc ⊢
  rcases u with s | _ | s | ⟨s, m, e, hm⟩
  · cases s <;> simp [rankOf, Sign.apply, top]
  · simp [rankOf, top]
  · simp [rankOf, top]
  · have := rankOf_finite_lt_top hc
    omega

/-! ## The smaller and the larger of two numbers -/

theorem rank_lower {x y : Float} (hx : x.isNaN = false) (hy : y.isNaN = false) :
    (lower x y).isNaN = false ∧ rank (lower x y) = min (rank x) (rank y) := by
  unfold lower
  split
  · next h =>
    simp only [hy, Bool.or_false, decide_eq_true_eq, lt_iff] at h
    exact ⟨hx, by omega⟩
  · next h =>
    simp only [hy, Bool.or_false, decide_eq_true_eq, lt_iff, hx, true_and] at h
    exact ⟨hy, by omega⟩

theorem rank_upper {x y : Float} (hx : x.isNaN = false) (hy : y.isNaN = false) :
    (upper x y).isNaN = false ∧ rank (upper x y) = max (rank x) (rank y) := by
  unfold upper
  split
  · next h =>
    simp only [hy, Bool.or_false, decide_eq_true_eq, lt_iff] at h
    exact ⟨hx, by omega⟩
  · next h =>
    simp only [hy, Bool.or_false, decide_eq_true_eq, lt_iff, hx, true_and] at h
    exact ⟨hy, by omega⟩

end PlanarJoin.Binary64
