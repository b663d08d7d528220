import PlanarJoin.Envelope.Basic
import PlanarJoin.Object.Basic
import PlanarJoin.Proofs.Binary64.Monotone

/-!
# Widening an envelope

A bound moves outwards when an envelope is widened, or stays where it is, also where it is infinite
or becomes so.  So an envelope is empty after it has been widened only if it was empty before.

## Main results

* `Binary64.rank_sub_le_self`, `Binary64.rank_le_add_self`: bounds move outwards.
* `usableRadius_iff`: a usable radius is finite and not negative.
* `Envelope.isEmpty_grow`: widening by a usable radius leaves an envelope empty or not.
-/

namespace PlanarJoin

namespace Binary64

open Float.Model (UnpackedFloat)

variable {x r : Float}

/-- What is left of a number is not greater, if nothing negative is taken off. -/
theorem rank_sub_le_self (hx : x.isNaN = false) (hr : r.isFinite = true) (h0 : 0 ≤ rank r) :
    rank (x - r) ≤ rank x := by
  by_cases hfin : x.isFinite = true
  · have hpos : value 0.0 ≤ value r := (value_le_value_iff (by decide) hr).mpr h0
    have hzero : value 0.0 = 0 := rfl
    exact (nearest_sub hfin hr).2.mono (nearest_value hfin) (by linarith)
  · by_cases htop : top ≤ rank x
    · exact (rank_le_top _).2.trans htop
    · have hlow : rank x ≤ -top := by
        by_contra hlow
        exact hfin (isFinite_iff.mpr ⟨hx, by omega, by omega⟩)
      have hinf : x.toModel.unpack = .infinity .negative :=
        eq_infinity_of_le_neg_top (canonical_unpack _) hlow
      have hdiff : rank (x - r) = -top := by
        change differenceRank x.toModel.unpack r.toModel.unpack = -top
        rw [hinf]
        exact differenceRank_of_infinity hr .negative
      exact hdiff ▸ (rank_le_top x).1

/-- A number is not greater after something that is not negative has been added. -/
theorem rank_le_add_self (hx : x.isNaN = false) (hr : r.isFinite = true) (h0 : 0 ≤ rank r) :
    rank x ≤ rank (x + r) := by
  by_cases hfin : x.isFinite = true
  · have hpos : value 0.0 ≤ value r := (value_le_value_iff (by decide) hr).mpr h0
    have hzero : value 0.0 = 0 := rfl
    exact (nearest_value hfin).mono (nearest_add hfin hr).2 (by linarith)
  · by_cases hlow : rank x ≤ -top
    · exact hlow.trans (rank_le_top _).1
    · have htop : top ≤ rank x := by
        by_contra htop
        exact hfin (isFinite_iff.mpr ⟨hx, by omega, by omega⟩)
      have hsum : rank (x + r) = top := by
        change rankOf (Float.Model.pack (UnpackedFloat.add .binary64 x.toModel.unpack
          r.toModel.unpack)).unpack = top
        rw [unpack_of_top_le htop, add_eq_sub_neg]
        exact differenceRank_of_infinity (neg_spec hr).1 .positive
      exact hsum ▸ (rank_le_top x).2

theorem isNaN_of_sub (h : (x - r).isNaN = false) : x.isNaN = false := by
  by_contra hx
  rw [Bool.not_eq_false] at hx
  change (Float.Model.pack (UnpackedFloat.sub .binary64 x.toModel.unpack
    r.toModel.unpack)).isNaN = false at h
  rw [sub_of_isNaN (.inl hx)] at h
  cases h

theorem isNaN_of_add (h : (x + r).isNaN = false) : x.isNaN = false := by
  by_contra hx
  rw [Bool.not_eq_false] at hx
  change (Float.Model.pack (UnpackedFloat.add .binary64 x.toModel.unpack
    r.toModel.unpack)).isNaN = false at h
  rw [add_eq_sub_neg, sub_of_isNaN (.inl hx)] at h
  cases h

/-- Bounds that are crossed after they have been moved outwards were crossed before. -/
theorem lt_of_widened {y : Float} (hr : r.isFinite = true) (h0 : 0 ≤ rank r) (h : y + r < x - r) :
    y < x := by
  obtain ⟨hadd, hsub, hlt⟩ := lt_iff.mp h
  have hx := isNaN_of_sub hsub
  have hy := isNaN_of_add hadd
  have := rank_sub_le_self hx hr h0
  have := rank_le_add_self hy hr h0
  exact lt_iff.mpr ⟨hy, hx, by omega⟩

end Binary64

open Binary64

theorem usableRadius_iff {r : Float} :
    usableRadius r = true ↔ r.isFinite = true ∧ 0 ≤ rank r := by
  rw [usableRadius, Bool.and_eq_true, Bool.not_eq_true', decide_eq_false_iff_not]
  refine and_congr_right fun hfin => ?_
  have hrank : rank 0.0 = 0 := rfl
  have hnum : (0.0 : Float).isNaN = false := rfl
  simp only [lt_iff, hrank, hnum, isNaN_of_isFinite hfin, true_and, not_lt]

/-- Widening by a usable radius leaves an envelope empty or not. -/
theorem Envelope.isEmpty_grow {e : Envelope} {r : Float} (hr : usableRadius r = true) :
    (e.grow r r).isEmpty = e.isEmpty := by
  obtain ⟨hfin, h0⟩ := usableRadius_iff.mp hr
  cases he : e.isEmpty with
  | true => rw [grow, if_pos he, he]
  | false =>
    rw [grow, if_neg (by rw [he]; exact Bool.false_ne_true)]
    rw [isEmpty, Bool.or_eq_false_iff, decide_eq_false_iff_not, decide_eq_false_iff_not] at he ⊢
    exact ⟨fun h => he.1 (lt_of_widened hfin h0 h), fun h => he.2 (lt_of_widened hfin h0 h)⟩

end PlanarJoin
