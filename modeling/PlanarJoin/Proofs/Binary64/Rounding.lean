import Mathlib.Algebra.Order.Field.Power
import Mathlib.Algebra.Order.Field.Rat
import Mathlib.Tactic.FieldSimp
import Mathlib.Tactic.Linarith
import Mathlib.Tactic.NormNum
import Mathlib.Tactic.Positivity
import Mathlib.Tactic.Ring
import PlanarJoin.Proofs.Binary64.Rank

/-!
# Rounding on ranks

A finite float has a rational value.  An operation on floats takes the exact rational result to the
float nearest to it, a half going to the even mantissa.  Said on ranks this is a relation between a
rational number and an integer, and the relation is monotone: that is all that the order of computed
floats depends on.

## Main definitions

* `Binary64.value`: the value of a finite float.
* `Binary64.Rounds`: an integer is nearest to a rational number, a half going to the even one.
* `Binary64.NearestMagnitude`, `Binary64.Nearest`: the rank of the float nearest to a rational
  number.

## Main results

* `Binary64.Nearest.mono`: rounding is monotone.
* `Binary64.nearest_value`: a finite float is nearest to its own value.
* `Binary64.value_le_value_iff`: finite floats are ordered as their values are.
-/

namespace PlanarJoin.Binary64

open Float.Model (UnpackedFloat Format)
open Float.Model.UnpackedFloat

/-! ## Nearest integers -/

/-- `r` is an integer nearest to `q`, an even one if `q` is half-way between two. -/
def Rounds (q : ℚ) (r : ℤ) : Prop :=
  (r - 1 / 2 ≤ q ∧ q ≤ r + 1 / 2) ∧ (q = r - 1 / 2 ∨ q = r + 1 / 2 → r % 2 = 0)

theorem rounds_intCast (r : ℤ) : Rounds r r := by
  refine ⟨⟨by linarith, by linarith⟩, ?_⟩
  rintro (h | h) <;> exfalso <;> linarith

theorem Rounds.mono {p q : ℚ} {r s : ℤ} (hp : Rounds p r) (hq : Rounds q s) (h : p ≤ q) :
    r ≤ s := by
  by_contra hlt
  have hr : (s : ℚ) + 1 ≤ r := by exact_mod_cast not_le.mp hlt
  -- both numbers are the same half, which one rounds up and the other down
  have hp' : p = r - 1 / 2 := by linarith [hp.1.1, hq.1.2]
  have hq' : q = s + 1 / 2 := by linarith [hp.1.1, hq.1.2]
  have hrs : (r : ℚ) = s + 1 := by linarith
  have hrs : r = s + 1 := by exact_mod_cast hrs
  have := hp.2 (.inl hp')
  have := hq.2 (.inr hq')
  omega

/-! ## Nearest floats -/

/-- `k` is the rank of the float nearest to `q ≥ 0`: with `2 ^ t` the step between floats around
`q`, it is the number of steps rounded, and a binade has `2 ^ 52` of them. -/
def NearestMagnitude (q : ℚ) (k : ℤ) : Prop :=
  ∃ t r : ℤ, -1074 ≤ t ∧ q < 2 ^ (t + 53) ∧ (t = -1074 ∨ 2 ^ (t + 52) ≤ q) ∧ Rounds (q / 2 ^ t) r ∧
    k = min (r + (t + 1074) * 2 ^ 52) top

theorem Rounds.nonneg {q : ℚ} {r : ℤ} (h : Rounds q r) (hq : 0 ≤ q) : 0 ≤ r :=
  Rounds.mono (by exact_mod_cast rounds_intCast 0) h hq

theorem NearestMagnitude.nonneg {q : ℚ} {k : ℤ} (h : NearestMagnitude q k) (hq : 0 ≤ q) :
    0 ≤ k := by
  obtain ⟨t, r, ht, -, -, hr, rfl⟩ := h
  have := hr.nonneg (by positivity)
  simp only [top]
  omega

theorem two_zpow_mono {a b : ℤ} (h : a ≤ b) : (2 : ℚ) ^ a ≤ 2 ^ b :=
  zpow_le_zpow_right₀ (by norm_num) h

/-- The number of steps never exceeds the length of two binades, and reaches that of one unless the
step is the least. -/
theorem steps_le {q : ℚ} {t r : ℤ} (hq : q < 2 ^ (t + 53)) (hr : Rounds (q / 2 ^ t) r) :
    r ≤ 2 ^ 53 := by
  have h : q / 2 ^ t ≤ ((2 ^ 53 : ℤ) : ℚ) := by
    rw [div_le_iff₀ (by positivity)]
    refine hq.le.trans_eq ?_
    rw [add_comm, zpow_add₀ (by norm_num)]
    norm_num
  exact hr.mono (rounds_intCast _) h

theorem le_steps {q : ℚ} {t r : ℤ} (hq : 2 ^ (t + 52) ≤ q) (hr : Rounds (q / 2 ^ t) r) :
    2 ^ 52 ≤ r := by
  have h : ((2 ^ 52 : ℤ) : ℚ) ≤ q / 2 ^ t := by
    rw [le_div_iff₀ (by positivity)]
    refine le_trans (le_of_eq ?_) hq
    rw [add_comm, zpow_add₀ (by norm_num)]
    norm_num
  exact (rounds_intCast _).mono hr h

theorem NearestMagnitude.mono {p q : ℚ} {j k : ℤ} (hp : NearestMagnitude p j)
    (hq : NearestMagnitude q k) (h : p ≤ q) : j ≤ k := by
  obtain ⟨t, r, ht, hpt, hpt', hr, rfl⟩ := hp
  obtain ⟨u, s, hu, hqu, hqu', hs, rfl⟩ := hq
  refine min_le_min ?_ le_rfl
  rcases lt_trichotomy t u with htu | rfl | htu
  · have hr := steps_le hpt hr
    have hs := le_steps (hqu'.resolve_left (by omega)) hs
    omega
  · have := hr.mono hs (by gcongr)
    omega
  · have : (2 : ℚ) ^ (u + 53) ≤ 2 ^ (t + 52) := two_zpow_mono (by omega)
    have := hpt'.resolve_left (by omega)
    linarith

/-- `k` is the rank of the float nearest to `q`; rounding treats both signs alike. -/
def Nearest (q : ℚ) (k : ℤ) : Prop :=
  (0 ≤ q ∧ NearestMagnitude q k) ∨ (q < 0 ∧ NearestMagnitude (-q) (-k))

/-- Rounding is monotone. -/
theorem Nearest.mono {p q : ℚ} {j k : ℤ} (hp : Nearest p j) (hq : Nearest q k) (h : p ≤ q) :
    j ≤ k := by
  rcases hp with ⟨hp0, hp⟩ | ⟨hp0, hp⟩ <;> rcases hq with ⟨hq0, hq⟩ | ⟨hq0, hq⟩
  · exact hp.mono hq h
  · linarith
  · have := hp.nonneg (by linarith)
    have := hq.nonneg hq0
    omega
  · have := hq.mono hp (by linarith)
    omega

theorem Nearest.unique {q : ℚ} {j k : ℤ} (hj : Nearest q j) (hk : Nearest q k) : j = k :=
  le_antisymm (hj.mono hk le_rfl) (hk.mono hj le_rfl)

/-! ## Values -/

/-- The value of an unpacked float that is finite. -/
def valueOf : UnpackedFloat → ℚ
  | .finite s m e _ => (s.apply m : ℤ) * 2 ^ e
  | _ => 0

/-- The value of a finite float. -/
def value (x : Float) : ℚ :=
  valueOf x.toModel.unpack

theorem mul_two_zpow_lt {m : ℕ} (h : m < 2 ^ 53) (e : ℤ) : (m : ℚ) * 2 ^ e < 2 ^ (e + 53) := by
  have : (m : ℚ) < 2 ^ 53 := by exact_mod_cast h
  rw [add_comm, zpow_add₀ (by norm_num)]
  exact mul_lt_mul_of_pos_right this (by positivity)

theorem le_mul_two_zpow {m : ℕ} (h : 2 ^ 52 ≤ m) (e : ℤ) : (2 : ℚ) ^ (e + 52) ≤ m * 2 ^ e := by
  have : (2 : ℚ) ^ 52 ≤ m := by exact_mod_cast h
  rw [add_comm, zpow_add₀ (by norm_num)]
  exact mul_le_mul_of_nonneg_right this (by positivity)

theorem nearestMagnitude_finite {s : Sign} {m : ℕ} {e : ℤ} {hm : 0 < m}
    (hc : Canonical (.finite s m e hm)) :
    NearestMagnitude (m * 2 ^ e) (m + (e + 1074) * 2 ^ 52) := by
  obtain ⟨hlt, he, he', hn⟩ := hc
  refine ⟨e, m, he, mul_two_zpow_lt hlt e, ?_, ?_, ?_⟩
  · exact hn.symm.imp id fun h => le_mul_two_zpow h e
  · rw [mul_div_cancel_right₀ _ (by positivity)]
    exact rounds_intCast m
  · simp only [top]
    omega

theorem nearestMagnitude_zero : NearestMagnitude 0 0 := by
  refine ⟨-1074, 0, le_rfl, by positivity, .inl rfl, ?_, by simp [top]⟩
  rw [zero_div]
  exact rounds_intCast 0

theorem nearest_zero : Nearest 0 0 :=
  .inl ⟨le_rfl, nearestMagnitude_zero⟩

/-- Rounding a signed magnitude rounds the magnitude. -/
theorem Nearest.of_sign (s : Sign) {q : ℚ} {k : ℤ} (hq : 0 ≤ q) (h : NearestMagnitude q k) :
    Nearest ((s.apply 1 : ℤ) * q) (s.apply k) := by
  cases s with
  | positive => exact .inl ⟨by simpa [Sign.apply] using hq, by simpa [Sign.apply] using h⟩
  | negative =>
    rcases hq.eq_or_lt with rfl | hq
    · have hk : k = 0 := (Nearest.unique (.inl ⟨le_rfl, h⟩) nearest_zero)
      simpa [hk, Sign.apply] using nearest_zero
    · exact .inr ⟨by simpa [Sign.apply] using hq, by simpa [Sign.apply] using h⟩

theorem apply_mul (s : Sign) (i : ℤ) : ((s.apply i : ℤ) : ℚ) = (s.apply 1 : ℤ) * i := by
  cases s <;> simp [Sign.apply]

theorem nearest_valueOf {u : UnpackedFloat} (hc : Canonical u) (hu : u.isFinite = true) :
    Nearest (valueOf u) (rankOf u) := by
  rcases u with s | _ | s | ⟨s, m, e, hm⟩
  · cases hu
  · cases hu
  · exact nearest_zero
  · rw [valueOf, rankOf, apply_mul, mul_assoc]
    exact Nearest.of_sign s (by positivity) (nearestMagnitude_finite hc)

theorem nearest_value {x : Float} (hx : x.isFinite = true) : Nearest (value x) (rank x) :=
  nearest_valueOf (canonical_unpack _) hx

/-- A larger magnitude has a larger rank. -/
theorem magnitude_lt {m n : ℕ} {e f : ℤ} {s t : Sign} {hm : 0 < m} {hn : 0 < n}
    (hc : Canonical (.finite s m e hm)) (hd : Canonical (.finite t n f hn))
    (h : (m * 2 ^ e : ℚ) < n * 2 ^ f) :
    (m : ℤ) + (e + 1074) * 2 ^ 52 < n + (f + 1074) * 2 ^ 52 := by
  have hle := (nearestMagnitude_finite hc).mono (nearestMagnitude_finite hd) h.le
  refine lt_of_le_of_ne hle ?_
  intro heq
  simp only [Canonical] at hc hd
  have hef : e = f := by omega
  have hmn : m = n := by omega
  exact absurd h (by rw [hef, hmn]; exact lt_irrefl _)

theorem valueOf_lt {u v : UnpackedFloat} (hu : Canonical u) (hv : Canonical v)
    (hfu : u.isFinite = true) (hfv : v.isFinite = true) (h : valueOf u < valueOf v) :
    rankOf u < rankOf v := by
  have hle := (nearest_valueOf hu hfu).mono (nearest_valueOf hv hfv) h.le
  rcases u with s | _ | s | ⟨s, m, e, hm⟩
  · cases hfu
  · cases hfu
  · rcases v with t | _ | t | ⟨t, n, f, hn⟩
    · cases hfv
    · cases hfv
    · exact absurd h (lt_irrefl _)
    · cases t with
      | positive => exact rankOf_finite_pos hn hv.2.1
      | negative =>
        have := rankOf_finite_neg hn hv.2.1
        simp only [rankOf] at hle this
        omega
  · rcases v with t | _ | t | ⟨t, n, f, hn⟩
    · cases hfv
    · cases hfv
    · cases s with
      | negative => exact rankOf_finite_neg hm hu.2.1
      | positive =>
        have := rankOf_finite_pos hm hu.2.1
        simp only [rankOf] at hle this
        omega
    · cases s <;> cases t <;> simp only [valueOf, Sign.apply, Int.cast_neg, Int.cast_natCast] at h
      · have := magnitude_lt hv hu (by linarith)
        simp only [rankOf, Sign.apply]
        omega
      · have := rankOf_finite_neg hm hu.2.1
        have := rankOf_finite_pos hn hv.2.1
        omega
      · have := rankOf_finite_pos hm hu.2.1
        have := rankOf_finite_neg hn hv.2.1
        omega
      · exact magnitude_lt hu hv h

theorem value_le_value_iff {x y : Float} (hx : x.isFinite = true) (hy : y.isFinite = true) :
    value x ≤ value y ↔ rank x ≤ rank y := by
  refine ⟨fun h => (nearest_value hx).mono (nearest_value hy) h, ?_⟩
  intro h
  by_contra hlt
  have := valueOf_lt (canonical_unpack _) (canonical_unpack _) hy hx (not_le.mp hlt)
  exact absurd h (not_le.mpr this)

end PlanarJoin.Binary64
