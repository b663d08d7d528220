import PlanarJoin.Proofs.Binary64.Bounded

/-!
# Counting in floats

How often one length goes into another is counted in floats: the quotient is raised to the next
whole float, and two such counts are multiplied.  Rounding does not spoil this below `2 ^ 53`.  A
count is a whole number, or else it is at least `2 ^ 53`, and a product that is not above a limit
below that comes from whole numbers whose exact product is not above the limit.

## Main results

* `Binary64.ceiling_whole`: the least whole float that is not below another one.
* `Binary64.whole_of_mul_le`: counts whose computed product is within a limit.
* `Binary64.count_whole`: how often a size goes into a greater length.
-/

namespace PlanarJoin.Binary64

open Float.Model.UnpackedFloat

variable {x y : Float} {n : Nat}

theorem exists_valueOf_whole (hn : n ≤ 2 ^ 53) :
    ∃ u, Canonical u ∧ u.isFinite = true ∧ valueOf u = n := by
  rcases hn.lt_or_eq with hlt | rfl
  · exact exists_valueOf_eq hlt
  · exact_mod_cast exists_valueOf_two_pow (k := 53) (by norm_num)

/-- A float nearest to a whole number up to `2 ^ 53` is that number. -/
theorem value_of_nearest (hx : x.isNaN = false) (h : Nearest n (rank x)) (hn : n ≤ 2 ^ 53) :
    x.isFinite = true ∧ value x = n := by
  obtain ⟨u, hc, hu, hval⟩ := exists_valueOf_whole hn
  have hle : |(n : ℚ)| ≤ 2 ^ 53 := by
    rw [Nat.abs_cast]
    exact_mod_cast hn
  have hfin := (bounded_of_nearest hx h (by norm_num) hle).1
  refine ⟨hfin, le_antisymm ?_ ?_⟩
  · rw [← hval]
    exact h.value_le hfin hc hu hval.ge
  · rw [← hval]
    exact h.le_value hfin hc hu hval.le

theorem value_wholes : value 9007199254740992.0 = 2 ^ 53 := by
  have h : (9007199254740992.0 : Float).toModel.unpack =
      .finite .positive (2 ^ 52) 1 (by decide) := rfl
  rw [value, h, valueOf]
  norm_num [Sign.apply]

theorem isFinite_wholes : (9007199254740992.0 : Float).isFinite = true := by decide

theorem lt_wholes_iff (hx : x.isFinite = true) :
    x < 9007199254740992.0 ↔ value x < 2 ^ 53 := by
  rw [lt_iff, ← value_wholes, ← not_le, ← not_le, value_le_value_iff isFinite_wholes hx]
  simp only [isNaN_of_isFinite hx, isNaN_of_isFinite isFinite_wholes, true_and]

/-- The least whole float that is not below a small float is the least whole number that is not. -/
theorem value_ceiling (hx : x.isFinite = true) (h0 : 0 ≤ value x) (hlt : value x < 2 ^ 53) :
    (ceiling x).isFinite = true ∧ value (ceiling x) = ⌈value x⌉₊ := by
  have hfloor : ⌊value x⌋₊ < 2 ^ 53 := (Nat.floor_lt h0).mpr (by exact_mod_cast hlt)
  have htrunc : x.toUInt64.toNat = ⌊value x⌋₊ :=
    (toUInt64_of_not_isInf (isInf_of_isFinite hx)).trans
      (Nat.min_eq_left (show ⌊value x⌋₊ ≤ 2 ^ 64 - 1 by omega))
  have hwhole : Float.ofNat ⌊value x⌋₊ < x ↔ (⌊value x⌋₊ : ℚ) < value x := by
    rw [lt_iff, ← value_ofNat hfloor, ← not_le, ← not_le,
      value_le_value_iff hx (isFinite_ofNat hfloor)]
    simp only [isNaN_of_isFinite hx, isNaN_of_isFinite (isFinite_ofNat hfloor), true_and]
  rw [ceiling, if_pos ((lt_wholes_iff hx).mpr hlt)]
  dsimp only
  rw [htrunc]
  split
  · next habove =>
    have hceil : ⌈value x⌉₊ = ⌊value x⌋₊ + 1 :=
      le_antisymm (Nat.ceil_le_floor_add_one _) (Nat.lt_ceil.mpr (hwhole.mp habove))
    obtain ⟨hnum, hsum⟩ := nearest_add (isFinite_ofNat hfloor) isFinite_one
    rw [value_ofNat hfloor, value_one, ← Nat.cast_succ] at hsum
    rw [hceil]
    exact value_of_nearest hnum hsum hfloor
  · next hnot =>
    have hceil : ⌈value x⌉₊ = ⌊value x⌋₊ := by
      refine le_antisymm (Nat.ceil_le.mpr (not_lt.mp fun h => hnot (hwhole.mpr h))) ?_
      exact Nat.floor_le_ceil _
    rw [hceil]
    exact ⟨isFinite_ofNat hfloor, value_ofNat hfloor⟩

/-- The least whole number that is not below a small float, as an integer. -/
theorem toUInt64_ceiling (hx : x.isFinite = true) (h0 : 0 ≤ value x) (hlt : value x < 2 ^ 53) :
    (ceiling x).toUInt64.toNat = ⌈value x⌉₊ := by
  obtain ⟨hfin, hvalue⟩ := value_ceiling hx h0 hlt
  have hle : ⌈value x⌉₊ ≤ 2 ^ 53 := Nat.ceil_le.mpr (by exact_mod_cast hlt.le)
  exact toUInt64_whole hfin hvalue (by omega)

theorem ceiling_of_le (hx : ¬ x < 9007199254740992.0) : ceiling x = x :=
  if_neg hx

/-- The least whole float that is not below a number from one on is a whole number, or large. -/
theorem ceiling_whole (hx : x.isFinite = true) (h1 : 1 ≤ value x) :
    (∃ n : ℕ, 1 ≤ n ∧ value (ceiling x) = n) ∨ 2 ^ 53 ≤ value (ceiling x) := by
  by_cases hlt : value x < 2 ^ 53
  · exact .inl ⟨_, Nat.ceil_pos.mpr (zero_lt_one.trans_le h1),
      (value_ceiling hx (zero_le_one.trans h1) hlt).2⟩
  · rw [ceiling_of_le fun h => hlt ((lt_wholes_iff hx).mp h)]
    exact .inr (not_lt.mp hlt)

/-- A number from one on is not raised to zero, however large it is. -/
theorem one_le_toUInt64_ceiling (h : rank 1.0 ≤ rank x) :
    1 ≤ (ceiling x).toUInt64.toNat := by
  have htrunc : (1.0 : Float).toUInt64.toNat = 1 := by decide
  by_cases hlt : x < 9007199254740992.0
  · obtain ⟨hnum, -, hrank⟩ := lt_iff.mp hlt
    have hone : 0 < rank 1.0 := by decide
    have hfin : x.isFinite = true :=
      isFinite_of_rank (hone.trans_le h) (hrank.trans (isFinite_iff.mp isFinite_wholes).2.2)
    have h1 : 1 ≤ value x := by
      rw [← value_one]
      exact (value_le_value_iff isFinite_one hfin).mpr h
    rw [toUInt64_ceiling hfin (zero_le_one.trans h1) ((lt_wholes_iff hfin).mp hlt)]
    exact Nat.ceil_pos.mpr (zero_lt_one.trans_le h1)
  · rw [ceiling_of_le hlt, ← htrunc]
    exact toUInt64_mono h

/-- Two whole floats, or large ones, whose product is within a limit, are whole and have an exact
product within the limit. -/
theorem whole_of_mul_le {limit : ℕ} (hlimit : limit < 2 ^ 53)
    (hx : (∃ n : ℕ, 1 ≤ n ∧ value x = n) ∨ 2 ^ 53 ≤ value x)
    (hy : (∃ n : ℕ, 1 ≤ n ∧ value y = n) ∨ 2 ^ 53 ≤ value y) (hfin : (x * y).isFinite = true)
    (h : ¬ Float.ofNat limit < x * y) :
    ∃ m n : ℕ, (1 ≤ m ∧ value x = m) ∧ (1 ≤ n ∧ value y = n) ∧ m * n ≤ limit := by
  obtain ⟨hxfin, hyfin⟩ := isFinite_of_mul hfin
  obtain ⟨hnum, hnear⟩ := nearest_mul hxfin hyfin
  have hle : value (x * y) ≤ limit := by
    rw [← value_ofNat hlimit, value_le_value_iff hfin (isFinite_ofNat hlimit)]
    by_contra hlt
    exact h (lt_iff.mpr ⟨isNaN_of_isFinite (isFinite_ofNat hlimit), hnum, not_le.mp hlt⟩)
  have hprod : value x * value y < (limit + 1 : ℕ) := by
    obtain ⟨u, hc, hu, hval⟩ := exists_valueOf_whole hlimit
    by_contra hge
    have hlarge := hnear.le_value hfin hc hu (hval.le.trans (not_lt.mp hge))
    rw [hval, Nat.cast_succ] at hlarge
    linarith
  have hbound : ((limit + 1 : ℕ) : ℚ) ≤ 2 ^ 53 := by exact_mod_cast hlimit
  have hone : 1 ≤ value x ∧ 1 ≤ value y := by
    refine ⟨?_, ?_⟩
    · rcases hx with ⟨m, hm, hvalue⟩ | hlarge
      · rw [hvalue]
        exact_mod_cast hm
      · linarith
    · rcases hy with ⟨n, hn, hvalue⟩ | hlarge
      · rw [hvalue]
        exact_mod_cast hn
      · linarith
  rcases hx with ⟨m, hm, hvx⟩ | hlarge
  · rcases hy with ⟨n, hn, hvy⟩ | hlarge
    · rw [hvx, hvy] at hprod
      have hlt : m * n < limit + 1 := by exact_mod_cast hprod
      exact ⟨m, n, ⟨hm, hvx⟩, ⟨hn, hvy⟩, Nat.lt_succ_iff.mp hlt⟩
    · nlinarith [hone.1, hone.2]
  · nlinarith [hone.1, hone.2]

/-! ## Quotients of lengths -/

section Count

variable {length size : Float} (hsize : 0.0 < size) (hlt : size < length)

include hsize hlt

/-- A quotient is finite if the least whole float that is not below it is. -/
theorem isFinite_of_ceiling (hfin : (ceiling (length / size)).isFinite = true) :
    (length / size).isFinite = true := by
  have hpos {x : Float} (h : 0 < rank x) : IsPositive x :=
    isPositiveOf_of_rankOf_pos (canonical_unpack _) h
  have hzero : rank 0.0 = 0 := rfl
  have h0 : 0 < rank size := hzero ▸ (lt_iff.mp hsize).2.2
  have hquot : 0 ≤ rank (length / size) :=
    rank_nonneg_of_isPositive (isPositive_div (hpos (h0.trans (lt_iff.mp hlt).2.2)) (hpos h0))
  unfold ceiling at hfin
  split at hfin
  · next hbelow =>
    obtain ⟨hnum, -, hrank⟩ := lt_iff.mp hbelow
    have hwholes : rank 9007199254740992.0 < top := by decide
    exact isFinite_iff.mpr ⟨hnum, by simp only [top] at *; omega, hrank.trans hwholes⟩
  · exact hfin

/-- How often a positive size goes into a greater length is a whole number, or large. -/
theorem count_whole (hfin : (ceiling (length / size)).isFinite = true) :
    (∃ n : ℕ, 1 ≤ n ∧ value (ceiling (length / size)) = n) ∨
      2 ^ 53 ≤ value (ceiling (length / size)) := by
  have hzero : rank 0.0 = 0 := rfl
  have h0 : 0 < rank size := hzero ▸ (lt_iff.mp hsize).2.2
  have hquot := isFinite_of_ceiling hsize hlt hfin
  have hsizefin : size.isFinite = true :=
    isFinite_of_rank h0 ((lt_iff.mp hlt).2.2.trans_le (rank_le_top length).2)
  have hlengthfin : length.isFinite = true := isFinite_of_div hquot hsizefin
  have hpos : 0 < value size := by
    have hvzero : value 0.0 = 0 := rfl
    rw [← hvzero, ← not_le, value_le_value_iff hsizefin (by decide), hzero]
    exact not_le.mpr h0
  have hle : value size ≤ value length :=
    (value_le_value_iff hsizefin hlengthfin).mpr (lt_iff.mp hlt).2.2.le
  obtain ⟨-, hnear⟩ := nearest_div hlengthfin hsizefin hpos.ne'
  refine ceiling_whole hquot ?_
  rw [← value_one, value_le_value_iff isFinite_one hquot]
  refine (nearest_value isFinite_one).mono hnear ?_
  rw [value_one, le_div_iff₀ hpos, one_mul]
  exact hle

end Count

end PlanarJoin.Binary64
