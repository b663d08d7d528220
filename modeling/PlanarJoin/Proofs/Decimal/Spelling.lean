import Mathlib.Data.List.Basic
import PlanarJoin.Decimal.Style

/-!
# What is spelled

A decimal is spelled by digits only, with one before the point at least and without a leading zero.
This rests on one fact about shortest decimals: they are zero in one way only, without an exponent.

## Main definitions

* `Decimal.Canonical`: a decimal that is zero in no other way than as `0`.
* `Decimal.Spelling.WellFormed`: what a number as written may look like.

## Main results

* `Decimal.digitsValue_toString`: the digits of a count spell it.
* `Decimal.canonical_shortest`: shortest decimals are zero in one way only.
* `Decimal.Style.wellFormed_spell`: every style spells them well.
-/

namespace PlanarJoin

open Binary64

namespace Decimal

variable {n m : Nat} {c : Char}

/-! ## The digits of a count -/

theorem toList_toString (n : Nat) : (toString n).toList = Nat.toDigits 10 n :=
  Nat.toList_repr

theorem isDigit_of_mem_toString (h : c ∈ (toString n).toList) : c.isDigit = true :=
  Nat.isDigit_of_mem_toDigits (by decide) (by decide) (toList_toString n ▸ h)

theorem length_toString_pos (n : Nat) : 0 < (toString n).toList.length := by
  rw [toList_toString]
  exact Nat.length_toDigits_pos

theorem digitValue_digitChar (h : n < 10) : digitValue n.digitChar = n := by
  decide +revert

theorem digitChar_ne_zero : ∀ n < 10, n ≠ 0 → n.digitChar ≠ '0' := by decide

/-- The digits of a count spell it. -/
theorem digitsValue_toString (n : Nat) : digitsValue (toString n).toList = n := by
  rw [toList_toString]
  induction n using Nat.strongRecOn with
  | _ n ih =>
    rcases Nat.lt_or_ge n 10 with h | h
    · rw [Nat.toDigits_of_lt_base h]
      exact (Nat.zero_add _).trans (digitValue_digitChar h)
    · rw [Nat.toDigits_of_base_le (by decide) h, digitsValue_concat, ih (n / 10) (by omega),
        digitValue_digitChar (Nat.mod_lt n (by decide)), Nat.div_add_mod]

/-- Only zero begins with a zero. -/
theorem head?_toString_ne (h : n ≠ 0) : (toString n).toList.head? ≠ some '0' := by
  rw [toList_toString]
  induction n using Nat.strongRecOn with
  | _ n ih =>
    rcases Nat.lt_or_ge n 10 with hn | hn
    · rw [Nat.toDigits_of_lt_base hn, List.head?_cons, ne_eq, Option.some_inj]
      exact digitChar_ne_zero n hn h
    · rw [Nat.toDigits_of_base_le (by decide) hn, List.head?_append_of_ne_nil]
      · exact ih (n / 10) (by omega) (by omega)
      · exact List.ne_nil_of_length_pos Nat.length_toDigits_pos

/-! ## Decimals that are zero in one way only -/

/-- A decimal that has no exponent if its digits are zero. -/
def Canonical (d : Decimal) : Prop :=
  d.digits = 0 → d.exponent = 0

theorem canonical_of_ne_zero {d : Decimal} (h : d.digits ≠ 0) : d.Canonical :=
  fun h' => absurd h' h

/-- Moving zeros into the exponent leaves a digit that is none. -/
theorem canonical_strip {d : Decimal} (h : d.Canonical) (fuel : Nat) :
    (strip fuel d).Canonical := by
  induction fuel generalizing d with
  | zero => exact h
  | succ fuel ih =>
    rw [strip]
    split
    · next hd => exact ih (canonical_of_ne_zero (by dsimp only; omega))
    · exact h

/-- What reads back as a number that is not zero is not zero. -/
theorem digits_ne_zero_of_onGrid? {half : HalfWay} {i : Interval} {p : Int} {d : Decimal}
    (hlow : 0 < i.low) (h : onGrid? half i p = some d) : d.digits ≠ 0 := by
  have hup : 0 < i.low * Nat.pow 10 (-p).toNat := Nat.mul_pos hlow (Nat.pow_pos (by decide))
  have hinside {b : Bool} {c step high : Nat}
      (hc : (if b = true then decide (i.low * Nat.pow 10 (-p).toNat ≤ c * step) &&
          decide (c * step ≤ high)
        else decide (i.low * Nat.pow 10 (-p).toNat < c * step) && decide (c * step < high)) =
          true) : c ≠ 0 := by
    rintro rfl
    rw [Nat.zero_mul, decide_eq_false (Nat.not_le_of_lt hup),
      decide_eq_false (Nat.not_lt_zero _)] at hc
    cases b <;> cases hc
  unfold onGrid? at h
  dsimp only at h
  split at h
  · cases h
  · next hbelow _ =>
    obtain rfl := Option.some.inj h
    exact hinside hbelow
  · obtain rfl := Option.some.inj h
    exact Nat.succ_ne_zero _
  · next hbelow _ =>
    repeat' split at h
    all_goals
      obtain rfl := Option.some.inj h
      first
      | exact hinside hbelow
      | exact Nat.succ_ne_zero _

theorem low_ofSplit_pos {q : Int} (hm : m ≠ 0) : 0 < (Interval.ofSplit m q).low := by
  refine Nat.mul_pos ?_ (Nat.pow_pos (by decide))
  split <;> omega

/-- Shortest decimals are zero in one way only. -/
theorem canonical_shortest {half : HalfWay} {i : Interval} (hlow : 0 < i.low) :
    (shortest half i).Canonical := by
  unfold shortest
  refine canonical_strip ?_ 20
  cases h : ((List.range 17).map fun (n : Nat) => leadingExponent i.value i.unit - n).findSome?
    (onGrid? half i) with
  | none => exact fun _ => rfl
  | some d =>
    obtain ⟨p, -, hd⟩ := List.exists_of_findSome?_eq_some h
    exact canonical_of_ne_zero (digits_ne_zero_of_onGrid? hlow hd)

/-! ## Spellings -/

/-- A number as it may be written: digits, one before the point at least, and no zero ahead of
others. -/
structure Spelling.WellFormed (p : Spelling) : Prop where
  whole : ∀ c ∈ p.whole, c.isDigit = true
  whole_ne : p.whole ≠ []
  lead : p.whole.length = 1 ∨ p.whole.head? ≠ some '0'
  fraction : ∀ c ∈ p.fraction, c.isDigit = true

theorem wellFormed_toString (n : Nat) : Spelling.WellFormed ⟨(toString n).toList, [], none⟩ where
  whole _ h := isDigit_of_mem_toString h
  whole_ne := List.ne_nil_of_length_pos (length_toString_pos n)
  lead := by
    by_cases h : n = 0
    · subst h
      exact .inl rfl
    · exact .inr (head?_toString_ne h)
  fraction _ h := absurd h List.not_mem_nil

theorem wellFormed_spellScientific (d : Decimal) : (Style.spellScientific d).WellFormed where
  whole c h := isDigit_of_mem_toString (List.mem_of_mem_take h)
  whole_ne := by
    refine List.ne_nil_of_length_pos ?_
    have := length_toString_pos d.digits
    simp only [Style.spellScientific, List.length_take]
    omega
  lead := by
    have := length_toString_pos d.digits
    refine .inl ?_
    simp only [Style.spellScientific, List.length_take]
    omega
  fraction c h := isDigit_of_mem_toString (List.mem_of_mem_drop h)

theorem isDigit_of_mem_replicate (h : c ∈ List.replicate n '0') : c.isDigit = true := by
  rw [List.eq_of_mem_replicate h]
  rfl

theorem wellFormed_spellPositional (s : Style) {d : Decimal} (hd : d.Canonical) :
    (s.spellPositional d).WellFormed := by
  have hpos := length_toString_pos d.digits
  unfold Style.spellPositional
  dsimp only
  split
  · have hne := List.ne_nil_of_length_pos hpos
    refine ⟨?_, List.append_ne_nil_of_left_ne_nil hne _, ?_, ?_⟩
    · intro c hc
      exact (List.mem_append.mp hc).elim isDigit_of_mem_toString isDigit_of_mem_replicate
    · by_cases h : d.digits = 0
      · rw [h, hd h]
        exact .inl rfl
      · rw [List.head?_append_of_ne_nil _ hne]
        exact .inr (head?_toString_ne h)
    · dsimp only
      split
      · intro c hc
        rw [List.mem_singleton.mp hc]
        rfl
      · exact fun c h => absurd h List.not_mem_nil
  · next hexp =>
    have hdigits : d.digits ≠ 0 := fun h => hexp (Int.le_of_eq (hd h).symm)
    have hmem {c : Char} (hc : c ∈ List.replicate ((-d.exponent).toNat + 1 -
        (toString d.digits).toList.length) '0' ++ (toString d.digits).toList) : c.isDigit = true :=
      (List.mem_append.mp hc).elim isDigit_of_mem_replicate isDigit_of_mem_toString
    refine ⟨fun c hc => hmem (List.mem_of_mem_take hc), ?_, ?_,
      fun c hc => hmem (List.mem_of_mem_drop hc)⟩
    · refine List.ne_nil_of_length_pos ?_
      simp only [List.length_take, List.length_append, List.length_replicate]
      omega
    · rcases Nat.lt_or_ge (-d.exponent).toNat (toString d.digits).toList.length with h | h
      · rw [Nat.sub_eq_zero_of_le h, List.replicate_zero, List.nil_append, List.head?_take,
          if_neg (by omega)]
        exact .inr (head?_toString_ne hdigits)
      · refine .inl ?_
        simp only [List.length_take, List.length_append, List.length_replicate]
        omega

theorem Style.wellFormed_spell (s : Style) {d : Decimal} (hd : d.Canonical) :
    (s.spell d).WellFormed := by
  unfold spell
  dsimp only
  split
  · exact wellFormed_spellPositional s hd
  · exact wellFormed_spellScientific d

theorem Style.wellFormed_spellFloat (s : Style) (x : Float) : (s.spellFloat x).WellFormed := by
  refine s.wellFormed_spell ?_
  split
  · exact fun _ => rfl
  · next hm => exact canonical_shortest (low_ofSplit_pos hm)

end Decimal

end PlanarJoin
