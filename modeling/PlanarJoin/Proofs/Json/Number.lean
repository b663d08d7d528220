import Mathlib.Data.List.TakeDrop
import PlanarJoin.Json.Token
import PlanarJoin.Proofs.Decimal.Spelling

/-!
# Numbers as text

The grammar of numbers: a sign, digits without a zero ahead of others, perhaps a point with digits,
perhaps an exponent with a sign and any digits.  Such a text consists of characters that stand in
numbers only, and reading it gives the number.  What is written for a number is such a text.

## Main definitions

* `Json.SpellsExponent`, `Json.Number.Spells`: the texts of an exponent and of a number.
* `Json.fractionChars`, `Json.Number.mantissa`: the characters ahead of an exponent.
* `Json.exponentChars`, `Json.Number.chars`: the characters that are written.

## Main results

* `Json.Number.Spells.numberOf?`, `Json.Number.spells_of_numberOf?`: the texts of a number, and only
  these, are read as the number.
* `Json.Number.Spells.isNumeric`, `Json.Number.Spells.exists_cons`: what its characters are.
* `Json.Number.spells_write`: what is written for a number is a text of it.
-/

namespace PlanarJoin.Json

open Decimal

variable {ds rest tail : List Char} {c : Char} {exponent : Option Int}

theorem span_isDigit (hds : ∀ c ∈ ds, c.isDigit = true)
    (hrest : ∀ c ∈ rest.head?, c.isDigit = false) :
    (ds ++ rest).span Char.isDigit = (ds, rest) := by
  rw [List.span_eq_takeWhile_dropWhile, List.takeWhile_append_of_pos hds,
    List.dropWhile_append_of_pos hds]
  cases rest with
  | nil => simp
  | cons c rest =>
    have hc := hrest c rfl
    simp [hc]

/-- A character that is skipped was there. -/
theorem of_skip {c : Char} {cs rest : List Char} {found : Bool} (h : skip c cs = (found, rest)) :
    cs = (if found then [c] else []) ++ rest := by
  cases cs with
  | nil =>
    obtain ⟨rfl, rfl⟩ := Prod.mk.inj h
    rfl
  | cons d ds =>
    rw [skip] at h
    split at h
    · next hd =>
      obtain ⟨rfl, rfl⟩ := Prod.mk.inj h
      rw [hd]
      rfl
    · obtain ⟨rfl, rfl⟩ := Prod.mk.inj h
      rfl

/-- Characters of a kind come off the front of a text. -/
theorem of_span {p : Char → Bool} {cs ds rest : List Char} (h : cs.span p = (ds, rest)) :
    cs = ds ++ rest ∧ ∀ d ∈ ds, p d = true := by
  rw [List.span_eq_takeWhile_dropWhile] at h
  obtain ⟨rfl, rfl⟩ := Prod.mk.inj h
  exact ⟨List.takeWhile_append_dropWhile.symm, List.all_eq_true.mp List.all_takeWhile⟩

theorem isNumeric_of_isDigit (h : c.isDigit = true) : isNumeric c = true := by
  simp [isNumeric, h]

/-! ## Exponents -/

/-- Digits, one at least. -/
def AllDigits (ds : List Char) : Prop :=
  ds ≠ [] ∧ ∀ d ∈ ds, d.isDigit = true

/-- The signs of an exponent, and whether they are a minus. -/
inductive SpellsSign : List Char → Bool → Prop
  | none : SpellsSign [] false
  | plus : SpellsSign ['+'] false
  | minus : SpellsSign ['-'] true

/-- The texts of an exponent. -/
inductive SpellsExponent : List Char → Option Int → Prop
  | absent : SpellsExponent [] none
  | present {e : Char} {sign ds : List Char} {negative : Bool} (he : e = 'e' ∨ e = 'E')
    (hsign : SpellsSign sign negative) (hds : AllDigits ds) :
    SpellsExponent (e :: (sign ++ ds))
      (some (if negative then -(digitsValue ds : Int) else digitsValue ds))

theorem exponentOf?_spelled {sign : List Char} {negative : Bool} (hsign : SpellsSign sign negative)
    (hds : AllDigits ds) : exponentOf? (sign ++ ds) =
      some (if negative then -(digitsValue ds : Int) else digitsValue ds) := by
  have hdigits : (!ds.isEmpty && ds.all Char.isDigit) = true := by
    rw [Bool.and_eq_true, Bool.not_eq_true', List.isEmpty_eq_false_iff, List.all_eq_true]
    exact hds
  cases hsign with
  | none =>
    obtain ⟨d, ds, rfl⟩ := List.exists_cons_of_ne_nil hds.1
    have hd : d.isDigit = true := hds.2 d List.mem_cons_self
    unfold exponentOf?
    split
    next negative digits heq =>
      have hpair : (negative, digits) = (false, d :: ds) := by
        split at heq
        · next h =>
          obtain rfl := (List.cons.inj h).1
          exact absurd hd (by decide)
        · next h =>
          obtain rfl := (List.cons.inj h).1
          exact absurd hd (by decide)
        · exact heq.symm
      obtain ⟨rfl, rfl⟩ := Prod.mk.inj hpair
      exact if_pos hdigits
  | plus => exact if_pos hdigits
  | minus => exact if_pos hdigits

theorem SpellsExponent.exponentPart? (h : SpellsExponent tail exponent) :
    exponentPart? tail = some exponent := by
  cases h with
  | absent => rfl
  | present he hsign hds =>
    rcases he with rfl | rfl
    · exact congrArg (Option.map some) (exponentOf?_spelled hsign hds)
    · exact congrArg (Option.map some) (exponentOf?_spelled hsign hds)

theorem spelled_of_exponentOf? {cs : List Char} {e : Int} (h : exponentOf? cs = some e) :
    ∃ sign ds negative, cs = sign ++ ds ∧ SpellsSign sign negative ∧ AllDigits ds ∧
      e = if negative then -(digitsValue ds : Int) else digitsValue ds := by
  unfold exponentOf? at h
  split at h
  next negative ds hsplit =>
    rw [Option.ite_none_right_eq_some, Bool.and_eq_true, Bool.not_eq_true',
      List.isEmpty_eq_false_iff, List.all_eq_true] at h
    obtain ⟨hds, he⟩ := h
    have he' := (Option.some.inj he).symm
    split at hsplit
    · obtain ⟨rfl, rfl⟩ := Prod.mk.inj hsplit
      exact ⟨['-'], _, _, rfl, .minus, hds, he'⟩
    · obtain ⟨rfl, rfl⟩ := Prod.mk.inj hsplit
      exact ⟨['+'], _, _, rfl, .plus, hds, he'⟩
    · obtain ⟨rfl, rfl⟩ := Prod.mk.inj hsplit
      exact ⟨[], _, _, rfl, .none, hds, he'⟩

/-- Only texts of an exponent are read as one. -/
theorem spells_of_exponentPart? (h : exponentPart? tail = some exponent) :
    SpellsExponent tail exponent := by
  have hpresent {e : Char} {cs : List Char} (he : e = 'e' ∨ e = 'E')
      (h : (exponentOf? cs).map some = some exponent) : SpellsExponent (e :: cs) exponent := by
    obtain ⟨x, hx, rfl⟩ := Option.map_eq_some_iff.mp h
    obtain ⟨sign, ds, negative, rfl, hsign, hds, rfl⟩ := spelled_of_exponentOf? hx
    exact .present he hsign hds
  unfold exponentPart? at h
  split at h
  · obtain rfl := Option.some.inj h
    exact .absent
  · exact hpresent (.inl rfl) h
  · exact hpresent (.inr rfl) h
  · cases h

theorem SpellsExponent.head (h : SpellsExponent tail exponent) (hc : c ∈ tail.head?) :
    c = 'e' ∨ c = 'E' := by
  cases h with
  | absent => cases hc
  | present he _ _ =>
    obtain rfl := Option.some.inj hc
    exact he

theorem SpellsExponent.isNumeric (h : SpellsExponent tail exponent) (hc : c ∈ tail) :
    isNumeric c = true := by
  cases h with
  | absent => cases hc
  | present he hsign hds =>
    rcases List.mem_cons.mp hc with rfl | hc
    · rcases he with rfl | rfl <;> rfl
    rcases List.mem_append.mp hc with hc | hc
    · cases hsign with
      | none => cases hc
      | plus =>
        rw [List.mem_singleton.mp hc]
        rfl
      | minus =>
        rw [List.mem_singleton.mp hc]
        rfl
    · exact isNumeric_of_isDigit (hds.2 c hc)

/-- Neither a point nor a digit begins an exponent. -/
theorem SpellsExponent.not_point (h : SpellsExponent tail exponent) (hc : c ∈ tail.head?) :
    c ≠ '.' ∧ c.isDigit = false := by
  rcases h.head hc with rfl | rfl <;> decide

/-! ## Fractions -/

/-- The characters of a fraction, none if there is none. -/
def fractionChars (fraction : List Char) : List Char :=
  if fraction.isEmpty then [] else '.' :: fraction

section Fraction

variable {fraction : List Char} (h : ∀ c ∈ tail.head?, c ≠ '.' ∧ c.isDigit = false)

include h

theorem skip_point (fraction : List Char) :
    skip '.' (fractionChars fraction ++ tail) = (!fraction.isEmpty, fraction ++ tail) := by
  cases fraction with
  | nil => exact skip_of_ne fun c hc => (h c hc).1
  | cons d ds => exact skip_self _ _

theorem span_fraction (hf : ∀ c ∈ fraction, c.isDigit = true) :
    (if (!fraction.isEmpty) = true then (fraction ++ tail).span Char.isDigit
      else ([], fraction ++ tail)) = (fraction, tail) := by
  cases fraction with
  | nil => rfl
  | cons d ds => exact (if_pos rfl).trans (span_isDigit hf fun c hc => (h c hc).2)

theorem isDigit_of_mem_head?_fractionChars (hc : c ∈ (fractionChars fraction ++ tail).head?) :
    c.isDigit = false := by
  cases fraction with
  | nil => exact (h c hc).2
  | cons d ds =>
    obtain rfl := Option.some.inj hc
    rfl

end Fraction

/-- Behind a point there are digits, and without one there is no fraction. -/
theorem of_fraction {point : Bool} {cs fraction tail : List Char}
    (h : (if point = true then cs.span Char.isDigit else ([], cs)) = (fraction, tail))
    (hne : point = true → fraction ≠ []) :
    (if point then ['.'] else []) ++ cs = fractionChars fraction ++ tail ∧
      ∀ d ∈ fraction, d.isDigit = true := by
  cases point with
  | false =>
    obtain ⟨rfl, rfl⟩ := Prod.mk.inj h
    exact ⟨rfl, nofun⟩
  | true =>
    obtain ⟨rfl, hdigits⟩ := of_span h
    refine ⟨?_, hdigits⟩
    rw [fractionChars, if_neg fun h => hne rfl (List.isEmpty_iff.mp h)]
    rfl

theorem isNumeric_of_mem_fractionChars {fraction : List Char}
    (hf : ∀ c ∈ fraction, c.isDigit = true) (h : c ∈ fractionChars fraction) :
    isNumeric c = true := by
  unfold fractionChars at h
  split at h
  · cases h
  · rcases List.mem_cons.mp h with rfl | h
    · rfl
    · exact isNumeric_of_isDigit (hf c h)

/-! ## Numbers -/

namespace Number

variable {n : Number} {cs : List Char}

/-- The characters of a number ahead of its exponent. -/
def mantissa (n : Number) : List Char :=
  (if n.negative then ['-'] else []) ++ n.spelling.whole ++ fractionChars n.spelling.fraction

/-- The texts of a number. -/
inductive Spells : List Char → Number → Prop
  | mk {n : Number} {tail : List Char} (h : n.spelling.WellFormed)
    (htail : SpellsExponent tail n.spelling.exponent) : Spells (n.mantissa ++ tail) n

/-- A text of a number consists of characters that stand in numbers. -/
theorem Spells.isNumeric (h : Spells cs n) (hc : c ∈ cs) : isNumeric c = true := by
  obtain ⟨hwell, htail⟩ := h
  rcases List.mem_append.mp hc with hc | hc
  · rcases List.mem_append.mp hc with hc | hc
    · rcases List.mem_append.mp hc with hc | hc
      · split at hc
        · rw [List.mem_singleton.mp hc]
          rfl
        · cases hc
      · exact isNumeric_of_isDigit (hwell.whole c hc)
    · exact isNumeric_of_mem_fractionChars hwell.fraction hc
  · exact htail.isNumeric hc

/-- It begins with a sign or a digit. -/
theorem Spells.exists_cons (h : Spells cs n) :
    ∃ c ds, cs = c :: ds ∧ (c.isDigit || c == '-') = true := by
  obtain ⟨hwell, htail⟩ := h
  obtain ⟨d, ds, hds⟩ := List.exists_cons_of_ne_nil hwell.whole_ne
  have hd : d.isDigit = true := hwell.whole d (by rw [hds]; exact List.mem_cons_self)
  unfold mantissa
  rw [hds]
  cases n.negative with
  | true => exact ⟨'-', _, rfl, rfl⟩
  | false => exact ⟨d, _, rfl, by rw [hd]; rfl⟩

/-- The sign comes off first. -/
theorem skip_sign (h : n.spelling.WellFormed) (tail : List Char) :
    skip '-' (n.mantissa ++ tail) = (n.negative,
      n.spelling.whole ++ (fractionChars n.spelling.fraction ++ tail)) := by
  obtain ⟨d, ds, hds⟩ := List.exists_cons_of_ne_nil h.whole_ne
  have hd : d.isDigit = true := h.whole d (by rw [hds]; exact List.mem_cons_self)
  unfold mantissa
  rw [List.append_assoc, List.append_assoc, hds]
  cases n.negative with
  | true => exact skip_self _ _
  | false =>
    refine skip_of_ne ?_
    rintro c ⟨⟩ rfl
    exact absurd hd (by decide)

/-- Reading a text of a number gives the number. -/
theorem Spells.numberOf? (h : Spells cs n) : numberOf? cs = some n := by
  obtain ⟨hwell, htail⟩ := h
  rename_i tail
  have hwhole :
      (n.spelling.whole ++ (fractionChars n.spelling.fraction ++ tail)).span Char.isDigit =
        (n.spelling.whole, fractionChars n.spelling.fraction ++ tail) :=
    span_isDigit hwell.whole fun c hc =>
      isDigit_of_mem_head?_fractionChars (fun c hc => htail.not_point hc) hc
  unfold Json.numberOf?
  rw [skip_sign hwell]
  dsimp only
  rw [hwhole]
  dsimp only
  rw [skip_point fun c hc => htail.not_point hc]
  dsimp only
  rw [span_fraction (fun c hc => htail.not_point hc) hwell.fraction]
  dsimp only
  rw [htail.exponentPart?, if_neg]
  · rfl
  · have hlead : (decide (1 < n.spelling.whole.length) && n.spelling.whole.head? == some '0') =
        false := by
      rcases hwell.lead with h | h
      · rw [h]
        rfl
      · rw [beq_eq_false_iff_ne.mpr h, Bool.and_false]
    rw [List.isEmpty_eq_false_iff.mpr hwell.whole_ne, hlead, Bool.not_and_self]
    decide

/-- Only texts of a number are read as one. -/
theorem spells_of_numberOf? (h : numberOf? cs = some n) : Spells cs n := by
  unfold Json.numberOf? at h
  dsimp only at h
  obtain ⟨negative, cs₁, h₁⟩ : ∃ b rest, skip '-' cs = (b, rest) := ⟨_, _, rfl⟩
  obtain ⟨whole, cs₂, h₂⟩ : ∃ ds rest, cs₁.span Char.isDigit = (ds, rest) := ⟨_, _, rfl⟩
  obtain ⟨point, cs₃, h₃⟩ : ∃ b rest, skip '.' cs₂ = (b, rest) := ⟨_, _, rfl⟩
  obtain ⟨fraction, tail, h₄⟩ : ∃ ds rest,
      (if point = true then cs₃.span Char.isDigit else ([], cs₃)) = (ds, rest) := ⟨_, _, rfl⟩
  rw [h₁] at h
  dsimp only at h
  rw [h₂] at h
  dsimp only at h
  rw [h₃] at h
  dsimp only at h
  rw [h₄] at h
  dsimp only at h
  rw [Option.ite_none_left_eq_some, Option.map_eq_some_iff] at h
  obtain ⟨hform, exponent, hexponent, rfl⟩ := h
  simp only [Bool.or_eq_true, Bool.and_eq_true, decide_eq_true_eq, List.isEmpty_iff, not_or,
    not_and, beq_iff_eq] at hform
  obtain ⟨⟨hne, hlead⟩, hpoint⟩ := hform
  obtain rfl := of_skip h₁
  obtain ⟨rfl, hwhole⟩ := of_span h₂
  obtain rfl := of_skip h₃
  obtain ⟨htail, hfraction⟩ := of_fraction h₄ hpoint
  have hlength : 0 < whole.length := List.length_pos_of_ne_nil hne
  have hlead' : whole.length = 1 ∨ whole.head? ≠ some '0' := by
    rcases Nat.lt_or_ge 1 whole.length with hlt | hle
    · exact .inr (hlead hlt)
    · exact .inl (by omega)
  have hspells := Spells.mk (n := ⟨negative, ⟨whole, fraction, exponent⟩⟩)
    ⟨hwhole, hne, hlead', hfraction⟩ (spells_of_exponentPart? hexponent)
  rw [htail]
  simpa [mantissa] using hspells

end Number

/-! ## Written numbers -/

/-- The digits of an exponent, with its sign. -/
def signedDigits (e : Int) : List Char :=
  (if 0 ≤ e then '+' else '-') :: (toString e.natAbs).toList

/-- The characters that are written for an exponent, none if there is none. -/
def exponentChars (exponent : Option Int) : List Char :=
  exponent.elim [] fun e => 'e' :: signedDigits e

theorem spells_exponentChars (exponent : Option Int) :
    SpellsExponent (exponentChars exponent) exponent := by
  cases exponent with
  | none => exact .absent
  | some e =>
    have hdigits : AllDigits (toString e.natAbs).toList :=
      ⟨List.ne_nil_of_length_pos (length_toString_pos _), fun c hc => isDigit_of_mem_toString hc⟩
    change SpellsExponent ('e' :: signedDigits e) _
    unfold signedDigits
    split
    · next h =>
      have hspells := SpellsExponent.present (.inl rfl) .plus hdigits
      rw [digitsValue_toString, if_neg Bool.false_ne_true, Int.natAbs_of_nonneg h] at hspells
      exact hspells
    · next h =>
      have hspells := SpellsExponent.present (.inl rfl) .minus hdigits
      rw [digitsValue_toString, if_pos rfl, Int.ofNat_natAbs_of_nonpos (by omega), Int.neg_neg]
        at hspells
      exact hspells

namespace Number

variable {n : Number}

/-- The characters that are written for a number. -/
def chars (n : Number) : List Char :=
  n.mantissa ++ exponentChars n.spelling.exponent

/-- A minus comes with the digits, a plus does not. -/
theorem toList_exponent (e : Int) :
    ("e" ++ (if 0 ≤ e then Style.json.plus else "") ++ toString e).toList =
      'e' :: signedDigits e := by
  unfold signedDigits
  rw [Int.toString_eq_repr, Int.repr_eq_if]
  split
  · have hn : e.toNat = e.natAbs := by omega
    rw [String.toList_append, String.toList_append, hn]
    rfl
  · have hn : (-e).toNat = e.natAbs := by omega
    rw [String.toList_append, String.toList_append, String.toList_append, hn]
    rfl

theorem toList_write (n : Number) : n.write.toList = n.chars := by
  unfold write chars mantissa Style.writeSpelling
  dsimp only
  rw [String.toList_append, String.toList_append, String.toList_append, String.toList_ofList,
    ← List.append_assoc, ← List.append_assoc]
  congr 1
  · congr 1
    · congr 1
      split <;> rfl
    · unfold fractionChars
      split
      · rfl
      · rw [String.toList_append, String.toList_ofList, String.toList_ofList]
        rfl
  · cases n.spelling.exponent with
    | none => rfl
    | some e => exact toList_exponent e

theorem spells_write (h : n.spelling.WellFormed) : Spells n.write.toList n := by
  rw [toList_write]
  exact .mk h (spells_exponentChars _)

end Number

end PlanarJoin.Json
