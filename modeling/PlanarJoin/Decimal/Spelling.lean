import PlanarJoin.Binary64.Exact

/-!
# Spelled numbers

A number as digits before and after a point, and an exponent.  It is read by one rounding to a
64-bit significand and one multiplication or division by a power of ten, so a short number gives the
nearest float and a long one may be off by some units in the last place.

## Main definitions

* `Decimal.Spelling`: the digits and the exponent.
* `Decimal.Significand`: a 64-bit number with a power of ten.
* `Decimal.Spelling.significand`: the leading digits that fit.
* `Decimal.Spelling.toFloat?`: the float that is read, none if it is too large.
-/

namespace PlanarJoin.Decimal

/-- The digits before and after the point, and the exponent if there is one. -/
structure Spelling where
  whole : List Char
  fraction : List Char
  exponent : Option Int
deriving DecidableEq, Repr

def digitValue (d : Char) : Nat :=
  d.toNat - '0'.toNat

/-- The number that some digits spell. -/
def digitsValue (ds : List Char) : Nat :=
  ds.foldl (fun n d => 10 * n + digitValue d) 0

theorem digitsValue_concat (ds : List Char) (d : Char) :
    digitsValue (ds ++ [d]) = 10 * digitsValue ds + digitValue d := by
  simp [digitsValue]

/-- The number `value · 10 ^ exponent`. -/
structure Significand where
  value : Nat
  exponent : Int
deriving DecidableEq, Repr

/-- A number with one more digit, if it still fits 64 bits. -/
def appendDigit? (n : Nat) (d : Char) : Option Nat :=
  let m := 10 * n + digitValue d
  if m < Nat.pow 2 64 then some m else none

namespace Significand

/-- Appends digits before the point.  From the first one on that does not fit, each counts as a
power of ten only. -/
def appendWhole (n : Nat) : List Char → Significand
  | [] => ⟨n, 0⟩
  | d :: ds =>
    match appendDigit? n d with
    | some m => appendWhole m ds
    | none => ⟨n, ds.length + 1⟩

/-- Appends digits after the point.  From the first one on that does not fit, all are passed over.
-/
def appendFraction (s : Significand) : List Char → Significand
  | [] => s
  | d :: ds =>
    match appendDigit? s.value d with
    | some m => appendFraction ⟨m, s.exponent - 1⟩ ds
    | none => s

end Significand

/-- The leading digits of a number that fit 64 bits, with the power of ten that belongs to them. -/
def Spelling.significand (s : Spelling) : Significand :=
  let digits := (Significand.appendWhole 0 s.whole).appendFraction s.fraction
  { digits with exponent := digits.exponent + s.exponent.getD 0 }

/-- The largest power of ten that is a float. -/
def greatestPower : Nat := 308

/-- The float nearest to a power of ten. -/
def powerOfTen (k : Nat) : Float :=
  Binary64.ofScaled (Nat.pow 10 k) 0

/-- A float times a power of ten, none if that is too large.  What is too small for one division is
divided by the largest power until it is not, or until nothing is left. -/
def scaleByPower? (x : Float) (e : Int) : Option Float :=
  if 0 ≤ e then
    if e ≤ greatestPower then
      let y := x * powerOfTen e.toNat
      if y.isInf then none else some y
    else if x == 0.0 then some x
    else none
  else if -greatestPower ≤ e then some (x / powerOfTen (-e).toNat)
  else if x == 0.0 then some x
  else scaleByPower? (x / powerOfTen greatestPower) (e + greatestPower)
termination_by (-e).toNat
decreasing_by
  simp only [greatestPower] at *
  omega

/-- The float that a spelled number is read as, none if it is too large. -/
def Spelling.toFloat? (s : Spelling) : Option Float :=
  let n := s.significand
  scaleByPower? (Binary64.ofScaled n.value 0) n.exponent

end PlanarJoin.Decimal
