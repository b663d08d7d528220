/-!
# Floats as exact numbers

A finite float is a whole number times a power of two.  This module reads that form off the bits and
goes back: from an exact binary fraction to the nearest float.

## Main definitions

* `Binary64.split`: mantissa and exponent of the magnitude of a finite float.
* `Binary64.ofScaled`: the float nearest to `m · 2 ^ e`, a half going to the even neighbour.
-/

namespace PlanarJoin.Binary64

def infinity : Float := 1.0 / 0.0

/-- The largest finite float. -/
def greatest : Float := Float.ofBits 0x7fefffffffffffff

/-- The distance from one to the next larger float. -/
def epsilon : Float := Float.ofBits 0x3cb0000000000000

/-- Whether the sign bit is set. -/
def isNegative (x : Float) : Bool :=
  decide (Nat.pow 2 63 ≤ x.toBits.toNat)

/-- Mantissa and exponent: a finite `x` has `|x| = m · 2 ^ e` with `m < 2 ^ 53` and `-1074 ≤ e`. -/
def split (x : Float) : Nat × Int :=
  let bits := x.toBits.toNat
  let field : Nat := bits / Nat.pow 2 52 % Nat.pow 2 11
  let fraction : Nat := bits % Nat.pow 2 52
  if field = 0 then (fraction, -1074) else (fraction + Nat.pow 2 52, (field : Int) - 1075)

/-- The whole number nearest to `n / d`, a half going to the even neighbour. -/
def divHalfEven (n d : Nat) : Nat :=
  let q := n / d
  let r := n % d
  if 2 * r < d then q else if d < 2 * r then q + 1 else q + q % 2

/-- The float nearest to `m · 2 ^ e`, a half going to the even neighbour.

The kept mantissa has 53 bits, fewer where the result is subnormal; adding it to the exponent field
lets a carry out of the mantissa step into the next binade by itself. -/
def ofScaled (m : Nat) (e : Int) : Float :=
  if m = 0 then 0.0
  else
    let unit : Int := max ((m.log2 : Int) + e - 52) (-1074)
    let kept :=
      if unit ≤ e then m * Nat.pow 2 (e - unit).toNat
      else divHalfEven m (Nat.pow 2 (unit - e).toNat)
    let code := kept + (unit + 1074).toNat * Nat.pow 2 52
    if code < 2047 * Nat.pow 2 52 then Float.ofBits code.toUInt64 else infinity

end PlanarJoin.Binary64
