/-!
# Comparing and truncating floats

The smaller and the larger of two floats, a total order for sorting, and the whole numbers near a
float.

## Main definitions

* `Binary64.lower`, `Binary64.upper`: the smaller and the larger of two floats; a NaN yields.
* `Binary64.clampNonneg`: the larger of a float and zero.
* `Binary64.sortKey`: an integer that orders floats as numbers, with `-0.0` below `0.0`.
* `Binary64.floorBelow`: the whole part of a float, kept below a count.
* `Binary64.ceiling`: the least whole float that is not below a non-negative float.
-/

namespace PlanarJoin.Binary64

/-- The smaller of two floats; a NaN yields to the other. -/
def lower (a b : Float) : Float :=
  if a < b || b.isNaN then a else b

/-- The larger of two floats; a NaN yields to the other. -/
def upper (a b : Float) : Float :=
  if b < a || b.isNaN then a else b

/-- The larger of a float and zero. -/
def clampNonneg (a : Float) : Float :=
  upper a 0.0

/-- A key that orders floats by value, `-0.0` before `0.0`, and NaNs outside the infinities. -/
def sortKey (x : Float) : Int :=
  let bits := x.toBits.toNat
  if bits < Nat.pow 2 63 then bits else Nat.pow 2 63 - 1 - (bits : Int)

/-- The whole part of `position`, at least zero and at most `count - 1`; zero for a NaN. -/
def floorBelow (position : Float) (count : Nat) : Nat :=
  if Float.ofNat (count - 1) ≤ position then count - 1 else position.toUInt64.toNat

/-- The least whole number, as a float, that is not below `x`, for `x` not negative.  A float from
`2 ^ 53` on is whole already. -/
def ceiling (x : Float) : Float :=
  if x < 9007199254740992.0 then
    let whole := Float.ofNat x.toUInt64.toNat
    if whole < x then whole + 1.0 else whole
  else x

end PlanarJoin.Binary64
