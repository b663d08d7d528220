import PlanarJoin.Binary64.Exact

/-!
# The length of a hypotenuse

The root of a sum of two squares, without overflow or underflow on the way, and with the rounding
error of the root taken off to first order.  The result is at most one unit in the last place away
from the true length; it is exact where one leg is zero.

## Main definitions

* `Binary64.correctedRoot`: the length for legs whose squares stay in range.
* `Binary64.hypot`: the length for all legs.
-/

namespace PlanarJoin.Binary64

/-- The length of the hypotenuse over legs `0 ≤ b ≤ a` whose squares neither overflow nor underflow.

With `h` the rounded root, `h² - a² - b²` is small and is summed from exact or nearly exact terms in
the distance of `h` from the leg it is closer to; half of it over `h` is the error of the root. -/
def correctedRoot (a b : Float) : Float :=
  let h := (a * a + b * b).sqrt
  let (s, t) :=
    if h ≤ 2.0 * b then
      let d := h - b
      (a * (2.0 * d - a), (d - 2.0 * (a - b)) * d)
    else
      let d := h - a
      (2.0 * d * (a - 2.0 * b), (4.0 * d - b) * b + d * d)
  h - (s + t) / (2.0 * h)

/-- From here on one leg is too small to change the rounded length by more than its last place. -/
def legRatio : Float := ofScaled 1 54

/-- A longer leg has to be scaled down before it is squared. -/
def longestSquare : Float := ofScaled 1 511

/-- A shorter leg has to be scaled up before it is squared. -/
def shortestSquare : Float := ofScaled 1 (-459)

/-- What legs are scaled up by. -/
def scaleUp : Float := ofScaled 1 600

/-- What legs are scaled down by. -/
def scaleDown : Float := ofScaled 1 (-600)

/-- The length of the vector `(x, y)`: infinite as soon as one of them is. -/
def hypot (x y : Float) : Float :=
  if x.isInf || y.isInf then infinity
  else if x.isNaN || y.isNaN then 0.0 / 0.0
  else
    let (a, b) := if x.abs < y.abs then (y.abs, x.abs) else (x.abs, y.abs)
    if b * legRatio ≤ a then a + b
    else if longestSquare < a then correctedRoot (a * scaleDown) (b * scaleDown) * scaleUp
    else if b < shortestSquare then correctedRoot (a * scaleUp) (b * scaleUp) * scaleDown
    else correctedRoot a b

end PlanarJoin.Binary64
