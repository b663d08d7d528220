import PlanarJoin.Binary64.Expansion
import PlanarJoin.Geometry.Basic

/-!
# Which way a path turns

The sign of the area of a triangle, which says on which side of a line a point lies.  It is taken
from float arithmetic as soon as an error bound allows, and from exact expansions otherwise, so it
is right for all coordinates whose products stay in range.

## Main definitions

* `Turn`: to the left, to the right, or straight.
* `Coord.signedArea`: a float with the sign of the area of a triangle.
* `Coord.turn`: the turn of a path of three points.
-/

namespace PlanarJoin

open Binary64

/-- How a path of three points turns. -/
inductive Turn where
  | left
  | right
  | straight
deriving DecidableEq, Repr

/-- The turn that a signed area stands for; an area that is not a number counts as none. -/
def Turn.ofArea (area : Float) : Turn :=
  if area < 0.0 then .right else if 0.0 < area then .left else .straight

/-- The relative error of a rounded operation. -/
def roundOff : Float := ofScaled 1 (-53)

/-- Error bound of the difference of two rounded products, in units of their sum. -/
def plainBound : Float := 3.3306690621773722e-16

/-- Error bound when the products are exact, in units of their sum. -/
def productBound : Float := (2.0 + 12.0 * roundOff) * roundOff

/-- Error bound when the differences are kept to first order, in units of the sum of the products.
-/
def firstOrderBound : Float := (9.0 + 64.0 * roundOff) * roundOff * roundOff

/-- Error bound of adding the first order, in units of the result. -/
def resultBound : Float := (3.0 + 8.0 * roundOff) * roundOff

/-- Whether the sign of a value is certain, given a bound of its error. -/
def isCertain (value bound : Float) : Bool :=
  bound ≤ value || bound ≤ -value

/-- The determinant `a·d - b·c` as an expansion. -/
def expandDeterminant (a d b c : Float) : List Float :=
  expandDiff (twoProduct a d) (twoProduct b c)

namespace Coord

/-- The signed area with the remainders of the four differences taken into account; `sum` is the
magnitude of the sum of the rounded products. -/
def refinedArea (a b c : Coord) (sum : Float) : Float :=
  let u := a.sub c
  let v := b.sub c
  let products := expandDeterminant u.x v.y u.y v.x
  let area := products.tail.foldl (· + ·) (products.headD 0.0)
  if isCertain area (productBound * sum) then area
  else
    let du : Coord := ⟨diffRest a.x c.x u.x, diffRest a.y c.y u.y⟩
    let dv : Coord := ⟨diffRest b.x c.x v.x, diffRest b.y c.y v.y⟩
    if du == ⟨0.0, 0.0⟩ && dv == ⟨0.0, 0.0⟩ then area
    else
      let bound := firstOrderBound * sum + resultBound * area.abs
      let area := area + ((u.x * dv.y + v.y * du.x) - (u.y * dv.x + v.x * du.y))
      if isCertain area bound then area
      else
        let total := addExpansions products (expandDeterminant du.x v.y du.y v.x)
        let total := addExpansions total (expandDeterminant u.x dv.y u.y dv.x)
        let total := addExpansions total (expandDeterminant du.x dv.y du.y dv.x)
        total.getLastD 0.0

/-- A float with the sign of the area of the triangle `a b c`: positive if its vertices go around it
counter-clockwise, zero if it is flat. -/
def signedArea (a b c : Coord) : Float :=
  let u := a.sub c
  let v := b.sub c
  let up := u.x * v.y
  let down := u.y * v.x
  let area := up - down
  let sum := (up + down).abs
  if isCertain area (plainBound * sum) then area else refinedArea a b c sum

/-- How the path from `a` over `b` to `c` turns at `b`: to the left if `c` lies to the left of the
line from `a` to `b`. -/
def turn (a b c : Coord) : Turn :=
  .ofArea (signedArea a b c)

end Coord

end PlanarJoin
