import PlanarJoin.Binary64.Exact

/-!
# Float arithmetic with remainders

What rounding takes off a sum, a difference or a product of two floats is itself a float, unless the
operation leaves the range.  Keeping it gives exact arithmetic on expansions: lists of floats of
increasing magnitude that stand for their sum.

## Main definitions

* `Binary64.Twofold`: a rounded result and its remainder.
* `Binary64.twoSum`, `Binary64.twoDiff`, `Binary64.twoProduct`: the operations with remainder.
* `Binary64.expandDiff`: the exact difference of two such results.
* `Binary64.addExpansions`: the exact sum of two expansions, without zeros.
-/

namespace PlanarJoin.Binary64

/-- A rounded result with its remainder: it stands for `high + low`. -/
structure Twofold where
  high : Float
  low : Float

/-- What rounding took off the sum `s` of `a` and `b`. -/
def sumRest (a b s : Float) : Float :=
  let fromB := s - a
  let fromA := s - fromB
  (a - fromA) + (b - fromB)

/-- The sum of two floats with its remainder. -/
def twoSum (a b : Float) : Twofold :=
  let s := a + b
  ⟨s, sumRest a b s⟩

/-- The sum with its remainder, where `a` is not the smaller one in magnitude. -/
def twoSumOrdered (a b : Float) : Twofold :=
  let s := a + b
  ⟨s, b - (s - a)⟩

/-- What rounding took off the difference `d` of `a` and `b`. -/
def diffRest (a b d : Float) : Float :=
  let fromB := a - d
  let fromA := d + fromB
  (a - fromA) + (fromB - b)

/-- The difference of two floats with its remainder. -/
def twoDiff (a b : Float) : Twofold :=
  let d := a - b
  ⟨d, diffRest a b d⟩

/-- One more than the power of two that moves the lower half of a mantissa out of it. -/
def halver : Float := 134217729.0

/-- A float as the sum of two with at most 26 bits each, so that products of halves are exact. -/
def halves (a : Float) : Twofold :=
  let c := halver * a
  let high := c - (c - a)
  ⟨high, a - high⟩

/-- The product of two floats with its remainder. -/
def twoProduct (a b : Float) : Twofold :=
  let p := a * b
  let u := halves a
  let v := halves b
  let rest := p - u.high * v.high
  let rest := rest - u.low * v.high
  let rest := rest - u.high * v.low
  ⟨p, u.low * v.low - rest⟩

/-- The difference of two results with remainders, as an expansion of four floats. -/
def expandDiff (a b : Twofold) : List Float :=
  let first := twoDiff a.low b.low
  let carried := twoSum a.high first.high
  let second := twoDiff carried.low b.high
  let last := twoSum carried.high second.high
  [first.low, second.low, last.low, last.high]

/-- Whether `x` goes before `y` in an expansion: the magnitude of `y` is not smaller. -/
def goesBefore (x y : Float) : Bool :=
  decide (x < y) == decide (-x < y)

/-- Adds floats of increasing magnitude to a carry; the remainders that are not zero are put before
the carry that is left, in reverse. -/
def carryThrough (carry : Float) (rests : List Float) : List Float → List Float
  | [] => (if carry != 0.0 || rests.isEmpty then carry :: rests else rests).reverse
  | x :: xs =>
    let s := twoSum carry x
    carryThrough s.high (if s.low != 0.0 then s.low :: rests else rests) xs

/-- The sum of two expansions, without zeros unless it is zero. -/
def addExpansions (e f : List Float) : List Float :=
  match e.merge f goesBefore with
  | [] => []
  | [x] => [x]
  | x :: y :: rest =>
    let s := twoSumOrdered y x
    carryThrough s.high (if s.low != 0.0 then [s.low] else []) rest

end PlanarJoin.Binary64
