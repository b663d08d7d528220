import PlanarJoin.Binary64.Exact

/-!
# Shortest decimals

The decimal with the fewest digits that reads back as a given float, and a float rounded to a fixed
number of significant digits.  All arithmetic is exact, on whole numbers.

## Main definitions

* `Decimal`: a whole number times a power of ten.
* `Binary64.Interval`: a float's magnitude with the reals that round to it.
* `Decimal.shortest`: the fewest digits that read back; of two such decimals the nearer.
* `Decimal.rounded`: a magnitude rounded to a number of significant digits.
-/

namespace PlanarJoin

/-- The decimal `digits · 10 ^ exponent`. -/
structure Decimal where
  digits : Nat
  exponent : Int
deriving DecidableEq, Repr

/-- Where a value half-way between two decimals goes. -/
inductive HalfWay where
  | toEven
  | up
deriving DecidableEq, Repr

/-- A positive magnitude `value / unit` with the ends of the interval of numbers that round to it.
The ends belong to the interval when `closed` holds. -/
structure Binary64.Interval where
  low : Nat
  value : Nat
  high : Nat
  unit : Nat
  closed : Bool

/-- The rounding interval of `m · 2 ^ q`, the magnitude of a float.  Below a power of two the next
smaller float is nearer, so that side of the interval is half as wide. -/
def Binary64.Interval.ofSplit (m : Nat) (q : Int) : Binary64.Interval :=
  let scale := Nat.pow 2 (q - 2).toNat
  let below := if m = Nat.pow 2 52 ∧ -1074 < q then 1 else 2
  { low := (4 * m - below) * scale
    value := 4 * m * scale
    high := (4 * m + 2) * scale
    unit := Nat.pow 2 (2 - q).toNat
    closed := m % 2 == 0 }

namespace Decimal

/-- Whether `10 ^ k ≤ n / d`. -/
def powerAtMost (k : Int) (n d : Nat) : Bool :=
  Nat.pow 10 k.toNat * d ≤ n * Nat.pow 10 (-k).toNat

/-- The decimal exponent of a positive `n / d`: the largest `k` with `10 ^ k ≤ n / d`.  The guess
from the binary length is off by one at most. -/
def leadingExponent (n d : Nat) : Int :=
  let guess := (((n.log2 : Int) - d.log2) * 30103).fdiv 100000
  if powerAtMost (guess + 1) n d then guess + 1
  else if powerAtMost guess n d then guess
  else guess - 1

/-- Moves trailing zeros of the digits into the exponent; `fuel` bounds their number. -/
def strip : (fuel : Nat) → Decimal → Decimal
  | 0, d => d
  | fuel + 1, d =>
    if d.digits ≠ 0 ∧ d.digits % 10 = 0 then strip fuel ⟨d.digits / 10, d.exponent + 1⟩ else d

/-- The decimal on the grid of multiples of `10 ^ p` that lies in the interval, if there is one; of
two the nearer to the value. -/
def onGrid? (half : HalfWay) (i : Binary64.Interval) (p : Int) : Option Decimal :=
  let up := Nat.pow 10 (-p).toNat
  let step := i.unit * Nat.pow 10 p.toNat
  let below := i.value * up / step
  let inside (c : Nat) : Bool :=
    if i.closed then i.low * up ≤ c * step && c * step ≤ i.high * up
    else i.low * up < c * step && c * step < i.high * up
  let low := some ⟨below, p⟩
  let high := some ⟨below + 1, p⟩
  match inside below, inside (below + 1) with
  | false, false => none
  | true, false => low
  | false, true => high
  | true, true =>
    -- both neighbours read back: the remainder says which one is nearer
    match compare (2 * (i.value * up % step)) step with
    | .lt => low
    | .gt => high
    | .eq =>
      match half with
      | .toEven => if below % 2 = 0 then low else high
      | .up => high

/-- The fewest digits, at most seventeen, that read back as the float whose interval is given. -/
def shortest (half : HalfWay) (i : Binary64.Interval) : Decimal :=
  let k := leadingExponent i.value i.unit
  let grids := (List.range 17).map fun (n : Nat) => k - n
  strip 20 ((grids.findSome? (onGrid? half i)).getD ⟨i.value / i.unit, 0⟩)

/-- `n / d` rounded to a number of significant digits, a half going to the even neighbour. -/
def rounded (places : Nat) (n d : Nat) : Decimal :=
  if n = 0 then ⟨0, 0⟩
  else
    let p := leadingExponent n d + 1 - places
    let up := Nat.pow 10 (-p).toNat
    let down := Nat.pow 10 p.toNat
    strip (places + 1) ⟨Binary64.divHalfEven (n * up) (d * down), p⟩

/-- The float nearest to a decimal. -/
def toFloat (d : Decimal) : Float :=
  if 0 ≤ d.exponent then Float.ofScientific d.digits false d.exponent.toNat
  else Float.ofScientific d.digits true (-d.exponent).toNat

end Decimal

end PlanarJoin
