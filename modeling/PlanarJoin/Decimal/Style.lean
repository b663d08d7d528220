import PlanarJoin.Decimal.Shortest
import PlanarJoin.Decimal.Spelling

/-!
# Writing floats

A `Style` decides how the shortest digits of a float are laid out: which exponents are written
positionally, and whether a whole number keeps a decimal point.

## Main definitions

* `Decimal.Style`: the decisions of one way of writing floats.
* `Decimal.Style.plain`: positional for every exponent, no point in whole numbers.
* `Decimal.Style.record`: positional from `1e-4` up to below `1e16`, whole numbers end in `.0`.
* `Decimal.Style.json`: the same from `1e-5` on, with a sign before every exponent.
* `Decimal.Style.write`: the text of a float in a style.
* `Decimal.toSignificant`: a float rounded to a number of significant digits.
-/

namespace PlanarJoin.Decimal

/-- One way of writing floats. -/
structure Style where
  /-- Whether a number whose leading digit stands for `10 ^ k` is written without an exponent. -/
  positional : Int → Bool
  /-- Whether a whole number that is written positionally keeps a point and a zero. -/
  keepsPoint : Bool
  /-- The sign of an exponent that is not negative. -/
  plus : String
  /-- Where a float half-way between two shortest decimals goes. -/
  half : HalfWay

namespace Style

/-- Never an exponent, and no point in a whole number. -/
def plain : Style := ⟨fun _ => true, false, "", .up⟩

/-- Positional from `1e-4` up to below `1e16`, with a point in every such number. -/
def record : Style := ⟨fun k => decide (-4 ≤ k ∧ k < 16), true, "", .up⟩

/-- Positional from `1e-5` up to below `1e16`, with a point in every such number; every exponent is
written with its sign. -/
def json : Style := ⟨fun k => decide (-5 ≤ k ∧ k < 16), true, "+", .toEven⟩

/-- A decimal without an exponent. -/
def spellPositional (s : Style) (d : Decimal) : Spelling :=
  let digits := (toString d.digits).toList
  if 0 ≤ d.exponent then
    ⟨digits ++ List.replicate d.exponent.toNat '0', if s.keepsPoint then ['0'] else [], none⟩
  else
    let places := (-d.exponent).toNat
    let padded := List.replicate (places + 1 - digits.length) '0' ++ digits
    let cut := padded.length - places
    ⟨padded.take cut, padded.drop cut, none⟩

/-- A decimal with one digit before the point and an exponent. -/
def spellScientific (d : Decimal) : Spelling :=
  let digits := (toString d.digits).toList
  let rest := digits.drop 1
  ⟨digits.take 1, rest, some (d.exponent + rest.length)⟩

/-- A decimal in the notation that the style has for its size. -/
def spell (s : Style) (d : Decimal) : Spelling :=
  let lead := d.exponent + (toString d.digits).length - 1
  if d.digits = 0 || s.positional lead then s.spellPositional d else spellScientific d

/-- The text of a spelled number. -/
def writeSpelling (s : Style) (p : Spelling) : String :=
  let fraction := if p.fraction.isEmpty then "" else "." ++ String.ofList p.fraction
  let exponent :=
    match p.exponent with
    | some e => "e" ++ (if 0 ≤ e then s.plus else "") ++ toString e
    | none => ""
  String.ofList p.whole ++ fraction ++ exponent

/-- The shortest spelling of the magnitude of a finite float. -/
def spellFloat (s : Style) (x : Float) : Spelling :=
  let (m, q) := Binary64.split x
  s.spell (if m = 0 then ⟨0, 0⟩ else shortest s.half (.ofSplit m q))

def write (s : Style) (x : Float) : String :=
  if x.isNaN then "NaN"
  else
    let sign := if Binary64.isNegative x then "-" else ""
    sign ++ if x.isInf then "inf" else s.writeSpelling (s.spellFloat x)

end Style

/-- A float rounded to a number of significant digits, a half going to the even neighbour. -/
def toSignificant (places : Nat) (x : Float) : Float :=
  if x.isFinite then
    let (m, q) := Binary64.split x
    let magnitude := (rounded places (m * Nat.pow 2 q.toNat) (Nat.pow 2 (-q).toNat)).toFloat
    if Binary64.isNegative x then -magnitude else magnitude
  else x

end PlanarJoin.Decimal
