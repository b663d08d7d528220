import PlanarJoin.Decimal.Style

/-!
# JSON values

What a JSON text says, with everything kept that a strict reader may ask about: the order and
repetition of members, and how a number was written.

## Main definitions

* `Json.Number`: a number as written.
* `Json.Value`: a value.
* `Json.Number.toNat?`, `Json.Number.toFloat?`: the number as a 64-bit count and as a float.
-/

namespace PlanarJoin.Json

/-- A number as written: its sign and its digits. -/
structure Number where
  negative : Bool
  spelling : Decimal.Spelling
deriving DecidableEq, Repr

namespace Number

/-- A count. -/
def ofNat (n : Nat) : Number :=
  ⟨false, ⟨(toString n).toList, [], none⟩⟩

/-- A finite float, by its shortest decimal. -/
def ofFloat (x : Float) : Number :=
  ⟨Binary64.isNegative x, Decimal.Style.json.spellFloat x⟩

/-- The count that a number stands for, if it is written as one and fits 64 bits. -/
def toNat? (n : Number) : Option Nat :=
  let value := Decimal.digitsValue n.spelling.whole
  if !n.negative && n.spelling.fraction.isEmpty && n.spelling.exponent.isNone &&
      value < Nat.pow 2 64 then some value
  else none

/-- The float that a number is read as, none if it is too large. -/
def toFloat? (n : Number) : Option Float :=
  n.spelling.toFloat?.map fun x => if n.negative then -x else x

def write (n : Number) : String :=
  (if n.negative then "-" else "") ++ Decimal.Style.json.writeSpelling n.spelling

end Number

/-- A JSON value.  A string whose escapes leave half of a surrogate pair alone is well-formed, but
has no text. -/
inductive Value where
  | null
  | bool (b : Bool)
  | number (n : Number)
  | string (text : Option String)
  | array (items : List Value)
  | object (members : List (Option String × Value))

end PlanarJoin.Json
