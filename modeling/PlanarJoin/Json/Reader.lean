import PlanarJoin.Json.Token

/-!
# Reading JSON

Recursive descent over tokens.  Every step takes a token, so the number of tokens bounds the depth
of the recursion.

## Main definitions

* `Json.Value.read`: a value at the front of some tokens, with the tokens after it.
* `Json.Value.parse?`: the value of a whole text.
-/

namespace PlanarJoin.Json.Value

mutual

/-- The value at the front of some tokens, and the tokens after it. -/
def read : (fuel : Nat) → List Token → Option (Value × List Token)
  | 0, _ => none
  | fuel + 1, ts =>
    match ts with
    | .null :: ts => some (null, ts)
    | .bool b :: ts => some (bool b, ts)
    | .number n :: ts => some (number n, ts)
    | .string s :: ts => some (string s, ts)
    | .openArray :: .closeArray :: ts => some (array [], ts)
    | .openArray :: ts => (readItems fuel ts).map fun (vs, ts) => (array vs, ts)
    | .openObject :: .closeObject :: ts => some (object [], ts)
    | .openObject :: ts => (readMembers fuel ts).map fun (ms, ts) => (object ms, ts)
    | _ => none

/-- The items of an array up to its end, one at least. -/
def readItems : (fuel : Nat) → List Token → Option (List Value × List Token)
  | 0, _ => none
  | fuel + 1, ts =>
    match read fuel ts with
    | some (v, .closeArray :: ts) => some ([v], ts)
    | some (v, .comma :: ts) => (readItems fuel ts).map fun (vs, ts) => (v :: vs, ts)
    | _ => none

/-- The members of an object up to its end, one at least. -/
def readMembers : (fuel : Nat) → List Token → Option (List (Option String × Value) × List Token)
  | 0, _ => none
  | fuel + 1, ts =>
    match ts with
    | .string k :: .colon :: ts =>
      match read fuel ts with
      | some (v, .closeObject :: ts) => some ([(k, v)], ts)
      | some (v, .comma :: ts) => (readMembers fuel ts).map fun (ms, ts) => ((k, v) :: ms, ts)
      | _ => none
    | _ => none

end

/-- The value that a text says, with nothing after it. -/
def parse? (text : String) : Option Value :=
  match tokenize text.toList with
  | none => none
  | some ts =>
    match read (2 * ts.length + 1) ts with
    | some (v, []) => some v
    | _ => none

end PlanarJoin.Json.Value
