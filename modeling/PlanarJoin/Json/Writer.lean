import PlanarJoin.Json.Value

/-!
# Writing JSON

Values laid out over lines, each level indented by two more blanks.

## Main definitions

* `Json.quote`: a string between quotes, with the escapes it needs.
* `Json.Value.write`: the text of a value.
-/

namespace PlanarJoin.Json

/-- Two hexadecimal digits. -/
def hexPair (n : Nat) : List Char :=
  [Nat.digitChar (n / 16), Nat.digitChar (n % 16)]

/-- A character inside a string. -/
def escapeChar (c : Char) : List Char :=
  if c = '"' then ['\\', '"']
  else if c = '\\' then ['\\', '\\']
  else if c = '\n' then ['\\', 'n']
  else if c = '\r' then ['\\', 'r']
  else if c = '\t' then ['\\', 't']
  else if c = '\x08' then ['\\', 'b']
  else if c = '\x0c' then ['\\', 'f']
  else if c.toNat < 0x20 then ['\\', 'u', '0', '0'] ++ hexPair c.toNat
  else [c]

/-- A string between quotes. -/
def quote (s : String) : String :=
  "\"" ++ String.ofList (s.toList.flatMap escapeChar) ++ "\""

/-- The start of a line at a depth. -/
def newline (depth : Nat) : String :=
  "\n".pushn ' ' (2 * depth)

namespace Value

mutual

/-- The text of a value whose first line stands at a depth. -/
def writeAt (depth : Nat) : Value → String
  | null => "null"
  | bool b => if b then "true" else "false"
  | number n => n.write
  | string s => quote (s.getD "")
  | array [] => "[]"
  | array (v :: vs) =>
    "[" ++ newline (depth + 1) ++ writeAt (depth + 1) v ++ writeItems (depth + 1) vs ++
      newline depth ++ "]"
  | object [] => "\x7b\x7d"
  | object ((k, v) :: ms) =>
    "\x7b" ++ newline (depth + 1) ++ quote (k.getD "") ++ ": " ++ writeAt (depth + 1) v ++
      writeMembers (depth + 1) ms ++ newline depth ++ "\x7d"

/-- The further items of an array. -/
def writeItems (depth : Nat) : List Value → String
  | [] => ""
  | v :: vs => "," ++ newline depth ++ writeAt depth v ++ writeItems depth vs

/-- The further members of an object. -/
def writeMembers (depth : Nat) : List (Option String × Value) → String
  | [] => ""
  | (k, v) :: ms =>
    "," ++ newline depth ++ quote (k.getD "") ++ ": " ++ writeAt depth v ++ writeMembers depth ms

end

def write (v : Value) : String :=
  writeAt 0 v

end Value

end PlanarJoin.Json
