import PlanarJoin.Json.Value

/-!
# JSON tokens

A text is cut into tokens by a machine that reads one character at a time.

## Main definitions

* `Json.Token`: punctuation, words, numbers and strings.
* `Json.numberOf?`: the number that some characters spell.
* `Json.textOf?`: the text of a string's characters and escapes.
* `Json.Scan`, `Json.Scan.step`: the machine.
* `Json.tokenize`: the tokens of a text, none if it is not well-formed.
-/

namespace PlanarJoin.Json

/-- A token. -/
inductive Token where
  | openObject
  | closeObject
  | openArray
  | closeArray
  | colon
  | comma
  | null
  | bool (b : Bool)
  | number (n : Number)
  | string (text : Option String)
deriving DecidableEq, Repr

/-! ## Numbers and words -/

/-- The exponent that follows the letter `e`: an optional sign and digits. -/
def exponentOf? (cs : List Char) : Option Int :=
  let (negative, ds) := match cs with
    | '-' :: ds => (true, ds)
    | '+' :: ds => (false, ds)
    | ds => (false, ds)
  if !ds.isEmpty && ds.all Char.isDigit then
    some (if negative then -(Decimal.digitsValue ds : Int) else Decimal.digitsValue ds)
  else none

/-- Whether some characters begin with a given one, and those after it. -/
def skip (c : Char) : List Char → Bool × List Char
  | [] => (false, [])
  | d :: ds => if d = c then (true, ds) else (false, d :: ds)

theorem skip_self (c : Char) (cs : List Char) : skip c (c :: cs) = (true, cs) :=
  if_pos rfl

theorem skip_of_ne {c : Char} {cs : List Char} (h : ∀ d ∈ cs.head?, d ≠ c) :
    skip c cs = (false, cs) := by
  cases cs with
  | nil => rfl
  | cons d ds => exact if_neg (h d rfl)

/-- The exponent that ends a number, if there is one. -/
def exponentPart? : List Char → Option (Option Int)
  | [] => some none
  | 'e' :: cs | 'E' :: cs => (exponentOf? cs).map some
  | _ => none

/-- The number that some characters spell: digits without a leading zero, then perhaps a point with
digits, then perhaps an exponent. -/
def numberOf? (cs : List Char) : Option Number :=
  let (negative, cs) := skip '-' cs
  let (digits, cs) := cs.span Char.isDigit
  let (point, cs) := skip '.' cs
  let (fraction, cs) := if point then cs.span Char.isDigit else ([], cs)
  if digits.isEmpty || (1 < digits.length && digits.head? == some '0') ||
      (point && fraction.isEmpty) then none
  else (exponentPart? cs).map fun exponent => ⟨negative, ⟨digits, fraction, exponent⟩⟩

/-- The token that a word stands for. -/
def wordOf? (cs : List Char) : Option Token :=
  if cs = "null".toList then some .null
  else if cs = "true".toList then some (.bool true)
  else if cs = "false".toList then some (.bool false)
  else none

/-! ## Strings -/

/-- One character of a string, or the code unit of an escape. -/
inductive Unit16 where
  | char (c : Char)
  | code (n : Nat)
deriving DecidableEq, Repr

/-- The characters of a string; none if a surrogate stands alone. -/
def charsOf? : List Unit16 → Option (List Char)
  | [] => some []
  | .char c :: us => (charsOf? us).map (c :: ·)
  | .code high :: .code low :: us =>
    if 0xd800 ≤ high ∧ high < 0xdc00 then
      if 0xdc00 ≤ low ∧ low < 0xe000 then
        (charsOf? us).map (Char.ofNat (0x10000 + (high - 0xd800) * 0x400 + (low - 0xdc00)) :: ·)
      else none
    else if 0xdc00 ≤ high ∧ high < 0xe000 then none
    else (charsOf? (.code low :: us)).map (Char.ofNat high :: ·)
  | .code n :: us =>
    if 0xd800 ≤ n ∧ n < 0xe000 then none else (charsOf? us).map (Char.ofNat n :: ·)

/-- The text of a string; none if a surrogate stands alone. -/
def textOf? (us : List Unit16) : Option String :=
  (charsOf? us).map String.ofList

/-- The value of a hexadecimal digit. -/
def hexDigit? (c : Char) : Option Nat :=
  if c.isDigit then some (c.toNat - '0'.toNat)
  else if 'a' ≤ c ∧ c ≤ 'f' then some (c.toNat - 'a'.toNat + 10)
  else if 'A' ≤ c ∧ c ≤ 'F' then some (c.toNat - 'A'.toNat + 10)
  else none

/-- The character that a backslash and a letter stand for. -/
def escaped? : Char → Option Char
  | '"' => some '"'
  | '\\' => some '\\'
  | '/' => some '/'
  | 'b' => some '\x08'
  | 'f' => some '\x0c'
  | 'n' => some '\n'
  | 'r' => some '\r'
  | 't' => some '\t'
  | _ => none

/-! ## The machine -/

/-- What the machine is in the middle of; characters and units are kept last first. -/
inductive Pending where
  | nothing
  | number (cs : List Char)
  | word (cs : List Char)
  | string (us : List Unit16)
  /-- A backslash inside a string. -/
  | escape (us : List Unit16)
  /-- An escape by code inside a string, with the value and the number of the digits so far. -/
  | code (us : List Unit16) (value digits : Nat)

/-- The tokens so far, last first, and what is pending. -/
structure Scan where
  tokens : List Token
  pending : Pending

/-- Whether a character may stand in a number. -/
def isNumeric (c : Char) : Bool :=
  c.isDigit || c == '-' || c == '+' || c == '.' || c == 'e' || c == 'E'

namespace Scan

/-- Adds a token, with nothing left pending. -/
def emit (s : Scan) (t : Token) : Scan := ⟨t :: s.tokens, .nothing⟩

/-- Reads a character between tokens. -/
def start (s : Scan) (c : Char) : Option Scan :=
  match c with
  | ' ' | '\n' | '\t' | '\r' => some s
  | '\x7b' => some (s.emit .openObject)
  | '\x7d' => some (s.emit .closeObject)
  | '[' => some (s.emit .openArray)
  | ']' => some (s.emit .closeArray)
  | ':' => some (s.emit .colon)
  | ',' => some (s.emit .comma)
  | '"' => some { s with pending := .string [] }
  | c =>
    if c.isDigit || c == '-' then some { s with pending := .number [c] }
    else if c.isAlpha then some { s with pending := .word [c] }
    else none

/-- Ends a pending number or word; a pending string cannot end here. -/
def flush (s : Scan) : Option Scan :=
  match s.pending with
  | .nothing => some s
  | .number cs => (numberOf? cs.reverse).map fun n => s.emit (.number n)
  | .word cs => (wordOf? cs.reverse).map s.emit
  | _ => none

/-- Reads one character. -/
def step (s : Scan) (c : Char) : Option Scan :=
  match s.pending with
  | .nothing => s.start c
  | .number cs =>
    if isNumeric c then some { s with pending := .number (c :: cs) }
    else s.flush.bind (·.start c)
  | .word cs =>
    if c.isAlpha then some { s with pending := .word (c :: cs) }
    else s.flush.bind (·.start c)
  | .string us =>
    if c == '"' then some (s.emit (.string (textOf? us.reverse)))
    else if c == '\\' then some { s with pending := .escape us }
    else if c.toNat < 0x20 then none
    else some { s with pending := .string (.char c :: us) }
  | .escape us =>
    if c == 'u' then some { s with pending := .code us 0 0 }
    else (escaped? c).map fun e => { s with pending := .string (.char e :: us) }
  | .code us value digits =>
    (hexDigit? c).map fun h =>
      let value := 16 * value + h
      if digits < 3 then { s with pending := .code us value (digits + 1) }
      else { s with pending := .string (.code value :: us) }

end Scan

/-- The tokens of a text, none if some character has no place in it. -/
def tokenize (cs : List Char) : Option (List Token) :=
  ((cs.foldlM Scan.step ⟨[], .nothing⟩).bind Scan.flush).map (·.tokens.reverse)

end PlanarJoin.Json
