import PlanarJoin.Binary64.Exact
import PlanarJoin.Binary64.Order

/-!
# Envelopes

The axis-aligned box around an object, which is the key that every index, grid and join works with.
An envelope is closed: its edges belong to it.  The empty envelope has its bounds crossed, and meets
nothing.

## Main definitions

* `Envelope.ofBounds`, `Envelope.ofPoint`, `Envelope.empty`, `Envelope.world`: constructors.
* `Envelope.isEmpty`, `Envelope.isProper`: an envelope is proper when it is not empty and finite.
* `Envelope.meets`, `Envelope.hasPoint`, `Envelope.covers`: closed relations.
* `Envelope.overlap?`, `Envelope.hull`: the meet and the join of two envelopes.
* `Envelope.grow`: an envelope widened on every side.
-/

namespace PlanarJoin

/-- An axis-aligned box, edges included. -/
structure Envelope where
  minX : Float
  maxX : Float
  minY : Float
  maxY : Float
deriving BEq, Repr

namespace Envelope

open Binary64

/-- The envelope between two x bounds and two y bounds, each given in any order. -/
def ofBounds (x₁ x₂ y₁ y₂ : Float) : Envelope :=
  ⟨lower x₁ x₂, upper x₁ x₂, lower y₁ y₂, upper y₁ y₂⟩

/-- The envelope of a single point. -/
def ofPoint (x y : Float) : Envelope :=
  ⟨x, x, y, y⟩

/-- The envelope of nothing: both axes crossed. -/
def empty : Envelope :=
  ⟨infinity, -infinity, infinity, -infinity⟩

/-- Longitude and latitude: `[-180, 180] × [-90, 90]`. -/
def world : Envelope :=
  ⟨-180.0, 180.0, -90.0, 90.0⟩

instance : Inhabited Envelope := ⟨empty⟩

/-- Whether the bounds are crossed on some axis. -/
def isEmpty (e : Envelope) : Bool :=
  e.maxX < e.minX || e.maxY < e.minY

/-- Whether the envelope is not empty and all its bounds are finite. -/
def isProper (e : Envelope) : Bool :=
  !e.isEmpty && e.minX.isFinite && e.maxX.isFinite && e.minY.isFinite && e.maxY.isFinite

/-- The extent along x, zero if empty. -/
def width (e : Envelope) : Float :=
  if e.isEmpty then 0.0 else e.maxX - e.minX

/-- The extent along y, zero if empty. -/
def height (e : Envelope) : Float :=
  if e.isEmpty then 0.0 else e.maxY - e.minY

def centerX (e : Envelope) : Float :=
  (e.minX + e.maxX) / 2.0

def centerY (e : Envelope) : Float :=
  (e.minY + e.maxY) / 2.0

/-- Whether two envelopes share a point. -/
def meets (a b : Envelope) : Bool :=
  !a.isEmpty && !b.isEmpty &&
    !(a.maxX < b.minX || b.maxX < a.minX || a.maxY < b.minY || b.maxY < a.minY)

/-- Whether a point lies in the envelope. -/
def hasPoint (e : Envelope) (x y : Float) : Bool :=
  !e.isEmpty && e.minX ≤ x && x ≤ e.maxX && e.minY ≤ y && y ≤ e.maxY

/-- Whether `b` lies in `a`; the empty envelope covers nothing and is covered by nothing. -/
def covers (a b : Envelope) : Bool :=
  !a.isEmpty && !b.isEmpty &&
    a.minX ≤ b.minX && b.maxX ≤ a.maxX && a.minY ≤ b.minY && b.maxY ≤ a.maxY

/-- The region that two envelopes share, if they meet. -/
def overlap? (a b : Envelope) : Option Envelope :=
  if a.meets b then
    some ⟨upper a.minX b.minX, lower a.maxX b.maxX, upper a.minY b.minY, lower a.maxY b.maxY⟩
  else none

/-- The envelope widened by `dx` to the left and right and by `dy` below and above. -/
def grow (e : Envelope) (dx dy : Float) : Envelope :=
  if e.isEmpty then e else ⟨e.minX - dx, e.maxX + dx, e.minY - dy, e.maxY + dy⟩

/-- The smallest envelope around two envelopes. -/
def hull (a b : Envelope) : Envelope :=
  if a.isEmpty then b
  else if b.isEmpty then a
  else ⟨lower a.minX b.minX, upper a.maxX b.maxX, lower a.minY b.minY, upper a.maxY b.maxY⟩

/-- The smallest envelope around a list of envelopes. -/
def hullAll (es : List Envelope) : Envelope :=
  es.foldl hull empty

def area (e : Envelope) : Float :=
  e.width * e.height

/-- The squared distance from a point to the nearest point of the envelope. -/
def squaredDistance (e : Envelope) (x y : Float) : Float :=
  let dx := upper (upper (e.minX - x) 0.0) (x - e.maxX)
  let dy := upper (upper (e.minY - y) 0.0) (y - e.maxY)
  dx * dx + dy * dy

end Envelope

end PlanarJoin
