import PlanarJoin.Failure
import PlanarJoin.Geometry.Basic

/-!
# Spatial objects

What can be indexed, joined and ranked: anything with an envelope and a shape.  A feature is a
geometry with an identifier; a disc holds everything within a radius of another object.

## Main definitions

* `Shape`: a geometry, or a disc around a geometry.
* `Spatial`: the class of types with an envelope and a shape.
* `touches`: whether the envelope of an object meets another.
* `Feature`, `Disc`: the two kinds of object.
* `Item`: a feature, a disc around one, or a disc around that.
-/

namespace PlanarJoin

/-- What the exact tests look at. -/
inductive Shape where
  | plain (geometry : Geometry)
  | disc (center : Geometry) (radius : Float)

/-- Things with an envelope and an exact shape. -/
class Spatial (α : Type) where
  envelope : α → Envelope
  shape : α → Shape

/-- Whether the envelope of an object meets another. -/
def touches {α : Type} [Spatial α] (e : Envelope) (a : α) : Bool :=
  (Spatial.envelope a).meets e

instance : Spatial Geometry where
  envelope := Geometry.envelope
  shape := .plain

/-- A geometry with an identifier. -/
structure Feature (ι : Type) where
  id : ι
  geometry : Geometry

namespace Feature

variable {ι : Type}

/-- Features are told apart by their identifiers alone. -/
instance [BEq ι] : BEq (Feature ι) := ⟨fun a b => a.id == b.id⟩

instance : Spatial (Feature ι) where
  envelope a := a.geometry.envelope
  shape a := .plain a.geometry

end Feature

/-- Whether a disc may have this radius. -/
def usableRadius (r : Float) : Bool :=
  r.isFinite && !(r < 0.0)

/-- Everything within a radius of a center. -/
structure Disc (α : Type) where
  center : α
  radius : Float
  usable : usableRadius radius = true

namespace Disc

variable {α : Type}

/-- The disc around a center, if the radius is finite and not negative. -/
def make (center : α) (radius : Float) : Except Failure (Disc α) :=
  if h : usableRadius radius = true then .ok ⟨center, radius, h⟩
  else .error (.unusableRadius radius)

/-- Discs are equal when their centers are and their radii have the same bits. -/
instance [BEq α] : BEq (Disc α) :=
  ⟨fun a b => a.center == b.center && a.radius.toBits == b.radius.toBits⟩

/-- A disc reaches as far as its center and its radius together. -/
instance [Spatial α] : Spatial (Disc α) where
  envelope a := (Spatial.envelope a.center).grow a.radius a.radius
  shape a :=
    match Spatial.shape a.center with
    | .plain g => .disc g a.radius
    | .disc g r => .disc g (r + a.radius)

end Disc

/-- A feature, a disc around one, or a disc around that. -/
inductive Item (ι : Type) where
  | feature (f : Feature ι)
  | disc (d : Disc (Feature ι))
  | nested (d : Disc (Disc (Feature ι)))

namespace Item

variable {ι : Type}

/-- The identifier of the feature inside. -/
def id : Item ι → ι
  | feature f => f.id
  | disc d => d.center.id
  | nested d => d.center.center.id

/-- Items of different kinds are never equal. -/
instance [BEq ι] : BEq (Item ι) where
  beq
    | feature a, feature b => a == b
    | disc a, disc b => a == b
    | nested a, nested b => a == b
    | _, _ => false

instance : Spatial (Item ι) where
  envelope
    | feature a => Spatial.envelope a
    | disc a => Spatial.envelope a
    | nested a => Spatial.envelope a
  shape
    | feature a => Spatial.shape a
    | disc a => Spatial.shape a
    | nested a => Spatial.shape a

end Item

end PlanarJoin
