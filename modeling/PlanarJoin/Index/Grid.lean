import PlanarJoin.Index.Buckets
import PlanarJoin.Object.Basic

/-!
# Grids of buckets

An item stands in every bucket that its envelope reaches, and is found from any of them.  This suits
points and small shapes.

## Main definitions

* `Grid`: a layout with its buckets.
* `Grid.insert`, `Grid.query`.
-/

namespace PlanarJoin

/-- A layout with its buckets. -/
structure Grid (α : Type) where
  layout : Layout
  buckets : Buckets α

namespace Grid

variable {α : Type}

def ofLayout (l : Layout) : Grid α := ⟨l, .empty⟩

/-- Puts an item into every bucket that its envelope reaches. -/
def insert [Spatial α] (g : Grid α) (e : Entry α) : Grid α :=
  { g with buckets := g.buckets.putAll e (g.layout.keysOf (Spatial.envelope e.item)) }

/-- The items in the buckets that an envelope reaches, in order of arrival. -/
def query (g : Grid α) (e : Envelope) : List α :=
  (inOrder (g.buckets.reached g.layout e)).map (·.item)

end Grid

end PlanarJoin
