import PlanarJoin.Object.Basic

/-!
# Trees of quadrants

A box is cut into quadrants where many items gather.  An item is held by the deepest quadrant that
covers it; one that crosses a border stays above, and one that reaches outside the whole box stays
at the root.

## Main definitions

* `Quadrant`: a box with the items it holds, and perhaps its four quadrants.
* `Quadrant.place`: hands an item to the first quadrant that covers it, or holds it here.
* `Quadrant.insert`: adds an item, cutting a box that holds too many.
* `Quadrant.search`: the held items that meet an envelope.
-/

namespace PlanarJoin

/-- A box with the items it holds; it may be cut into its upper left, upper right, lower left and
lower right quadrant. -/
inductive Quadrant (α : Type) where
  | whole (bounds : Envelope) (held : List α)
  | cut (bounds : Envelope) (held : List α) (ul ur ll lr : Quadrant α)

namespace Quadrant

variable {α : Type}

/-- How many items a box holds before it is cut. -/
def threshold : Nat := 16

/-- How many times a box is cut at most. -/
def maxCuts : Nat := 16

def bounds : Quadrant α → Envelope
  | whole b _ => b
  | cut b _ _ _ _ _ => b

/-- The items held at the top. -/
def held : Quadrant α → List α
  | whole _ as => as
  | cut _ as _ _ _ _ => as

/-- Holds an item at the top. -/
def hold : Quadrant α → α → Quadrant α
  | whole b as, a => whole b (as ++ [a])
  | cut b as ul ur ll lr, a => cut b (as ++ [a]) ul ur ll lr

/-- A box cut into four empty quadrants, holding nothing itself. -/
def quarter (b : Envelope) : Quadrant α :=
  let x := b.centerX
  let y := b.centerY
  cut b [] (whole (.ofBounds b.minX x y b.maxY) []) (whole (.ofBounds x b.maxX y b.maxY) [])
    (whole (.ofBounds b.minX x b.minY y) []) (whole (.ofBounds x b.maxX b.minY y) [])

/-- Whether the box covers an item. -/
def covers [Spatial α] (q : Quadrant α) (a : α) : Bool :=
  q.bounds.covers (Spatial.envelope a)

/-- Hands an item to the first quadrant that covers it, by way of `insert`; holds it if none does.
-/
def place [Spatial α] (insert : Quadrant α → α → Quadrant α) (q : Quadrant α) (a : α) :
    Quadrant α :=
  match q with
  | whole b as => whole b (as ++ [a])
  | cut b as ul ur ll lr =>
    if ul.covers a then cut b as (insert ul a) ur ll lr
    else if ur.covers a then cut b as ul (insert ur a) ll lr
    else if ll.covers a then cut b as ul ur (insert ll a) lr
    else if lr.covers a then cut b as ul ur ll (insert lr a)
    else cut b (as ++ [a]) ul ur ll lr

/-- Adds an item to a box that may be cut `cuts` more times.  A box that holds more than the
threshold is cut and its items are placed anew. -/
def insert [Spatial α] : (cuts : Nat) → Quadrant α → α → Quadrant α
  | 0, q, a => q.hold a
  | cuts + 1, whole b as, a =>
    if threshold < as.length + 1 then (as ++ [a]).foldl (place (insert cuts)) (quarter b)
    else whole b (as ++ [a])
  | cuts + 1, q, a => place (insert cuts) q a

/-- Adds an item to the box of a whole tree; one that the box does not cover is held at the top. -/
def add [Spatial α] (q : Quadrant α) (a : α) : Quadrant α :=
  if q.covers a then insert maxCuts q a else q.hold a

/-- The items that meet an envelope: those held at the top, then those of the quadrants that meet
it. -/
def search [Spatial α] (e : Envelope) : Quadrant α → List α
  | whole _ as => as.filter (touches e)
  | cut _ as ul ur ll lr =>
    as.filter (touches e) ++
      ((if ul.bounds.meets e then search e ul else []) ++
        ((if ur.bounds.meets e then search e ur else []) ++
          ((if ll.bounds.meets e then search e ll else []) ++
            (if lr.bounds.meets e then search e lr else []))))

/-- The number of boxes. -/
def count : Quadrant α → Nat
  | whole _ _ => 1
  | cut _ _ ul ur ll lr => 1 + (ul.count + ur.count + ll.count + lr.count)

def height : Quadrant α → Nat
  | whole _ _ => 1
  | cut _ _ ul ur ll lr => 1 + max (max ul.height ur.height) (max ll.height lr.height)

end Quadrant

end PlanarJoin
