import PlanarJoin.Index.Basic
import PlanarJoin.Matching.Stream

/-!
# Ways of finding matches

All pairs of two lists can be tried, or one list can be streamed against an index of the other.
Each candidate is put to the rule as a left and a right object, whichever side is indexed.

## Main definitions

* `Rule.pairwise`: streams the right objects and tries each with all left ones.
* `Rule.probeRight`, `Rule.probeLeft`: streams one side against an index of the other.
* `Rule.probeBuilt`: builds the index first; `Rule.probeBuilt?` validates its settings before.
-/

namespace PlanarJoin.Rule

variable {α β : Type} [Spatial α] [Spatial β]

/-- A round that is tried when it is asked for. -/
def later {γ : Type} (f : Unit → List γ) : Thunk (List γ) := ⟨f⟩

/-- Streams the right objects and tries each with all left ones. -/
def pairwise (r : Rule) (left : List α) (right : List β) : MatchStream α β :=
  match left, right with
  | [], _ => .nothing (0, 0)
  | _, [] => .nothing (left.length, 0)
  | _, _ =>
    .ofRounds (right.map fun b => later fun _ => left.map fun a => r.try a b) .zero .right
      (left.length, 1)

/-- The rounds of left objects against an index of the right ones. -/
def roundsRight (r : Rule) (left : List α) (right : Index β) : Rounds α β :=
  left.map fun a => later fun _ => (right.query (Spatial.envelope a)).map fun b => r.try a b

/-- The rounds of right objects against an index of the left ones. -/
def roundsLeft (r : Rule) (left : Index α) (right : List β) : Rounds α β :=
  right.map fun b => later fun _ => (left.query (Spatial.envelope b)).map fun a => r.try a b

/-- Streams the left objects against an index of the right ones. -/
def probeRight (r : Rule) (left : List α) (right : Index β) : MatchStream α β :=
  if right.isEmpty || left.isEmpty then .nothing (0, 0)
  else .ofRounds (r.roundsRight left right) .zero .left (1, 0)

/-- Streams the right objects against an index of the left ones. -/
def probeLeft (r : Rule) (left : Index α) (right : List β) : MatchStream α β :=
  if left.isEmpty || right.isEmpty then .nothing (0, 0)
  else .ofRounds (r.roundsLeft left right) .zero .right (0, 1)

/-- Streams one side against an index built of the other.  Nothing is built if either side is empty.
-/
def probeBuilt (r : Rule) (settings : IndexSettings) (side : Side) (left : List α)
    (right : List β) : MatchStream α β :=
  if left.isEmpty then .nothing (0, 0)
  else if right.isEmpty then .nothing (1, 0)
  else
    match side with
    | .left =>
      .ofRounds (r.roundsLeft (.ofList settings left) right)
        { Tally.zero with built := left.length } .right (left.length, 1)
    | .right =>
      .ofRounds (r.roundsRight left (.ofList settings right))
        { Tally.zero with built := right.length } .left (1, right.length)

/-- The same, if the settings of the index are valid. -/
def probeBuilt? (r : Rule) (settings : IndexSettings) (side : Side) (left : List α)
    (right : List β) : Except Failure (MatchStream α β) :=
  settings.validate.map fun _ => r.probeBuilt settings side left right

end PlanarJoin.Rule
