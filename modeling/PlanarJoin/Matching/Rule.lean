import PlanarJoin.Object.Relation
import PlanarJoin.Tiling.Ownership

/-!
# Matching rules

What decides on a pair: the ownership of the partition first, if there is one, then the relation.

## Main definitions

* `Verdict`: what becomes of a pair.
* `Rule`: a relation with an ownership; `Rule.judge` gives the verdict on a pair.
* `Trial`: a pair with its verdict.
* `Tally`: what is counted in a join.
-/

namespace PlanarJoin

/-- What becomes of a pair. -/
inductive Verdict where
  | matched
  | unmatched
  /-- The pair belongs to another partition, and is not looked at. -/
  | foreign
  /-- The relation cannot be decided. -/
  | skipped (reason : Failure)

/-- A relation, restricted to the pairs that a partition owns. -/
structure Rule where
  relation : Relation
  ownership : Option Ownership

/-- Whether the rule leaves a pair with these envelopes to its partition. -/
def Rule.owns (r : Rule) (a b : Envelope) : Bool :=
  match r.ownership with
  | some o => o.ownsPair a b
  | none => true

/-- The verdict on a pair. -/
def Rule.judge {α β : Type} [Spatial α] [Spatial β] (r : Rule) (a : α) (b : β) : Verdict :=
  if r.owns (Spatial.envelope a) (Spatial.envelope b) then
    match r.relation.holds a b with
    | .ok true => .matched
    | .ok false => .unmatched
    | .error f => .skipped f
  else .foreign

/-- A pair with its verdict. -/
structure Trial (α β : Type) where
  left : α
  right : β
  verdict : Verdict

namespace Trial

variable {α β : Type}

/-- The pair, if it matches. -/
def match? (t : Trial α β) : Option (α × β) :=
  match t.verdict with
  | .matched => some (t.left, t.right)
  | _ => none

/-- Why the pair was skipped, if it was. -/
def skip? (t : Trial α β) : Option Failure :=
  match t.verdict with
  | .skipped f => some f
  | _ => none

end Trial

/-- A pair put to a rule. -/
def Rule.try {α β : Type} [Spatial α] [Spatial β] (r : Rule) (a : α) (b : β) : Trial α β :=
  ⟨a, b, r.judge a b⟩

/-- What is counted in a join. -/
structure Tally where
  /-- Objects put into an index that was built for the join. -/
  built : Nat
  /-- Objects streamed. -/
  streamed : Nat
  /-- Pairs put to the rule. -/
  candidates : Nat
  /-- Pairs that match. -/
  results : Nat
  /-- Pairs that could not be decided. -/
  skipped : Nat
deriving DecidableEq, Repr

namespace Tally

def zero : Tally := ⟨0, 0, 0, 0, 0⟩

def add (s t : Tally) : Tally :=
  ⟨s.built + t.built, s.streamed + t.streamed, s.candidates + t.candidates,
    s.results + t.results, s.skipped + t.skipped⟩

/-- Counts one streamed object with its trials. -/
def afterRound {α β : Type} (t : Tally) (trials : List (Trial α β)) : Tally :=
  { t with
    streamed := t.streamed + 1
    candidates := t.candidates + trials.length
    results := t.results + (trials.filterMap Trial.match?).length
    skipped := t.skipped + (trials.filterMap Trial.skip?).length }

end Tally

end PlanarJoin
