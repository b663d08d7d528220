/-!
# Crews

Units of work done by several workers.  Each worker claims the next number from a shared counter,
does that unit, and claims again, until it finds that the numbers have run out.  Only the claims
are ordered by the counter: between a worker's claim and its work the others may claim and work as
they like.  A schedule says who makes the next step.

## Main definitions

* `Worker`, `Crew`: what each worker has done and does next, and the counter they share.
* `Crew.step`: one worker makes its next step.
* `Crew.run`: the workers make their steps in the order of a schedule.
* `Crew.results`: all results in the order of the units.
* `inParallel`: the results of a crew whose workers take turns.
-/

namespace PlanarJoin

/-- What a worker does next. -/
inductive Phase where
  /-- It claims a unit. -/
  | claiming
  /-- It does the unit that it has claimed. -/
  | holding (unit : Nat)
  /-- Nothing, since it has found the counter run out. -/
  | finished
deriving DecidableEq, Repr

/-- A worker, with the units that it has done and their results. -/
structure Worker (ρ : Type) where
  phase : Phase
  done : List (Nat × ρ)

/-- Workers and the counter that they share. -/
structure Crew (ρ : Type) where
  next : Nat
  workers : List (Worker ρ)

namespace Worker

variable {ρ : Type}

/-- A worker that has done nothing. -/
def fresh : Worker ρ := ⟨.claiming, []⟩

def isFinished (w : Worker ρ) : Bool := w.phase = .finished

end Worker

namespace Crew

variable {ρ : Type}

/-- A crew that has done nothing. -/
def ofWorkers (workers : Nat) : Crew ρ :=
  ⟨0, List.replicate workers .fresh⟩

/-- A worker makes its next step: it claims the next number, and later does that unit if there is
one. -/
def step (units : Nat) (work : Nat → ρ) (c : Crew ρ) (worker : Nat) : Crew ρ :=
  match c.workers[worker]? with
  | none => c
  | some ⟨.claiming, done⟩ =>
    -- the counter goes up even if there is no unit left
    let phase := if c.next < units then .holding c.next else .finished
    ⟨c.next + 1, c.workers.set worker ⟨phase, done⟩⟩
  | some ⟨.holding unit, done⟩ =>
    ⟨c.next, c.workers.set worker ⟨.claiming, done ++ [(unit, work unit)]⟩⟩
  | some ⟨.finished, _⟩ => c

/-- The workers make their steps in the order of a schedule. -/
def run (units : Nat) (work : Nat → ρ) (workers : Nat) (schedule : List Nat) : Crew ρ :=
  schedule.foldl (step units work) (ofWorkers workers)

/-- Every worker has found the counter run out. -/
def isFinished (c : Crew ρ) : Bool :=
  c.workers.all Worker.isFinished

/-- What all workers have done. -/
def gathered (c : Crew ρ) : List (Nat × ρ) :=
  c.workers.flatMap Worker.done

/-- The results in the order of the units. -/
def results (units : Nat) (c : Crew ρ) : List ρ :=
  let slots := c.gathered.foldl (fun slots (i, r) => slots.set i (some r))
    (List.replicate units none)
  slots.filterMap id

end Crew

/-- The workers take turns, often enough for each to find the counter run out. -/
def turns (units workers : Nat) : List Nat :=
  (List.replicate (2 * units + workers) (List.range workers)).flatten

/-- The results of units of work done by some workers. -/
def inParallel {ρ : Type} (workers units : Nat) (work : Nat → ρ) : List ρ :=
  (Crew.run units work workers (turns units workers)).results units

end PlanarJoin
