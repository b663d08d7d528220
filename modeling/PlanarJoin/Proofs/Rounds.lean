import Mathlib.Data.Nat.Find
import Mathlib.Logic.Function.Iterate
import Mathlib.Order.Bounds.Basic

/-!
# Rounds of a loop

A loop goes on from state to state until one ends it.  A definition that carries a bound on the
rounds makes the same ones within any bound that is not less than the first number that ends it.

## Main definitions

* `rounds`: the states of a loop, up to the first that ends it.

## Main results

* `getLast?_rounds`: a loop stops at a state that ends it, or when the bound is reached.
* `exists_rounds`: a loop that ends somewhere has the same rounds within any bound that is not less.
-/

namespace PlanarJoin

variable {σ : Type} (ends : σ → Bool) (next : σ → σ)

/-- The states of a loop, up to the first that ends it; `fuel` bounds the number of rounds. -/
def rounds : (fuel : Nat) → σ → List σ
  | 0, x => [x]
  | fuel + 1, x => if ends x then [x] else x :: rounds fuel (next x)

/-- A loop stops at a state that ends it, or when the bound is reached. -/
theorem getLast?_rounds (fuel : Nat) (x : σ) :
    ∃ n, (rounds ends next fuel x).getLast? = some (next^[n] x) ∧
      (ends (next^[n] x) = true ∨ n = fuel) := by
  induction fuel generalizing x with
  | zero => exact ⟨0, rfl, .inr rfl⟩
  | succ fuel ih =>
    rw [rounds]
    cases hx : ends x with
    | true => exact ⟨0, rfl, .inl hx⟩
    | false =>
      obtain ⟨n, hlast, hn⟩ := ih (next x)
      refine ⟨n + 1, ?_, hn.imp id (congrArg (· + 1))⟩
      rw [if_neg Bool.false_ne_true, List.getLast?_cons, hlast]
      rfl

variable {ends next} in
/-- Within any bound that is not less the rounds are those up to the first that ends the loop. -/
theorem rounds_eq {x : σ} {n : Nat} (hn : IsLeast {m | ends (next^[m] x) = true} n) {fuel : Nat}
    (hfuel : n ≤ fuel) :
    rounds ends next fuel x = (List.range (n + 1)).map fun m => next^[m] x := by
  induction fuel generalizing x n with
  | zero =>
    obtain rfl := Nat.le_zero.mp hfuel
    rfl
  | succ fuel ih =>
    obtain ⟨hend, hleast⟩ := hn
    cases n with
    | zero =>
      rw [rounds, if_pos (show ends x = true from hend)]
      rfl
    | succ n =>
      have hgo : ¬ ends x = true := fun h => absurd (hleast (show 0 ∈ _ from h)) (by omega)
      have hnext : IsLeast {m | ends (next^[m] (next x)) = true} n :=
        ⟨hend, fun m hm => Nat.le_of_succ_le_succ (hleast (show m + 1 ∈ _ from hm))⟩
      rw [rounds, if_neg hgo, ih hnext (Nat.le_of_succ_le_succ hfuel),
        List.range_succ_eq_map (n := n + 1), List.map_cons, List.map_map]
      rfl

/-- A loop that some number of rounds ends has a first such number. -/
theorem exists_rounds {x : σ} {b : Nat} (hb : ends (next^[b] x) = true) :
    ∃ n, IsLeast {m | ends (next^[m] x) = true} n ∧ ∀ fuel, n ≤ fuel →
      rounds ends next fuel x = (List.range (n + 1)).map fun m => next^[m] x := by
  have hex : ∃ m, ends (next^[m] x) = true := ⟨b, hb⟩
  have hleast : IsLeast {m | ends (next^[m] x) = true} (Nat.find hex) :=
    ⟨Nat.find_spec hex, fun m hm => Nat.find_min' hex hm⟩
  exact ⟨Nat.find hex, hleast, fun fuel => rounds_eq hleast⟩

end PlanarJoin
