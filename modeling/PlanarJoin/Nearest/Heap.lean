/-!
# Heaps of ranked items

A binary heap in an array, with the greatest distance on top.  Which of several items at the same
distance is displaced depends on how the heap moves its entries, so the moves are part of its
definition: a new entry rises while it is strictly farther than its parent; a gap at the top sinks
all the way down, the farther child rising, the right one if they are equal, and what fills it rises
again.

## Main definitions

* `Ranked`: an item with its distance.
* `Heap`: the array.
* `Heap.push`, `Heap.pop?`: adds an entry, takes the top entry away.
* `Heap.ascending`: all entries, the nearest first.

## Main results

* `Heap.push_perm`, `Heap.pop?_perm`: the moves neither lose nor repeat an entry.
-/

namespace PlanarJoin

/-- An item with its distance. -/
structure Ranked (α : Type) where
  distance : Float
  item : α

/-- A binary heap; the children of entry `i` are `2 * i + 1` and `2 * i + 2`. -/
structure Heap (α : Type) where
  entries : Array (Ranked α)

namespace Heap

variable {α : Type}

def empty : Heap α := ⟨#[]⟩

def size (h : Heap α) : Nat :=
  h.entries.size

/-- The entry on top. -/
def top? (h : Heap α) : Option (Ranked α) :=
  h.entries[0]?

/-- The distance at a position. -/
def distanceAt (es : Array (Ranked α)) (i : Nat) : Float :=
  match es[i]? with
  | some e => e.distance
  | none => 0.0

theorem swapIfInBounds_perm (es : Array (Ranked α)) (i j : Nat) :
    (es.swapIfInBounds i j).Perm es := by
  rw [Array.swapIfInBounds_def]
  split
  · split
    · exact Array.swap_perm _ _
    · exact .refl es
  · exact .refl es

/-- Lets the entry at `i` rise while it is strictly farther than its parent. -/
def rise (es : Array (Ranked α)) (i : Nat) : Array (Ranked α) :=
  if _ : 0 < i then
    let parent := (i - 1) / 2
    if distanceAt es parent < distanceAt es i then rise (es.swapIfInBounds i parent) parent else es
  else es
termination_by i
decreasing_by omega

/-- Rising rearranges the entries. -/
theorem rise_perm (es : Array (Ranked α)) (i : Nat) : (rise es i).Perm es := by
  fun_induction rise es i with
  | case1 es i _ parent _ ih => exact ih.trans (swapIfInBounds_perm es i parent)
  | case2 => exact .refl _
  | case3 => exact .refl _

/-- Lets the entry at `i` sink to the bottom, the farther child rising in its place; gives the
position where it ends. -/
def sink (es : Array (Ranked α)) (i : Nat) : Array (Ranked α) × Nat :=
  let left := 2 * i + 1
  if _ : left + 1 < es.size then
    let child := if distanceAt es left ≤ distanceAt es (left + 1) then left + 1 else left
    sink (es.swapIfInBounds i child) child
  else if left + 1 = es.size then (es.swapIfInBounds i left, left)
  else (es, i)
termination_by es.size - i
decreasing_by
  simp only [Array.size_swapIfInBounds]
  split <;> omega

/-- Sinking rearranges the entries. -/
theorem sink_perm (es : Array (Ranked α)) (i : Nat) : (sink es i).1.Perm es := by
  fun_induction sink es i with
  | case1 es i left _ child ih => exact ih.trans (swapIfInBounds_perm es i child)
  | case2 es i left => exact swapIfInBounds_perm es i left
  | case3 => exact .refl _

def push (h : Heap α) (e : Ranked α) : Heap α :=
  ⟨rise (h.entries.push e) h.entries.size⟩

/-- Adding an entry adds just this entry. -/
theorem push_perm (h : Heap α) (e : Ranked α) :
    (h.push e).entries.toList.Perm (e :: h.entries.toList) := by
  refine (rise_perm _ _).toList.trans ?_
  rw [Array.toList_push]
  exact List.perm_append_singleton e _

/-- Takes the top entry away: the last entry fills its place, sinks to the bottom and rises again.
-/
def pop? (h : Heap α) : Option (Ranked α × Heap α) :=
  match h.entries.back? with
  | none => none
  | some last =>
    let rest := h.entries.pop
    match rest[0]? with
    | none => some (last, ⟨rest⟩)
    | some top =>
      let (es, i) := sink (rest.setIfInBounds 0 last) 0
      some (top, ⟨rise es i⟩)

theorem pop?_eq_none_iff (h : Heap α) : h.pop? = none ↔ h.size = 0 := by
  unfold pop?
  split
  · next hb => simp only [size, Array.size_eq_zero_iff, Array.back?_eq_none_iff.mp hb]
  · next last hb =>
    constructor
    · intro hp
      dsimp only at hp
      split at hp <;> simp at hp
    · intro hs
      have : h.entries = #[] := Array.eq_empty_of_size_eq_zero hs
      simp [this] at hb

/-- Taking the top entry away takes just this entry away. -/
theorem pop?_perm {h rest : Heap α} {e : Ranked α} (hp : h.pop? = some (e, rest)) :
    (e :: rest.entries.toList).Perm h.entries.toList := by
  unfold pop? at hp
  split at hp
  · simp at hp
  · next last hb =>
    -- the entries are the rest and the last one
    have hlist : h.entries.toList = h.entries.toList.dropLast ++ [last] := by
      rw [Array.back?_eq_getElem?] at hb
      obtain ⟨hlt, hlast⟩ := Array.getElem?_eq_some_iff.mp hb
      have hne : h.entries.toList ≠ [] := by
        intro hn
        have := congrArg List.length hn
        simp at this
        simp [this] at hlt
      have := List.dropLast_concat_getLast hne
      rw [List.getLast_eq_getElem] at this
      simpa [hlast] using this.symm
    dsimp only at hp
    split at hp
    · next ht =>
      -- nothing is left: the last entry was the top
      simp only [Option.some.injEq, Prod.mk.injEq] at hp
      obtain ⟨rfl, rfl⟩ := hp
      rw [hlist, Array.toList_pop]
      exact (List.perm_append_singleton _ _).symm
    · next top ht =>
      -- the last entry takes the place of the top; the moves after that only rearrange
      simp only [Option.some.injEq, Prod.mk.injEq] at hp
      obtain ⟨rfl, rfl⟩ := hp
      refine ((List.Perm.cons _ ((rise_perm _ _).toList.trans (sink_perm _ _).toList))).trans ?_
      rw [hlist, ← Array.toList_pop]
      rw [Array.toList_setIfInBounds]
      have ht := Array.getElem?_toList.trans ht
      rcases hl : h.entries.pop.toList with _ | ⟨x, xs⟩
      · rw [hl] at ht
        simp at ht
      · rw [hl] at ht
        simp only [List.getElem?_cons_zero, Option.some.injEq] at ht
        subst ht
        rw [List.set_cons_zero]
        exact List.Perm.cons _ (List.perm_append_singleton _ _).symm

/-- The heap without its top entry. -/
def pop (h : Heap α) : Heap α :=
  match h.pop? with
  | some (_, rest) => rest
  | none => h

/-- The entries as they are popped, the farthest first; `fuel` bounds their number. -/
def popAll : (fuel : Nat) → Heap α → List (Ranked α)
  | 0, _ => []
  | fuel + 1, h =>
    match h.pop? with
    | none => []
    | some (e, rest) => e :: popAll fuel rest

/-- All entries, the nearest first. -/
def ascending (h : Heap α) : List (Ranked α) :=
  (popAll h.size h).reverse

end Heap

end PlanarJoin
