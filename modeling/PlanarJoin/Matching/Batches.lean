/-!
# Batches on demand

A producer makes one batch a call, until it has none.  A stream gives out what the producer makes,
one item at a time or what is left of a batch at once, and holds one batch at most: the producer is
called when that batch is used up.  A producer that had nothing is dropped.

## Main definitions

* `Producer`: what makes batches.
* `BatchStream`: where the producer stands, whether it is still there, and the rest of the batch.
* `BatchStream.pull`: calls the producer.
* `BatchStream.next`, `BatchStream.nextBatch`: one item, or all items of a batch.

## Main results

* `BatchStream.rest_next`, `BatchStream.rest_nextBatch`: what is taken comes from the front of what
  is left.
* `BatchStream.Ended.next`, `BatchStream.Ended.nextBatch`: what holds where a producer had nothing
  holds of every stream that has ended.
-/

namespace PlanarJoin

/-- What makes batches.  A call gives the first item of a batch with its further items, or nothing,
and the state in which the next call finds the producer. -/
abbrev Producer (σ γ : Type) :=
  σ → Option (γ × List γ) × σ

/-- The items of a producer on demand. -/
structure BatchStream (σ γ : Type) where
  /-- The state of the producer. -/
  state : σ
  /-- Whether the producer is still there. -/
  live : Bool
  /-- What is left of the current batch. -/
  batch : List γ

namespace BatchStream

variable {σ γ : Type}

/-- A stream whose producer has not been called. -/
def ofState (st : σ) : BatchStream σ γ :=
  ⟨st, true, []⟩

/-- Calls the producer if it is still there, and drops it if it has nothing. -/
def pull (produce : Producer σ γ) (s : BatchStream σ γ) :
    Option (γ × List γ) × BatchStream σ γ :=
  if s.live then
    match produce s.state with
    | (some b, st) => (some b, { s with state := st })
    | (none, st) => (none, { s with state := st, live := false })
  else (none, s)

/-- One item, and the stream after it. -/
def next (produce : Producer σ γ) (s : BatchStream σ γ) : Option γ × BatchStream σ γ :=
  match s.batch with
  | a :: as => (some a, { s with batch := as })
  | [] =>
    match s.pull produce with
    | (some (a, as), s) => (some a, { s with batch := as })
    | (none, s) => (none, s)

/-- The rest of the batch, or all items of the next one, and the stream after them. -/
def nextBatch (produce : Producer σ γ) (s : BatchStream σ γ) :
    Option (List γ) × BatchStream σ γ :=
  match s.batch with
  | a :: as => (some (a :: as), { s with batch := [] })
  | [] =>
    match s.pull produce with
    | (some (a, as), s) => (some (a :: as), s)
    | (none, s) => (none, s)

/-- If the stream has ended, its producer stands where the condition holds. -/
def Ended (I : σ → Prop) (s : BatchStream σ γ) : Prop :=
  s.live = false → I s.state

/-- Calling the producer leaves the batch as it is. -/
@[simp]
theorem batch_pull (produce : Producer σ γ) (s : BatchStream σ γ) :
    (s.pull produce).2.batch = s.batch := by
  unfold pull
  split
  · split <;> rfl
  · rfl

/-- A producer that gives nothing is dropped. -/
theorem live_of_pull_eq_none {produce : Producer σ γ} {s : BatchStream σ γ}
    (h : (s.pull produce).1 = none) : (s.pull produce).2.live = false := by
  unfold pull at h ⊢
  cases hlive : s.live with
  | false => exact hlive
  | true =>
    rw [hlive] at h
    rcases hst : produce s.state with ⟨_ | b, st⟩
    · rfl
    · rw [hst] at h
      cases h

/-- A stream that gives no item has ended, with nothing left of its batch. -/
theorem ended_of_next_eq_none {produce : Producer σ γ} {s : BatchStream σ γ}
    (h : (s.next produce).1 = none) :
    (s.next produce).2.live = false ∧ (s.next produce).2.batch = [] := by
  unfold next at h ⊢
  split at h
  · cases h
  · next hb =>
    have hlive : (s.pull produce).1 = none → (s.pull produce).2.live = false :=
      live_of_pull_eq_none
    have hbatch := batch_pull produce s
    split at h
    · cases h
    · next hp =>
      rw [hp] at hlive hbatch
      exact ⟨hlive rfl, hbatch.trans hb⟩

section Rest

-- what the producer has still to give, told by its state
variable {produce : Producer σ γ} {rest : σ → List γ}
  (hrest : ∀ st, rest st = ((produce st).1.elim [] fun b => b.1 :: b.2) ++ rest (produce st).2)

include hrest

theorem rest_pull (s : BatchStream σ γ) : rest s.state =
    ((s.pull produce).1.elim [] fun b => b.1 :: b.2) ++ rest (s.pull produce).2.state := by
  have hcall := hrest s.state
  unfold pull
  cases s.live with
  | false => rfl
  | true =>
    rcases hst : produce s.state with ⟨_ | b, st⟩ <;>
      · rw [hst] at hcall
        exact hcall

/-- An item is taken from the front of what is left. -/
theorem rest_next (s : BatchStream σ γ) : s.batch ++ rest s.state =
    (s.next produce).1.toList ++ ((s.next produce).2.batch ++ rest (s.next produce).2.state) := by
  have hpull := rest_pull hrest s
  have hbatch := batch_pull produce s
  unfold next
  cases hb : s.batch with
  | cons a as => rfl
  | nil =>
    -- the batch is used up, so the item is the first that the producer gives
    rw [List.nil_append, hpull]
    rcases hp : s.pull produce with ⟨_ | ⟨a, as⟩, s'⟩
    · rw [hp, hb] at hbatch
      rw [hbatch]
      rfl
    · rfl

/-- A batch is taken from the front of what is left. -/
theorem rest_nextBatch (s : BatchStream σ γ) : s.batch ++ rest s.state =
    (s.nextBatch produce).1.getD [] ++
      ((s.nextBatch produce).2.batch ++ rest (s.nextBatch produce).2.state) := by
  have hpull := rest_pull hrest s
  have hbatch := batch_pull produce s
  unfold nextBatch
  cases hb : s.batch with
  | cons a as => rfl
  | nil =>
    rw [List.nil_append, hpull]
    rcases hp : s.pull produce with ⟨_ | ⟨a, as⟩, s'⟩ <;>
      · rw [hp, hb] at hbatch
        rw [hbatch]
        rfl

end Rest

/-- What a call of the producer does not change, taking an item does not change. -/
theorem next_invariant {τ : Type} {f : σ → τ} {produce : Producer σ γ}
    (hf : ∀ st, f (produce st).2 = f st) (s : BatchStream σ γ) :
    f (s.next produce).2.state = f s.state := by
  have hcall := hf s.state
  have hpull : f (s.pull produce).2.state = f s.state := by
    unfold pull
    split
    · split <;> next hst =>
        rw [hst] at hcall
        exact hcall
    · rfl
  unfold next
  split
  · rfl
  · split <;> next hp =>
      rw [hp] at hpull
      exact hpull

section Ended

variable {I : σ → Prop} {produce : Producer σ γ} {s : BatchStream σ γ}

theorem Ended.pull (hp : ∀ st, (produce st).1 = none → I (produce st).2) (hs : s.Ended I) :
    (s.pull produce).2.Ended I := by
  have hcall := hp s.state
  unfold BatchStream.pull
  split
  · next hlive =>
    split
    · exact fun h => absurd (hlive.symm.trans h) nofun
    · next st hst =>
      rw [hst] at hcall
      exact fun _ => hcall rfl
  · exact hs

/-- Taking an item ends a stream only where the producer had nothing. -/
theorem Ended.next (hp : ∀ st, (produce st).1 = none → I (produce st).2) (hs : s.Ended I) :
    (s.next produce).2.Ended I := by
  have hpull := hs.pull hp
  unfold BatchStream.next
  split
  · exact hs
  · split <;> next heq =>
      rw [heq] at hpull
      exact hpull

/-- Taking a batch ends a stream only where the producer had nothing. -/
theorem Ended.nextBatch (hp : ∀ st, (produce st).1 = none → I (produce st).2) (hs : s.Ended I) :
    (s.nextBatch produce).2.Ended I := by
  have hpull := hs.pull hp
  unfold BatchStream.nextBatch
  split
  · exact hs
  · split <;> next heq =>
      rw [heq] at hpull
      exact hpull

end Ended

end BatchStream

end PlanarJoin
