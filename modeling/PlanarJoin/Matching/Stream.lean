import PlanarJoin.Matching.Batches
import PlanarJoin.Matching.Rule
import PlanarJoin.Settings.Basic

/-!
# Streams of matches

The matches of a join, found on demand.  One input is streamed: each of its objects makes a round of
trials, and the matches of a round come as a batch.  Rounds without a match are passed over.

## Main definitions

* `MatchStream`: the rounds still to come with what was counted, and the rest of the current batch.
* `MatchStream.next`, `MatchStream.nextBatch`: one pair, or all pairs of a batch.
* `MatchStream.collect`, `MatchStream.drain`: asks for pairs until none is given; the pairs, and the
  final tally.
* `MatchStream.pulled`: how many objects have been taken out of either input.

## Main results

* `MatchStream.remaining_next`, `MatchStream.remaining_nextBatch`: a stream gives what remains, in
  order.
* `MatchStream.remaining_of_next_eq_none`: a stream that gives no pair has none left.
* `MatchStream.drain_eq`: a stream that is drained gives just what remains, and has then counted all
  its rounds.
-/

namespace PlanarJoin

/-- Rounds of trials, one for each object that is still to be streamed. -/
abbrev Rounds (α β : Type) :=
  List (Thunk (List (Trial α β)))

/-- Counts some streamed objects with their trials, one after the other. -/
def Tally.afterRounds {α β : Type} (t : Tally) (rs : Rounds α β) : Tally :=
  rs.foldl (fun t r => t.afterRound r.get) t

/-- Matches on demand.  The producer of their batches stands before the rounds still to come, with
the tally of those that are over. -/
structure MatchStream (α β : Type) extends BatchStream (Rounds α β × Tally) (α × β) where
  /-- The input that is streamed. -/
  streamed : Side
  /-- How many objects were taken out of the left and the right input before the first round. -/
  opened : Nat × Nat
  /-- A stream ends when no round is left. -/
  ended : toBatchStream.Ended fun st => st.1 = []

namespace MatchStream

variable {α β : Type}

/-- A stream without rounds. -/
def nothing (opened : Nat × Nat) : MatchStream α β :=
  ⟨⟨([], .zero), false, []⟩, .left, opened, fun _ => rfl⟩

/-- A stream before its first round. -/
def ofRounds (rounds : Rounds α β) (tally : Tally) (streamed : Side) (opened : Nat × Nat) :
    MatchStream α β :=
  ⟨.ofState (rounds, tally), streamed, opened, nofun⟩

/-- The rounds still to come. -/
def rounds (s : MatchStream α β) : Rounds α β :=
  s.state.1

/-- What was counted in the rounds that are over. -/
def tally (s : MatchStream α β) : Tally :=
  s.state.2

/-- All pairs that remain. -/
def remaining (s : MatchStream α β) : List (α × β) :=
  s.batch ++ s.rounds.flatMap fun r => r.get.filterMap Trial.match?

/-- Before the first round, the matches of all rounds remain. -/
theorem remaining_ofRounds (rounds : Rounds α β) (tally : Tally) (streamed : Side)
    (opened : Nat × Nat) : (ofRounds rounds tally streamed opened).remaining =
      rounds.flatMap fun r => r.get.filterMap Trial.match? := rfl

/-- The matches of the next round that has any, with the rounds after it and the tally so far. -/
def draw : Rounds α β → Tally → Option ((α × β) × List (α × β)) × Rounds α β × Tally
  | [], t => (none, [], t)
  | r :: rs, t =>
    match r.get.filterMap Trial.match? with
    | [] => draw rs (t.afterRound r.get)
    | p :: ps => (some (p, ps), rs, t.afterRound r.get)

/-- What is drawn is the next batch of pairs that remain. -/
theorem draw_pairs (rs : Rounds α β) (t : Tally) :
    rs.flatMap (fun r => r.get.filterMap Trial.match?) =
      ((draw rs t).1.elim [] fun b => b.1 :: b.2) ++
        (draw rs t).2.1.flatMap fun r => r.get.filterMap Trial.match? := by
  fun_induction draw rs t with
  | case1 => rfl
  | case2 t r rs h ih => rw [List.flatMap_cons, h, List.nil_append, ih]
  | case3 t r rs p ps h =>
    rw [List.flatMap_cons, h]
    rfl

/-- If nothing can be drawn, no round is left. -/
theorem rounds_of_draw_eq_none {rs : Rounds α β} {t : Tally} (h : (draw rs t).1 = none) :
    (draw rs t).2.1 = [] := by
  fun_induction draw rs t with
  | case1 => rfl
  | case2 t r rs _ ih => exact ih h
  | case3 => cases h

/-- The producer of the batches of a stream. -/
def produce : Producer (Rounds α β × Tally) (α × β) :=
  fun (rs, t) => draw rs t

/-- One pair, and the stream after it. -/
def next (s : MatchStream α β) : Option (α × β) × MatchStream α β :=
  let taken := s.toBatchStream.next produce
  (taken.1, { s with
    toBatchStream := taken.2
    ended := s.ended.next fun _ => rounds_of_draw_eq_none })

/-- The rest of the batch, or all pairs of the next one, and the stream after them. -/
def nextBatch (s : MatchStream α β) : Option (List (α × β)) × MatchStream α β :=
  let taken := s.toBatchStream.nextBatch produce
  (taken.1, { s with
    toBatchStream := taken.2
    ended := s.ended.nextBatch fun _ => rounds_of_draw_eq_none })

/-- A stream gives one pair after the other. -/
theorem remaining_next (s : MatchStream α β) :
    s.remaining = s.next.1.toList ++ s.next.2.remaining :=
  BatchStream.rest_next (fun st => draw_pairs st.1 st.2) s.toBatchStream

/-- A stream gives one batch after the other. -/
theorem remaining_nextBatch (s : MatchStream α β) :
    s.remaining = s.nextBatch.1.getD [] ++ s.nextBatch.2.remaining :=
  BatchStream.rest_nextBatch (fun st => draw_pairs st.1 st.2) s.toBatchStream

/-- A stream that gives no pair has none left. -/
theorem remaining_of_next_eq_none {s : MatchStream α β} (h : s.next.1 = none) :
    s.remaining = [] := by
  obtain ⟨hlive, hbatch⟩ : s.next.2.live = false ∧ s.next.2.batch = [] :=
    BatchStream.ended_of_next_eq_none h
  rw [remaining_next, h, remaining, hbatch, rounds, s.next.2.ended hlive]
  rfl

/-- After a pair is given, fewer remain. -/
theorem length_remaining_next {s later : MatchStream α β} {p : α × β}
    (h : s.next = (some p, later)) : later.remaining.length < s.remaining.length := by
  rw [remaining_next s, h]
  exact Nat.lt_succ_self _

/-- The pairs that are given until none is, and the stream after that. -/
def collect (s : MatchStream α β) : List (α × β) × MatchStream α β :=
  match _ : s.next with
  | (some p, later) =>
    let rest := later.collect
    (p :: rest.1, rest.2)
  | (none, ended) => ([], ended)
termination_by s.remaining.length
decreasing_by exact length_remaining_next ‹_›

/-- The stream with everything taken out of it. -/
def exhausted (s : MatchStream α β) : MatchStream α β :=
  s.collect.2

/-- All pairs that are given, and the final tally. -/
def drain (s : MatchStream α β) : List (α × β) × Tally :=
  let collected := s.collect
  (collected.1, collected.2.tally)

/-- Asking until no pair is given gives what remains. -/
theorem collect_fst (s : MatchStream α β) : s.collect.1 = s.remaining := by
  fun_induction collect s with
  | case1 s p later h rest ih =>
    rw [remaining_next s, h]
    exact congrArg (p :: ·) ih
  | case2 s ended h => exact (remaining_of_next_eq_none (by rw [h])).symm

/-- Drawing a batch leaves the rest of the rounds to be counted. -/
theorem draw_afterRounds (rs : Rounds α β) (t : Tally) :
    (draw rs t).2.2.afterRounds (draw rs t).2.1 = t.afterRounds rs := by
  fun_induction draw rs t with
  | case1 => rfl
  | case2 t r rs _ ih => exact ih
  | case3 => rfl

/-- Taking a pair leaves the rest of the rounds to be counted. -/
theorem next_afterRounds (s : MatchStream α β) :
    s.next.2.tally.afterRounds s.next.2.rounds = s.tally.afterRounds s.rounds :=
  BatchStream.next_invariant (f := fun st => st.2.afterRounds st.1)
    (fun st => draw_afterRounds st.1 st.2) s.toBatchStream

/-- When no pair is given any more, all rounds are counted. -/
theorem tally_exhausted (s : MatchStream α β) :
    s.exhausted.tally = s.tally.afterRounds s.rounds := by
  unfold exhausted
  fun_induction collect s with
  | case1 s p later h rest ih =>
    rw [← next_afterRounds s, h]
    exact ih
  | case2 s ended h =>
    have hnone : s.next.1 = none := by rw [h]
    have hend : s.next.2.live = false := (BatchStream.ended_of_next_eq_none hnone).1
    rw [← next_afterRounds s, rounds, s.next.2.ended hend, h]
    rfl

/-- A stream that is drained gives just what remains, and has then counted all its rounds. -/
theorem drain_eq (s : MatchStream α β) :
    s.drain = (s.remaining, s.tally.afterRounds s.rounds) :=
  Prod.ext s.collect_fst s.tally_exhausted

@[simp]
theorem drain_fst (s : MatchStream α β) : s.drain.1 = s.remaining :=
  s.collect_fst

/-- How many objects have been taken out of the left and the right input.  The first object of the
streamed input is taken out when the stream is opened. -/
def pulled (s : MatchStream α β) : Nat × Nat :=
  match s.streamed with
  | .left => (max s.opened.1 s.tally.streamed, s.opened.2)
  | .right => (s.opened.1, max s.opened.2 s.tally.streamed)

end MatchStream

end PlanarJoin
