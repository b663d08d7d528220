import PlanarJoin.Matching.Plan
import PlanarJoin.Proofs.Gathering
import PlanarJoin.Proofs.Matching.Batches
import PlanarJoin.Proofs.Matching.Strategies

/-!
# What a join has counted

The tally of a stream counts the rounds that are over, and every one of them has either been given
out, or is the one whose batch is held.  So at every moment the tally tells how many pairs have been
found, and which object was streamed last; a stream that has ended has streamed every object.

## Main definitions

* `MatchStream.call`, `MatchStream.answers`, `MatchStream.after`: asking for pairs and batches.
* `Rule.Way`: a way of finding matches, with its inputs.
* `Rule.Way.Books`: what a tally says while a stream is used.

## Main results

* `MatchStream.draw_cases`, `MatchStream.exists_past`: the rounds that are over after one call of
  the producer, and after many.
* `MatchStream.exists_passed`: the same while pairs and batches are asked for.
* `Rule.Way.books_after`: the tally of every way of finding matches is right at every moment.
-/

namespace PlanarJoin

variable {α β : Type}

/-! ## Tallies of rounds -/

namespace Trial

/-- No trial both matches and is skipped. -/
theorem length_add_length_le (ts : List (Trial α β)) :
    (ts.filterMap match?).length + (ts.filterMap skip?).length ≤ ts.length := by
  induction ts with
  | nil => exact le_rfl
  | cons t ts ih =>
    rcases ht : t.verdict with _ | _ | _ | f <;>
      simp only [List.filterMap_cons, match?, skip?, ht, List.length_cons] <;> omega

end Trial

namespace Tally

theorem afterRounds_append (t : Tally) (rs later : Rounds α β) :
    t.afterRounds (rs ++ later) = (t.afterRounds rs).afterRounds later :=
  List.foldl_append

/-- Rounds add up to what their trials count together. -/
theorem afterRounds_eq (t : Tally) (rs : Rounds α β) : t.afterRounds rs =
    t.add ⟨0, rs.length, (rs.flatMap Thunk.get).length,
      ((rs.flatMap Thunk.get).filterMap Trial.match?).length,
      ((rs.flatMap Thunk.get).filterMap Trial.skip?).length⟩ := by
  induction rs generalizing t with
  | nil => rfl
  | cons r rs ih =>
    change (t.afterRound r.get).afterRounds rs = _
    rw [ih]
    simp only [add, afterRound, List.flatMap_cons, List.filterMap_append, List.length_append,
      List.length_cons, Tally.mk.injEq]
    refine ⟨trivial, ?_, ?_, ?_, ?_⟩ <;> omega

end Tally

/-- No call gives an empty batch. -/
theorem BatchStream.call_ne_some_nil {σ γ : Type} (produce : Producer σ γ) (s : BatchStream σ γ)
    (c : Call) : (s.call produce c).1 ≠ some [] := by
  cases c with
  | item =>
    rw [call]
    cases (s.next produce).1 <;> exact fun h => by cases h
  | batch =>
    rw [call, nextBatch]
    split
    · exact fun h => by cases h
    · split <;> exact fun h => by cases h

namespace MatchStream

/-! ## The rounds that are over -/

theorem itemsOf_filterMap_batch (rs : Rounds α β) :
    itemsOf (rs.filterMap batch?) = (rs.flatMap Thunk.get).filterMap Trial.match? := by
  induction rs with
  | nil => rfl
  | cons r rs ih =>
    rw [List.filterMap_cons, List.flatMap_cons, List.filterMap_append, batch?, ← ih]
    cases r.get.filterMap Trial.match? <;> rfl

theorem filterMap_of_batch_eq_some {r : Thunk (List (Trial α β))} {b : (α × β) × List (α × β)}
    (h : batch? r = some b) : r.get.filterMap Trial.match? = b.1 :: b.2 := by
  unfold batch? at h
  split at h
  · cases h
  · next hr =>
    cases h
    exact hr

/-- A call of the producer goes over the rounds without a match, and over the first that has one. -/
theorem draw_cases (rs : Rounds α β) (t : Tally) :
    (rs.filterMap batch? = [] ∧ draw rs t = (none, [], t.afterRounds rs)) ∨
    ∃ passed round rest b, rs = passed ++ round :: rest ∧ passed.filterMap batch? = [] ∧
      batch? round = some b ∧ draw rs t = (some b, rest, t.afterRounds (passed ++ [round])) := by
  induction rs generalizing t with
  | nil => exact .inl ⟨rfl, rfl⟩
  | cons r rs ih =>
    rw [draw]
    cases hr : r.get.filterMap Trial.match? with
    | cons p ps => exact .inr ⟨[], r, rs, (p, ps), rfl, rfl, by rw [batch?, hr], rfl⟩
    | nil =>
      have hb : batch? r = none := by rw [batch?, hr]
      rcases ih (t.afterRound r.get) with ⟨hnone, hdraw⟩ |
        ⟨passed, round, rest, b, rfl, hpassed, hround, hdraw⟩
      · exact .inl ⟨by rw [List.filterMap_cons, hb, hnone], hdraw⟩
      · refine .inr ⟨r :: passed, round, rest, b, rfl, ?_, hround, hdraw⟩
        rw [List.filterMap_cons, hb, hpassed]

/-- After some calls the producer has gone over the rounds up to the one of its last batch. -/
theorem exists_past (rs : Rounds α β) (t : Tally) {made : Nat}
    (hmade : made ≤ (rs.filterMap batch?).length) :
    ∃ past rest, rs = past ++ rest ∧ produce.after made (rs, t) = (rest, t.afterRounds past) ∧
      past.filterMap batch? = (rs.filterMap batch?).take made ∧
      (made ≠ 0 → ∃ before round, past = before ++ [round] ∧ (batch? round).isSome) := by
  induction made with
  | zero => exact ⟨[], rs, rfl, rfl, rfl, fun h => absurd rfl h⟩
  | succ made ih =>
    obtain ⟨past, rest, rfl, hafter, hpast, -⟩ := ih (Nat.le_of_succ_le hmade)
    have hlen : made = (past.filterMap batch?).length := by
      rw [hpast, List.length_take, min_eq_left (Nat.le_of_succ_le hmade)]
    rw [List.filterMap_append, List.length_append, ← hlen] at hmade
    have hstep : produce.after (made + 1) (past ++ rest, t) =
        (draw rest (t.afterRounds past)).2 := by
      rw [Producer.after_succ, hafter]
      rfl
    rcases draw_cases rest (t.afterRounds past) with ⟨hnone, -⟩ |
      ⟨passed, round, rest, b, rfl, hpassed, hround, hdraw⟩
    · rw [hnone, List.length_nil] at hmade
      omega
    · refine ⟨past ++ (passed ++ [round]), rest, by simp, ?_, ?_, fun _ => ?_⟩
      · rw [hstep, hdraw, Tally.afterRounds_append t past]
      · have hall : (past ++ (passed ++ round :: rest)).filterMap batch? =
            past.filterMap batch? ++ b :: rest.filterMap batch? := by
          simp [hpassed, hround]
        rw [hall, hlen, List.take_length_add_append]
        simp [hpassed, hround]
      · exact ⟨past ++ passed, round, by simp, by rw [hround]; rfl⟩

/-- A producer that has made its last batch goes over all rounds that are left. -/
theorem after_length_succ (rs : Rounds α β) (t : Tally) :
    produce.after ((rs.filterMap batch?).length + 1) (rs, t) = ([], t.afterRounds rs) := by
  obtain ⟨past, rest, hrs, hafter, hpast, -⟩ := exists_past rs t le_rfl
  rw [Producer.after_succ, hafter]
  have hrest : rest.filterMap batch? = [] := by
    rw [List.take_length, hrs, List.filterMap_append] at hpast
    exact List.append_right_eq_self.mp hpast.symm
  rcases draw_cases rest (t.afterRounds past) with ⟨-, hdraw⟩ |
    ⟨passed, round, rest, b, rfl, -, hround, -⟩
  · rw [hrs, Tally.afterRounds_append]
    exact congrArg Prod.snd hdraw
  · rw [List.filterMap_append, List.filterMap_cons, hround] at hrest
    simp at hrest

/-! ## Calls -/

/-- The answer to a call, and the stream after it. -/
def call (s : MatchStream α β) : BatchStream.Call → Option (List (α × β)) × MatchStream α β
  | .item => (s.next.1.map fun p => [p], s.next.2)
  | .batch => s.nextBatch

/-- The answers to some calls. -/
def answers (s : MatchStream α β) : List BatchStream.Call → List (Option (List (α × β)))
  | [] => []
  | c :: calls => (s.call c).1 :: (s.call c).2.answers calls

/-- The stream after some calls. -/
def after (s : MatchStream α β) (calls : List BatchStream.Call) : MatchStream α β :=
  calls.foldl (fun s c => (s.call c).2) s

/-- The pairs that some calls have given. -/
def given (s : MatchStream α β) (calls : List BatchStream.Call) : List (α × β) :=
  BatchStream.given (s.answers calls)

theorem call_eq (s : MatchStream α β) (c : BatchStream.Call) :
    (s.call c).1 = (s.toBatchStream.call produce c).1 ∧
      (s.call c).2.toBatchStream = (s.toBatchStream.call produce c).2 := by
  cases c <;> exact ⟨rfl, rfl⟩

theorem calls_eq (s : MatchStream α β) (calls : List BatchStream.Call) :
    s.answers calls = s.toBatchStream.answers produce calls ∧
      (s.after calls).toBatchStream = s.toBatchStream.after produce calls := by
  induction calls generalizing s with
  | nil => exact ⟨rfl, rfl⟩
  | cons c calls ih =>
    obtain ⟨hans, hstream⟩ := call_eq s c
    obtain ⟨hlater, hafter⟩ := ih (s.call c).2
    rw [hstream] at hlater hafter
    exact ⟨congrArg₂ List.cons hans hlater, hafter⟩

/-- A call gives what it gives out of what remains. -/
theorem remaining_call (s : MatchStream α β) (c : BatchStream.Call) :
    s.remaining = (s.call c).1.getD [] ++ (s.call c).2.remaining := by
  cases c with
  | item =>
    rw [remaining_next s, call]
    cases s.next.1 <;> rfl
  | batch => exact remaining_nextBatch s

theorem remaining_after (s : MatchStream α β) (calls : List BatchStream.Call) :
    s.remaining = s.given calls ++ (s.after calls).remaining := by
  induction calls generalizing s with
  | nil => rfl
  | cons c calls ih =>
    rw [remaining_call s c, ih (s.call c).2, ← List.append_assoc]
    rfl

/-- If every call has given something, then so have all together. -/
theorem given_ne_nil {s : MatchStream α β} {calls : List BatchStream.Call} (hne : calls ≠ [])
    (h : none ∉ s.answers calls) : s.given calls ≠ [] := by
  cases calls with
  | nil => exact absurd rfl hne
  | cons c calls =>
    have hcall := BatchStream.call_ne_some_nil produce s.toBatchStream c
    rw [← (call_eq s c).1] at hcall
    rw [answers, List.mem_cons, not_or] at h
    rw [given, answers, BatchStream.given, List.flatMap_cons]
    rcases ha : (s.call c).1 with _ | _ | ⟨p, ps⟩
    · exact absurd ha.symm h.1
    · exact absurd ha hcall
    · exact List.cons_ne_nil _ _

/-- A stream without rounds stays as it is. -/
theorem calls_nothing (opened : Nat × Nat) (calls : List BatchStream.Call) :
    (nothing opened : MatchStream α β).answers calls = List.replicate calls.length none ∧
      ((nothing opened : MatchStream α β).after calls).toBatchStream =
        (nothing opened : MatchStream α β).toBatchStream := by
  have hended : BatchStream.Account produce ([], Tally.zero) [] [] 0
      (nothing opened : MatchStream α β).toBatchStream :=
    ⟨le_rfl, rfl, List.suffix_rfl, fun h => Bool.noConfusion h, fun _ => ⟨rfl, rfl, rfl⟩⟩
  obtain ⟨hans, hafter⟩ := calls_eq (nothing opened : MatchStream α β) calls
  obtain ⟨hnone, hsame⟩ := hended.calls_of_ended rfl calls
  exact ⟨hans.trans hnone, hafter.trans hsame⟩

/-- While a stream is used, its tally counts the rounds that are over, and their matches have been
given out or are held.  Until the stream ends, what is held is of the last of these rounds. -/
theorem exists_passed (rs : Rounds α β) (t : Tally) (side : Side) (opened : Nat × Nat)
    (calls : List BatchStream.Call) {s now : MatchStream α β} (hs : s = ofRounds rs t side opened)
    (hnow : now = s.after calls) : ∃ past, rs = past ++ now.rounds ∧
      now.tally = t.afterRounds past ∧
      s.given calls ++ now.batch = (past.flatMap Thunk.get).filterMap Trial.match? ∧
      (calls = [] → past = []) ∧
      (none ∈ s.answers calls → now.rounds = []) ∧
      (none ∉ s.answers calls → calls ≠ [] → ∃ before round, past = before ++ [round] ∧
        round.get.filterMap Trial.match? ≠ [] ∧
        now.batch <:+ round.get.filterMap Trial.match?) := by
  subst hs hnow
  obtain ⟨hans, hafter⟩ := calls_eq (ofRounds rs t side opened) calls
  have hopen : (ofRounds rs t side opened).toBatchStream = .ofState (rs, t) := rfl
  rw [hopen] at hans hafter
  obtain ⟨⟨made, hacc⟩, hnone⟩ := BatchStream.exists_account (yields_rounds rs t) calls
  rw [given, rounds, tally, hafter, hans]
  rcases eq_or_ne calls [] with rfl | hne
  · exact ⟨[], rfl, rfl, rfl, fun _ => rfl, fun h => absurd h List.not_mem_nil,
      fun _ h => absurd rfl h⟩
  rw [hacc.items]
  cases hlive : ((BatchStream.ofState (rs, t)).after produce calls).live with
  | false =>
    obtain ⟨rfl, -, hstate⟩ := hacc.ended hlive
    rw [hstate, after_length_succ]
    refine ⟨rs, (List.append_nil rs).symm, rfl, ?_, fun h => absurd h hne, fun _ => rfl,
      fun h => absurd (hnone.mpr hlive) h⟩
    rw [List.take_length, itemsOf_filterMap_batch]
  | true =>
    obtain ⟨past, rest, hrs, hstate, hpast, hlast⟩ := exists_past rs t hacc.made_le
    rw [hacc.live hlive, hstate]
    refine ⟨past, hrs, rfl, ?_, fun h => absurd h hne, fun h => ?_, fun h _ => ?_⟩
    · rw [← hpast, itemsOf_filterMap_batch]
    · exact absurd (hlive.symm.trans (hnone.mp h)) Bool.false_ne_true.symm
    · have hmade : made ≠ 0 := by
        rintro rfl
        have hgiven := given_ne_nil hne (hans ▸ h)
        exact hgiven (List.append_eq_nil_iff.mp (hans ▸ hacc.items)).1
      obtain ⟨before, round, rfl, hround⟩ := hlast hmade
      obtain ⟨b, hb⟩ := Option.isSome_iff_exists.mp hround
      have hheld := hacc.held
      rw [← hpast, List.filterMap_append, List.filterMap_cons_some hb, List.filterMap_nil,
        List.getLast?_concat] at hheld
      refine ⟨before, round, rfl, ?_, ?_⟩
      · rw [filterMap_of_batch_eq_some hb]
        exact List.cons_ne_nil _ _
      · rw [filterMap_of_batch_eq_some hb]
        simpa [itemsOf] using hheld

end MatchStream

/-! ## All ways of finding matches -/

namespace Rule

/-- A way of finding matches, with its inputs. -/
inductive Way (α β : Type) where
  | pairwise (left : List α) (right : List β)
  | probeRight (left : List α) (right : Index β)
  | probeLeft (left : Index α) (right : List β)
  | probeBuilt (settings : IndexSettings) (side : Side) (left : List α) (right : List β)

namespace Way

variable [Spatial α] [Spatial β]

/-- The stream that finds the matches.  It is opened unless the settings of its index are not valid.
-/
def open? (w : Way α β) (r : Rule) : Except Failure (MatchStream α β) :=
  match w with
  | pairwise left right => .ok (r.pairwise left right)
  | probeRight left right => .ok (r.probeRight left right)
  | probeLeft left right => .ok (r.probeLeft left right)
  | probeBuilt settings side left right => r.probeBuilt? settings side left right

/-- Whether a list or an index is empty, so that nothing is streamed. -/
def isIdle : Way α β → Bool
  | pairwise left right => left.isEmpty || right.isEmpty
  | probeRight left right => left.isEmpty || right.isEmpty
  | probeLeft left right => left.isEmpty || right.isEmpty
  | probeBuilt _ _ left right => left.isEmpty || right.isEmpty

/-- How many objects are put into an index first. -/
def built (w : Way α β) : Nat :=
  match w with
  | probeBuilt _ side left right =>
    if w.isIdle then 0
    else
      match side with
      | .left => left.length
      | .right => right.length
  | _ => 0

/-- How many objects there are to stream. -/
def streamed : Way α β → Nat
  | pairwise _ right => right.length
  | probeRight left _ => left.length
  | probeLeft _ right => right.length
  | probeBuilt _ .left _ right => right.length
  | probeBuilt _ .right left _ => left.length

/-- The trials of every object that is streamed. -/
def trials (w : Way α β) (r : Rule) : List (List (Trial α β)) :=
  let ofLeft (left : List α) (right : Index β) :=
    left.map fun a => (right.query (Spatial.envelope a)).map fun b => r.try a b
  let ofRight (left : Index α) (right : List β) :=
    right.map fun b => (left.query (Spatial.envelope b)).map fun a => r.try a b
  match w with
  | pairwise left right => right.map fun b => left.map fun a => r.try a b
  | probeRight left right => ofLeft left right
  | probeLeft left right => ofRight left right
  | probeBuilt settings .left left right => ofRight (.ofList settings left) right
  | probeBuilt settings .right left right => ofLeft left (.ofList settings right)

@[simp]
theorem length_trials (w : Way α β) (r : Rule) : (w.trials r).length = w.streamed := by
  rcases w with _ | _ | _ | ⟨_, _ | _, _, _⟩ <;> simp [trials, streamed]

/-- A stream goes through the trials of all objects, unless a list or an index is empty. -/
theorem cases_of_open {w : Way α β} {r : Rule} {s : MatchStream α β} (h : w.open? r = .ok s) :
    (w.isIdle = true ∧ ∃ opened, s = .nothing opened) ∨
    (w.isIdle = false ∧ ∃ rs side opened, rs.map Thunk.get = w.trials r ∧
      s = .ofRounds rs { Tally.zero with built := w.built } side opened) := by
  cases w with
  | pairwise left right =>
    cases h
    rcases left with _ | ⟨a, left⟩
    · exact .inl ⟨rfl, _, rfl⟩
    rcases right with _ | ⟨b, right⟩
    · exact .inl ⟨rfl, _, rfl⟩
    exact .inr ⟨rfl, _, _, _, List.map_map, rfl⟩
  | probeRight left right =>
    cases h
    rw [Rule.probeRight, isIdle, Bool.or_comm]
    split
    · exact .inl ⟨‹_›, _, rfl⟩
    · exact .inr ⟨Bool.not_eq_true _ ▸ ‹_›, _, _, _, List.map_map, rfl⟩
  | probeLeft left right =>
    cases h
    rw [Rule.probeLeft, isIdle]
    split
    · exact .inl ⟨‹_›, _, rfl⟩
    · exact .inr ⟨Bool.not_eq_true _ ▸ ‹_›, _, _, _, List.map_map, rfl⟩
  | probeBuilt settings side left right =>
    obtain rfl := (ok_of_map_const h).2
    rcases left with _ | ⟨a, left⟩
    · exact .inl ⟨rfl, _, rfl⟩
    rcases right with _ | ⟨b, right⟩
    · exact .inl ⟨rfl, _, rfl⟩
    cases side <;> exact .inr ⟨rfl, _, _, _, List.map_map, rfl⟩

/-- Every object has been streamed; if all pairs are tried, every pair was. -/
def Complete (w : Way α β) (t : Tally) : Prop :=
  t.streamed = w.streamed ∧
    ∀ left right, w = .pairwise left right → t.candidates = left.length * right.length

/-- What the tally of a stream `s` says after some calls. -/
structure Books (w : Way α β) (r : Rule) (s : MatchStream α β) (calls : List BatchStream.Call) :
    Prop where
  /-- Every pair that was found has been given out or is held. -/
  results : (s.after calls).tally.results = (s.given calls).length + (s.after calls).batch.length
  decided : (s.after calls).tally.results + (s.after calls).tally.skipped ≤
    (s.after calls).tally.candidates
  built : (s.after calls).tally.built = w.built
  unasked : calls = [] → (s.after calls).tally.streamed = 0
  /-- Until the stream ends, the object that was streamed last is that of the latest batch. -/
  latest : none ∉ s.answers calls → calls ≠ [] → ∃ before round later,
    w.trials r = before ++ round :: later ∧
    (s.after calls).tally.streamed = before.length + 1 ∧
    round.filterMap Trial.match? ≠ [] ∧
    (s.after calls).batch <:+ round.filterMap Trial.match? ∧
    s.given calls ++ (s.after calls).batch =
      before.flatMap (·.filterMap Trial.match?) ++ round.filterMap Trial.match?
  ended : none ∈ s.answers calls → w.isIdle = false → w.Complete (s.after calls).tally
  /-- To drain the stream is to go on until it ends. -/
  drained : w.isIdle = false → w.Complete (s.after calls).drain.2 ∧
    (s.after calls).drain.2.results = (s.given calls).length + (s.after calls).drain.1.length

/-- The rounds of all objects make the tally complete. -/
theorem complete_afterRounds {w : Way α β} {r : Rule} {rs : Rounds α β}
    (hrs : rs.map Thunk.get = w.trials r) (n : Nat) :
    w.Complete (({ Tally.zero with built := n } : Tally).afterRounds rs) := by
  rw [Tally.afterRounds_eq]
  constructor
  · rw [← length_trials w r, ← hrs, List.length_map]
    exact Nat.zero_add _
  · rintro left right rfl
    have htrials : (rs.flatMap Thunk.get).length = right.length * left.length := by
      rw [List.flatMap_def, hrs]
      simp [trials, Function.comp_def]
    rw [Nat.mul_comm, ← htrials]
    exact Nat.zero_add _

/-- A stream without rounds counts nothing. -/
theorem books_nothing {w : Way α β} (r : Rule) (hidle : w.isIdle = true) (opened : Nat × Nat)
    (calls : List BatchStream.Call) : w.Books r (.nothing opened) calls := by
  obtain ⟨hans, hafter⟩ := MatchStream.calls_nothing (α := α) (β := β) opened calls
  have htally : ((MatchStream.nothing opened : MatchStream α β).after calls).tally = .zero :=
    congrArg (·.state.2) hafter
  have hbatch : ((MatchStream.nothing opened : MatchStream α β).after calls).batch = [] :=
    congrArg (·.batch) hafter
  have hgiven : (MatchStream.nothing opened : MatchStream α β).given calls = [] := by
    simp [MatchStream.given, BatchStream.given, hans]
  have hbuilt : w.built = 0 := by
    cases w <;> simp only [built]
    exact if_pos hidle
  refine ⟨?_, ?_, ?_, fun _ => ?_, fun hall hne => ?_, fun _ h => ?_, fun h => ?_⟩
  · rw [htally, hgiven, hbatch]
    rfl
  · rw [htally]
    exact le_rfl
  · rw [htally, hbuilt]
    rfl
  · rw [htally]
    rfl
  · exact absurd hgiven (MatchStream.given_ne_nil hne hall)
  · exact absurd (hidle.symm.trans h) Bool.false_ne_true.symm
  · exact absurd (hidle.symm.trans h) Bool.false_ne_true.symm

/-- A stream that goes through the trials of all objects counts those that it has gone through. -/
theorem books_ofRounds {w : Way α β} {r : Rule} {rs : Rounds α β}
    (hrs : rs.map Thunk.get = w.trials r) (side : Side) (opened : Nat × Nat)
    (calls : List BatchStream.Call) {s : MatchStream α β}
    (hs : s = .ofRounds rs { Tally.zero with built := w.built } side opened) :
    w.Books r s calls := by
  obtain ⟨past, hpast, htally, hitems, hunasked, hended, hlatest⟩ :=
    MatchStream.exists_passed rs _ side opened calls hs rfl
  have hcomplete := complete_afterRounds hrs w.built
  have hcounted := htally
  rw [Tally.afterRounds_eq] at hcounted
  have hdrain : (s.after calls).drain.2 =
      ({ Tally.zero with built := w.built } : Tally).afterRounds rs := by
    rw [hpast, Tally.afterRounds_append, ← htally, MatchStream.drain_eq]
  refine ⟨?_, ?_, ?_, fun hnil => ?_, fun hall hne => ?_, fun hnone _ => ?_, fun _ => ⟨?_, ?_⟩⟩
  · rw [hcounted, ← List.length_append, hitems]
    exact Nat.zero_add _
  · rw [hcounted]
    simpa [Tally.add, Tally.zero] using Trial.length_add_length_le (past.flatMap Thunk.get)
  · rw [hcounted]
    rfl
  · rw [hcounted, hunasked hnil]
    rfl
  · obtain ⟨before, round, rfl, hround, hheld⟩ := hlatest hall hne
    refine ⟨before.map Thunk.get, round.get, (s.after calls).rounds.map Thunk.get, ?_, ?_, hround,
      hheld, ?_⟩
    · rw [← hrs, hpast]
      simp
    · rw [hcounted]
      simp [Tally.add, Tally.zero]
    · rw [hitems, List.flatMap_append, List.filterMap_append, List.flatMap_map]
      simp [List.filterMap_flatMap]
  · rw [hended hnone, List.append_nil] at hpast
    rw [htally, ← hpast]
    exact hcomplete
  · rw [hdrain]
    exact hcomplete
  · have hall : s.remaining = (rs.flatMap Thunk.get).filterMap Trial.match? := by
      rw [hs, MatchStream.remaining_ofRounds, List.filterMap_flatMap]
    rw [hdrain, Tally.afterRounds_eq, MatchStream.drain_fst, ← List.length_append,
      ← s.remaining_after calls, hall]
    exact Nat.zero_add _

/-- The tally of every way of finding matches is right at every moment, whatever pairs and batches
were asked for. -/
theorem books_after {w : Way α β} {r : Rule} {s : MatchStream α β} (h : w.open? r = .ok s)
    (calls : List BatchStream.Call) : w.Books r s calls := by
  rcases cases_of_open h with ⟨hidle, opened, rfl⟩ | ⟨-, rs, side, opened, hrs, hs⟩
  · exact books_nothing r hidle opened calls
  · exact books_ofRounds hrs side opened calls hs

/-- Of three windows and five points a square meets two points.  These are given out by two calls;
the third finds that nothing is left, and then every pair was tried. -/
theorem books_oddWindows :
    let s := boxedRule.pairwise oddWindows oddPoints
    (s.after [.item]).tally.results = 1 ∧
      (s.after [.item, .batch, .item]).tally.streamed = 5 ∧
      (s.after [.item, .batch, .item]).tally.candidates = 3 * 5 := by
  intro s
  have hopen : (pairwise oddWindows oddPoints).open? boxedRule = .ok s := rfl
  have hone := books_after hopen [.item]
  have hall := books_after hopen [.item, .batch, .item]
  have hgiven : (s.given [.item]).length = 1 ∧ (s.after [.item]).batch.length = 0 := by
    decide +kernel
  have hlast : (s.answers [.item, .batch, .item]).any Option.isNone = true := by
    decide +kernel
  obtain ⟨answer, hmem, hanswer⟩ := List.any_eq_true.mp hlast
  obtain rfl := Option.isNone_iff_eq_none.mp hanswer
  obtain ⟨hstreamed, hproduct⟩ := hall.ended hmem rfl
  refine ⟨?_, hstreamed, hproduct _ _ rfl⟩
  rw [hone.results, hgiven.1, hgiven.2]

end Way

end Rule

end PlanarJoin
