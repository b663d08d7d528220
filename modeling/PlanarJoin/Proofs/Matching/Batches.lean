import Mathlib.Data.List.Infix
import Mathlib.Logic.Function.Iterate
import PlanarJoin.Matching.Stream

/-!
# A stream gives out what its producer makes

Items and batches may be asked for in any order.  At every moment a producer has made some of its
batches, and the items of these have been given out in order, but for the end of the last batch,
which the stream holds.  A stream that has once given nothing has given out everything; it gives
nothing any more, and its producer is left alone, even one that would make further batches.

## Main definitions

* `Producer.after`, `Producer.Yields`: the state after some calls, and the batches that calls give.
* `BatchStream.Call`, `BatchStream.answers`, `BatchStream.after`: asking for items and batches.
* `BatchStream.Account`: what has been made of a producer's batches, and where they are.

## Main results

* `BatchStream.Account.call`: one call keeps the account.
* `BatchStream.exists_account`: so do all calls.
* `BatchStream.answers_once`: every batch is given out once and in order.
* `MatchStream.yields_rounds`: the producer of a stream of matches makes a batch of every round that
  has matches.
-/

namespace PlanarJoin

variable {σ γ : Type}

/-! ## Producers -/

/-- The items of some batches. -/
def itemsOf (bs : List (γ × List γ)) : List γ :=
  bs.flatMap fun b => b.1 :: b.2

namespace Producer

/-- The state of a producer after some calls. -/
def after (produce : Producer σ γ) (n : Nat) (st : σ) : σ :=
  (fun st => (produce st).2)^[n] st

/-- From a state on, calls give some batches and then nothing.  What calls after that would give is
left open. -/
def Yields (produce : Producer σ γ) (st : σ) (bs : List (γ × List γ)) : Prop :=
  ∀ n ≤ bs.length, (produce (produce.after n st)).1 = bs[n]?

variable {produce : Producer σ γ} {st : σ} {bs : List (γ × List γ)}

theorem after_succ (produce : Producer σ γ) (n : Nat) (st : σ) :
    produce.after (n + 1) st = (produce (produce.after n st)).2 :=
  Function.iterate_succ_apply' _ n st

theorem yields_nil (h : (produce st).1 = none) : produce.Yields st [] := by
  intro n hn
  obtain rfl := Nat.le_zero.mp hn
  exact h

theorem Yields.cons {b : γ × List γ} (h : (produce st).1 = some b)
    (hs : produce.Yields (produce st).2 bs) : produce.Yields st (b :: bs) := by
  intro n hn
  cases n with
  | zero => exact h
  | succ n => exact hs n (Nat.le_of_succ_le_succ hn)

/-- What a producer yields is told by its next call. -/
theorem Yields.congr {st' : σ} (h : produce.Yields st bs) (heq : produce st' = produce st) :
    produce.Yields st' bs := by
  intro n hn
  have hn := h n hn
  cases n with
  | zero => exact heq ▸ hn
  | succ n =>
    rw [after, Function.iterate_succ_apply] at hn ⊢
    rw [heq]
    exact hn

end Producer

namespace BatchStream

/-! ## Calls -/

/-- What a stream can be asked for. -/
inductive Call where
  | item
  | batch
deriving DecidableEq, Repr

variable (produce : Producer σ γ)

/-- The answer to a call, and the stream after it. -/
def call (s : BatchStream σ γ) : Call → Option (List γ) × BatchStream σ γ
  | .item => ((s.next produce).1.map fun a => [a], (s.next produce).2)
  | .batch => s.nextBatch produce

/-- The answers to some calls. -/
def answers (s : BatchStream σ γ) : List Call → List (Option (List γ))
  | [] => []
  | c :: calls => (s.call produce c).1 :: (s.call produce c).2.answers calls

/-- The stream after some calls. -/
def after (s : BatchStream σ γ) (calls : List Call) : BatchStream σ γ :=
  calls.foldl (fun s c => (s.call produce c).2) s

/-- The items in some answers. -/
def given (answers : List (Option (List γ))) : List γ :=
  answers.flatMap (·.getD [])

/-- An account of a producer that yields some batches: how many of them it has made, and where their
items are. -/
structure Account (st : σ) (bs : List (γ × List γ)) (got : List γ) (made : Nat)
    (s : BatchStream σ γ) : Prop where
  made_le : made ≤ bs.length
  /-- Every item that was made has been given out or is held. -/
  items : got ++ s.batch = itemsOf (bs.take made)
  /-- What is held is the end of the last batch. -/
  held : s.batch <:+ itemsOf (bs.take made).getLast?.toList
  /-- A producer that is still there has been called once for each batch. -/
  live : s.live = true → s.state = produce.after made st
  /-- A producer that was dropped has made all batches, and was called once more. -/
  ended : s.live = false → made = bs.length ∧ s.batch = [] ∧ s.state = produce.after (made + 1) st

variable {produce} {st : σ} {bs : List (γ × List γ)} {got : List γ} {made : Nat}
  {s : BatchStream σ γ}

theorem account_ofState (st : σ) (bs : List (γ × List γ)) :
    Account produce st bs [] 0 (ofState st) where
  made_le := Nat.zero_le _
  items := rfl
  held := List.suffix_rfl
  live _ := rfl
  ended := nofun

/-- Giving out from the front of what is held keeps the account. -/
theorem Account.give {given held : List γ} (h : Account produce st bs got made s)
    (hs : s.batch = given ++ held) (hlive : s.live = true) :
    Account produce st bs (got ++ given) made { s with batch := held } where
  made_le := h.made_le
  items := by
    rw [← h.items, hs, List.append_assoc]
  held := (hs ▸ List.suffix_append given held : held <:+ s.batch).trans h.held
  live := h.live
  ended hend := absurd (hlive.symm.trans hend) nofun

theorem pull_of_live (hlive : s.live = true) {b : Option (γ × List γ)} {st' : σ}
    (hp : produce s.state = (b, st')) : s.pull produce = (b, ⟨st', b.isSome, s.batch⟩) := by
  rw [BatchStream.pull, if_pos hlive, hp]
  cases b with
  | none => rfl
  | some b =>
    dsimp only
    rw [hlive]
    rfl

/-- A producer that is still there makes its next batch. -/
theorem Account.pull (hy : produce.Yields st bs) (h : Account produce st bs got made s)
    (hbatch : s.batch = []) (hlive : s.live = true) :
    (∃ b, bs[made]? = some b ∧ (s.pull produce).1 = some b ∧
      Account produce st bs got (made + 1) { (s.pull produce).2 with batch := b.1 :: b.2 }) ∨
    ((s.pull produce).1 = none ∧ (s.pull produce).2.live = false ∧
      Account produce st bs got made (s.pull produce).2) := by
  have hcall := hy made h.made_le
  rw [← h.live hlive] at hcall
  have hstate := produce.after_succ made st
  rw [← h.live hlive] at hstate
  have hitems := h.items
  rw [hbatch, List.append_nil] at hitems
  rcases hp : produce s.state with ⟨_ | b, st'⟩ <;> rw [hp] at hcall hstate <;>
    rw [pull_of_live hlive hp]
  · refine .inr ⟨rfl, rfl, h.made_le, ?_, ?_, nofun, fun _ => ⟨?_, hbatch, hstate.symm⟩⟩
    · exact h.items
    · exact h.held
    · exact le_antisymm h.made_le (List.getElem?_eq_none_iff.mp hcall.symm)
  · obtain ⟨hlt, hget⟩ := List.getElem?_eq_some_iff.mp hcall.symm
    have htake : bs.take (made + 1) = bs.take made ++ [b] := by
      rw [List.take_succ_eq_append_getElem hlt, hget]
    refine .inl ⟨b, hcall.symm, rfl, hlt, ?_, ?_, fun _ => hstate.symm, fun hend => ?_⟩
    · rw [htake, itemsOf, List.flatMap_append, ← itemsOf, ← hitems]
      simp
    · rw [htake, List.getLast?_concat]
      simp [itemsOf]
    · exact absurd (show true = false from hend) nofun

/-! ### One call -/

variable (produce) in
/-- A call gives out from the front of the batch. -/
theorem call_of_batch {a : γ} {as : List γ} (hb : s.batch = a :: as) (c : Call) :
    ∃ front held, s.batch = front ++ held ∧
      s.call produce c = (some front, { s with batch := held }) := by
  cases c with
  | item =>
    refine ⟨[a], as, hb, ?_⟩
    rw [call, next, hb]
    rfl
  | batch =>
    refine ⟨a :: as, [], hb.trans (List.append_nil _).symm, ?_⟩
    rw [call, nextBatch, hb]

/-- Where the batch is used up, a call gives out from the next one. -/
theorem call_of_pull_eq_some {b : γ × List γ} (hb : s.batch = [])
    (hp : (s.pull produce).1 = some b) (c : Call) : s.call produce c =
      { (s.pull produce).2 with batch := b.1 :: b.2 }.call produce c := by
  have hbatch := batch_pull produce s
  rcases hpull : s.pull produce with ⟨b', s'⟩
  rw [hpull] at hp hbatch
  subst hp
  cases c with
  | item =>
    rw [call, call, next, next, hb, hpull]
  | batch =>
    obtain ⟨st, live, batch⟩ := s'
    obtain rfl : batch = [] := hbatch.trans hb
    rw [call, call, nextBatch, nextBatch, hb, hpull]

/-- Where the producer has nothing, neither has a call. -/
theorem call_of_pull_eq_none (hb : s.batch = []) (hp : (s.pull produce).1 = none) (c : Call) :
    s.call produce c = (none, (s.pull produce).2) := by
  rcases hpull : s.pull produce with ⟨b, s'⟩
  rw [hpull] at hp
  subst hp
  cases c with
  | item =>
    rw [call, next, hb, hpull]
    rfl
  | batch => rw [call, nextBatch, hb, hpull]

theorem Account.call_of_ended (h : Account produce st bs got made s) (hend : s.live = false)
    (c : Call) : s.call produce c = (none, s) := by
  have hpull : s.pull produce = (none, s) := if_neg (by rw [hend]; nofun)
  rw [call_of_pull_eq_none (h.ended hend).2.1 (by rw [hpull]), hpull]

/-- One call keeps the account, and gives nothing just if the stream has then ended. -/
theorem Account.call (hy : produce.Yields st bs) (h : Account produce st bs got made s) (c : Call) :
    (∃ made', Account produce st bs (got ++ (s.call produce c).1.getD []) made'
      (s.call produce c).2) ∧
    ((s.call produce c).1 = none ↔ (s.call produce c).2.live = false) := by
  have hgive {s : BatchStream σ γ} {made : Nat} (h : Account produce st bs got made s) {a : γ}
      {as : List γ} (hb : s.batch = a :: as) :
      (∃ made', Account produce st bs (got ++ (s.call produce c).1.getD []) made'
        (s.call produce c).2) ∧
      ((s.call produce c).1 = none ↔ (s.call produce c).2.live = false) := by
    have hlive : s.live = true := by
      by_contra hend
      rw [(h.ended (Bool.not_eq_true _ ▸ hend)).2.1] at hb
      cases hb
    obtain ⟨front, held, hs, hcall⟩ := call_of_batch produce hb c
    rw [hcall]
    refine ⟨⟨made, h.give hs hlive⟩, iff_of_false nofun fun hend => ?_⟩
    exact absurd (hlive.symm.trans hend) nofun
  cases hb : s.batch with
  | cons a as => exact hgive h hb
  | nil =>
    cases hlive : s.live with
    | false =>
      rw [h.call_of_ended hlive c]
      refine ⟨⟨made, ?_⟩, iff_of_true rfl hlive⟩
      rw [Option.getD_none, List.append_nil]
      exact h
    | true =>
      rcases h.pull hy hb hlive with ⟨b, -, hp, hnew⟩ | ⟨hp, hend, hsame⟩
      · rw [call_of_pull_eq_some hb hp c]
        exact hgive hnew rfl
      · rw [call_of_pull_eq_none hb hp c]
        refine ⟨⟨made, ?_⟩, iff_of_true rfl hend⟩
        rw [Option.getD_none, List.append_nil]
        exact hsame

/-! ### Many calls -/

/-- A stream that has ended gives nothing any more, and its producer is not called. -/
theorem Account.calls_of_ended (h : Account produce st bs got made s) (hend : s.live = false)
    (calls : List Call) :
    s.answers produce calls = List.replicate calls.length none ∧ s.after produce calls = s := by
  induction calls with
  | nil => exact ⟨rfl, rfl⟩
  | cons c calls ih =>
    rw [answers, after, List.foldl_cons, h.call_of_ended hend c]
    exact ⟨congrArg (none :: ·) ih.1, ih.2⟩

/-- Calls keep the account, and one of them gives nothing just if the stream has then ended. -/
theorem Account.calls (hy : produce.Yields st bs) (h : Account produce st bs got made s)
    (hlive : s.live = true) (calls : List Call) :
    (∃ made', Account produce st bs (got ++ given (s.answers produce calls)) made'
      (s.after produce calls)) ∧
    (none ∈ s.answers produce calls ↔ (s.after produce calls).live = false) := by
  induction calls generalizing got made s with
  | nil =>
    refine ⟨⟨made, ?_⟩, iff_of_false List.not_mem_nil fun hend => ?_⟩
    · change Account produce st bs (got ++ []) made s
      rw [List.append_nil]
      exact h
    · exact absurd (hlive.symm.trans hend) nofun
  | cons c calls ih =>
    obtain ⟨⟨made', hstep⟩, hnone⟩ := h.call hy c
    have hgiven : got ++ given (s.answers produce (c :: calls)) =
        got ++ (s.call produce c).1.getD [] ++
          given ((s.call produce c).2.answers produce calls) := by
      rw [List.append_assoc]
      rfl
    rw [hgiven, answers, List.mem_cons, eq_comm, hnone]
    change (∃ made', Account produce st bs _ made' ((s.call produce c).2.after produce calls)) ∧
      (_ ↔ ((s.call produce c).2.after produce calls).live = false)
    cases hend : (s.call produce c).2.live with
    | true =>
      obtain ⟨hrun, hlater⟩ := ih hstep hend
      exact ⟨hrun, (or_iff_right nofun).trans hlater⟩
    | false =>
      -- the stream has ended with this call, and the further ones change nothing
      obtain ⟨hans, hafter⟩ := hstep.calls_of_ended hend calls
      have hnothing : given (List.replicate calls.length (none : Option (List γ))) = [] := by
        simp [given]
      rw [hans, hafter, hnothing, List.append_nil]
      exact ⟨⟨made', hstep⟩, iff_of_true (.inl rfl) hend⟩

/-- From the beginning, calls keep the account. -/
theorem exists_account (hy : produce.Yields st bs) (calls : List Call) :
    (∃ made, Account produce st bs (given ((ofState st).answers produce calls)) made
      ((ofState st).after produce calls)) ∧
    (none ∈ (ofState st).answers produce calls ↔
      ((ofState st).after produce calls).live = false) :=
  (account_ofState st bs).calls hy rfl calls

/-- Every batch is given out once and in order, whatever items and batches are asked for.  After any
calls the producer has made some of its batches; their items have been given out, but for the end of
the last batch, which is held.  Once a call has given nothing, everything has been given out;
further calls give nothing, and leave the stream and the state of its producer as they are. -/
theorem answers_once (hy : produce.Yields st bs) (calls : List Call) :
    (∃ made, Account produce st bs (given ((ofState st).answers produce calls)) made
      ((ofState st).after produce calls)) ∧
    given ((ofState st).answers produce calls) <+: itemsOf bs ∧
    (none ∈ (ofState st).answers produce calls →
      given ((ofState st).answers produce calls) = itemsOf bs ∧
      ∀ later, ((ofState st).after produce calls).answers produce later =
          List.replicate later.length none ∧
        ((ofState st).after produce calls).after produce later =
          (ofState st).after produce calls) := by
  obtain ⟨⟨made, h⟩, hnone⟩ := exists_account hy calls
  have hprefix : itemsOf (bs.take made) <+: itemsOf bs := by
    obtain ⟨rest, hrest⟩ := bs.take_prefix made
    exact ⟨itemsOf rest, by rw [itemsOf, itemsOf, itemsOf, ← List.flatMap_append, hrest]⟩
  refine ⟨⟨made, h⟩, ?_, fun hn => ?_⟩
  · exact (List.prefix_append _ _).trans (h.items ▸ hprefix)
  · obtain ⟨hall, hbatch, -⟩ := h.ended (hnone.mp hn)
    refine ⟨?_, h.calls_of_ended (hnone.mp hn)⟩
    have hitems := h.items
    rw [hbatch, List.append_nil, hall, List.take_length] at hitems
    exact hitems

/-- Makes what its state holds: batches, and nothing in between. -/
def scripted : Producer (List (Option (Nat × List Nat))) Nat
  | [] => (none, [])
  | b :: bs => (b, bs)

/-- Two batches are given out by four calls.  The producer would go on after that, but it is not
called again. -/
theorem answers_scripted :
    scripted.Yields [some (1, [2]), some (3, []), none, some (4, [])] [(1, [2]), (3, [])] ∧
      (ofState [some (1, [2]), some (3, []), none, some (4, [])]).answers scripted
        [.item, .batch, .batch, .item, .batch, .item] =
          [some [1], some [2], some [3], none, none, none] ∧
      ((ofState [some (1, [2]), some (3, []), none, some (4, [])]).after scripted
        [.item, .batch, .batch, .item, .batch, .item]).state = [some (4, [])] := by
  have hy : scripted.Yields [some (1, [2]), some (3, []), none, some (4, [])]
      [(1, [2]), (3, [])] := by
    unfold Producer.Yields
    decide
  obtain ⟨-, -, hlast⟩ := answers_once hy [.item, .batch, .batch, .item]
  obtain ⟨hlater, hsame⟩ := (hlast (by decide)).2 [.batch, .item]
  refine ⟨hy, ?_, ?_⟩
  · exact congrArg ([some [1], some [2], some [3], none] ++ ·) hlater
  · exact congrArg BatchStream.state hsame

end BatchStream

/-! ## Streams of matches -/

namespace MatchStream

variable {α β : Type}

/-- The matches of a round as a batch, if there are any. -/
def batch? (round : Thunk (List (Trial α β))) : Option ((α × β) × List (α × β)) :=
  match round.get.filterMap Trial.match? with
  | [] => none
  | p :: ps => some (p, ps)

/-- The producer of a stream of matches makes a batch of every round that has matches. -/
theorem yields_rounds (rs : Rounds α β) (t : Tally) :
    produce.Yields (rs, t) (rs.filterMap batch?) := by
  induction rs generalizing t with
  | nil => exact Producer.yields_nil rfl
  | cons r rs ih =>
    have hround := ih (t.afterRound r.get)
    have hdraw : produce (r :: rs, t) = draw (r :: rs) t := rfl
    rw [draw] at hdraw
    rw [List.filterMap_cons, batch?]
    cases hb : r.get.filterMap Trial.match? with
    | nil =>
      rw [hb] at hdraw
      exact hround.congr hdraw
    | cons p ps =>
      rw [hb] at hdraw
      refine .cons (by rw [hdraw]) ?_
      rw [hdraw]
      exact hround

end MatchStream

end PlanarJoin
