import PlanarJoin.Matching.Plan
import PlanarJoin.Proofs.Gathering
import PlanarJoin.Proofs.Index.Candidates

/-!
# Every way of finding matches finds the same pairs

Trying all pairs gives, occurrence by occurrence, the pairs that the rule accepts.  An index of one
side gives those of them to which it leads, and what it leads to depends on what it is laid out
over, but not on what else it holds.  These are the same pairs, if whatever the rule accepts has
proper envelopes that meet: such a pair is among the candidates, once.

## Main definitions

* `Relation.decides`, `Rule.accepts`: a relation holds, and a rule lets it count, for a pair.
* `pairsOf`: the pairs of two lists with a property.
* `Rule.Local`: a rule accepts only pairs with proper envelopes that meet.
* `Rule.findsRight`, `Rule.findsLeft`, `Rule.findsBuilt`: pairs to which an index leads.

## Main results

* `Rule.remaining_findsRight`, `Rule.remaining_findsLeft`, `Rule.remaining_findsBuilt`: what a
  stream gives when it is drained, whatever the index is laid out over.
* `Rule.remaining_pairwise`, `Rule.remaining_probeRight`, `Rule.remaining_probeLeft`,
  `Rule.remaining_probeBuilt`: the same where nothing is missed.
-/

namespace PlanarJoin

open Envelope

variable {α β : Type}

/-! ## Pairs -/

/-- The pairs of two lists with a property, as often as their parts occur. -/
def pairsOf (p : α → β → Bool) (as : List α) (bs : List β) : List (α × β) :=
  as.flatMap fun a => (bs.filter (p a)).map fun b => (a, b)

theorem pairsOf_eq_flatMap (p : α → β → Bool) (as : List α) (bs : List β) :
    pairsOf p as bs = as.flatMap fun a => bs.flatMap fun b => if p a b then [(a, b)] else [] :=
  List.flatMap_congr fun a _ => map_filter_eq_flatMap (p a) (fun b => (a, b)) bs

theorem pairsOf_eq_filter (p : α → β → Bool) (as : List α) (bs : List β) :
    pairsOf p as bs = (as ×ˢ bs).filter fun x => p x.1 x.2 := by
  change _ = (as.flatMap fun a => bs.map (Prod.mk a)).filter _
  rw [List.filter_flatMap]
  exact List.flatMap_congr fun a _ => by rw [List.filter_map]; rfl

/-- The same pairs, gathered by their right parts. -/
theorem pairsOf_perm (p : α → β → Bool) (as : List α) (bs : List β) :
    (pairsOf p as bs).Perm (bs.flatMap fun b => (as.filter (p · b)).map fun a => (a, b)) := by
  rw [pairsOf_eq_flatMap]
  refine (flatMap_comm_perm as bs _).trans (List.Perm.of_eq ?_)
  exact List.flatMap_congr fun b _ => (map_filter_eq_flatMap (p · b) (fun a => (a, b)) as).symm

/-- The pairs of some objects of either list. -/
theorem pairsOf_filter (p : α → β → Bool) (f : α → Bool) (g : β → Bool) (as : List α)
    (bs : List β) :
    pairsOf p (as.filter f) (bs.filter g) = pairsOf (fun a b => (f a && g b) && p a b) as bs := by
  simp only [pairsOf_eq_flatMap, filter_eq_flatMap, List.flatMap_assoc]
  refine List.flatMap_congr ?_
  intro a _
  cases hf : f a with
  | true =>
    rw [if_pos rfl, List.flatMap_singleton]
    refine List.flatMap_congr ?_
    intro b _
    cases g b with
    | true =>
      rw [if_pos rfl, List.flatMap_singleton]
      rfl
    | false => rfl
  | false => exact (List.flatMap_eq_nil_iff.mpr fun b _ => rfl).symm

theorem mem_pairsOf {p : α → β → Bool} {as : List α} {bs : List β} {x : α × β} :
    x ∈ pairsOf p as bs ↔ (x.1 ∈ as ∧ x.2 ∈ bs) ∧ p x.1 x.2 = true := by
  simp only [pairsOf, List.mem_flatMap, List.mem_map, List.mem_filter]
  constructor
  · rintro ⟨a, ha, b, ⟨hb, hp⟩, rfl⟩
    exact ⟨⟨ha, hb⟩, hp⟩
  · rintro ⟨⟨ha, hb⟩, hp⟩
    exact ⟨x.1, ha, x.2, ⟨hb, hp⟩, rfl⟩

theorem pairsOf_congr {p q : α → β → Bool} {as : List α} {bs : List β}
    (h : ∀ a ∈ as, ∀ b ∈ bs, p a b = q a b) : pairsOf p as bs = pairsOf q as bs :=
  List.flatMap_congr fun a ha => congrArg _ (List.filter_congr (h a ha))

theorem pairsOf_sublist {p q : α → β → Bool} (h : ∀ a b, p a b = true → q a b = true)
    (as : List α) (bs : List β) : (pairsOf p as bs).Sublist (pairsOf q as bs) := by
  rw [pairsOf_eq_filter, pairsOf_eq_filter]
  exact List.monotone_filter_right _ fun x => h x.1 x.2

theorem pairsOf_eq_nil {p : α → β → Bool} {as : List α} {bs : List β}
    (h : ∀ a ∈ as, ∀ b ∈ bs, p a b = false) : pairsOf p as bs = [] := by
  rw [List.eq_nil_iff_forall_not_mem]
  intro x hx
  obtain ⟨⟨ha, hb⟩, hp⟩ := mem_pairsOf.mp hx
  rw [h _ ha _ hb] at hp
  cases hp

variable [Spatial α] [Spatial β]

/-- Whether a relation can be decided for a pair and holds. -/
def Relation.decides (r : Relation) (a : α) (b : β) : Bool :=
  match r.holds a b with
  | .ok h => h
  | .error _ => false

theorem Relation.decides_iff {r : Relation} {a : α} {b : β} :
    r.decides a b = true ↔ r.holds a b = .ok true := by
  unfold decides
  split
  · next h heq =>
    rw [heq]
    exact ⟨fun h => congrArg _ h, fun h => Except.ok.inj h⟩
  · next heq =>
    rw [heq]
    exact ⟨fun h => (nomatch h), fun h => (nomatch h)⟩

namespace Rule

/-- Whether a rule leaves a pair to its partition and the relation holds. -/
def accepts (r : Rule) (a : α) (b : β) : Bool :=
  r.owns (Spatial.envelope a) (Spatial.envelope b) && r.relation.decides a b

theorem match?_try (r : Rule) (a : α) (b : β) :
    (r.try a b).match? = if r.accepts a b then some (a, b) else none := by
  unfold Rule.try Trial.match? judge accepts Relation.decides
  dsimp only
  cases r.owns (Spatial.envelope a) (Spatial.envelope b) with
  | false => rfl
  | true =>
    rcases r.relation.holds a b with f | _ | _ <;> rfl

theorem filterMap_try_left (r : Rule) (as : List α) (b : β) :
    (as.map fun a => r.try a b).filterMap Trial.match? =
      (as.filter (r.accepts · b)).map fun a => (a, b) := by
  induction as with
  | nil => rfl
  | cons a as ih =>
    rw [List.map_cons, List.filterMap_cons, match?_try, List.filter_cons]
    split <;> simp_all

theorem filterMap_try_right (r : Rule) (a : α) (bs : List β) :
    (bs.map fun b => r.try a b).filterMap Trial.match? =
      (bs.filter (r.accepts a)).map fun b => (a, b) := by
  induction bs with
  | nil => rfl
  | cons b bs ih =>
    rw [List.map_cons, List.filterMap_cons, match?_try, List.filter_cons]
    split <;> simp_all

/-- What the rule accepts has proper envelopes that meet. -/
def Local (r : Rule) (as : List α) (bs : List β) : Prop :=
  ∀ a ∈ as, ∀ b ∈ bs, r.accepts a b = true → (Spatial.envelope a).isProper = true ∧
    (Spatial.envelope b).isProper = true ∧ (Spatial.envelope a).meets (Spatial.envelope b) = true

variable {r : Rule} {as : List α} {bs : List β}

/-! ## All pairs -/

/-- Trying all pairs gives what the rule accepts. -/
theorem remaining_pairwise (r : Rule) (as : List α) (bs : List β) :
    (r.pairwise as bs).remaining.Perm (pairsOf r.accepts as bs) := by
  unfold pairwise
  split
  · exact .rfl
  · rw [pairsOf_eq_nil fun a _ b hb => absurd hb List.not_mem_nil]
    exact .rfl
  · refine List.Perm.trans (List.Perm.of_eq ?_) (pairsOf_perm _ as bs).symm
    rw [MatchStream.remaining_ofRounds, List.flatMap_map]
    exact List.flatMap_congr fun b _ => filterMap_try_left r as b

/-! ## Probing an index -/

/-- Whether the rule accepts a pair to which an index of the right side leads. -/
def findsRight (r : Rule) (f : Frame) (a : α) (b : β) : Bool :=
  Index.leads f (Spatial.envelope a) b && r.accepts a b

/-- Whether the rule accepts a pair to which an index of the left side leads. -/
def findsLeft (r : Rule) (f : Frame) (a : α) (b : β) : Bool :=
  Index.leads f (Spatial.envelope b) a && r.accepts a b

theorem leads_of_not_isProper {f : Frame} {e : Envelope} {a : α}
    (h : ¬ (Spatial.envelope a).isProper = true) : Index.leads f e a = false := by
  have hnot : hasProperEnvelope a = false := Bool.eq_false_iff.mpr h
  rw [Index.leads, hnot, Bool.and_false, Bool.false_and]

section Frames

variable {i : Index β} {j : Index α} (hi : i.Holds (bs.filter hasProperEnvelope))
  (hj : j.Holds (as.filter hasProperEnvelope))

include hi in
/-- The rounds of left objects against an index of the right ones. -/
theorem flatMap_roundsRight : ((r.roundsRight as i).flatMap fun t =>
    t.get.filterMap Trial.match?).Perm (pairsOf (r.findsRight i.store.frame) as bs) := by
  rw [roundsRight, List.flatMap_map]
  refine List.Perm.flatMap_left as ?_
  intro a _
  change List.Perm (List.filterMap Trial.match? (List.map (fun b => r.try a b) _)) _
  rw [filterMap_try_right]
  refine (((hi.query_leads _).filter _).trans (List.Perm.of_eq ?_)).map _
  rw [List.filter_filter]
  exact List.filter_congr fun b _ => Bool.and_comm _ _

include hj in
/-- The rounds of right objects against an index of the left ones. -/
theorem flatMap_roundsLeft : ((r.roundsLeft j bs).flatMap fun t =>
    t.get.filterMap Trial.match?).Perm (pairsOf (r.findsLeft j.store.frame) as bs) := by
  rw [roundsLeft, List.flatMap_map]
  refine List.Perm.trans (List.Perm.flatMap_left bs ?_) (pairsOf_perm _ as bs).symm
  intro b _
  change List.Perm (List.filterMap Trial.match? (List.map (fun a => r.try a b) _)) _
  rw [filterMap_try_left]
  refine (((hj.query_leads _).filter _).trans (List.Perm.of_eq ?_)).map _
  rw [List.filter_filter]
  exact List.filter_congr fun a _ => Bool.and_comm _ _

include hi in
/-- Streaming the left objects against an index of the right ones gives what the rule accepts of
those to which the index leads. -/
theorem remaining_findsRight :
    (r.probeRight as i).remaining.Perm (pairsOf (r.findsRight i.store.frame) as bs) := by
  unfold probeRight
  split
  · next hempty =>
    rw [Bool.or_eq_true, hi.isEmpty_iff, List.isEmpty_iff] at hempty
    refine List.Perm.of_eq (pairsOf_eq_nil fun a ha b hb => ?_).symm
    have hb := hempty.resolve_right (List.ne_nil_of_mem ha) b hb
    rw [findsRight, leads_of_not_isProper hb, Bool.false_and]
  · exact flatMap_roundsRight hi

include hj in
/-- Streaming the right objects against an index of the left ones gives what the rule accepts of
those to which the index leads. -/
theorem remaining_findsLeft :
    (r.probeLeft j bs).remaining.Perm (pairsOf (r.findsLeft j.store.frame) as bs) := by
  unfold probeLeft
  split
  · next hempty =>
    rw [Bool.or_eq_true, hj.isEmpty_iff, List.isEmpty_iff] at hempty
    refine List.Perm.of_eq (pairsOf_eq_nil fun a ha b hb => ?_).symm
    have ha := hempty.resolve_right (List.ne_nil_of_mem hb) a ha
    rw [findsLeft, leads_of_not_isProper ha, Bool.false_and]
  · exact flatMap_roundsLeft hj

end Frames

/-- Whether the rule accepts a pair to which an index of a side leads, if it has some settings. -/
def findsBuilt (r : Rule) (s : IndexSettings) (side : Side) : α → β → Bool :=
  match side with
  | .left => r.findsLeft (s.newStore : Store α).frame
  | .right => r.findsRight (s.newStore : Store β).frame

/-- Streaming one side against an index built of the other gives what the rule accepts of those to
which the index leads. -/
theorem remaining_findsBuilt (r : Rule) (s : IndexSettings) (side : Side) (as : List α)
    (bs : List β) :
    (r.probeBuilt s side as bs).remaining.Perm (pairsOf (r.findsBuilt s side) as bs) := by
  unfold probeBuilt
  split
  · next hempty =>
    rw [List.isEmpty_iff.mp hempty]
    exact .rfl
  · split
    · next hempty =>
      rw [List.isEmpty_iff.mp hempty, pairsOf_eq_nil fun a _ b hb => absurd hb List.not_mem_nil]
      exact .rfl
    · cases side with
      | left =>
        dsimp only [findsBuilt]
        rw [← Index.frame_ofList s as]
        exact flatMap_roundsLeft (Index.holds_ofList s as)
      | right =>
        dsimp only [findsBuilt]
        rw [← Index.frame_ofList s bs]
        exact flatMap_roundsRight (Index.holds_ofList s bs)

/-! ## Regular frames -/

section Regular

variable {f : Frame} (hf : f.Regular) (hr : r.Local as bs)

include hf hr

/-- An index of the right side over a regular frame leads to all that the rule accepts. -/
theorem pairsOf_findsRight : pairsOf (r.findsRight f) as bs = pairsOf r.accepts as bs := by
  refine pairsOf_congr fun a ha b hb => ?_
  rw [findsRight]
  cases hacc : r.accepts a b with
  | false => exact Bool.and_false _
  | true =>
    obtain ⟨hpa, hpb, hm⟩ := hr a ha b hb hacc
    have htouches : touches (Spatial.envelope a) b = true :=
      (meets_comm (ordered_of_isProper hpb) (ordered_of_isProper hpa)).trans hm
    have hkept : hasProperEnvelope b = true := hpb
    rw [Index.leads, hpa, hkept, Frame.finds_of_touches hf hpa hpb htouches]
    rfl

/-- An index of the left side over a regular frame leads to all that the rule accepts. -/
theorem pairsOf_findsLeft : pairsOf (r.findsLeft f) as bs = pairsOf r.accepts as bs := by
  refine pairsOf_congr fun a ha b hb => ?_
  rw [findsLeft]
  cases hacc : r.accepts a b with
  | false => exact Bool.and_false _
  | true =>
    obtain ⟨hpa, hpb, hm⟩ := hr a ha b hb hacc
    have hkept : hasProperEnvelope a = true := hpa
    rw [Index.leads, hpb, hkept, Frame.finds_of_touches hf hpb hpa hm]
    rfl

end Regular

/-- Streaming the left objects against an index of the right ones gives what the rule accepts. -/
theorem remaining_probeRight {i : Index β} (hi : i.Serves bs) (hr : r.Local as bs) :
    (r.probeRight as i).remaining.Perm (pairsOf r.accepts as bs) :=
  pairsOf_findsRight hi.regular hr ▸ remaining_findsRight hi.holds

theorem remaining_probeLeft {i : Index α} (hi : i.Serves as) (hr : r.Local as bs) :
    (r.probeLeft i bs).remaining.Perm (pairsOf r.accepts as bs) :=
  pairsOf_findsLeft hi.regular hr ▸ remaining_findsLeft hi.holds

/-- Streaming one side against an index built of the other gives what the rule accepts. -/
theorem remaining_probeBuilt {s : IndexSettings} (hs : s.validate = .ok ()) (ht : s.Untiered)
    (hr : r.Local as bs) (side : Side) :
    (r.probeBuilt s side as bs).remaining.Perm (pairsOf r.accepts as bs) := by
  have h := r.remaining_findsBuilt s side as bs
  cases side with
  | left => exact pairsOf_findsLeft (Store.regular_newStore hs ht) hr ▸ h
  | right => exact pairsOf_findsRight (Store.regular_newStore hs ht) hr ▸ h

end Rule

end PlanarJoin
