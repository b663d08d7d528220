import PlanarJoin.Proofs.Nearest.Scan

/-!
# What a selector keeps, and what it answers

After any offers a selector holds the nearest of those at a finite distance.  As long as it is asked
for, it tells the greatest distance it holds, if it is full; and it says of each offer whether it
has taken it.  What it takes is added to what it holds, and at most one item is given up for it,
which is strictly farther.

## Main definitions

* `Selector.kept`: the items held.
* `Selector.afterOffers`: a selector that has been offered some items.

## Main results

* `Selector.Selects.worst?_isSome_iff`, `Selector.Selects.le_worst`: when and what a selector tells
  as its greatest distance.
* `Selector.push_cases`, `Selector.push_eq_true_iff`: an offer is taken, or changes nothing.
* `Selector.afterOffers_spec`: all of this after any offers.
-/

namespace PlanarJoin

open Binary64

variable {α : Type}

namespace Selector

/-- The items held, in no particular order. -/
def kept (s : Selector α) : List (Ranked α) :=
  s.heap.entries.toList

/-- A selector with a limit that has been offered some items. -/
def afterOffers (k : Nat) (es : List (Ranked α)) : Selector α :=
  (withLimit k).pushAll es

variable {s : Selector α} {k : Nat} {es : List (Ranked α)} {e : Ranked α}

theorem Selects.isFinite_of_mem (h : s.Selects k es) (he : e ∈ s.kept) : e.isFinite = true :=
  (List.mem_filter.mp (h.keeps.subperm.subset he)).2

/-! ## The greatest distance -/

theorem top?_isSome_iff (s : Selector α) : s.heap.top?.isSome = true ↔ 0 < s.size := by
  rw [Heap.top?, Option.isSome_iff_ne_none, Ne, Array.getElem?_eq_none_iff, Nat.not_le]
  exact Iff.rfl

/-- A selector tells its greatest distance if it holds something, and all that it may hold. -/
theorem Selects.worst?_isSome_iff (h : s.Selects k es) :
    s.worst?.isSome = true ↔ 1 ≤ k ∧ s.kept.length = k := by
  have hle := h.length_le
  have hsize : s.kept.length = s.size := rfl
  rw [worst?, isFull, h.limit, hsize]
  split
  · next hfull =>
    have hfull : k ≤ s.size := of_decide_eq_true hfull
    rw [Option.isSome_map, top?_isSome_iff]
    omega
  · next hroom =>
    have hroom : ¬ k ≤ s.size := fun hfull => hroom (decide_eq_true hfull)
    exact iff_of_false nofun (by omega)

/-- What a selector tells is the distance of an item that it holds, and no other item is farther. -/
theorem Selects.le_worst (h : s.Selects k es) {d : Float} (hd : s.worst? = some d) :
    ∃ far ∈ s.kept, far.distance = d ∧ ∀ x ∈ s.kept, x.distance ≤ d := by
  rw [worst?] at hd
  split at hd
  · obtain ⟨far, htop, rfl⟩ := Option.map_eq_some_iff.mp hd
    have hmem : far ∈ s.kept := Array.mem_toList_iff.mpr (Array.mem_of_getElem? htop)
    refine ⟨far, hmem, rfl, fun x hx => ?_⟩
    exact le_iff.mpr ⟨isNaN_of_isFinite (h.isFinite_of_mem hx),
      isNaN_of_isFinite (h.isFinite_of_mem hmem), h.wellFormed.key_le_top htop x hx⟩
  · cases hd

/-! ## Answers to offers -/

/-- An offer that is taken is added, and at most one farther item given up for it; an offer that is
not taken changes nothing. -/
theorem push_cases (s : Selector α) (e : Ranked α) :
    ((s.push e).1 = true ∧ ∃ out, (e :: s.kept).Perm ((s.push e).2.kept ++ out) ∧
      out.length ≤ 1 ∧ ∀ x ∈ out, e.distance < x.distance) ∨
    ((s.push e).1 = false ∧ (s.push e).2 = s) := by
  unfold Selector.push
  split
  · exact .inr ⟨rfl, rfl⟩
  · next hoffer =>
    split
    · refine .inl ⟨rfl, [], ?_, Nat.zero_le _, nofun⟩
      rw [List.append_nil]
      exact (Heap.push_perm s.heap e).symm
    · next hfull =>
      split
      · next far htop =>
        split
        · next hlt =>
          refine .inl ⟨rfl, [far], ?_, le_rfl, fun x hx => List.mem_singleton.mp hx ▸ hlt⟩
          have hpop : (far :: s.heap.pop.entries.toList).Perm s.kept := Heap.pop_perm htop
          refine ((hpop.symm.cons e).trans (.swap far e _)).trans ?_
          exact ((Heap.push_perm _ e).symm.cons far).trans (List.perm_append_singleton far _).symm
        · exact .inr ⟨rfl, rfl⟩
      · exact .inr ⟨rfl, rfl⟩

/-- An item that was not held before is held after its offer just if the offer was taken. -/
theorem push_eq_true_iff (he : e ∉ s.kept) :
    (s.push e).1 = true ↔ e ∈ (s.push e).2.kept := by
  rcases s.push_cases e with ⟨htaken, out, hperm, -, hout⟩ | ⟨hrefused, hsame⟩
  · refine iff_of_true htaken ?_
    have hmem := hperm.mem_iff.mp List.mem_cons_self
    refine (List.mem_append.mp hmem).resolve_right fun hin => ?_
    exact absurd (lt_iff.mp (hout e hin)).2.2 (lt_irrefl _)
  · rw [hrefused, hsame]
    exact iff_of_false nofun he

/-! ## After any offers -/

theorem selects_afterOffers (k : Nat) (es : List (Ranked α)) :
    (afterOffers k es).Selects k es := by
  have h := (selects_withLimit k).pushAll es
  rw [List.nil_append] at h
  exact h

/-- After any offers, a selector gives the nearest of those at a finite distance, the nearest first;
it tells the greatest distance that it holds just if it is full and holds something; and a further
offer is taken just if the item is held afterwards. -/
theorem afterOffers_spec (k : Nat) (es : List (Ranked α)) :
    ((afterOffers k es).ascending.length = min k (es.filter Ranked.isFinite).length ∧
      (afterOffers k es).ascending.Pairwise (·.distance ≤ ·.distance) ∧
      (afterOffers k es).ascending.Subperm es ∧
      ∃ rest, ((afterOffers k es).ascending ++ rest).Perm (es.filter Ranked.isFinite) ∧
        ∀ a ∈ (afterOffers k es).ascending, ∀ b ∈ rest, a.distance ≤ b.distance) ∧
    (afterOffers k es).kept.Perm (afterOffers k es).ascending ∧
    ((afterOffers k es).worst?.isSome = true ↔ 1 ≤ k ∧ (afterOffers k es).kept.length = k) ∧
    (∀ d, (afterOffers k es).worst? = some d → ∃ far ∈ (afterOffers k es).kept, far.distance = d ∧
      ∀ x ∈ (afterOffers k es).kept, x.distance ≤ d) ∧
    ∀ e, ((((afterOffers k es).push e).1 = true ∧
        ∃ out, (e :: (afterOffers k es).kept).Perm (((afterOffers k es).push e).2.kept ++ out) ∧
          out.length ≤ 1 ∧ ∀ x ∈ out, e.distance < x.distance) ∨
      (((afterOffers k es).push e).1 = false ∧
        ((afterOffers k es).push e).2 = afterOffers k es)) ∧
      (e ∉ (afterOffers k es).kept → (((afterOffers k es).push e).1 = true ↔
        e ∈ ((afterOffers k es).push e).2.kept)) := by
  have h := selects_afterOffers k es
  obtain ⟨hkeeps, hsorted⟩ := h.ascending
  have hnum : ∀ e ∈ es.filter Ranked.isFinite, e.distance.isNaN = false := fun e he =>
    isNaN_of_isFinite (List.mem_filter.mp he).2
  obtain ⟨rest, hperm, hle⟩ := hkeeps.2
  refine ⟨⟨hkeeps.1, hkeeps.pairwise_le hnum hsorted, ?_, rest, hperm, ?_⟩, ?_,
    h.worst?_isSome_iff, fun d => h.le_worst, fun e => ⟨push_cases _ e, push_eq_true_iff⟩⟩
  · exact hkeeps.subperm.trans List.filter_sublist.subperm
  · intro a ha b hb
    exact le_iff.mpr ⟨hnum a (hperm.mem_iff.mp (List.mem_append_left _ ha)),
      hnum b (hperm.mem_iff.mp (List.mem_append_right _ hb)), hle a ha b hb⟩
  · exact (Heap.pairwise_ascending h.wellFormed).1.symm

/-- Three offers, one of them without a distance. -/
def threeOffers : List (Ranked Nat) :=
  [⟨3.0, 1⟩, ⟨0.0 / 0.0, 2⟩, ⟨1.0, 3⟩]

/-- A selector of two that has been filled by these takes a nearer item in place of the farther of
the two. -/
theorem afterOffers_threeOffers :
    (∃ far ∈ (afterOffers 2 threeOffers).kept, far.distance = 3.0 ∧
      ∀ x ∈ (afterOffers 2 threeOffers).kept, x.distance ≤ 3.0) ∧
    ((afterOffers 2 threeOffers).push ⟨2.0, 4⟩).1 = true ∧
    (⟨2.0, 4⟩ : Ranked Nat) ∈ ((afterOffers 2 threeOffers).push ⟨2.0, 4⟩).2.kept := by
  obtain ⟨-, -, -, hworst, hoffer⟩ := afterOffers_spec 2 threeOffers
  have hfresh : (⟨2.0, 4⟩ : Ranked Nat) ∉ (afterOffers 2 threeOffers).kept := by
    have hitems : 4 ∉ (afterOffers 2 threeOffers).kept.map (·.item) := by decide +kernel
    exact fun hmem => hitems (List.mem_map_of_mem hmem)
  have htaken : ((afterOffers 2 threeOffers).push ⟨2.0, 4⟩).1 = true := by decide +kernel
  exact ⟨hworst 3.0 (by decide +kernel), htaken, ((hoffer ⟨2.0, 4⟩).2 hfresh).mp htaken⟩

end Selector

end PlanarJoin
