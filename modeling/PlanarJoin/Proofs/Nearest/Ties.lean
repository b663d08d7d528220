import Mathlib.Data.List.Nodup
import Mathlib.Data.Prod.Lex
import PlanarJoin.Proofs.Nearest.Offers

/-!
# Which of equal distances are kept

Offers are numbered by arrival, which changes nothing, as a selector looks at distances only.  What
becomes of each is entered in a ledger: it is kept, it was refused, or it was given up for a nearer
one.  An offer that was refused comes after all that are kept, by distance and then by arrival.  An
offer that was given up was one of the farthest, and the heap does not tell which of these arrived
last.  So the earliest of equal distances are kept just if no offer was given up that arrived before
one that is kept at the same distance.  A selector of one gives up nothing else.  A selector of more
gives up the first of its offers when they are all as far and a nearer one follows.

## Main definitions

* `Ranked.map`, `Selector.map`: other items at the same distances.
* `Ledger`: a selector with the offers that it refused and that it gave up.
* `arrivals`: offers with their numbers of arrival.
* `Ranked.place`: the distance of an offer, then its number of arrival.
* `earliest`: the first offers by these places.

## Main results

* `Selector.afterOffers_map`: a selector looks at distances only.
* `Ledger.Accounts.offer`: an offer is entered once.
* `perm_take_mergeSort_iff`: when some of a list are the first of it.
* `Selector.keeps_earliest_iff`: when the earliest of equal distances are kept.
-/

namespace PlanarJoin

open Binary64

/-! ## Other items at the same distances -/

section Map

variable {α β : Type} (f : α → β)

/-- Another item at the same distance. -/
def Ranked.map (e : Ranked α) : Ranked β :=
  ⟨e.distance, f e.item⟩

namespace Heap

/-- A heap with other items at the same places. -/
def map (h : Heap α) : Heap β :=
  ⟨h.entries.map (Ranked.map f)⟩

theorem distanceAt_map (es : Array (Ranked α)) (i : Nat) :
    distanceAt (es.map (Ranked.map f)) i = distanceAt es i := by
  rw [distanceAt, distanceAt, Array.getElem?_map]
  cases es[i]? <;> rfl

theorem swapIfInBounds_map {γ δ : Type} (g : γ → δ) (es : Array γ) (i j : Nat) :
    (es.map g).swapIfInBounds i j = (es.swapIfInBounds i j).map g := by
  simp only [Array.swapIfInBounds_def, Array.size_map]
  split
  · split
    · refine Array.ext_getElem? fun m => ?_
      rw [Array.getElem?_map, Array.getElem?_swap, Array.getElem?_swap]
      split_ifs <;> simp
    · rfl
  · rfl

theorem rise_map (es : Array (Ranked α)) (i : Nat) :
    rise (es.map (Ranked.map f)) i = (rise es i).map (Ranked.map f) := by
  fun_induction rise es i with
  | case1 es i hpos parent hlt ih =>
    rw [rise, dif_pos hpos]
    simp only [distanceAt_map]
    rw [if_pos hlt, swapIfInBounds_map, ih]
  | case2 es i hpos parent hge =>
    rw [rise, dif_pos hpos]
    simp only [distanceAt_map]
    rw [if_neg hge]
  | case3 es i hpos => rw [rise, dif_neg hpos]

theorem sink_map (es : Array (Ranked α)) (i : Nat) :
    sink (es.map (Ranked.map f)) i = ((sink es i).1.map (Ranked.map f), (sink es i).2) := by
  fun_induction sink es i with
  | case1 es i left hlt child ih =>
    rw [sink]
    simp only [distanceAt_map, Array.size_map]
    rw [dif_pos hlt, swapIfInBounds_map]
    exact ih
  | case2 es i left hnot hlast =>
    rw [sink]
    simp only [Array.size_map]
    rw [dif_neg hnot, if_pos hlast, swapIfInBounds_map]
  | case3 es i left hnot hlast =>
    rw [sink]
    simp only [Array.size_map]
    rw [dif_neg hnot, if_neg hlast]

theorem top?_map (h : Heap α) : (h.map f).top? = h.top?.map (Ranked.map f) :=
  Array.getElem?_map

theorem push_map (h : Heap α) (e : Ranked α) : (h.map f).push (e.map f) = (h.push e).map f := by
  rw [push, map, ← Array.map_push, Array.size_map, rise_map]
  rfl

theorem pop?_map (h : Heap α) :
    (h.map f).pop? = h.pop?.map fun p => (p.1.map f, p.2.map f) := by
  unfold pop?
  simp only [map, Array.back?_map, ← Array.map_pop, Array.getElem?_map]
  cases h.entries.back? with
  | none => rfl
  | some last =>
    dsimp only [Option.map_some]
    cases h.entries.pop[0]? with
    | none => rfl
    | some top =>
      dsimp only [Option.map_some]
      rw [← Array.map_setIfInBounds, sink_map, rise_map]

theorem pop_map (h : Heap α) : (h.map f).pop = h.pop.map f := by
  rw [pop, pop?_map, pop]
  cases h.pop? <;> rfl

end Heap

namespace Selector

/-- A selector with other items at the same places. -/
def map (s : Selector α) : Selector β :=
  ⟨s.limit, s.heap.map f⟩

theorem push_map (s : Selector α) (e : Ranked α) :
    (s.map f).push (e.map f) = ((s.push e).1, (s.push e).2.map f) := by
  have hsize : (s.map f).size = s.size := Array.size_map
  have hheap : (s.map f).heap = s.heap.map f := rfl
  have hlimit : (s.map f).limit = s.limit := rfl
  have hdistance (x : Ranked α) : (x.map f).distance = x.distance := rfl
  unfold push
  simp only [hsize, hheap, hlimit, hdistance, Heap.top?_map, Heap.pop_map, Heap.push_map]
  by_cases hoffer : (s.limit = 0 || !e.distance.isFinite) = true
  · rw [if_pos hoffer, if_pos hoffer]
  · rw [if_neg hoffer, if_neg hoffer]
    by_cases hroom : s.size < s.limit
    · rw [if_pos hroom, if_pos hroom]
      rfl
    · rw [if_neg hroom, if_neg hroom]
      cases s.heap.top? with
      | none => rfl
      | some far =>
        dsimp only [Option.map_some]
        rw [hdistance]
        by_cases hlt : e.distance < far.distance
        · rw [if_pos hlt, if_pos hlt]
          rfl
        · rw [if_neg hlt, if_neg hlt]

/-- A selector looks at distances only. -/
theorem afterOffers_map (k : Nat) (es : List (Ranked α)) :
    afterOffers k (es.map (Ranked.map f)) = (afterOffers k es).map f := by
  have hstart : (withLimit k : Selector β) = (withLimit k : Selector α).map f := by
    simp only [withLimit, map, Heap.map, Heap.empty, Array.map_empty]
  rw [afterOffers, afterOffers, hstart]
  generalize (withLimit k : Selector α) = s
  unfold pushAll
  induction es generalizing s with
  | nil => rfl
  | cons e es ih =>
    rw [List.map_cons, List.foldl_cons, List.foldl_cons, push_map]
    exact ih (s.push e).2

end Selector

end Map

/-! ## The ledger -/

/-- A selector with the offers that it refused, and those that it gave up for nearer ones. -/
structure Ledger (α : Type) where
  selector : Selector α
  refused : List (Ranked α)
  givenUp : List (Ranked α)

namespace Ledger

variable {α : Type}

/-- What is held. -/
def kept (l : Ledger α) : List (Ranked α) :=
  l.selector.kept

/-- An offer is refused, or taken; where there is no room the farthest item is given up for it. -/
def offer (l : Ledger α) (e : Ranked α) : Ledger α :=
  let (taken, s) := l.selector.push e
  if taken then
    ⟨s, l.refused, l.givenUp ++ if l.selector.isFull then l.selector.heap.top?.toList else []⟩
  else ⟨s, l.refused ++ [e], l.givenUp⟩

/-- What becomes of some offers to a selector with a limit. -/
def ofOffers (k : Nat) (es : List (Ranked α)) : Ledger α :=
  es.foldl offer ⟨.withLimit k, [], []⟩

theorem selector_offer (l : Ledger α) (e : Ranked α) :
    (l.offer e).selector = (l.selector.push e).2 := by
  unfold offer
  dsimp only
  split <;> rfl

theorem selector_ofOffers (k : Nat) (es : List (Ranked α)) :
    (ofOffers k es).selector = .afterOffers k es := by
  have hfold (l : Ledger α) : (es.foldl offer l).selector = l.selector.pushAll es := by
    unfold Selector.pushAll
    induction es generalizing l with
    | nil => rfl
    | cons e es ih => rw [List.foldl_cons, List.foldl_cons, ih, selector_offer]
  exact hfold _

theorem ofOffers_append (k : Nat) (es : List (Ranked α)) (e : Ranked α) :
    ofOffers k (es ++ [e]) = (ofOffers k es).offer e := by
  rw [ofOffers, List.foldl_append]
  rfl

/-- An offer is refused, and then it is no nearer than what is held by a selector without room; or
it is added where there is room; or it is taken in place of a farther item. -/
theorem offer_cases {l : Ledger α} {k : Nat} {es : List (Ranked α)} (h : l.selector.Selects k es)
    (e : Ranked α) :
    (l.offer e = ⟨l.selector, l.refused ++ [e], l.givenUp⟩ ∧
      (e.isFinite = true → k ≤ l.selector.size ∧ ∀ y ∈ l.kept, y.key ≤ e.key)) ∨
    (∃ s, l.offer e = ⟨s, l.refused, l.givenUp⟩ ∧ l.selector.size < k ∧
      s.kept.Perm (e :: l.kept)) ∨
    ∃ s far rest, l.offer e = ⟨s, l.refused, l.givenUp ++ [far]⟩ ∧ k ≤ l.selector.size ∧
      e.key < far.key ∧ l.kept.Perm (far :: rest) ∧ s.kept.Perm (e :: rest) := by
  have hlimit := h.limit
  unfold offer Selector.push
  by_cases hoffer : (l.selector.limit = 0 || !e.distance.isFinite) = true
  · refine .inl ⟨by rw [if_pos hoffer]; rfl, fun he => ?_⟩
    have hzero : k = 0 := by
      rw [show e.distance.isFinite = true from he, Bool.not_true, Bool.or_false,
        decide_eq_true_eq] at hoffer
      omega
    have hnil : l.kept = [] := List.eq_nil_of_length_eq_zero (Nat.le_zero.mp (hzero ▸ h.length_le))
    rw [hnil]
    exact ⟨by omega, nofun⟩
  · rw [if_neg hoffer]
    by_cases hroom : l.selector.size < l.selector.limit
    · have hnot : ¬ l.selector.isFull = true := by
        rw [Selector.isFull, decide_eq_true_eq]
        omega
      refine .inr (.inl ⟨⟨l.selector.limit, l.selector.heap.push e⟩, ?_, by omega,
        Heap.push_perm _ _⟩)
      rw [if_pos hroom]
      dsimp only
      rw [if_neg hnot, if_pos rfl, List.append_nil]
    · rw [if_neg hroom]
      have hfull : l.selector.isFull = true := decide_eq_true (not_lt.mp hroom)
      cases htop : l.selector.heap.top? with
      | none =>
        have hzero : ¬ 0 < l.selector.size := by
          rw [← Selector.top?_isSome_iff, htop]
          exact Bool.false_ne_true
        rw [Bool.or_eq_true, decide_eq_true_eq, not_or] at hoffer
        omega
      | some far =>
        dsimp only
        by_cases hlt : e.distance < far.distance
        · refine .inr (.inr ⟨⟨l.selector.limit, l.selector.heap.pop.push e⟩, far, _, ?_, by omega,
            (lt_iff.mp hlt).2.2, (Heap.pop_perm htop).symm, Heap.push_perm _ _⟩)
          rw [if_pos hlt]
          dsimp only
          rw [if_pos hfull, if_pos rfl, Option.toList_some]
        · refine .inl ⟨by rw [if_neg hlt]; rfl, fun he => ⟨by omega, ?_⟩⟩
          exact h.key_le_of_not_lt htop he hlt

end Ledger

/-! ## Places -/

section Places

variable {α : Type}

/-- Offers with their numbers of arrival. -/
def arrivals (es : List (Ranked α)) : List (Ranked (Entry α)) :=
  (Store.numbered es).map fun e => ⟨e.item.distance, e.arrival, e.item.item⟩

theorem arrivals_append (es : List (Ranked α)) (e : Ranked α) :
    arrivals (es ++ [e]) = arrivals es ++ [⟨e.distance, es.length, e.item⟩] := by
  rw [arrivals, Store.numbered_append, List.map_append]
  rfl

theorem map_item_arrivals (es : List (Ranked α)) :
    (arrivals es).map (Ranked.map (·.item)) = es := by
  rw [arrivals, List.map_map]
  exact Store.map_item_numbered es

theorem arrival_lt {es : List (Ranked α)} {x : Ranked (Entry α)} (hx : x ∈ arrivals es) :
    x.item.arrival < es.length := by
  induction es using List.reverseRecOn with
  | nil => cases hx
  | append_singleton es e ih =>
    rw [arrivals_append, List.mem_append, List.mem_singleton] at hx
    rw [List.length_append, List.length_singleton]
    rcases hx with hx | rfl
    · exact Nat.lt_succ_of_lt (ih hx)
    · exact Nat.lt_succ_self es.length

theorem arrivals_tied (d : Float) (as : List α) :
    arrivals (as.map (⟨d, ·⟩)) = (Store.numbered as).map (⟨d, ·⟩) := by
  simp only [arrivals, Store.numbered, List.zipIdx_map, List.map_map]
  rfl

theorem exists_numbered (a₁ a₂ : α) (as : List α) : ∃ rest : List (Entry α),
    rest.length = as.length ∧ Store.numbered (a₁ :: a₂ :: as) = ⟨0, a₁⟩ :: ⟨1, a₂⟩ :: rest :=
  ⟨(as.zipIdx 2).map fun p => ⟨p.2, p.1⟩, by rw [List.length_map, List.length_zipIdx], rfl⟩

/-- The distance of an offer, then its number of arrival. -/
def Ranked.place (x : Ranked (Entry α)) : Int ×ₗ Nat :=
  toLex (x.key, x.item.arrival)

theorem place_lt_iff {x y : Ranked (Entry α)} :
    x.place < y.place ↔ x.key < y.key ∨ x.key = y.key ∧ x.item.arrival < y.item.arrival :=
  Prod.Lex.toLex_lt_toLex

theorem place_le_iff {x y : Ranked (Entry α)} :
    x.place ≤ y.place ↔ x.key < y.key ∨ x.key = y.key ∧ x.item.arrival ≤ y.item.arrival :=
  Prod.Lex.toLex_le_toLex

theorem nodup_place (es : List (Ranked α)) : ((arrivals es).map Ranked.place).Nodup := by
  refine List.Pairwise.map _ (fun x y hne hplace => hne ?_) ?_ (R := fun x y =>
    x.item.arrival ≠ y.item.arrival)
  · exact congrArg (fun p => (ofLex p).2) hplace
  · rw [arrivals, List.pairwise_map]
    exact (Store.pairwise_numbered es).imp Nat.ne_of_lt

/-- The first `k` offers at a finite distance, by distance and then by arrival. -/
def earliest (k : Nat) (es : List (Ranked α)) : List (Ranked (Entry α)) :=
  (((arrivals es).filter Ranked.isFinite).mergeSort fun x y => decide (x.place ≤ y.place)).take k

/-- Some of a list, as many as are asked for or all, are the first of it just if what is left does
not come before any of them. -/
theorem perm_take_mergeSort_iff {γ ι : Type} [LinearOrder ι] (place : γ → ι) {k : Nat}
    {es kept rest : List γ} (hnodup : (es.map place).Nodup) (hperm : (kept ++ rest).Perm es)
    (hlen : kept.length = min k es.length) :
    kept.Perm ((es.mergeSort fun x y => decide (place x ≤ place y)).take k) ↔
      ∀ y ∈ kept, ∀ x ∈ rest, place y ≤ place x := by
  have hsort (zs : List γ) : (zs.mergeSort fun x y => decide (place x ≤ place y)).Pairwise
      fun x y => place x ≤ place y := by
    have hpair : (zs.mergeSort fun x y => decide (place x ≤ place y)).Pairwise
        fun x y => decide (place x ≤ place y) = true :=
      List.pairwise_mergeSort (fun a b c => by simpa using le_trans)
        (fun a b => by simpa using le_total _ _) zs
    exact hpair.imp of_decide_eq_true
  have hsorted (zs : List γ) := List.mergeSort_perm zs fun x y => decide (place x ≤ place y)
  constructor
  · intro htake y hy x hx
    have hdrop : rest.Perm ((es.mergeSort fun x y => decide (place x ≤ place y)).drop k) := by
      refine (List.perm_append_left_iff kept).mp (hperm.trans ((hsorted es).symm.trans ?_))
      exact (List.Perm.of_eq (List.take_append_drop k _).symm).trans (htake.symm.append_right _)
    have hpair := hsort es
    rw [← List.take_append_drop k (es.mergeSort _), List.pairwise_append] at hpair
    exact hpair.2.2 y (htake.mem_iff.mp hy) x (hdrop.mem_iff.mp hx)
  · intro hle
    have heq : (es.mergeSort fun x y => decide (place x ≤ place y)) =
        (kept.mergeSort fun x y => decide (place x ≤ place y)) ++
          rest.mergeSort fun x y => decide (place x ≤ place y) := by
      refine List.Perm.eq_of_pairwise ?_ (hsort es) (List.pairwise_append.mpr
        ⟨hsort kept, hsort rest, ?_⟩) ?_
      · intro a b ha hb hab hba
        have ha := (hsorted es).mem_iff.mp ha
        have hb : b ∈ kept ++ rest := ((hsorted kept).append (hsorted rest)).mem_iff.mp hb
        exact List.inj_on_of_nodup_map hnodup ha (hperm.mem_iff.mp hb) (le_antisymm hab hba)
      · intro y hy x hx
        exact hle y ((hsorted kept).mem_iff.mp hy) x ((hsorted rest).mem_iff.mp hx)
      · exact (hsorted es).trans (hperm.symm.trans ((hsorted kept).append (hsorted rest)).symm)
    rw [heq]
    have htotal := hperm.length_eq
    rw [List.length_append] at htotal
    rcases Nat.lt_or_ge k es.length with hlt | hge
    · rw [List.take_left' (by rw [List.length_mergeSort]; omega)]
      exact (hsorted kept).symm
    · obtain rfl : rest = [] := List.eq_nil_of_length_eq_zero (by omega)
      rw [List.mergeSort_nil, List.append_nil, List.take_of_length_le
        (by rw [List.length_mergeSort]; omega)]
      exact (hsorted kept).symm

end Places

/-! ## What becomes of each offer -/

namespace Ledger

variable {α : Type}

/-- A ledger in which each of some numbered offers is entered once.  A refused offer comes after all
that are held.  Where only one is held, it is nearer than all that were given up. -/
structure Accounts (l : Ledger (Entry α)) (k : Nat) (es : List (Ranked (Entry α))) : Prop where
  selects : l.selector.Selects k es
  all : (l.kept ++ l.refused ++ l.givenUp).Perm es
  refused : ∀ x ∈ l.refused, x.isFinite = true →
    k ≤ l.selector.size ∧ ∀ y ∈ l.kept, y.place < x.place
  givenUp : ∀ x ∈ l.givenUp, x.isFinite = true ∧ k ≤ l.selector.size ∧
    (k ≤ 1 → ∀ y ∈ l.kept, y.key < x.key)

variable {l : Ledger (Entry α)} {k : Nat} {es : List (Ranked (Entry α))} {e : Ranked (Entry α)}

theorem accounts_start (k : Nat) : (⟨.withLimit k, [], []⟩ : Ledger (Entry α)).Accounts k [] :=
  ⟨Selector.selects_withLimit k, .rfl, nofun, nofun⟩

theorem Accounts.mem_of_kept (h : l.Accounts k es) {y : Ranked (Entry α)} (hy : y ∈ l.kept) :
    y ∈ es :=
  h.all.mem_iff.mp (List.mem_append_left _ (List.mem_append_left _ hy))

section Offer

variable (h : l.Accounts k es) {s : Selector (Entry α)}

include h

/-- A refused offer comes after all that is held, as that arrived before. -/
theorem Accounts.refuse (hnew : ∀ x ∈ es, x.item.arrival < e.item.arrival)
    (hafter : e.isFinite = true → k ≤ l.selector.size ∧ ∀ y ∈ l.kept, y.key ≤ e.key)
    (hselects : l.selector.Selects k (es ++ [e])) :
    (⟨l.selector, l.refused ++ [e], l.givenUp⟩ : Ledger (Entry α)).Accounts k (es ++ [e]) := by
  refine ⟨hselects, ?_, ?_, h.givenUp⟩
  · have hmiddle : (l.kept ++ (l.refused ++ [e]) ++ l.givenUp).Perm
        (e :: (l.kept ++ l.refused ++ l.givenUp)) := by
      rw [← List.append_assoc, List.append_assoc (l.kept ++ l.refused)]
      exact List.perm_middle
    exact hmiddle.trans ((h.all.cons e).trans (List.perm_append_singleton e es).symm)
  · intro x hx hfin
    rcases List.mem_append.mp hx with hx | hx
    · exact h.refused x hx hfin
    · obtain rfl := List.mem_singleton.mp hx
      obtain ⟨hfull, hle⟩ := hafter hfin
      refine ⟨hfull, fun y hy => place_lt_iff.mpr ?_⟩
      exact (lt_or_eq_of_le (hle y hy)).imp_right fun hkey => ⟨hkey, hnew y (h.mem_of_kept hy)⟩

/-- Where there is room nothing was refused or given up before. -/
theorem Accounts.add (hroom : l.selector.size < k) (hkept : s.kept.Perm (e :: l.kept))
    (hselects : s.Selects k (es ++ [e])) :
    (⟨s, l.refused, l.givenUp⟩ : Ledger (Entry α)).Accounts k (es ++ [e]) := by
  refine ⟨hselects, ?_, ?_, ?_⟩
  · exact ((hkept.append_right _).append_right _).trans
      ((h.all.cons e).trans (List.perm_append_singleton e es).symm)
  · intro x hx hfin
    exact absurd (h.refused x hx hfin).1 (Nat.not_le.mpr hroom)
  · intro x hx
    exact absurd (h.givenUp x hx).2.1 (Nat.not_le.mpr hroom)

/-- The farthest is given up for a nearer one. -/
theorem Accounts.displace {far : Ranked (Entry α)} {rest : List (Ranked (Entry α))}
    (hfull : k ≤ l.selector.size) (hlt : e.key < far.key) (hkept : l.kept.Perm (far :: rest))
    (hkept' : s.kept.Perm (e :: rest)) (hselects : s.Selects k (es ++ [e])) :
    (⟨s, l.refused, l.givenUp ++ [far]⟩ : Ledger (Entry α)).Accounts k (es ++ [e]) := by
  have hsize : s.size = l.selector.size := hkept'.length_eq.trans hkept.length_eq.symm
  have hfar : far ∈ l.kept := hkept.mem_iff.mpr List.mem_cons_self
  refine ⟨hselects, ?_, ?_, ?_⟩
  · have hmoved : (s.kept ++ l.refused ++ (l.givenUp ++ [far])).Perm
        (e :: (l.kept ++ l.refused ++ l.givenUp)) := by
      rw [← List.append_assoc]
      refine (List.perm_append_singleton far _).trans ?_
      refine ((((hkept'.append_right _).append_right _).cons far).trans (.swap e far _)).trans ?_
      exact (((hkept.append_right _).append_right _).cons e).symm
    exact hmoved.trans ((h.all.cons e).trans (List.perm_append_singleton e es).symm)
  · intro x hx hfin
    obtain ⟨-, hbefore⟩ := h.refused x hx hfin
    refine ⟨hsize ▸ hfull, fun y hy => ?_⟩
    rcases List.mem_cons.mp (hkept'.mem_iff.mp hy) with rfl | hy
    · refine place_lt_iff.mpr (.inl (hlt.trans_le ?_))
      exact (place_lt_iff.mp (hbefore far hfar)).elim le_of_lt fun h => h.1.le
    · exact hbefore y (hkept.mem_iff.mpr (List.mem_cons_of_mem far hy))
  · have hone (hk : k ≤ 1) {y : Ranked (Entry α)} (hy : y ∈ s.kept) : y = e := by
      have hlen := hkept'.length_eq
      have hle : s.kept.length ≤ k := hselects.length_le
      rw [List.length_cons] at hlen
      obtain rfl : rest = [] := List.eq_nil_of_length_eq_zero (by omega)
      exact List.mem_singleton.mp (hkept'.mem_iff.mp hy)
    intro x hx
    rcases List.mem_append.mp hx with hx | hx
    · obtain ⟨hfin, -, hnear⟩ := h.givenUp x hx
      refine ⟨hfin, hsize ▸ hfull, fun hk y hy => ?_⟩
      rw [hone hk hy]
      exact hlt.trans (hnear hk far hfar)
    · obtain rfl := List.mem_singleton.mp hx
      refine ⟨h.selects.isFinite_of_mem hfar, hsize ▸ hfull, fun hk y hy => ?_⟩
      rw [hone hk hy]
      exact hlt

/-- The next offer is entered once. -/
theorem Accounts.offer (hnew : ∀ x ∈ es, x.item.arrival < e.item.arrival) :
    (l.offer e).Accounts k (es ++ [e]) := by
  have hselects : (l.offer e).selector.Selects k (es ++ [e]) := by
    rw [selector_offer]
    exact h.selects.push e
  rcases offer_cases h.selects e with ⟨heq, hafter⟩ | ⟨s, heq, hroom, hkept⟩ |
    ⟨s, far, rest, heq, hfull, hlt, hkept, hkept'⟩
  · rw [heq] at hselects ⊢
    exact h.refuse hnew hafter hselects
  · rw [heq] at hselects ⊢
    exact h.add hroom hkept hselects
  · rw [heq] at hselects ⊢
    exact h.displace hfull hlt hkept hkept' hselects

end Offer

/-- Every offer is entered once. -/
theorem accounts_ofOffers (k : Nat) (es : List (Ranked α)) :
    (ofOffers k (arrivals es)).Accounts k (arrivals es) := by
  induction es using List.reverseRecOn with
  | nil => exact accounts_start k
  | append_singleton es e ih =>
    rw [arrivals_append, ofOffers_append]
    exact ih.offer fun x hx => arrival_lt hx

/-- The offers that are held are the earliest just if none was given up that arrived before one that
is held at the same distance. -/
theorem Accounts.kept_perm_earliest_iff {es : List (Ranked α)} (h : l.Accounts k (arrivals es)) :
    l.kept.Perm (earliest k es) ↔ ∀ x ∈ l.givenUp, ∀ y ∈ l.kept, x.key = y.key →
      y.item.arrival ≤ x.item.arrival := by
  have hkept : l.kept.filter Ranked.isFinite = l.kept :=
    List.filter_eq_self.mpr fun y hy => h.selects.isFinite_of_mem hy
  have hgiven : l.givenUp.filter Ranked.isFinite = l.givenUp :=
    List.filter_eq_self.mpr fun x hx => (h.givenUp x hx).1
  -- what is not held of the finite offers was refused or given up, and is no nearer
  have hperm : (l.kept ++ (l.refused.filter Ranked.isFinite ++ l.givenUp)).Perm
      ((arrivals es).filter Ranked.isFinite) := by
    have hall := h.all.filter Ranked.isFinite
    rwa [List.filter_append, List.filter_append, hkept, hgiven, List.append_assoc] at hall
  have hnodup : (((arrivals es).filter Ranked.isFinite).map Ranked.place).Nodup :=
    (nodup_place es).sublist (List.filter_sublist.map _)
  obtain ⟨hlen, rest, hperm', hle⟩ := h.selects.keeps
  have hrest : rest.Perm (l.refused.filter Ranked.isFinite ++ l.givenUp) :=
    (List.perm_append_left_iff l.kept).mp (hperm'.trans hperm.symm)
  rw [earliest, perm_take_mergeSort_iff Ranked.place hnodup hperm hlen]
  constructor
  · intro hplace x hx y hy hkey
    rcases place_le_iff.mp (hplace y hy x (List.mem_append_right _ hx)) with hlt | ⟨-, harr⟩
    · omega
    · exact harr
  · intro harr y hy x hx
    rcases List.mem_append.mp hx with hr | hg
    · obtain ⟨hr, hfin⟩ := List.mem_filter.mp hr
      exact ((h.refused x hr hfin).2 y hy).le
    · have hkey : y.key ≤ x.key := hle y hy x (hrest.mem_iff.mpr hx)
      exact place_le_iff.mpr
        ((lt_or_eq_of_le hkey).imp_right fun heq => ⟨heq, harr x hg y hy heq.symm⟩)

/-- This is so just if whatever arrived before an offer that is held at the same distance is held
too. -/
theorem Accounts.earlier_kept_iff {es : List (Ranked α)} (h : l.Accounts k (arrivals es)) :
    (∀ y ∈ l.kept, ∀ x ∈ arrivals es, x.isFinite = true → x.key = y.key →
        x.item.arrival < y.item.arrival → x ∈ l.kept) ↔
      ∀ x ∈ l.givenUp, ∀ y ∈ l.kept, x.key = y.key → y.item.arrival ≤ x.item.arrival := by
  have hnodup : (l.kept ++ l.refused ++ l.givenUp).Nodup :=
    h.all.nodup_iff.mpr (List.Nodup.of_map _ (nodup_place es))
  constructor
  · intro hkept x hx y hy hkey
    by_contra harr
    have hmem := hkept y hy x (h.all.mem_iff.mp (List.mem_append_right _ hx)) (h.givenUp x hx).1
      hkey (not_le.mp harr)
    exact (List.nodup_append.mp hnodup).2.2 x (List.mem_append_left _ hmem) x hx rfl
  · intro hgiven y hy x hx hfin hkey harr
    rcases List.mem_append.mp (h.all.mem_iff.mpr hx) with hx | hx
    · rcases List.mem_append.mp hx with hx | hx
      · exact hx
      · rcases place_lt_iff.mp ((h.refused x hx hfin).2 y hy) with hlt | ⟨-, hlt⟩
        · omega
        · omega
    · have := hgiven x hx y hy hkey
      omega

end Ledger

/-! ## Ties -/

namespace Selector

variable {α : Type}

/-- An entry that is as far as all others stays where it is put. -/
theorem push_of_tied {h : Heap α} {e : Ranked α}
    (htied : ∀ x ∈ h.entries.toList, x.distance = e.distance) :
    (h.push e).entries = h.entries.push e := by
  have hdistance {i : Nat} (hi : i ≤ h.entries.size) :
      Heap.distanceAt (h.entries.push e) i = e.distance := by
    rw [Heap.distanceAt, Array.getElem?_push]
    split_ifs with heq
    · rfl
    · rw [Array.getElem?_eq_getElem (by omega)]
      exact htied _ (Array.mem_toList_iff.mpr (Array.getElem_mem _))
  rw [Heap.push, Heap.rise]
  dsimp only
  split
  · rw [hdistance (by omega), hdistance le_rfl, if_neg fun hlt => lt_irrefl _ (lt_iff.mp hlt).2.2]
  · rfl

/-- Offers at one distance, no more than the limit, are held as they came. -/
theorem entries_afterOffers_tied {d : Float} (hd : d.isFinite = true) {k : Nat} (as : List α)
    (hk : as.length ≤ k) :
    (afterOffers k (as.map (⟨d, ·⟩))).heap.entries.toList = as.map (⟨d, ·⟩) := by
  induction as using List.reverseRecOn with
  | nil => rfl
  | append_singleton as a ih =>
    rw [List.length_append, List.length_singleton] at hk
    have hheld := ih (by omega)
    have hlimit := (selects_afterOffers k (as.map (Ranked.mk d))).limit
    have hroom : (afterOffers k (as.map (Ranked.mk d))).size < k := by
      rw [size, Heap.size, ← Array.length_toList, hheld, List.length_map]
      omega
    rw [List.map_append, List.map_singleton, afterOffers, pushAll, List.foldl_append]
    change (((afterOffers k (as.map (Ranked.mk d))).push ⟨d, a⟩).2).heap.entries.toList = _
    rw [push, hlimit, if_neg (by simp [hd]; omega), if_pos hroom]
    dsimp only
    rw [push_of_tied, Array.toList_push, hheld]
    intro x hx
    rw [hheld] at hx
    obtain ⟨b, -, rfl⟩ := List.mem_map.mp hx
    rfl

/-- A nearer offer displaces the first of those that are all as far. -/
theorem kept_afterOffers_tied {d d' : Float} (hd : d.isFinite = true) (hd' : d'.isFinite = true)
    (hlt : d' < d) (a : α) (as : List α) (b : α) :
    (afterOffers (as.length + 1) ((a :: as).map (⟨d, ·⟩) ++ [⟨d', b⟩])).kept.Perm
      (⟨d', b⟩ :: as.map (⟨d, ·⟩)) := by
  have hheld := entries_afterOffers_tied hd (k := as.length + 1) (a :: as) le_rfl
  have hlimit := (selects_afterOffers (as.length + 1) ((a :: as).map (Ranked.mk d))).limit
  rw [afterOffers, pushAll, List.foldl_append]
  change ((afterOffers (as.length + 1) ((a :: as).map (Ranked.mk d))).push ⟨d', b⟩).2.kept.Perm _
  generalize afterOffers (as.length + 1) ((a :: as).map (Ranked.mk d)) = s at hheld hlimit ⊢
  have htop : s.heap.top? = some ⟨d, a⟩ := by
    rw [Heap.top?, ← Array.getElem?_toList, hheld]
    rfl
  have hfull : ¬ s.size < as.length + 1 := by
    rw [size, Heap.size, ← Array.length_toList, hheld, List.length_map, List.length_cons]
    exact lt_irrefl _
  have hrest : s.heap.pop.entries.toList.Perm (as.map (Ranked.mk d)) := by
    have hpop := Heap.pop_perm htop
    rw [hheld, List.map_cons] at hpop
    exact (List.perm_cons _).mp hpop
  rw [push, hlimit, if_neg (by simp [hd']), if_neg hfull, htop]
  dsimp only
  rw [if_pos hlt]
  exact (Heap.push_perm _ _).trans (hrest.cons _)

/-- What a selector holds after any offers, which are numbered by arrival.  Each is held, was
refused, or was given up, and one that was refused comes after all that are held.  The offers that
are held are the earliest, by distance and then by arrival, just if none was given up that arrived
before one that is held at the same distance; and just if whatever arrived before one that is held,
at the same distance, is held too.  Where no more than one is held this is so.  But if a selector of
more than one holds offers at one distance, and a nearer one follows, then it is the first of them
that is given up. -/
theorem keeps_earliest_iff :
    (∀ (k : Nat) (es : List (Ranked α)),
      let l := Ledger.ofOffers k (arrivals es)
      (afterOffers k es).kept = l.kept.map (Ranked.map (·.item)) ∧
      (l.kept ++ l.refused ++ l.givenUp).Perm (arrivals es) ∧
      (∀ x ∈ l.refused, x.isFinite = true → ∀ y ∈ l.kept, y.place < x.place) ∧
      (l.kept.Perm (earliest k es) ↔ ∀ x ∈ l.givenUp, ∀ y ∈ l.kept, x.key = y.key →
        y.item.arrival ≤ x.item.arrival) ∧
      (l.kept.Perm (earliest k es) ↔ ∀ y ∈ l.kept, ∀ x ∈ arrivals es, x.isFinite = true →
        x.key = y.key → x.item.arrival < y.item.arrival → x ∈ l.kept) ∧
      (k ≤ 1 → l.kept.Perm (earliest k es))) ∧
    ∀ (d d' : Float) (a₁ a₂ : α) (as : List α) (b : α), d.isFinite = true → d'.isFinite = true →
      d' < d →
      let es := (a₁ :: a₂ :: as).map (⟨d, ·⟩) ++ [⟨d', b⟩]
      (afterOffers (as.length + 2) es).kept.Perm (⟨d', b⟩ :: (a₂ :: as).map (⟨d, ·⟩)) ∧
      ¬ (Ledger.ofOffers (as.length + 2) (arrivals es)).kept.Perm
        (earliest (as.length + 2) es) := by
  constructor
  · intro k es l
    have haccounts := Ledger.accounts_ofOffers k es
    have hiff := haccounts.kept_perm_earliest_iff
    refine ⟨?_, haccounts.all, fun x hx hfin => (haccounts.refused x hx hfin).2, hiff,
      hiff.trans haccounts.earlier_kept_iff.symm, fun hk => hiff.mpr fun x hx y hy hkey => ?_⟩
    · conv_lhs => rw [← map_item_arrivals es, afterOffers_map, ← Ledger.selector_ofOffers]
      exact Array.toList_map
    · have := (haccounts.givenUp x hx).2.2 hk y hy
      omega
  · intro d d' a₁ a₂ as b hd hd' hlt es
    refine ⟨kept_afterOffers_tied hd hd' hlt a₁ (a₂ :: as) b, fun hfirst => ?_⟩
    have haccounts := Ledger.accounts_ofOffers (as.length + 2) es
    have hearlier := haccounts.earlier_kept_iff.mpr (haccounts.kept_perm_earliest_iff.mp hfirst)
    obtain ⟨rest, hrest, hnum⟩ := exists_numbered a₁ a₂ as
    have harrivals : arrivals es =
        (⟨0, a₁⟩ :: ⟨1, a₂⟩ :: rest : List (Entry α)).map (⟨d, ·⟩) ++
          [⟨d', as.length + 2, b⟩] := by
      rw [arrivals_append, arrivals_tied, hnum, List.length_map]
      rfl
    have hheld := kept_afterOffers_tied hd hd' hlt (⟨0, a₁⟩ : Entry α) (⟨1, a₂⟩ :: rest)
      ⟨as.length + 2, b⟩
    rw [List.length_cons, hrest, ← harrivals, ← Ledger.selector_ofOffers] at hheld
    have hsecond : (⟨d, 1, a₂⟩ : Ranked (Entry α)) ∈ (Ledger.ofOffers _ (arrivals es)).kept :=
      hheld.mem_iff.mpr (by simp)
    have hmem := hheld.mem_iff.mp (hearlier _ hsecond ⟨d, 0, a₁⟩ (by rw [harrivals]; simp) hd rfl
      Nat.zero_lt_one)
    have hnodup := List.Nodup.of_map _ (nodup_place es)
    rw [harrivals, List.map_cons, List.cons_append, List.nodup_cons] at hnodup
    exact hnodup.1 ((List.perm_append_singleton _ _).mem_iff.mpr hmem)

/-- Two offers at one distance, and a nearer one. -/
def tiedOffers : List (Ranked Nat) :=
  [⟨5.0, 1⟩, ⟨5.0, 2⟩, ⟨3.0, 3⟩]

/-- A selector of two holds the second and the third, which are not the earliest; a selector of one
holds the earliest. -/
theorem keeps_earliest_tiedOffers :
    (afterOffers 2 tiedOffers).kept.Perm [⟨3.0, 3⟩, ⟨5.0, 2⟩] ∧
    ¬ (Ledger.ofOffers 2 (arrivals tiedOffers)).kept.Perm (earliest 2 tiedOffers) ∧
    (Ledger.ofOffers 1 (arrivals tiedOffers)).kept.Perm (earliest 1 tiedOffers) := by
  obtain ⟨hall, htied⟩ := keeps_earliest_iff (α := Nat)
  obtain ⟨hkept, hlate⟩ := htied 5.0 3.0 1 2 [] 3 (by decide) (by decide) (by decide)
  obtain ⟨-, -, -, -, -, hone⟩ := hall 1 tiedOffers
  exact ⟨hkept, hlate, hone le_rfl⟩

end Selector

end PlanarJoin
