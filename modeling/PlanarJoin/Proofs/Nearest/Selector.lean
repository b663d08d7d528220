import PlanarJoin.Nearest.Selector
import PlanarJoin.Proofs.Nearest.Heap

/-!
# Selecting keeps the nearest

A selector keeps the nearest of the items with a finite distance that it has been offered: while
there is room each is added, and after that a nearer one displaces the farthest.

## Main definitions

* `finiteRanked`: the items whose distance to a point can be told and is finite.
* `Selector.Selects`: a selector that keeps the nearest of some items.

## Main results

* `Selector.Selects.push`: one offer keeps the account.
* `nearestOf_spec`, `mergeNearest_spec`: selections from a list and from several lists.
-/

namespace PlanarJoin

open Binary64

variable {α : Type}

/-- Whether a distance is finite. -/
def Ranked.isFinite (e : Ranked α) : Bool :=
  e.distance.isFinite

/-- The items whose distance to a point can be told and is finite, with this distance. -/
def finiteRanked [Spatial α] (p : Coord) (as : List α) : List (Ranked α) :=
  (as.filterMap (ranked? p)).filter Ranked.isFinite

namespace Selector

/-- A selector that keeps the `k` nearest of the items with a finite distance among some. -/
structure Selects (s : Selector α) (k : Nat) (es : List (Ranked α)) : Prop where
  limit : s.limit = k
  wellFormed : s.heap.WellFormed
  keeps : Keeps k (es.filter Ranked.isFinite) s.heap.entries.toList

variable {s : Selector α} {k : Nat} {es : List (Ranked α)} {e : Ranked α}

theorem selects_withLimit (k : Nat) : (withLimit k : Selector α).Selects k [] :=
  ⟨rfl, Heap.wellFormed_empty, keeps_nil⟩

theorem Selects.length_le (h : s.Selects k es) : s.size ≤ k :=
  h.keeps.length_le

theorem filter_concat (he : e.isFinite = true) :
    (es ++ [e]).filter Ranked.isFinite = es.filter Ranked.isFinite ++ [e] := by
  rw [List.filter_append, List.filter_cons_of_pos he, List.filter_nil]

theorem Selects.refuse (h : s.Selects k es) (he : e.isFinite = false) :
    s.Selects k (es ++ [e]) := by
  refine ⟨h.limit, h.wellFormed, ?_⟩
  rw [List.filter_append, List.filter_cons_of_neg (by simp [he]), List.filter_nil, List.append_nil]
  exact h.keeps

theorem Selects.add (h : s.Selects k es) (hroom : s.size < k) (he : e.isFinite = true) :
    Selects ⟨k, s.heap.push e⟩ k (es ++ [e]) := by
  refine ⟨rfl, h.wellFormed.push (isNaN_of_isFinite he), ?_⟩
  rw [filter_concat he]
  exact (h.keeps.add hroom e).congr .rfl (Heap.push_perm s.heap e).symm

/-- A full selector takes a nearer item in place of the farthest. -/
theorem Selects.displace {far : Ranked α} (h : s.Selects k es) (hfull : s.size = k) (hk : 0 < k)
    (htop : s.heap.top? = some far) (he : e.isFinite = true) (hlt : e.distance < far.distance) :
    Selects ⟨k, s.heap.pop.push e⟩ k (es ++ [e]) := by
  obtain ⟨hnum, -, hkey⟩ := lt_iff.mp hlt
  cases hp : s.heap.pop? with
  | none =>
    have hzero := (Heap.pop?_eq_none_iff _).mp hp
    change s.heap.size = k at hfull
    omega
  | some popped =>
    obtain ⟨top, rest⟩ := popped
    have hpop : s.heap.pop = rest := by rw [Heap.pop, hp]
    obtain rfl : far = top := Option.some.inj (htop.symm.trans (Heap.top?_of_pop? hp))
    obtain ⟨hrest, hmax⟩ := h.wellFormed.pop? hp
    have hperm := Heap.pop?_perm hp
    have hlen : rest.entries.toList.length + 1 = k := hperm.length_eq.trans hfull
    rw [hpop]
    refine ⟨rfl, hrest.push hnum, ?_⟩
    rw [filter_concat he]
    exact ((h.keeps.congr .rfl hperm.symm).replace hlen hmax hkey.le).congr .rfl
      (Heap.push_perm rest e).symm

theorem Selects.key_le_of_not_lt {far : Ranked α} (h : s.Selects k es)
    (htop : s.heap.top? = some far) (he : e.isFinite = true) (hge : ¬ e.distance < far.distance) :
    ∀ x ∈ s.heap.entries.toList, x.key ≤ e.key := by
  intro x hx
  refine (h.wellFormed.key_le_top htop x hx).trans ?_
  have hfar : far.distance.isNaN = false :=
    h.wellFormed.measured far (Array.mem_toList_iff.mpr (Array.mem_of_getElem? htop))
  by_contra hkey
  exact hge (lt_iff.mpr ⟨isNaN_of_isFinite he, hfar, not_le.mp hkey⟩)

theorem Selects.pass {far : Ranked α} (h : s.Selects k es) (hfull : s.size = k)
    (htop : s.heap.top? = some far) (he : e.isFinite = true) (hge : ¬ e.distance < far.distance) :
    s.Selects k (es ++ [e]) := by
  refine ⟨h.limit, h.wellFormed, ?_⟩
  rw [filter_concat he]
  exact h.keeps.pass hfull (h.key_le_of_not_lt htop he hge)

/-- One offer keeps the account. -/
theorem Selects.push (h : s.Selects k es) (e : Ranked α) : (s.push e).2.Selects k (es ++ [e]) := by
  unfold Selector.push
  by_cases he : e.isFinite = true
  · rw [show e.distance.isFinite = true from he, h.limit]
    rcases Nat.eq_zero_or_pos k with rfl | hk
    · rw [if_pos (by simp)]
      have hnil := List.eq_nil_of_length_eq_zero (Nat.le_zero.mp h.length_le)
      refine ⟨h.limit, h.wellFormed, ?_⟩
      rw [hnil]
      exact keeps_zero _
    · rw [if_neg (by simp; omega)]
      by_cases hroom : s.size < k
      · rw [if_pos hroom]
        exact h.add hroom he
      · have hfull : s.size = k := le_antisymm h.length_le (not_lt.mp hroom)
        rw [if_neg hroom]
        cases htop : s.heap.top? with
        | none =>
          have hzero : s.heap.entries.size ≤ 0 := Array.getElem?_eq_none_iff.mp htop
          change s.heap.entries.size = k at hfull
          omega
        | some far =>
          dsimp only
          by_cases hlt : e.distance < far.distance
          · rw [if_pos hlt]
            exact h.displace hfull hk htop he hlt
          · rw [if_neg hlt]
            exact h.pass hfull htop he hlt
  · rw [Bool.not_eq_true] at he
    have hrefused : (s.limit = 0 || !e.distance.isFinite) = true := by
      rw [show e.distance.isFinite = false from he]
      simp
    rw [if_pos hrefused]
    exact h.refuse he

theorem Selects.pushAll (h : s.Selects k es) (fs : List (Ranked α)) :
    (s.pushAll fs).Selects k (es ++ fs) := by
  unfold Selector.pushAll
  induction fs generalizing s es with
  | nil =>
    rw [List.append_nil]
    exact h
  | cons f fs ih =>
    have hstep := ih (h.push f)
    rw [List.append_assoc] at hstep
    exact hstep

theorem Selects.ascending (h : s.Selects k es) :
    Keeps k (es.filter Ranked.isFinite) s.ascending ∧ s.ascending.Pairwise (·.key ≤ ·.key) := by
  obtain ⟨hperm, hasc⟩ := Heap.pairwise_ascending h.wellFormed
  exact ⟨h.keeps.congr .rfl hperm.symm, hasc⟩

end Selector

/-- The nearest of a list are those with the smallest finite distances, the nearest first. -/
theorem nearestOf_spec [Spatial α] (as : List α) (p : Coord) (k : Nat) :
    Keeps k (finiteRanked p as) (nearestOf as p k) ∧
      (nearestOf as p k).Pairwise (·.key ≤ ·.key) := by
  have h := ((Selector.selects_withLimit k).pushAll (as.filterMap (ranked? p))).ascending
  rw [List.nil_append] at h
  exact h

/-- The nearest of several selections are those with the smallest finite distances, the nearest
first.
-/
theorem mergeNearest_spec (lists : List (List (Ranked α))) (k : Nat) :
    Keeps k (lists.flatten.filter Ranked.isFinite) (mergeNearest lists k) ∧
      (mergeNearest lists k).Pairwise (·.key ≤ ·.key) := by
  have h := ((Selector.selects_withLimit k).pushAll lists.flatten).ascending
  rw [List.nil_append] at h
  exact h

end PlanarJoin
