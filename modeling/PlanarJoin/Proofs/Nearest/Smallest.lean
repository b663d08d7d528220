import Mathlib.Data.List.Sort
import Mathlib.Data.List.Perm.Subperm
import PlanarJoin.Nearest.Heap
import PlanarJoin.Proofs.Binary64.Rank

/-!
# The smallest of a list

Which of several items at one distance are selected depends on the order in which they are offered.
What is selected is therefore described by a relation: what is kept lies no farther than what is
left.  Selections of parts can be merged if each part keeps enough of what it has.

## Main definitions

* `Ranked.key`: the rank of a distance.
* `Keeps`: some items are the nearest of a list.
* `Enough`: some items of a list are enough to select from.
* `smallest`: the smallest of some numbers, in ascending order.

## Main results

* `Keeps.of_enough`: the nearest of enough items are the nearest of all.
* `Keeps.map_key`: the distances of what is kept are the smallest.
* `Keeps.map_key_append_iff`: what is passed over matters unless enough is nearer.
-/

namespace PlanarJoin

open Binary64

variable {α : Type}

/-- The rank of a distance. -/
def Ranked.key (e : Ranked α) : Int :=
  rank e.distance

/-- The items kept are the `k` nearest of a list, or all of it. -/
def Keeps (k : Nat) (es kept : List (Ranked α)) : Prop :=
  kept.length = min k es.length ∧
    ∃ rest, (kept ++ rest).Perm es ∧ ∀ e ∈ kept, ∀ f ∈ rest, e.key ≤ f.key

/-- Some items of a list leave out only what is at least as far as `k` of them. -/
def Enough (k : Nat) (es some : List (Ranked α)) : Prop :=
  ∃ rest, (some ++ rest).Perm es ∧ ∀ f ∈ rest, k ≤ some.countP (·.key ≤ f.key)

variable {k : Nat} {es fs kept some out : List (Ranked α)} {e : Ranked α}

/-! ## Keeping the nearest -/

theorem keeps_nil : Keeps k ([] : List (Ranked α)) [] :=
  ⟨(Nat.min_zero k).symm, [], .rfl, fun _ he => absurd he List.not_mem_nil⟩

theorem keeps_zero (es : List (Ranked α)) : Keeps 0 es [] :=
  ⟨(Nat.zero_min _).symm, es, .rfl, fun _ he => absurd he List.not_mem_nil⟩

theorem Keeps.length_le (h : Keeps k es kept) : kept.length ≤ k :=
  h.1 ▸ Nat.min_le_left _ _

theorem Keeps.subperm (h : Keeps k es kept) : kept.Subperm es := by
  obtain ⟨rest, hperm, -⟩ := h.2
  exact (List.sublist_append_left kept rest).subperm.trans hperm.subperm

theorem Keeps.congr (h : Keeps k es kept) (hes : es.Perm fs) (hkept : kept.Perm out) :
    Keeps k fs out := by
  obtain ⟨hlen, rest, hperm, hle⟩ := h
  refine ⟨?_, rest, ((hkept.symm.append_right rest).trans hperm).trans hes, ?_⟩
  · rw [← hkept.length_eq, hlen, hes.length_eq]
  · intro e he
    exact hle e (hkept.mem_iff.mpr he)

/-- What is left is nothing, unless as many items are kept as can be. -/
theorem Keeps.full (h : Keeps k es kept) {rest : List (Ranked α)} (hperm : (kept ++ rest).Perm es) :
    rest = [] ∨ kept.length = k := by
  have hlen := hperm.length_eq
  rw [List.length_append] at hlen
  have hk := h.1
  rcases Nat.eq_zero_or_pos rest.length with hr | hr
  · exact .inl (List.eq_nil_of_length_eq_zero hr)
  · exact .inr (by omega)

/-- Where there is room, an item is kept. -/
theorem Keeps.add (h : Keeps k es kept) (hk : kept.length < k) (e : Ranked α) :
    Keeps k (es ++ [e]) (e :: kept) := by
  obtain ⟨rest, hperm, -⟩ := h.2
  obtain rfl : rest = [] := (h.full hperm).resolve_right hk.ne
  rw [List.append_nil] at hperm
  refine ⟨?_, [], ?_, fun _ _ _ hf => absurd hf List.not_mem_nil⟩
  · rw [List.length_cons, List.length_append, List.length_singleton, ← hperm.length_eq]
    omega
  · rw [List.append_nil]
    exact (hperm.cons e).trans (List.perm_append_singleton e es).symm

/-- An item at least as far as everything kept is passed over. -/
theorem Keeps.pass (h : Keeps k es kept) (hk : kept.length = k) (he : ∀ x ∈ kept, x.key ≤ e.key) :
    Keeps k (es ++ [e]) kept := by
  obtain ⟨hlen, rest, hperm, hle⟩ := h
  refine ⟨?_, rest ++ [e], ?_, ?_⟩
  · rw [List.length_append]
    omega
  · rw [← List.append_assoc]
    exact hperm.append_right [e]
  · intro x hx f hf
    rcases List.mem_append.mp hf with hf | hf
    · exact hle x hx f hf
    · obtain rfl := List.mem_singleton.mp hf
      exact he x hx

/-- A nearer item takes the place of the farthest. -/
theorem Keeps.replace {far : Ranked α} (h : Keeps k es (far :: kept)) (hk : kept.length + 1 = k)
    (hfar : ∀ x ∈ kept, x.key ≤ far.key) (he : e.key ≤ far.key) :
    Keeps k (es ++ [e]) (e :: kept) := by
  obtain ⟨hlen, rest, hperm, hle⟩ := h
  refine ⟨?_, far :: rest, ?_, ?_⟩
  · rw [List.length_append]
    rw [List.length_cons] at hlen ⊢
    omega
  · refine List.Perm.trans ?_ (List.perm_append_singleton e es).symm
    exact List.Perm.cons e (List.perm_middle.trans hperm)
  · intro x hx f hf
    rcases List.mem_cons.mp hf with rfl | hf
    · rcases List.mem_cons.mp hx with rfl | hx
      · exact he
      · exact hfar x hx
    · have hrest := hle far List.mem_cons_self f hf
      rcases List.mem_cons.mp hx with rfl | hx
      · exact he.trans hrest
      · exact (hfar x hx).trans hrest

/-! ## Enough to select from -/

theorem Enough.refl (k : Nat) (es : List (Ranked α)) : Enough k es es :=
  ⟨[], by rw [List.append_nil], fun _ hf => absurd hf List.not_mem_nil⟩

theorem Enough.mem (h : Enough k es some) (he : e ∈ some) : e ∈ es := by
  obtain ⟨rest, hperm, -⟩ := h
  exact hperm.mem_iff.mp (List.mem_append_left rest he)

theorem Keeps.enough (h : Keeps k es kept) : Enough k es kept := by
  obtain ⟨rest, hperm, hle⟩ := h.2
  refine ⟨rest, hperm, ?_⟩
  intro f hf
  have hfull : kept.length = k := (h.full hperm).resolve_left (List.ne_nil_of_mem hf)
  have hall : kept.countP (·.key ≤ f.key) = kept.length :=
    List.countP_eq_length.mpr fun e he => decide_eq_true (hle e he f hf)
  rw [hall, hfull]

/-- The nearest of enough items are the nearest of all. -/
theorem Keeps.of_enough (h : Keeps k some kept) (hs : Enough k es some) : Keeps k es kept := by
  obtain ⟨hlen, rest, hperm, hle⟩ := h
  obtain ⟨omitted, hall, hnear⟩ := hs
  have hlen' := hall.length_eq
  rw [List.length_append] at hlen'
  refine ⟨?_, rest ++ omitted, ?_, ?_⟩
  · -- if anything is omitted, enough is there to fill all places
    cases omitted with
    | nil => rw [hlen, ← hlen', List.length_nil, Nat.add_zero]
    | cons f omitted =>
      have hk := (hnear f List.mem_cons_self).trans List.countP_le_length
      omega
  · rw [← List.append_assoc]
    exact (hperm.append_right omitted).trans hall
  · intro e he f hf
    rcases List.mem_append.mp hf with hf | hf
    · exact hle e he f hf
    · by_contra hlt
      have hcount := hnear f hf
      have hnone : rest.countP (·.key ≤ f.key) = 0 :=
        List.countP_eq_zero.mpr fun g hg => by
          have := hle e he g hg
          simp only [decide_eq_true_eq]
          omega
      have hmost : kept.countP (·.key ≤ f.key) < kept.length :=
        lt_of_le_of_ne List.countP_le_length fun heq =>
          hlt (of_decide_eq_true (List.countP_eq_length.mp heq e he))
      rw [← hperm.countP_eq, List.countP_append, hnone] at hcount
      omega

/-- Where each part keeps enough, the parts together do. -/
theorem enough_flatten {parts somes : List (List (Ranked α))}
    (h : List.Forall₂ (Enough k) parts somes) :
    Enough k parts.flatten somes.flatten := by
  induction h with
  | nil => exact .refl k []
  | @cons part some parts somes hpart _ ih =>
    obtain ⟨rest, hperm, hle⟩ := hpart
    obtain ⟨rest', hperm', hle'⟩ := ih
    refine ⟨rest ++ rest', ?_, ?_⟩
    · have hswap : (some ++ somes.flatten ++ (rest ++ rest')).Perm
          (some ++ rest ++ (somes.flatten ++ rest')) := by
        simp only [List.append_assoc]
        refine List.Perm.append_left some ?_
        rw [← List.append_assoc, ← List.append_assoc]
        exact List.perm_append_comm.append_right rest'
      exact hswap.trans (hperm.append hperm')
    · intro f hf
      rw [List.flatten_cons, List.countP_append]
      rcases List.mem_append.mp hf with hf | hf
      · exact (hle f hf).trans (Nat.le_add_right _ _)
      · exact (hle' f hf).trans (Nat.le_add_left _ _)

/-! ## The smallest distances -/

/-- The `k` smallest of some numbers, in ascending order. -/
def smallest (k : Nat) (keys : List Int) : List Int :=
  (keys.mergeSort (· ≤ ·)).take k

/-- The distances of what is kept, in ascending order, are the smallest. -/
theorem Keeps.map_key (h : Keeps k es kept) (hsorted : kept.Pairwise (·.key ≤ ·.key)) :
    kept.map Ranked.key = smallest k (es.map Ranked.key) := by
  obtain ⟨rest, hperm, hle⟩ := h.2
  -- the distances kept, then those of the rest, are all distances in ascending order
  have hsort : (es.map Ranked.key).mergeSort (· ≤ ·) =
      kept.map Ranked.key ++ (rest.map Ranked.key).mergeSort (· ≤ ·) := by
    refine List.Perm.eq_of_pairwise' (List.pairwise_mergeSort' (· ≤ ·) _) ?_ ?_
    · refine List.pairwise_append.mpr ⟨List.pairwise_map.mpr hsorted,
        List.pairwise_mergeSort' (· ≤ ·) _, ?_⟩
      intro x hx y hy
      obtain ⟨e, he, rfl⟩ := List.mem_map.mp hx
      obtain ⟨f, hf, rfl⟩ := List.mem_map.mp ((List.mergeSort_perm _ _).mem_iff.mp hy)
      exact hle e he f hf
    · refine (List.mergeSort_perm _ _).trans ((hperm.symm.map Ranked.key).trans ?_)
      rw [List.map_append]
      exact (List.mergeSort_perm _ _).symm.append_left _
  rw [smallest, hsort]
  rcases h.full hperm with rfl | hk
  · rw [List.map_nil, List.mergeSort_nil, List.append_nil, List.take_of_length_le]
    rw [List.length_map]
    exact h.length_le
  · rw [List.take_left']
    rw [List.length_map, hk]

/-- Of the smallest of some ascending numbers, as many lie below a bound as of all, up to `k`. -/
theorem countP_take {keys : List Int} (h : keys.Pairwise (· ≤ ·)) (k : Nat) (b : Int) :
    (keys.take k).countP (· ≤ b) = min k (keys.countP (· ≤ b)) := by
  induction keys generalizing k with
  | nil => simp
  | cons x keys ih =>
    obtain ⟨hx, htail⟩ := List.pairwise_cons.mp h
    cases k with
    | zero => simp
    | succ k =>
      rw [List.take_succ_cons, List.countP_cons, List.countP_cons, ih htail]
      by_cases hb : x ≤ b
      · simp only [hb, decide_true, if_true]
        omega
      · have hnone : keys.countP (· ≤ b) = 0 :=
          List.countP_eq_zero.mpr fun y hy => by
            have := hx y hy
            simp only [decide_eq_true_eq]
            omega
        simp [hb, hnone]

theorem countP_smallest (k : Nat) (keys : List Int) (b : Int) :
    (smallest k keys).countP (· ≤ b) = min k (keys.countP (· ≤ b)) := by
  rw [smallest, countP_take (List.pairwise_mergeSort' (· ≤ ·) keys),
    (List.mergeSort_perm _ _).countP_eq]

/-- The nearest of some items have the smallest of all distances if and only if each of the others
is at least as far as `k` of these. -/
theorem Keeps.map_key_append_iff {omitted : List (Ranked α)} (h : Keeps k some kept)
    (hsorted : kept.Pairwise (·.key ≤ ·.key)) (hall : (some ++ omitted).Perm es) :
    kept.map Ranked.key = smallest k (es.map Ranked.key) ↔
      ∀ f ∈ omitted, k ≤ some.countP (·.key ≤ f.key) := by
  constructor
  · intro heq f hf
    have hcount : min k (some.countP (·.key ≤ f.key)) = min k (es.countP (·.key ≤ f.key)) := by
      have hs := countP_smallest k (some.map Ranked.key) f.key
      have he := countP_smallest k (es.map Ranked.key) f.key
      rw [← heq, h.map_key hsorted, hs, List.countP_map, List.countP_map] at he
      exact he
    have hmem : 0 < omitted.countP (·.key ≤ f.key) :=
      List.countP_pos_iff.mpr ⟨f, hf, decide_eq_true le_rfl⟩
    rw [← hall.countP_eq, List.countP_append] at hcount
    omega
  · intro hnear
    exact (h.of_enough ⟨omitted, hall, hnear⟩).map_key hsorted

end PlanarJoin
