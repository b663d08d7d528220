import PlanarJoin.Proofs.Nearest.Search

/-!
# A search gives the distances of a scan

Which of several items at one distance is given depends on the order in which they are seen, but
the distances do not.  An index that finds what it holds, of whatever kind, gives the distances that
a scan of all its items gives, as long as no window of the search has overflowed.

## Main definitions

* `SameDistances`: two lists have the same distances, place by place.

## Main results

* `Keeps.sameDistances`: the nearest of a list have the same distances, whatever was kept.
* `Keeps.sameDistances_append_iff`: what is omitted does not matter just if enough is as near.
* `Searchable.sameDistances_scan`: a search and a scan give the same distances in ascending order.
-/

namespace PlanarJoin

open Binary64 Envelope

variable {α : Type}

/-- Two lists have the same distances, place by place. -/
def SameDistances (es fs : List (Ranked α)) : Prop :=
  List.Forall₂ (fun e f => (e.distance == f.distance) = true) es fs

/-- Numbers of the same ranks are equal place by place. -/
theorem sameDistances_of_keys {es fs : List (Ranked α)}
    (hes : ∀ e ∈ es, e.distance.isNaN = false) (hfs : ∀ f ∈ fs, f.distance.isNaN = false)
    (h : es.map Ranked.key = fs.map Ranked.key) : SameDistances es fs := by
  induction es generalizing fs with
  | nil =>
    obtain rfl := List.map_eq_nil_iff.mp h.symm
    exact .nil
  | cons e es ih =>
    obtain ⟨f, fs, rfl, hkey, hrest⟩ := List.map_eq_cons_iff.mp h.symm
    obtain ⟨he, hes⟩ := List.forall_mem_cons.mp hes
    obtain ⟨hf, hfs⟩ := List.forall_mem_cons.mp hfs
    exact .cons (beq_iff.mpr ⟨he, hf, hkey.symm⟩) (ih hes hfs hrest.symm)

theorem SameDistances.map_key {es fs : List (Ranked α)} (h : SameDistances es fs) :
    es.map Ranked.key = fs.map Ranked.key := by
  induction h with
  | nil => rfl
  | cons hef _ ih => exact congrArg₂ List.cons (beq_iff.mp hef).2.2 ih

theorem Keeps.pairwise_le {k : Nat} {es kept : List (Ranked α)} (h : Keeps k es kept)
    (hes : ∀ e ∈ es, e.distance.isNaN = false) (hsorted : kept.Pairwise (·.key ≤ ·.key)) :
    kept.Pairwise (·.distance ≤ ·.distance) := by
  refine hsorted.imp_of_mem ?_
  intro e f he hf hle
  exact le_iff.mpr ⟨hes e (h.subperm.subset he), hes f (h.subperm.subset hf), hle⟩

/-- The nearest of a list have the same distances, whatever was kept. -/
theorem Keeps.sameDistances {k : Nat} {es kept out : List (Ranked α)} (h : Keeps k es kept)
    (h' : Keeps k es out) (hes : ∀ e ∈ es, e.distance.isNaN = false)
    (hsorted : kept.Pairwise (·.key ≤ ·.key)) (hsorted' : out.Pairwise (·.key ≤ ·.key)) :
    SameDistances kept out :=
  sameDistances_of_keys (fun e he => hes e (h.subperm.subset he))
    (fun e he => hes e (h'.subperm.subset he))
    ((h.map_key hsorted).trans (h'.map_key hsorted').symm)

/-- The nearest of some items have the distances of the nearest of all if and only if each of the
others is at least as far as `k` of these. -/
theorem Keeps.sameDistances_append_iff {k : Nat} {some omitted es kept out : List (Ranked α)}
    (h : Keeps k some kept) (h' : Keeps k es out) (hall : (some ++ omitted).Perm es)
    (hes : ∀ e ∈ es, e.distance.isNaN = false) (hsorted : kept.Pairwise (·.key ≤ ·.key))
    (hsorted' : out.Pairwise (·.key ≤ ·.key)) :
    SameDistances kept out ↔ ∀ f ∈ omitted, k ≤ some.countP (·.key ≤ f.key) := by
  have hkept {e : Ranked α} (he : e ∈ kept) : e ∈ es :=
    hall.mem_iff.mp (List.mem_append_left _ (h.subperm.subset he))
  rw [← h.map_key_append_iff hsorted hall, ← h'.map_key hsorted']
  exact ⟨SameDistances.map_key, sameDistances_of_keys (fun e he => hes e (hkept he))
    fun e he => hes e (h'.subperm.subset he)⟩

variable [Spatial α] {s : Searchable α} {as : List α} {p : Coord} {k : Nat}

/-- What a search gives comes with the nearest first. -/
theorem Searchable.pairwise_nearest (s : Searchable α) (p : Coord) (k : Nat) :
    (s.nearest p k).Pairwise (·.key ≤ ·.key) := by
  rw [nearest]
  split
  · exact (nearestOf_spec _ p k).2
  · exact .nil

/-- A search of an index that finds what it holds gives the same distances as a scan of its items,
both in ascending order, if every window that is searched has finite bounds. -/
theorem Searchable.sameDistances_scan (h : s.Answers as) (hp : p.isFinite = true)
    (hseen : SeenWithin p as)
    (hwindows : ∀ w ∈ s.windows p k, (windowAt p w.radius).isProper = true) :
    SameDistances (s.nearest p k) (nearestOf as p k) ∧
      (s.nearest p k).Pairwise (·.distance ≤ ·.distance) ∧
        (nearestOf as p k).Pairwise (·.distance ≤ ·.distance) := by
  have hsees : s.blind p k = false := blind_of_windows hwindows
  have hnum : ∀ e ∈ finiteRanked p as, e.distance.isNaN = false := fun e he =>
    isNaN_of_isFinite (mem_finiteRanked.mp he).2
  have hsearch := h.keeps_nearest hp hseen hsees
  have hsorted := s.pairwise_nearest p k
  obtain ⟨hscan, hscanned⟩ := nearestOf_spec as p k
  exact ⟨hsearch.sameDistances hscan hnum hsorted hscanned, hsearch.pairwise_le hnum hsorted,
    hscan.pairwise_le hnum hscanned⟩

/-- Points at distances ten, thirteen and five from the origin. -/
def spreadFeatures : List (Feature Nat) :=
  [⟨1, .single (.point ⟨6.0, 8.0⟩)⟩, ⟨2, .single (.point ⟨5.0, 12.0⟩)⟩,
    ⟨3, .single (.point ⟨3.0, 4.0⟩)⟩]

/-- A tree of quadrants with these points. -/
def spreadIndex : Index (Feature Nat) :=
  .ofList { IndexSettings.default with kind := .quadtree } spreadFeatures

/-- The search takes two windows to find the two nearest. -/
theorem sameDistances_spreadFeatures :
    (spreadIndex.windows ⟨0.0, 0.0⟩ 2).length = 2 ∧
    (spreadIndex.nearest ⟨0.0, 0.0⟩ 2).map (·.item.id) = [3, 1] ∧
    SameDistances (spreadIndex.nearest ⟨0.0, 0.0⟩ 2) (nearestOf spreadFeatures ⟨0.0, 0.0⟩ 2) := by
  have hanswers : spreadIndex.Answers spreadFeatures :=
    Index.answers_ofList (s := { IndexSettings.default with kind := .quadtree })
      IndexSettings.validate_default rfl spreadFeatures
  have hsame := Searchable.sameDistances_scan hanswers (p := ⟨0.0, 0.0⟩) (k := 2) rfl
    (seenWithin_of_meets rfl (by decide +kernel)) (by decide +kernel)
  exact ⟨by decide +kernel, by decide +kernel, hsame.1⟩

end PlanarJoin
