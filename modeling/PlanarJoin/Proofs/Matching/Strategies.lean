import PlanarJoin.Proofs.Geometry.Bounds
import PlanarJoin.Proofs.Matching.Pairs

/-!
# Joining features

The relations between features are decided only if both geometries are finite, and then the boxes
around them are finite, too.  So what a rule accepts has proper envelopes, as soon as they meet, and
every way of finding matches finds the same pairs: features with an empty geometry, which no index
keeps, and features that are not finite, which the rule skips, are in none of them.

## Main results

* `Feature.isFinite_of_holds`: a relation between features is decided if both are finite.
* `Rule.local_of_meets`: what a rule accepts is local, if it meets.
* `Rule.strategies_perm`: all ways of finding matches between features agree.
-/

namespace PlanarJoin

open Envelope

/-! ## What is decided -/

namespace Shape

theorem fault_of_tested {γ : Type} {a b : Shape} {answer : Except Failure γ} {x : γ}
    (h : tested a b answer = .ok x) : a.fault? = none ∧ b.fault? = none := by
  unfold tested at h
  split at h
  · cases h
  · cases h
  · next ha hb => exact ⟨ha, hb⟩

theorem isFinite_of_fault {g : Geometry} (h : (plain g).fault? = none) : g.isFinite = true := by
  by_contra hg
  rw [fault?, Geometry.fault?, if_neg hg] at h
  cases h

end Shape

section Features

variable {ι κ : Type}

/-- A relation between two features is decided if both geometries are finite. -/
theorem Feature.isFinite_of_holds {r : Relation} {a : Feature ι} {b : Feature κ} {x : Bool}
    (h : r.holds a b = .ok x) : a.geometry.isFinite = true ∧ b.geometry.isFinite = true := by
  have hfault :
      (Shape.plain a.geometry).fault? = none ∧ (Shape.plain b.geometry).fault? = none := by
    cases r with
    | intersects => exact Shape.fault_of_tested h
    | contains => exact Shape.fault_of_tested h
  exact ⟨Shape.isFinite_of_fault hfault.1, Shape.isFinite_of_fault hfault.2⟩

namespace Rule

variable {r : Rule} {as : List (Feature ι)} {bs : List (Feature κ)}

/-- Features that a rule accepts have proper envelopes if these meet. -/
theorem local_of_meets (hmeets : ∀ a ∈ as, ∀ b ∈ bs, r.relation.holds a b = .ok true →
    (Spatial.envelope a).meets (Spatial.envelope b) = true) : r.Local as bs := by
  intro a ha b hb hacc
  rw [accepts, Bool.and_eq_true] at hacc
  have hholds := Relation.decides_iff.mp hacc.2
  have hm := hmeets a ha b hb hholds
  obtain ⟨hea, heb⟩ := isEmpty_of_meets hm
  obtain ⟨hfa, hfb⟩ := Feature.isFinite_of_holds hholds
  exact ⟨Geometry.isProper_envelope hfa hea, Geometry.isProper_envelope hfb heb, hm⟩

/-! ## All ways agree -/

/-- Every way of finding matches between features gives what trying all pairs gives, in another
order: the pairs that the rule accepts, each as often as its parts occur.  An index may have been
completed at any time, or never. -/
theorem strategies_perm {s : IndexSettings} (hs : s.validate = .ok ()) (ht : s.Untiered)
    (hmeets : ∀ a ∈ as, ∀ b ∈ bs, r.relation.holds a b = .ok true →
      (Spatial.envelope a).meets (Spatial.envelope b) = true) :
    (r.pairwise as bs).drain.1.Perm (pairsOf r.accepts as bs) ∧
    (∀ calls, Index.inserted calls = bs →
      (r.probeRight as (s.emptyIndex.after calls)).drain.1.Perm (r.pairwise as bs).drain.1) ∧
    (∀ calls, Index.inserted calls = as →
      (r.probeLeft (s.emptyIndex.after calls) bs).drain.1.Perm (r.pairwise as bs).drain.1) ∧
    ∀ side, ∃ m, r.probeBuilt? s side as bs = .ok m ∧
      m.drain.1.Perm (r.pairwise as bs).drain.1 := by
  simp only [MatchStream.drain_fst]
  have hlocal : r.Local as bs := local_of_meets hmeets
  have hall := remaining_pairwise r as bs
  refine ⟨hall, ?_, ?_, ?_⟩
  · rintro calls rfl
    have hserves := Index.serves_after hs ht calls
    exact (remaining_probeRight hserves hlocal).trans hall.symm
  · rintro calls rfl
    have hserves := Index.serves_after hs ht calls
    exact (remaining_probeLeft hserves hlocal).trans hall.symm
  · intro side
    refine ⟨r.probeBuilt s side as bs, ?_, (remaining_probeBuilt hs ht hlocal side).trans hall.symm⟩
    rw [probeBuilt?, hs]
    rfl

end Rule

end Features

/-! ## A join with features that nothing can meet -/

/-- A square, nothing, and a point without a place. -/
def oddWindows : List (Feature Nat) :=
  [⟨1, .single (.ofCorners ⟨0.0, 0.0⟩ ⟨4.0, 4.0⟩)⟩, ⟨2, .multiPoint []⟩,
    ⟨3, .single (.point ⟨0.0 / 0.0, 1.0⟩)⟩]

/-- Points in the square, at its corner and far from it, again with nothing and without a place. -/
def oddPoints : List (Feature Nat) :=
  [⟨4, .single (.point ⟨1.0, 1.0⟩)⟩, ⟨5, .single (.point ⟨4.0, 4.0⟩)⟩, ⟨6, .collection []⟩,
    ⟨7, .single (.point ⟨1.0, 0.0 / 0.0⟩)⟩, ⟨8, .single (.point ⟨9.0, 9.0⟩)⟩]

/-- Features that share a point, if the box of size ten owns it. -/
def boxedRule : Rule :=
  ⟨.intersects, some ⟨[⟨0.0, 10.0, 0.0, 10.0⟩], 0, ⟨0.0, 10.0, 0.0, 10.0⟩, ⟨0.0, 10.0, 0.0, 10.0⟩⟩⟩

/-- An index that is completed when only some of the points are in it finds both matches. -/
theorem Rule.strategies_oddWindows :
    (boxedRule.probeRight oddWindows (IndexSettings.default.emptyIndex.after
      ((oddPoints.take 2).map Index.Call.insert ++
        .build :: (oddPoints.drop 2).map Index.Call.insert))).drain.1.length = 2 := by
  have hmeets : ∀ a ∈ oddWindows, ∀ b ∈ oddPoints, boxedRule.relation.decides a b = true →
      (Spatial.envelope a).meets (Spatial.envelope b) = true := by
    decide +kernel
  have hcount : (pairsOf boxedRule.accepts oddWindows oddPoints).length = 2 := by
    decide +kernel
  obtain ⟨hall, hright, -, -⟩ := strategies_perm (r := boxedRule)
    IndexSettings.validate_default (fun h => nomatch h) fun a ha b hb h =>
      hmeets a ha b hb (Relation.decides_iff.mpr h)
  rw [(hright _ rfl).length_eq, hall.length_eq, hcount]

end PlanarJoin
