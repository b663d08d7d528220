import PlanarJoin.Proofs.Matching.EmptyItems

/-!
# What is contained is met

A disc intersects what is near its center, but contains what is near the centroid of its center.  So
it can contain what it does not intersect, if the centroid does not belong to the center: if that is
concave or has several parts.  Whatever is contained can at least be tested, and where centroids
belong to their centers it is met, as far as distances and the relations of plain geometries are
what they should be.

## Main definitions

* `Geometry.hasPoint`: whether a point belongs to a geometry.
* `Shape.Centered`: the centroid of a disc's center belongs to the center.
* `Shape.Measured`: what geometry grants of a pair of shapes.
* `Shape.Comparable`: two centered shapes of which this is granted.

## Main results

* `Shape.exists_intersects_of_contains`: whether what is contained is met can be decided.
* `Shape.intersects_of_contains`: between shapes that are centered, what is contained is met.
-/

namespace PlanarJoin

open Binary64

/-- Whether a point belongs to a geometry. -/
def Geometry.hasPoint (g : Geometry) (p : Coord) : Bool :=
  g.meets (.single (.point p))

namespace Shape

/-! ## Centers -/

/-- The centroid of a disc's center belongs to the center, if there is one. -/
def Centered : Shape → Prop
  | plain _ => True
  | disc c _ => ∀ o ∈ c.centroid?, c.hasPoint o = true

instance : DecidablePred Centered
  | plain _ => .isTrue trivial
  | disc c _ => inferInstanceAs (Decidable (∀ o ∈ c.centroid?, c.hasPoint o = true))

/-- What geometry grants of a pair of shapes.  A geometry meets what it contains.  The distance of
two geometries is at most that of points which belong to them: a centroid, if it does, or a
vertex. -/
def Measured : Shape → Shape → Prop
  | plain a, plain b => a.contains b = true → a.meets b = true
  | disc c _, plain g => ∀ o ∈ c.centroid?, c.hasPoint o = true →
      ∀ v ∈ g.coords, c.distance g ≤ o.distance v
  | disc c _, disc d _ => ∀ o ∈ c.centroid?, c.hasPoint o = true →
      ∀ p ∈ d.centroid?, d.hasPoint p = true → c.distance d ≤ o.distance p
  | plain _, disc _ _ => True

instance : DecidableRel Measured
  | plain a, plain b => inferInstanceAs (Decidable (a.contains b = true → a.meets b = true))
  | disc c _, plain g => inferInstanceAs (Decidable (∀ o ∈ c.centroid?, c.hasPoint o = true →
      ∀ v ∈ g.coords, c.distance g ≤ o.distance v))
  | disc c _, disc d _ => inferInstanceAs (Decidable (∀ o ∈ c.centroid?, c.hasPoint o = true →
      ∀ p ∈ d.centroid?, d.hasPoint p = true → c.distance d ≤ o.distance p))
  | plain _, disc _ _ => .isTrue trivial

variable {a b : Shape} {c d g : Geometry} {r s : Float}

/-! ## Contained, and tested -/

theorem mem_centroid_of_origin {o : Coord} (h : origin c = .ok o) : o ∈ c.centroid? := by
  unfold origin at h
  split at h
  · next o' ho =>
    obtain rfl := Except.ok.inj h
    exact ho
  · cases h

/-- What a disc contains has a vertex, and all its vertices are near the centroid. -/
theorem contains_disc_plain (h : (disc c r).contains (plain g) = .ok true) :
    ((disc c r).fault? = none ∧ (plain g).fault? = none) ∧
      ∃ o ∈ c.centroid?, g.coords ≠ [] ∧ ∀ v ∈ g.coords, o.distance v ≤ r := by
  obtain ⟨hfault, hanswer⟩ := tested_eq_true.mp h
  obtain ⟨o, ho, hanswer⟩ := exists_of_bind_eq_ok hanswer
  have hall : (!g.coords.isEmpty && g.coords.all (o.distance · ≤ r)) = true :=
    Except.ok.inj hanswer
  rw [Bool.and_eq_true, Bool.not_eq_true', List.isEmpty_eq_false_iff, List.all_eq_true] at hall
  simp only [decide_eq_true_eq] at hall
  exact ⟨hfault, o, mem_centroid_of_origin ho, hall⟩

/-- The centroid of a disc that another one contains is nearer to its centroid than the radius. -/
theorem contains_disc_disc (h : (disc c r).contains (disc d s) = .ok true) :
    ((disc c r).fault? = none ∧ (disc d s).fault? = none) ∧
      ∃ o ∈ c.centroid?, ∃ p ∈ d.centroid?, o.distance p + s ≤ r := by
  obtain ⟨hfault, hanswer⟩ := tested_eq_true.mp h
  obtain ⟨o, ho, hanswer⟩ := exists_of_bind_eq_ok hanswer
  obtain ⟨p, hp, hanswer⟩ := exists_of_bind_eq_ok hanswer
  have hle : decide (o.distance p + s ≤ r) = true := Except.ok.inj hanswer
  exact ⟨hfault, o, mem_centroid_of_origin ho, p, mem_centroid_of_origin hp, of_decide_eq_true hle⟩

theorem tested_of_fault {γ : Type} {answer : Except Failure γ} (ha : a.fault? = none)
    (hb : b.fault? = none) : tested a b answer = answer := by
  rw [tested, ha, hb]

theorem exists_intersects (ha : a.fault? = none) (hb : b.fault? = none) :
    ∃ v, a.intersects b = .ok v := by
  cases a <;> cases b <;> exact ⟨_, tested_of_fault ‹_› ‹_›⟩

/-- A shape that contains another has no fault, and neither has the other. -/
theorem fault_of_contains (h : a.contains b = .ok true) : a.fault? = none ∧ b.fault? = none := by
  cases a with
  | plain a =>
    cases b with
    | plain b => exact (tested_eq_true.mp h).1
    | disc d s => cases h
  | disc c r =>
    cases b with
    | plain g => exact (contains_disc_plain h).1
    | disc d s => exact (contains_disc_disc h).1

theorem exists_intersects_of_contains (h : a.contains b = .ok true) :
    ∃ v, a.intersects b = .ok v :=
  exists_intersects (fault_of_contains h).1 (fault_of_contains h).2

/-! ## Contained, and met -/

theorem intersects_disc_plain (hm : (disc c r).Measured (plain g)) (hc : (disc c r).Centered)
    (h : (disc c r).contains (plain g) = .ok true) :
    (disc c r).intersects (plain g) = .ok true := by
  obtain ⟨hfault, o, ho, hne, hall⟩ := contains_disc_plain h
  obtain ⟨v, hv⟩ := List.exists_mem_of_ne_nil _ hne
  obtain ⟨hd, -, hdist⟩ := le_iff.mp (hm o ho (hc o ho) v hv)
  obtain ⟨-, hr, hnear⟩ := le_iff.mp (hall v hv)
  have hle : c.distance g ≤ r := le_iff.mpr ⟨hd, hr, hdist.trans hnear⟩
  rw [intersects, tested_eq_true]
  exact ⟨hfault, congrArg _ (decide_eq_true hle)⟩

theorem intersects_disc_disc (hm : (disc c r).Measured (disc d s)) (hc : (disc c r).Centered)
    (hd : (disc d s).Centered) (h : (disc c r).contains (disc d s) = .ok true) :
    (disc c r).intersects (disc d s) = .ok true := by
  obtain ⟨hfault, o, ho, p, hp, hreach⟩ := contains_disc_disc h
  obtain ⟨hr, -⟩ := radius_of_fault hfault.1
  obtain ⟨hs, hs0⟩ := radius_of_fault hfault.2
  obtain ⟨hnum, hx, hdist⟩ := le_iff.mp (hm o ho (hc o ho) p hp (hd p hp))
  obtain ⟨-, -, hreach⟩ := le_iff.mp hreach
  have hle : c.distance d ≤ r + s := by
    refine le_iff.mpr ⟨hnum, (reach_discs hfault.1 hfault.2).1, ?_⟩
    calc rank (c.distance d)
      _ ≤ rank (o.distance p) := hdist
      _ ≤ rank (o.distance p + s) := rank_le_add_self hx hs hs0
      _ ≤ rank r := hreach
      _ ≤ rank (r + s) := rank_le_add_self (isNaN_of_isFinite hr) hs hs0
  rw [intersects, tested_eq_true]
  exact ⟨hfault, congrArg _ (decide_eq_true hle)⟩

/-- Between shapes that are centered, what is contained is met. -/
theorem intersects_of_contains (hm : a.Measured b) (ha : a.Centered) (hb : b.Centered)
    (h : a.contains b = .ok true) : a.intersects b = .ok true := by
  cases a with
  | plain a =>
    cases b with
    | plain b =>
      obtain ⟨hfault, hanswer⟩ := tested_eq_true.mp h
      rw [intersects, tested_eq_true]
      exact ⟨hfault, congrArg _ (hm (Except.ok.inj hanswer))⟩
    | disc d s => cases h
  | disc c r =>
    cases b with
    | plain g => exact intersects_disc_plain hm ha h
    | disc d s => exact intersects_disc_disc hm ha hb h

/-- Two centered shapes of which is true what geometry grants. -/
structure Comparable (a b : Shape) : Prop where
  measured : a.Measured b
  left_centered : a.Centered
  right_centered : b.Centered

instance : DecidableRel Comparable := fun a b =>
  decidable_of_iff (a.Measured b ∧ a.Centered ∧ b.Centered)
    ⟨fun ⟨hm, ha, hb⟩ => ⟨hm, ha, hb⟩, fun ⟨hm, ha, hb⟩ => ⟨hm, ha, hb⟩⟩

theorem Comparable.intersects (h : a.Comparable b) (hcontains : a.contains b = .ok true) :
    a.intersects b = .ok true :=
  intersects_of_contains h.measured h.left_centered h.right_centered hcontains

end Shape

end PlanarJoin
