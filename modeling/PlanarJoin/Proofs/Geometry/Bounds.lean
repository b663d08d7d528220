import PlanarJoin.Geometry.Basic
import PlanarJoin.Proofs.Envelope.Order

/-!
# The box around a finite geometry

Each bound of a geometry is a coordinate of one of its vertices.  So the envelope of a geometry with
finite coordinates is finite, and it is proper unless it is empty.

## Main results

* `Geometry.finite_bounds`: a geometry with finite coordinates has finite bounds.
* `Geometry.isProper_envelope`: its envelope is proper unless it is empty.
-/

namespace PlanarJoin

open Envelope

/-! ## Corners and runs of vertices -/

theorem Coord.isFinite_iff {c : Coord} :
    c.isFinite = true ↔ c.x.isFinite = true ∧ c.y.isFinite = true := by
  rw [isFinite, Bool.and_eq_true]

/-- Two numbers are put in order by keeping or by exchanging them. -/
theorem ascending_cases (a b : Float) : ascending a b = (a, b) ∨ ascending a b = (b, a) := by
  unfold ascending
  split
  · exact .inl rfl
  · exact .inr rfl

theorem Envelope.finite_ofCorners {a b : Coord} (ha : a.isFinite = true) (hb : b.isFinite = true) :
    (ofCorners a b).Finite := by
  obtain ⟨hax, hay⟩ := Coord.isFinite_iff.mp ha
  obtain ⟨hbx, hby⟩ := Coord.isFinite_iff.mp hb
  unfold ofCorners
  rcases ascending_cases a.x b.x with hx | hx <;> rcases ascending_cases a.y b.y with hy | hy <;>
    rw [hx, hy]
  · exact ⟨hax, hbx, hay, hby⟩
  · exact ⟨hax, hbx, hby, hay⟩
  · exact ⟨hbx, hax, hay, hby⟩
  · exact ⟨hbx, hax, hby, hay⟩

theorem Geometry.envelope_point (x y : Float) :
    (Geometry.single (.point ⟨x, y⟩)).envelope = ofPoint x y := by
  have hself (v : Float) : ascending v v = (v, v) := by
    rcases ascending_cases v v with h | h <;> exact h
  change ofCorners ⟨x, y⟩ ⟨x, y⟩ = _
  rw [ofCorners, hself, hself]
  rfl

/-- The running bounds of finite numbers are finite. -/
theorem isFinite_of_runningBounds {vs : List Float} (h : ∀ v ∈ vs, v.isFinite = true)
    {b : Float × Float} (hb : runningBounds? vs = some b) :
    b.1.isFinite = true ∧ b.2.isFinite = true := by
  cases vs with
  | nil => cases hb
  | cons v vs =>
    obtain rfl := Option.some.inj hb
    refine List.foldlRecOn (motive := fun b : Float × Float =>
      b.1.isFinite = true ∧ b.2.isFinite = true) vs _ ?_ ?_
    · have hv : v.isFinite = true := h v List.mem_cons_self
      exact ⟨hv, hv⟩
    · intro acc hacc x hx
      have hfin : x.isFinite = true := h x (List.mem_cons_of_mem _ hx)
      split
      · exact ⟨hacc.1, hfin⟩
      · split
        · exact ⟨hfin, hacc.2⟩
        · exact hacc

theorem finite_boundsOf {vs : List Coord} (h : ∀ c ∈ vs, c.isFinite = true) :
    ∀ e ∈ boundsOf? vs, e.Finite := by
  have hx : ∀ x ∈ vs.map Coord.x, x.isFinite = true := by
    intro x hx
    obtain ⟨c, hc, rfl⟩ := List.mem_map.mp hx
    exact (Coord.isFinite_iff.mp (h c hc)).1
  have hy : ∀ y ∈ vs.map Coord.y, y.isFinite = true := by
    intro y hy
    obtain ⟨c, hc, rfl⟩ := List.mem_map.mp hy
    exact (Coord.isFinite_iff.mp (h c hc)).2
  intro e he
  unfold boundsOf? at he
  split at he
  · next hbx hby =>
    obtain rfl := Option.some.inj he
    obtain ⟨hx₁, hx₂⟩ := isFinite_of_runningBounds hx hbx
    obtain ⟨hy₁, hy₂⟩ := isFinite_of_runningBounds hy hby
    exact finite_ofCorners (Coord.isFinite_iff.mpr ⟨hx₁, hy₁⟩) (Coord.isFinite_iff.mpr ⟨hx₂, hy₂⟩)
  · cases he

/-! ## Boxes put together -/

theorem finite_mergeBounds {a b : Envelope} (ha : a.Finite) (hb : b.Finite) :
    (mergeBounds a b).Finite := by
  obtain ⟨hax₁, hax₂, hay₁, hay₂⟩ := ha
  obtain ⟨hbx₁, hbx₂, hby₁, hby₂⟩ := hb
  refine finite_ofCorners (Coord.isFinite_iff.mpr ⟨?_, ?_⟩) (Coord.isFinite_iff.mpr ⟨?_, ?_⟩) <;>
    dsimp only <;> split <;> assumption

theorem finite_mergeBounds? {a b : Option Envelope} (ha : ∀ e ∈ a, e.Finite)
    (hb : ∀ e ∈ b, e.Finite) : ∀ e ∈ mergeBounds? a b, e.Finite := by
  intro e he
  cases a with
  | none => exact hb e he
  | some s =>
    cases b with
    | none => exact ha e he
    | some t =>
      obtain rfl := Option.some.inj he
      exact finite_mergeBounds (ha s rfl) (hb t rfl)

/-! ## Geometries -/

theorem Primitive.finite_bounds {p : Primitive} (h : ∀ c ∈ p.coords, c.isFinite = true) :
    ∀ e ∈ p.bounds?, e.Finite := by
  cases p with
  | point c => exact finite_boundsOf h
  | line a b =>
    intro e he
    obtain rfl := Option.some.inj he
    exact finite_ofCorners (h a (by simp [coords])) (h b (by simp [coords]))
  | rect l u =>
    intro e he
    obtain rfl := Option.some.inj he
    obtain ⟨hlx, hly⟩ := Coord.isFinite_iff.mp (h l (by simp [coords]))
    obtain ⟨hux, huy⟩ := Coord.isFinite_iff.mp (h u (by simp [coords]))
    exact ⟨hlx, hux, hly, huy⟩
  | triangle a b c => exact finite_boundsOf h
  | path vs => exact finite_boundsOf h
  | polygon p =>
    exact finite_boundsOf fun c hc => h c (List.mem_append_left _ hc)

namespace Geometry

mutual

/-- A geometry with finite coordinates has finite bounds. -/
theorem finite_bounds : (g : Geometry) →
    (∀ p ∈ g.parts, ∀ c ∈ p.coords, c.isFinite = true) → ∀ e ∈ g.bounds?, e.Finite
  | single p, h => Primitive.finite_bounds (h p (List.mem_singleton_self p))
  | multiPoint ps, h =>
    finite_boundsOf fun c hc =>
      h (.point c) (List.mem_map_of_mem hc) c (List.mem_singleton_self c)
  | multiPath ps, h => by
    refine finite_boundsOf fun c hc => ?_
    obtain ⟨vs, hvs, hc⟩ := List.mem_flatten.mp hc
    exact h (.path vs) (List.mem_map_of_mem hvs) c hc
  | multiPolygon ps, h => by
    refine finite_boundsOf fun c hc => ?_
    obtain ⟨p, hp, hc⟩ := List.mem_flatMap.mp hc
    exact h (.polygon p) (List.mem_map_of_mem hp) c (List.mem_append_left _ hc)
  | collection gs, h => finite_boundsAll none gs (fun _ he => nomatch he) h

/-- Geometries with finite coordinates have finite bounds, with a finite box to begin with. -/
theorem finite_boundsAll : (acc : Option Envelope) → (gs : List Geometry) →
    (∀ e ∈ acc, e.Finite) → (∀ p ∈ partsAll gs, ∀ c ∈ p.coords, c.isFinite = true) →
    ∀ e ∈ boundsAll? acc gs, e.Finite
  | _, [], hacc, _ => hacc
  | acc, g :: gs, hacc, h =>
    finite_boundsAll (mergeBounds? acc (bounds? g)) gs
      (finite_mergeBounds? hacc
        (finite_bounds g fun p hp => h p (List.mem_append_left _ hp)))
      fun p hp => h p (List.mem_append_right _ hp)

end

/-- The envelope of a geometry with finite coordinates is proper unless it is empty. -/
theorem isProper_envelope {g : Geometry} (h : g.isFinite = true)
    (hne : g.envelope.isEmpty = false) : g.envelope.isProper = true := by
  have hparts : ∀ p ∈ g.parts, ∀ c ∈ p.coords, c.isFinite = true := fun p hp c hc =>
    List.all_eq_true.mp h c (List.mem_flatMap.mpr ⟨p, hp, hc⟩)
  have hfin := finite_bounds g hparts
  unfold envelope at hne ⊢
  cases hb : g.bounds? with
  | none =>
    rw [hb] at hne
    exact absurd hne (by decide)
  | some e =>
    rw [hb] at hne
    obtain ⟨hx₁, hx₂, hy₁, hy₂⟩ := hfin e hb
    rw [Option.getD_some] at hne ⊢
    rw [isProper, hne, hx₁, hx₂, hy₁, hy₂]
    rfl

end Geometry

end PlanarJoin
