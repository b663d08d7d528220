import PlanarJoin.Arrangement.Contact
import PlanarJoin.Geometry.Centroid
import PlanarJoin.Geometry.Distance
import PlanarJoin.Proofs.Geometry.Bounds

/-!
# Geometries without a vertex

An empty path, a polygon whose rings are empty, or several of these share no point with anything and
have neither a box nor a centroid.  Still there is a distance to them: zero from a point, the
greatest float from anything else.

## Main definitions

* `Polygon.blank`: a polygon whose rings are all empty.
* `Primitive.isPoint`: whether a primitive is a point.
* `Geometry.inOrder`: the corners of all boxes are in order.

## Main results

* `Geometry.meets_of_parts`: geometries share no point if their parts do not.
* `Geometry.meets_of_blank`, `Geometry.meets_blank`: what has no vertex meets nothing.
* `Geometry.distance_of_blank`, `Geometry.distance_blank`: the distance to what has no vertex.
* `Geometry.bounds_of_isEmpty`: a geometry with an empty envelope has no box.
* `Geometry.centroid_of_bounds`, `Geometry.coords_of_bounds`: a geometry without a box has no
  centroid, and no vertices but those of holes.
-/

namespace PlanarJoin

open Binary64

/-! ## Primitives -/

/-- A polygon whose rings are all empty. -/
def Polygon.blank (holes : Nat) : Polygon :=
  ⟨[], List.replicate holes []⟩

namespace Primitive

def isPoint : Primitive → Bool
  | point _ => true
  | _ => false

/-- A primitive without a vertex is an empty path, or a polygon whose rings are empty. -/
theorem blank_cases {p : Primitive} (h : p.coords = []) :
    p = path [] ∨ ∃ n, p = polygon (.blank n) := by
  cases p with
  | path vs =>
    obtain rfl : vs = [] := h
    exact .inl rfl
  | polygon g =>
    obtain ⟨outer, holes⟩ := g
    obtain ⟨rfl, hholes⟩ := List.append_eq_nil_iff.mp (show outer ++ holes.flatten = [] from h)
    refine .inr ⟨holes.length, ?_⟩
    rw [Polygon.blank, ← List.eq_replicate_of_mem (List.flatten_eq_nil_iff.mp hholes)]
  | _ => cases h

end Primitive

/-! ## Meeting -/

@[simp]
theorem segmentsOf_nil : segmentsOf [] = [] := rfl

@[simp]
theorem pathMeets_nil (s : Segment) : pathMeets [] s = false := rfl

@[simp]
theorem pathsMeet_nil_left (vs : List Coord) : pathsMeet [] vs = false := by
  simp [pathsMeet]

@[simp]
theorem pathsMeet_nil_right (us : List Coord) : pathsMeet us [] = false := by
  simp [pathsMeet]

namespace Polygon

variable (n : Nat) (g : Polygon)

@[simp]
theorem outer_blank : (blank n).outer = [] := rfl

@[simp]
theorem rings_blank : (blank n).rings = List.replicate (n + 1) [] := rfl

@[simp]
theorem hasPoint_blank : (blank n).hasPoint = fun _ => false := rfl

@[simp]
theorem meetsSegment_blank (s : Segment) : (blank n).meetsSegment s = false := by
  simp [meetsSegment]

@[simp]
theorem sides_blank : (blank n).sides = [] := by
  simp [sides]

@[simp]
theorem blank_meets : (blank n).meets g = false := by
  have hholes : (blank n).holes.any (pathsMeet g.outer) = false := by
    simp [blank]
  simp [meets, hholes]

@[simp]
theorem meets_blank : g.meets (blank n) = false := by
  have hholes : (blank n).holes.any (pathsMeet g.outer) = false := by
    simp [blank]
  simp [meets, hholes]

end Polygon

namespace Primitive

variable {p q : Primitive}

@[simp]
theorem hasPoint_polygon_blank (n : Nat) : (polygon (.blank n)).hasPoint = fun _ => false := rfl

theorem meets_of_blank (h : p.coords = []) (q : Primitive) : p.meets q = false := by
  obtain rfl | ⟨n, rfl⟩ := blank_cases h
  · cases q <;> simp [meets, hasPoint, meetsSegment, meetsPath, asPolygon?]
  · cases q <;> simp [meets, hasPoint, meetsSegment, meetsPath, areasMeet, areaRank, asPolygon?]

theorem meets_blank (h : q.coords = []) (p : Primitive) : p.meets q = false := by
  obtain rfl | ⟨n, rfl⟩ := blank_cases h
  · cases p <;> simp [meets, hasPoint, meetsSegment, meetsPath, asPolygon?]
  · cases p <;> simp [meets, hasPoint, meetsSegment, meetsPath, areasMeet, areaRank, asPolygon?]

end Primitive

/-! ## Distances -/

/-- The distance from something without a vertex: zero to a point, else the greatest float. -/
def blankDistance (isPoint : Bool) : Float :=
  if isPoint then 0.0 else greatest

theorem lower_blankDistance (a b : Bool) :
    lower (blankDistance a) (blankDistance b) = blankDistance (a || b) := by
  cases a <;> cases b <;> decide +kernel

/-- The least of such distances is zero if there is a point. -/
theorem leastOf_map_blankDistance (points : List Bool) :
    leastOf (points.map blankDistance) = blankDistance (points.any id) := by
  have H (a : Bool) : (points.map blankDistance).foldl lower (blankDistance a) =
      blankDistance (a || points.any id) := by
    induction points generalizing a with
    | nil => simp
    | cons b points ih =>
      rw [List.map_cons, List.foldl_cons, lower_blankDistance, ih, List.any_cons, Bool.or_assoc]
      rfl
  exact H false

@[simp]
theorem leastOf_nil : leastOf [] = greatest := rfl

@[simp]
theorem lower_self (x : Float) : lower x x = x := ite_self x

@[simp]
theorem leastOf_replicate_greatest (n : Nat) : leastOf (List.replicate n greatest) = greatest := by
  have := leastOf_map_blankDistance (List.replicate n false)
  rw [List.map_replicate] at this
  simpa [blankDistance] using this

@[simp]
theorem distanceToEdges_nil (p : Coord) : p.distanceToEdges [] = greatest := rfl

@[simp]
theorem ringDistance_nil_left (vs : List Coord) : ringDistance [] vs = greatest := by
  simp [ringDistance]

@[simp]
theorem ringDistance_nil_right (us : List Coord) : ringDistance us [] = greatest := by
  simp [ringDistance]

namespace Polygon

variable (n : Nat)

@[simp]
theorem ringDistance?_blank (vs : List Coord) : (blank n).ringDistance? vs = none := by
  have hout : (blank n).surrounds vs = false := by
    simp [surrounds, ringPosition]
  rw [ringDistance?, hout, Bool.and_false, if_neg Bool.false_ne_true]

@[simp]
theorem ringDistance?_nil (g : Polygon) : g.ringDistance? [] = none := by
  simp [ringDistance?, surrounds]

end Polygon

@[simp]
theorem Coord.distanceToPolygon_blank (p : Coord) (n : Nat) :
    p.distanceToPolygon (.blank n) = 0.0 := rfl

@[simp]
theorem Coord.distanceToPath_nil (p : Coord) : p.distanceToPath [] = 0.0 := rfl

namespace Segment

variable (s : Segment)

@[simp]
theorem distanceToPath_nil : s.distanceToPath [] = greatest := rfl

@[simp]
theorem distanceToPolygon_blank (n : Nat) : s.distanceToPolygon (.blank n) = greatest := by
  simp [distanceToPolygon]

end Segment

@[simp]
theorem polygonDistance_blank_left (n : Nat) (g : Polygon) :
    polygonDistance (.blank n) g = greatest := by
  simp [polygonDistance]

@[simp]
theorem polygonDistance_blank_right (n : Nat) (g : Polygon) :
    polygonDistance g (.blank n) = greatest := by
  simp [polygonDistance]

@[simp]
theorem pathDistance_nil_left (vs : List Coord) : pathDistance [] vs = greatest := by
  simp [pathDistance]

@[simp]
theorem pathDistance_nil_right (us : List Coord) : pathDistance us [] = greatest := by
  simp [pathDistance]

@[simp]
theorem pathPolygonDistance_nil (g : Polygon) : pathPolygonDistance [] g = greatest := by
  simp [pathPolygonDistance, Primitive.meetsPath, Primitive.asPolygon?]

@[simp]
theorem pathPolygonDistance_blank (vs : List Coord) (n : Nat) :
    pathPolygonDistance vs (.blank n) = greatest := by
  simp [pathPolygonDistance, Primitive.meetsPath, Primitive.asPolygon?]

namespace Primitive

variable {p q : Primitive}

theorem distance_of_blank (h : p.coords = []) (q : Primitive) :
    p.distance q = blankDistance q.isPoint := by
  obtain rfl | ⟨n, rfl⟩ := blank_cases h
  · cases q <;> simp [distance, unboxed, asPolygon?, isPoint, blankDistance]
  · cases q <;> simp [distance, unboxed, asPolygon?, isPoint, blankDistance]

theorem distance_blank (h : q.coords = []) (p : Primitive) :
    p.distance q = blankDistance p.isPoint := by
  obtain rfl | ⟨n, rfl⟩ := blank_cases h
  · cases p <;> simp [distance, unboxed, asPolygon?, isPoint, blankDistance]
  · cases p <;> simp [distance, unboxed, asPolygon?, isPoint, blankDistance]

end Primitive

namespace Geometry

/-! ## Parts that do not meet -/

mutual

/-- A geometry shares no point with a primitive if its parts do not. -/
theorem meetsPrimitive_of_parts (p : Primitive) : (g : Geometry) →
    (∀ q ∈ g.parts, q.meets p = false) → g.meetsPrimitive p = false
  | single q, h => h q (List.mem_singleton_self q)
  | multiPoint ps, h => by
    rw [meetsPrimitive, List.any_eq_false]
    intro c hc
    exact Bool.eq_false_iff.mp (h (.point c) (List.mem_map_of_mem hc))
  | multiPath ps, h => by
    have hany : (ps.any fun vs => (Primitive.path vs).meets p) = false :=
      List.any_eq_false.mpr fun vs hvs =>
        Bool.eq_false_iff.mp (h (.path vs) (List.mem_map_of_mem hvs))
    rw [meetsPrimitive, hany, Bool.and_false]
  | multiPolygon ps, h => by
    have hany : (ps.any fun g => (Primitive.polygon g).meets p) = false :=
      List.any_eq_false.mpr fun g hg =>
        Bool.eq_false_iff.mp (h (.polygon g) (List.mem_map_of_mem hg))
    rw [meetsPrimitive, hany, Bool.and_false]
  | collection gs, h => by
    rw [meetsPrimitive, anyMeetsPrimitive_of_parts p gs h, Bool.and_false]

theorem anyMeetsPrimitive_of_parts (p : Primitive) : (gs : List Geometry) →
    (∀ q ∈ partsAll gs, q.meets p = false) → anyMeetsPrimitive gs p = false
  | [], _ => by rw [anyMeetsPrimitive]
  | g :: gs, h => by
    rw [anyMeetsPrimitive, meetsPrimitive_of_parts p g fun q hq => h q (List.mem_append_left _ hq),
      anyMeetsPrimitive_of_parts p gs fun q hq => h q (List.mem_append_right _ hq), Bool.false_or]

end

mutual

/-- Geometries share no point if their parts do not. -/
theorem meets_of_parts (h : Geometry) : (g : Geometry) →
    (∀ p ∈ g.parts, ∀ q ∈ h.parts, q.meets p = false) → g.meets h = false
  | single p, hall => meetsPrimitive_of_parts p h (hall p (List.mem_singleton_self p))
  | multiPoint ps, hall => by
    rw [meets, List.any_eq_false]
    intro c hc
    exact Bool.eq_false_iff.mp
      (meetsPrimitive_of_parts _ h (hall (.point c) (List.mem_map_of_mem hc)))
  | multiPath ps, hall => by
    have hany : (ps.any fun vs => h.meetsPrimitive (.path vs)) = false :=
      List.any_eq_false.mpr fun vs hvs => Bool.eq_false_iff.mp
        (meetsPrimitive_of_parts _ h (hall (.path vs) (List.mem_map_of_mem hvs)))
    rw [meets, hany, Bool.and_false]
  | multiPolygon ps, hall => by
    have hany : (ps.any fun g => h.meetsPrimitive (.polygon g)) = false :=
      List.any_eq_false.mpr fun g hg => Bool.eq_false_iff.mp
        (meetsPrimitive_of_parts _ h (hall (.polygon g) (List.mem_map_of_mem hg)))
    rw [meets, hany, Bool.and_false]
  | collection gs, hall => by
    rw [meets, anyMeets_of_parts h gs hall, Bool.and_false]

theorem anyMeets_of_parts (h : Geometry) : (gs : List Geometry) →
    (∀ p ∈ partsAll gs, ∀ q ∈ h.parts, q.meets p = false) → anyMeets gs h = false
  | [], _ => by rw [anyMeets]
  | g :: gs, hall => by
    rw [anyMeets, meets_of_parts h g fun p hp => hall p (List.mem_append_left _ hp),
      anyMeets_of_parts h gs fun p hp => hall p (List.mem_append_right _ hp), Bool.false_or]

end

/-! ## No vertices -/

variable {g h : Geometry}

theorem coords_of_mem_parts (hg : g.coords = []) {p : Primitive} (hp : p ∈ g.parts) :
    p.coords = [] :=
  List.flatMap_eq_nil_iff.mp hg p hp

theorem meets_of_blank (hg : g.coords = []) (h : Geometry) : g.meets h = false :=
  meets_of_parts h g fun _ hp q _ => Primitive.meets_blank (coords_of_mem_parts hg hp) q

theorem meets_blank (hh : h.coords = []) (g : Geometry) : g.meets h = false :=
  meets_of_parts h g fun p _ _ hq => Primitive.meets_of_blank (coords_of_mem_parts hh hq) p

/-- Whether a geometry without a vertex is at distance zero from another: it has a part, and the
other has a point. -/
def touchesPoint (g h : Geometry) : Bool :=
  !g.parts.isEmpty && h.parts.any Primitive.isPoint

theorem eq_single {p : Primitive} (h : g.single? = some p) : g = single p := by
  cases g with
  | single q => exact congrArg single (Option.some.inj h)
  | _ => cases h

theorem any_const {β : Type} (l : List β) (b : Bool) : l.any (fun _ => b) = (!l.isEmpty && b) := by
  cases l <;> cases b <;> simp

/-- The distance from a geometry without a vertex is zero if it has a part and the other geometry a
point, else the greatest float. -/
theorem distance_of_blank (hg : g.coords = []) (h : Geometry) :
    g.distance h = blankDistance (g.touchesPoint h) := by
  unfold distance
  split
  · next p q hp hq =>
    obtain rfl := eq_single hp
    obtain rfl := eq_single hq
    rw [Primitive.distance_of_blank (coords_of_mem_parts hg (List.mem_singleton_self p))]
    simp [touchesPoint, parts]
  · have hparts : (g.parts.flatMap fun p => h.parts.map p.distance) =
        (g.parts.flatMap fun _ => h.parts.map Primitive.isPoint).map blankDistance := by
      rw [List.map_flatMap]
      refine List.flatMap_congr ?_
      intro p hp
      rw [List.map_map]
      exact List.map_congr_left fun q _ => Primitive.distance_of_blank (coords_of_mem_parts hg hp) q
    rw [hparts, leastOf_map_blankDistance, List.any_flatMap]
    simp only [List.any_map, Function.comp_def, id, any_const, touchesPoint]

/-- The distance to a geometry without a vertex is the same. -/
theorem distance_blank (hh : h.coords = []) (g : Geometry) :
    g.distance h = blankDistance (h.touchesPoint g) := by
  unfold distance
  split
  · next p q hp hq =>
    obtain rfl := eq_single hp
    obtain rfl := eq_single hq
    rw [Primitive.distance_blank (coords_of_mem_parts hh (List.mem_singleton_self q))]
    simp [touchesPoint, parts]
  · have hparts : (g.parts.flatMap fun p => h.parts.map p.distance) =
        (g.parts.flatMap fun p => h.parts.map fun _ => p.isPoint).map blankDistance := by
      rw [List.map_flatMap]
      refine List.flatMap_congr ?_
      intro p _
      rw [List.map_map]
      exact List.map_congr_left fun q hq => Primitive.distance_blank (coords_of_mem_parts hh hq) p
    rw [hparts, leastOf_map_blankDistance, List.any_flatMap]
    simp only [List.any_map, Function.comp_def, id, any_const, touchesPoint]
    cases h.parts.isEmpty <;> simp [any_const]

end Geometry

/-! ## No box -/

namespace Primitive

/-- Whether the corners of a box are in order; nothing else has corners. -/
def inOrder : Primitive → Bool
  | rect low high => !(Envelope.mk low.x high.x low.y high.y).isEmpty
  | _ => true

/-- Whether a polygon has no outer ring but vertices in its holes. -/
def isHollow : Primitive → Bool
  | polygon g => g.outer.isEmpty && !g.holes.flatten.isEmpty
  | _ => false

end Primitive

theorem ascending_in_order (a b : Float) : ¬ (ascending a b).2 < (ascending a b).1 := by
  unfold ascending
  split
  · next h =>
    dsimp only
    rw [lt_iff] at h ⊢
    omega
  · next h => exact h

theorem Envelope.isEmpty_ofCorners (a b : Coord) : (ofCorners a b).isEmpty = false := by
  rw [isEmpty, Bool.or_eq_false_iff, decide_eq_false_iff_not, decide_eq_false_iff_not]
  exact ⟨ascending_in_order _ _, ascending_in_order _ _⟩

theorem isEmpty_of_boundsOf (vs : List Coord) : ∀ e ∈ boundsOf? vs, e.isEmpty = false := by
  intro e he
  unfold boundsOf? at he
  split at he
  · obtain rfl := Option.some.inj he
    exact Envelope.isEmpty_ofCorners _ _
  · cases he

theorem eq_nil_of_boundsOf {vs : List Coord} (h : boundsOf? vs = none) : vs = [] := by
  cases vs with
  | nil => rfl
  | cons v vs => cases h

theorem isEmpty_of_mergeBounds {a b : Option Envelope} (ha : ∀ e ∈ a, e.isEmpty = false)
    (hb : ∀ e ∈ b, e.isEmpty = false) : ∀ e ∈ mergeBounds? a b, e.isEmpty = false := by
  intro e he
  cases a with
  | none => exact hb e he
  | some s =>
    cases b with
    | none => exact ha e he
    | some t =>
      obtain rfl := Option.some.inj he
      exact Envelope.isEmpty_ofCorners _ _

theorem eq_none_of_mergeBounds {a b : Option Envelope} (h : mergeBounds? a b = none) :
    a = none ∧ b = none := by
  cases a with
  | none => exact ⟨rfl, h⟩
  | some s => cases b <;> cases h

namespace Primitive

variable {p : Primitive}

theorem isEmpty_of_bounds (h : p.inOrder = true) : ∀ e ∈ p.bounds?, e.isEmpty = false := by
  cases p with
  | line a b =>
    intro e he
    obtain rfl := Option.some.inj he
    exact Envelope.isEmpty_ofCorners a b
  | rect low high =>
    intro e he
    obtain rfl := Option.some.inj he
    rwa [inOrder, Bool.not_eq_true'] at h
  | point c => exact isEmpty_of_boundsOf [c]
  | triangle a b c => exact isEmpty_of_boundsOf [a, b, c]
  | path vs => exact isEmpty_of_boundsOf vs
  | polygon g => exact isEmpty_of_boundsOf g.outer

/-- A primitive without a box is an empty path, or a polygon without an outer ring. -/
theorem unbounded_cases (h : p.bounds? = none) :
    p = path [] ∨ ∃ holes, p = polygon ⟨[], holes⟩ := by
  cases p with
  | path vs =>
    obtain rfl := eq_nil_of_boundsOf h
    exact .inl rfl
  | polygon g =>
    obtain ⟨outer, holes⟩ := g
    obtain rfl : outer = [] := eq_nil_of_boundsOf h
    exact .inr ⟨holes, rfl⟩
  | _ => cases h

theorem coords_of_bounds (h : p.bounds? = none) (hh : p.isHollow = false) : p.coords = [] := by
  obtain rfl | ⟨holes, rfl⟩ := unbounded_cases h
  · rfl
  · rw [isHollow, List.isEmpty_nil, Bool.true_and, Bool.not_eq_false', List.isEmpty_iff] at hh
    exact hh

theorem addPrimitive_of_bounds (h : p.bounds? = none) : Mass.addPrimitive none p = none := by
  obtain rfl | ⟨holes, rfl⟩ := unbounded_cases h
  · rfl
  · rfl

end Primitive

namespace Geometry

/-- Whether the corners of all boxes are in order. -/
def inOrder (g : Geometry) : Bool :=
  g.parts.all Primitive.inOrder

/-- Whether some polygon has no outer ring but vertices in its holes. -/
def isHollow (g : Geometry) : Bool :=
  g.parts.any Primitive.isHollow

mutual

theorem isEmpty_of_bounds : (g : Geometry) → (∀ p ∈ g.parts, p.inOrder = true) →
    ∀ e ∈ g.bounds?, e.isEmpty = false
  | single p, h => Primitive.isEmpty_of_bounds (h p (List.mem_singleton_self p))
  | multiPoint ps, _ => isEmpty_of_boundsOf ps
  | multiPath ps, _ => isEmpty_of_boundsOf ps.flatten
  | multiPolygon ps, _ => isEmpty_of_boundsOf (ps.flatMap Polygon.outer)
  | collection gs, h => isEmpty_of_boundsAll none gs (fun _ he => nomatch he) h

theorem isEmpty_of_boundsAll : (acc : Option Envelope) → (gs : List Geometry) →
    (∀ e ∈ acc, e.isEmpty = false) → (∀ p ∈ partsAll gs, p.inOrder = true) →
    ∀ e ∈ boundsAll? acc gs, e.isEmpty = false
  | _, [], hacc, _ => hacc
  | acc, g :: gs, hacc, h =>
    isEmpty_of_boundsAll (mergeBounds? acc (bounds? g)) gs
      (isEmpty_of_mergeBounds hacc
        (isEmpty_of_bounds g fun p hp => h p (List.mem_append_left _ hp)))
      fun p hp => h p (List.mem_append_right _ hp)

end

mutual

/-- The parts of a geometry without a box have none. -/
theorem bounds_of_mem_parts : (g : Geometry) → g.bounds? = none → ∀ p ∈ g.parts, p.bounds? = none
  | single p, h => fun _ hq => List.mem_singleton.mp hq ▸ h
  | multiPoint ps, h => by
    obtain rfl := eq_nil_of_boundsOf h
    exact fun _ hp => nomatch hp
  | multiPath ps, h => by
    intro p hp
    obtain ⟨vs, hvs, rfl⟩ := List.mem_map.mp hp
    obtain rfl := List.flatten_eq_nil_iff.mp (eq_nil_of_boundsOf h) vs hvs
    rfl
  | multiPolygon ps, h => by
    intro p hp
    obtain ⟨⟨outer, holes⟩, hg, rfl⟩ := List.mem_map.mp hp
    obtain rfl : outer = [] := List.flatMap_eq_nil_iff.mp (eq_nil_of_boundsOf h) _ hg
    rfl
  | collection gs, h => (bounds_of_mem_partsAll none gs h).2

theorem bounds_of_mem_partsAll : (acc : Option Envelope) → (gs : List Geometry) →
    boundsAll? acc gs = none → acc = none ∧ ∀ p ∈ partsAll gs, p.bounds? = none
  | _, [], h => ⟨h, fun _ hp => nomatch hp⟩
  | acc, g :: gs, h => by
    obtain ⟨hmerged, hgs⟩ := bounds_of_mem_partsAll (mergeBounds? acc (bounds? g)) gs h
    obtain ⟨hacc, hg⟩ := eq_none_of_mergeBounds hmerged
    refine ⟨hacc, fun p hp => ?_⟩
    rcases List.mem_append.mp hp with hp | hp
    · exact bounds_of_mem_parts g hg p hp
    · exact hgs p hp

end

variable {g : Geometry}

theorem bounds_of_isEmpty (hin : g.inOrder = true) (he : g.envelope.isEmpty = true) :
    g.bounds? = none := by
  cases hb : g.bounds? with
  | none => rfl
  | some e =>
    rw [envelope, hb, Option.getD_some, isEmpty_of_bounds g (List.all_eq_true.mp hin) e hb] at he
    cases he

/-- A geometry without a box has no vertices but those of holes. -/
theorem coords_of_bounds (hb : g.bounds? = none) (hh : g.isHollow = false) : g.coords = [] := by
  rw [coords, List.flatMap_eq_nil_iff]
  intro p hp
  exact Primitive.coords_of_bounds (bounds_of_mem_parts g hb p hp)
    (Bool.eq_false_iff.mpr (List.any_eq_false.mp hh p hp))

/-- A geometry without a box has no centroid. -/
theorem centroid_of_bounds (hb : g.bounds? = none) : g.centroid? = none := by
  have hmass : g.parts.foldl Mass.addPrimitive none = none :=
    List.foldlRecOn (motive := (· = none)) _ _ rfl fun m hm p hp =>
      hm ▸ Primitive.addPrimitive_of_bounds (bounds_of_mem_parts g hb p hp)
  unfold centroid?
  split
  · next c hs =>
    obtain rfl := eq_single hs
    cases hb
  · next a b hs =>
    obtain rfl := eq_single hs
    cases hb
  · next l u hs =>
    obtain rfl := eq_single hs
    cases hb
  · rw [hmass, Option.map_none]

theorem contains_of_bounds (hb : g.bounds? = none) (h : Geometry) :
    g.contains h = false ∧ h.contains g = false := by
  unfold contains
  rw [hb]
  cases h.bounds? <;> exact ⟨rfl, rfl⟩

end Geometry

end PlanarJoin
