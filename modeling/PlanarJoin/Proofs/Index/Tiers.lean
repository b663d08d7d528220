import PlanarJoin.Index.Tiers
import PlanarJoin.Proofs.Binary64.Halving
import PlanarJoin.Proofs.Index.Grid

/-!
# What tiers of buckets find

An item stands in one bucket, that of its computed center, in the first tier that it fits.  A query
of the tier finds it if the envelope, widened by half a bucket, reaches that bucket.  Half a bucket
bridges the distance from where the envelope meets the item to the center of the item, if the item
is really no larger than a bucket and the sum of its bounds does not overflow.  That an item fits
says less: its width is compared after it was rounded.

## Main definitions

* `Tier.reaches`: whether a query reaches the bucket where an envelope stands.
* `Tiers.finds`: whether a query finds an envelope in the first tier that it fits.
* `Tiers.Holds`: tiers that hold some entries.
* `Tier.Bridges`: half a bucket bridges the distance from the ends of an envelope to its center.

## Main results

* `Tiers.regular_layouts`: the layouts of tiers are regular.
* `bridges_of_le`: what is no longer than a bucket is bridged, unless lengths are rounded.
* `Tier.reaches_of_meets`: what is bridged is reached from all envelopes that meet it.
* `Tiers.query_eq`: a query of tiers gives the items that it finds, in order of arrival.
-/

namespace PlanarJoin

open Binary64 Envelope

/-! ## Layouts -/

/-- An envelope between bounds in any order has a width and a height without a sign. -/
theorem Envelope.isPositive_ofBounds (x₁ x₂ y₁ y₂ : Float) :
    IsPositive (ofBounds x₁ x₂ y₁ y₂).width ∧ IsPositive (ofBounds x₁ x₂ y₁ y₂).height := by
  have hlength (crossed : Bool) (x y : Float) :
      IsPositive (if crossed then 0.0 else upper x y - lower x y) := by
    cases crossed with
    | true =>
      have hzero : IsPositive 0.0 := rfl
      exact hzero
    | false => exact isPositive_upper_sub_lower x y
  exact ⟨hlength _ x₁ x₂, hlength _ y₁ y₂⟩

/-- The layout of a tier is regular. -/
theorem TierPlan.regular_make {extent : Envelope} {size : Float × Float} {l : Layout}
    (h : make extent size = .layout l) : l.Regular := by
  unfold make at h
  dsimp only at h
  split at h
  · split at h
    · cases h
    · cases h
      obtain ⟨hw, hh⟩ := isPositive_ofBounds extent.minX
        (extent.minX + ceiling (extent.width / size.1) * size.1) extent.minY
        (extent.minY + ceiling (extent.height / size.2) * size.2)
      exact Layout.regular_make_of_isPositive (fun _ => hw) fun _ => hh
  · cases h

/-- The layouts of tiers are regular; the last one is a single bucket. -/
theorem Tiers.regular_layouts (extent : Envelope) (sizes : List (Float × Float)) :
    ∀ l ∈ layouts extent sizes, l.Regular := by
  intro l hl
  rcases List.mem_append.mp hl with hl | hl
  · obtain ⟨size, -, hsize⟩ := List.mem_filterMap.mp hl
    split at hsize
    · next hplan => exact Option.some.inj hsize ▸ TierPlan.regular_make hplan
    · cases hsize
  · rw [List.mem_singleton.mp hl]
    exact Layout.regular_make_of_isPositive (fun h => absurd h (by decide))
      fun h => absurd h (by decide)

/-! ## From an envelope to a center -/

/-- Half a bucket of a size bridges the distance from both ends of a range to its computed middle.
It does if there is one bucket only or if the buckets have no end; else the sum of both ends must
not overflow, and the exact length must not exceed twice the half of a bucket. -/
def Bridges (count : Nat) (size low high : Float) : Prop :=
  1 < count → size.isFinite = true →
    (low + high).isFinite = true ∧ value high - value low ≤ 2 * value (size / 2.0)

/-- What is no longer than a bucket is bridged, if its length and half a bucket are not rounded. -/
theorem bridges_of_le {count : Nat} {size low high : Float} (hsum : (low + high).isFinite = true)
    (hfinite : (high - low).isFinite = true) (hlength : value (high - low) = value high - value low)
    (hhalf : 2 * value (size / 2.0) = value size) (h : high - low ≤ size) :
    Bridges count size low high := by
  intro _ hsize
  have hle := (value_le_value_iff hfinite hsize).mpr (le_iff.mp h).2.2
  exact ⟨hsum, by linarith⟩

/-- A point is bridged, unless it is so far off that its double overflows. -/
theorem bridges_self {count : Nat} {size x : Float} (hsize : 1 < count → IsPositive size)
    (hsum : (x + x).isFinite = true) : Bridges count size x x := by
  intro h1 hfin
  have hhalf : 0 ≤ rank (size / 2.0) :=
    rank_nonneg_of_isPositive (isPositive_div (hsize h1) rfl)
  have hle := (value_le_value_iff (x := 0.0) (by decide) (isFinite_half hfin)).mpr hhalf
  refine ⟨hsum, ?_⟩
  have hzero : value 0.0 = 0 := rfl
  linarith

section Axis

variable {count : Nat} {size low high x : Float} (m : Float)
  (hcount : 0 < count ∧ count ≤ 2 ^ 53) (hsize : 1 < count → IsPositive size)
  (hlow : low.isFinite = true) (hhigh : high.isFinite = true) (hx : x.isFinite = true)
  (h : Bridges count size low high)

include hcount hsize hlow hhigh hx h

/-- What does not lie above a range, less half a bucket, is not above the bucket of its middle. -/
theorem floorBelow_sub_half_le (hle : rank x ≤ rank high) :
    floorBelow ((x - size / 2.0 - m) / size) count ≤
      floorBelow (((low + high) / 2.0 - m) / size) count := by
  refine Layout.floorBelow_position_le m hcount hsize ?_
  intro h1 hfin
  obtain ⟨hsum, hlen⟩ := h h1 hfin
  exact sub_le_middle hlow hhigh hx (isFinite_half hfin) hsum hlen hle

/-- What does not lie below a range, and half a bucket, is not below the bucket of its middle. -/
theorem le_floorBelow_add_half (hle : rank low ≤ rank x) :
    floorBelow (((low + high) / 2.0 - m) / size) count ≤
      floorBelow ((x + size / 2.0 - m) / size) count := by
  refine Layout.floorBelow_position_le m hcount hsize ?_
  intro h1 hfin
  obtain ⟨hsum, hlen⟩ := h h1 hfin
  exact middle_le_add hlow hhigh hx (isFinite_half hfin) hsum hlen hle

end Axis

namespace Tier

variable {α : Type} {t : Tier α} {a e : Envelope}

/-- Half a bucket bridges the distance from the ends of an envelope to its center. -/
structure Bridges (t : Tier α) (a : Envelope) : Prop where
  x : PlanarJoin.Bridges t.layout.columns t.layout.bucketWidth a.minX a.maxX
  y : PlanarJoin.Bridges t.layout.rows t.layout.bucketHeight a.minY a.maxY

/-- Whether a query reaches the bucket where an envelope stands. -/
def reaches (t : Tier α) (e a : Envelope) : Bool :=
  (t.layout.keysOf (e.grow (t.layout.bucketWidth / 2.0) (t.layout.bucketHeight / 2.0))).contains
    (t.home a)

/-- What is bridged is reached from all envelopes that meet it. -/
theorem reaches_of_meets (hl : t.layout.Regular) (ha : a.isProper = true) (he : e.isProper = true)
    (hm : a.meets e = true) (hb : t.Bridges a) : t.reaches e a = true := by
  obtain ⟨hoa, fa₁, fa₂, fa₃, fa₄⟩ := isProper_iff.mp ha
  obtain ⟨hoe, fe₁, fe₂, fe₃, fe₄⟩ := isProper_iff.mp he
  obtain ⟨⟨h₁, h₂⟩, h₃, h₄⟩ := (meets_iff hoa hoe).mp hm
  rw [reaches, List.contains_iff_mem, grow, hoe.isEmpty]
  refine Layout.mem_keysOf.mpr ⟨_, _, ⟨?_, ?_⟩, ⟨?_, ?_⟩, rfl⟩
  · exact floorBelow_sub_half_le _ hl.rows hl.height fa₃ fa₄ fe₃ hb.y h₄
  · exact le_floorBelow_add_half _ hl.rows hl.height fa₃ fa₄ fe₄ hb.y h₃
  · exact floorBelow_sub_half_le _ hl.columns hl.width fa₁ fa₂ fe₁ hb.x h₂
  · exact le_floorBelow_add_half _ hl.columns hl.width fa₁ fa₂ fe₂ hb.x h₁

theorem bridges_ofPoint (hl : t.layout.Regular) {x y : Float} (hx : (x + x).isFinite = true)
    (hy : (y + y).isFinite = true) : t.Bridges (ofPoint x y) :=
  ⟨bridges_self hl.width hx, bridges_self hl.height hy⟩

/-! ## Buckets of a tier -/

/-- A tier without entries. -/
def ofLayout (l : Layout) : Tier α := ⟨l, .empty⟩

theorem bucket_of_count (h : t.buckets.count = 0) (k : Nat) : t.buckets.bucket k = [] := by
  have hempty : t.buckets.filled.isEmpty = true := by
    rw [Std.HashMap.isEmpty_eq_size_eq_zero]
    exact beq_iff_eq.mpr h
  rw [Buckets.bucket, Std.HashMap.getD_of_isEmpty hempty]

variable [Spatial α] {es : List (Entry α)} {x : Entry α}

/-- Whether an entry fits a tier. -/
def takes (t : Tier α) (x : Entry α) : Bool :=
  t.fits (Spatial.envelope x.item)

/-- The buckets of a tier hold some entries, each where its center is. -/
def Holds (t : Tier α) (es : List (Entry α)) : Prop :=
  ∀ k x, x ∈ t.buckets.bucket k ↔ x ∈ es ∧ t.home (Spatial.envelope x.item) = k

/-- Putting an entry into a tier adds just this entry. -/
theorem Holds.put (h : t.Holds es) (x : Entry α) : (t.put x).Holds (es ++ [x]) := by
  intro k y
  change y ∈ (t.buckets.put x _).bucket k ↔ _ ∧ t.home _ = k
  rw [Buckets.bucket_put, List.mem_append, List.mem_singleton]
  split
  · next hk =>
    rw [List.mem_append, List.mem_singleton, h k y]
    constructor
    · rintro (⟨hy, hyk⟩ | rfl)
      · exact ⟨.inl hy, hyk⟩
      · exact ⟨.inr rfl, hk⟩
    · rintro ⟨hy | rfl, hyk⟩
      · exact .inl ⟨hy, hyk⟩
      · exact .inr rfl
  · next hk =>
    rw [h k y]
    constructor
    · rintro ⟨hy, hyk⟩
      exact ⟨.inl hy, hyk⟩
    · rintro ⟨hy | rfl, hyk⟩
      · exact ⟨hy, hyk⟩
      · exact absurd hyk hk

/-- A query of a tier gives the entries whose buckets it reaches. -/
theorem Holds.mem_reached (h : t.Holds es) (e : Envelope) :
    x ∈ t.reached e ↔ x ∈ es ∧ t.reaches e (Spatial.envelope x.item) = true := by
  unfold reached
  split
  · next hcount =>
    refine iff_of_false List.not_mem_nil ?_
    rintro ⟨hx, -⟩
    have hmem := (h _ x).mpr ⟨hx, rfl⟩
    rw [bucket_of_count hcount] at hmem
    exact List.not_mem_nil hmem
  · rw [Buckets.mem_reached, reaches, List.contains_iff_mem]
    constructor
    · rintro ⟨k, hk, hx⟩
      obtain ⟨hes, rfl⟩ := (h k x).mp hx
      exact ⟨hes, hk⟩
    · rintro ⟨hes, hk⟩
      exact ⟨_, hk, (h _ x).mpr ⟨hes, rfl⟩⟩

end Tier

/-! ## Tiers -/

namespace Tiers

variable {α : Type} {ts us : List (Tier α)} {e a : Envelope}

/-- Whether a query finds an envelope: it reaches its bucket in the first tier that it fits, or
there is no such tier. -/
def finds (ts : List (Tier α)) (e a : Envelope) : Bool :=
  (ts.find? (·.fits a)).all (·.reaches e a)

theorem finds_cons (t : Tier α) (ts : List (Tier α)) (e a : Envelope) :
    finds (t :: ts) e a = if t.fits a then t.reaches e a else finds ts e a := by
  cases h : t.fits a <;> simp [finds, h]

/-- What meets the envelope is found if it is bridged in the tier that it fits. -/
theorem finds_of_bridges (hl : ∀ t ∈ ts, t.layout.Regular) (ha : a.isProper = true)
    (he : e.isProper = true) (hm : a.meets e = true)
    (hb : ∀ t, ts.find? (·.fits a) = some t → t.Bridges a) : finds ts e a = true := by
  rw [finds]
  cases htier : ts.find? (·.fits a) with
  | none => rfl
  | some t =>
    exact Tier.reaches_of_meets (hl t (List.mem_of_find?_eq_some htier)) ha he hm (hb t htier)

theorem regular_ofSizes (extent : Envelope) (sizes : List (Float × Float)) :
    ∀ t ∈ (ofSizes extent sizes : Tiers α).tiers, t.layout.Regular := by
  intro t ht
  obtain ⟨l, hl, rfl⟩ := List.mem_map.mp ht
  exact regular_layouts extent sizes l hl

/-- What fits a tier depends on the layouts of the tiers, not on what stands in them. -/
theorem fits_congr (h : ts.map (·.layout) = us.map (·.layout)) (a : Envelope) :
    (∃ t ∈ ts, t.fits a = true) ↔ ∃ t ∈ us, t.fits a = true := by
  have hlayouts (ts : List (Tier α)) : (∃ t ∈ ts, t.fits a = true) ↔
      ∃ l ∈ ts.map (·.layout), (Tier.ofLayout l : Tier α).fits a = true := by
    simp only [List.mem_map, exists_exists_and_eq_and]
    rfl
  rw [hlayouts ts, hlayouts us, h]

theorem finds_congr (h : ts.map (·.layout) = us.map (·.layout)) (e a : Envelope) :
    finds ts e a = finds us e a := by
  have hlayouts (ts : List (Tier α)) : finds ts e a =
      ((ts.map (·.layout)).find? fun l => (Tier.ofLayout l : Tier α).fits a).all
        fun l => (Tier.ofLayout l : Tier α).reaches e a := by
    rw [List.find?_map, Option.all_map]
    rfl
  rw [hlayouts ts, hlayouts us, h]

variable [Spatial α] {es : List (Entry α)} {s : Tiers α} {x : Entry α}

/-- Putting an entry into a tier keeps the layouts. -/
theorem map_layout_put? (h : put? x ts = some us) :
    us.map (·.layout) = ts.map (·.layout) := by
  induction ts generalizing us with
  | nil => cases h
  | cons t ts ih =>
    rw [put?] at h
    split at h
    · obtain rfl := Option.some.inj h
      rfl
    · obtain ⟨us, hus, rfl⟩ := Option.map_eq_some_iff.mp h
      rw [List.map_cons, ih hus, List.map_cons]

theorem map_layout_insert (s : Tiers α) (x : Entry α) :
    (s.insert x).tiers.map (·.layout) = s.tiers.map (·.layout) := by
  unfold Tiers.insert
  split
  · next us hput => exact map_layout_put? hput
  · rfl

/-- The buckets of some tiers hold some entries, each in the first tier that it fits. -/
def Hold : List (Tier α) → List (Entry α) → Prop
  | [], _ => True
  | t :: ts, es => t.Holds (es.filter t.takes) ∧ Hold ts (es.filter (!t.takes ·))

theorem hold_empty (ls : List Layout) : Hold (ls.map Tier.ofLayout : List (Tier α)) [] := by
  induction ls with
  | nil => trivial
  | cons l ls ih => exact ⟨fun k x => by simp [Tier.ofLayout], ih⟩

/-- An entry that fits the first tier concerns no other. -/
theorem Hold.put_first {t : Tier α} (h : Hold (t :: ts) es) (hx : t.takes x = true) :
    Hold (t.put x :: ts) (es ++ [x]) := by
  refine ⟨?_, ?_⟩
  · change (t.put x).Holds ((es ++ [x]).filter t.takes)
    rw [List.filter_append, List.filter_cons_of_pos hx]
    exact h.1.put x
  · change Hold ts ((es ++ [x]).filter (!t.takes ·))
    rw [List.filter_append, List.filter_cons_of_neg (by simp [hx]), List.filter_nil,
      List.append_nil]
    exact h.2

theorem Hold.put_later {t : Tier α} (h : t.Holds (es.filter t.takes)) (hx : t.takes x = false)
    (hts : Hold ts (es.filter (!t.takes ·) ++ [x])) : Hold (t :: ts) (es ++ [x]) := by
  refine ⟨?_, ?_⟩
  · rw [List.filter_append, List.filter_cons_of_neg (by simp [hx]), List.filter_nil,
      List.append_nil]
    exact h
  · rw [List.filter_append, List.filter_cons_of_pos (by simp [hx])]
    exact hts

/-- An entry that is put into a tier stands in the first that it fits. -/
theorem Hold.put_some (h : Hold ts es) (hput : put? x ts = some us) :
    Hold us (es ++ [x]) ∧ ∃ t ∈ ts, t.takes x = true := by
  induction ts generalizing es us with
  | nil => cases hput
  | cons t ts ih =>
    rw [put?] at hput
    split at hput
    · next hfits =>
      obtain rfl := Option.some.inj hput
      exact ⟨h.put_first hfits, t, List.mem_cons_self, hfits⟩
    · next hfits =>
      obtain ⟨us, hus, rfl⟩ := Option.map_eq_some_iff.mp hput
      obtain ⟨hhold, u, hu, huf⟩ := ih h.2 hus
      exact ⟨.put_later h.1 (Bool.not_eq_true _ ▸ hfits) hhold, u, List.mem_cons_of_mem _ hu, huf⟩

/-- An entry that is put into no tier fits none. -/
theorem Hold.put_none (h : Hold ts es) (hput : put? x ts = none) :
    Hold ts (es ++ [x]) ∧ ¬ ∃ t ∈ ts, t.takes x = true := by
  induction ts generalizing es with
  | nil => exact ⟨trivial, by simp⟩
  | cons t ts ih =>
    rw [put?] at hput
    split at hput
    · cases hput
    · next hfits =>
      obtain ⟨hhold, hnone⟩ := ih h.2 (Option.map_eq_none_iff.mp hput)
      refine ⟨.put_later h.1 (Bool.not_eq_true _ ▸ hfits) hhold, ?_⟩
      rw [List.exists_mem_cons_iff]
      exact not_or.mpr ⟨hfits, hnone⟩

theorem Hold.mem_reached (h : Hold ts es) (e : Envelope) : x ∈ ts.flatMap (·.reached e) ↔
    (x ∈ es ∧ ∃ t ∈ ts, t.takes x = true) ∧ finds ts e (Spatial.envelope x.item) = true := by
  induction ts generalizing es with
  | nil => simp
  | cons t ts ih =>
    rw [List.flatMap_cons, List.mem_append, h.1.mem_reached, ih h.2, finds_cons, List.mem_filter,
      List.mem_filter, List.exists_mem_cons_iff, ← Tier.takes]
    cases t.takes x <;> simp

/-- Tiers that hold some entries, those that fit none apart. -/
structure Holds (s : Tiers α) (es : List (Entry α)) : Prop where
  tiers : Hold s.tiers es
  oversize : ∀ x, x ∈ s.oversize ↔ x ∈ es ∧ ¬ ∃ t ∈ s.tiers, t.takes x = true

theorem holds_ofSizes (extent : Envelope) (sizes : List (Float × Float)) :
    (ofSizes extent sizes : Tiers α).Holds [] :=
  ⟨hold_empty _, fun x => by simp [ofSizes]⟩

/-- Inserting an entry adds just this entry. -/
theorem Holds.insert (h : s.Holds es) (x : Entry α) : (s.insert x).Holds (es ++ [x]) := by
  unfold Tiers.insert
  split
  · next us hput =>
    obtain ⟨hhold, htakes⟩ := h.tiers.put_some hput
    refine ⟨hhold, ?_⟩
    intro y
    have hfits : (∃ t ∈ us, t.takes y = true) ↔ ∃ t ∈ s.tiers, t.takes y = true :=
      fits_congr (map_layout_put? hput) _
    rw [hfits, h.oversize y, List.mem_append, List.mem_singleton]
    constructor
    · rintro ⟨hy, hnone⟩
      exact ⟨.inl hy, hnone⟩
    · rintro ⟨hy | rfl, hnone⟩
      · exact ⟨hy, hnone⟩
      · exact absurd htakes hnone
  · next hput =>
    obtain ⟨hhold, hnone⟩ := h.tiers.put_none hput
    refine ⟨hhold, ?_⟩
    intro y
    rw [List.mem_append, List.mem_singleton, h.oversize y, List.mem_append, List.mem_singleton]
    constructor
    · rintro (⟨hy, hfits⟩ | rfl)
      · exact ⟨.inl hy, hfits⟩
      · exact ⟨.inr rfl, hnone⟩
    · rintro ⟨hy | rfl, hfits⟩
      · exact .inl ⟨hy, hfits⟩
      · exact .inr rfl

/-- A query gives the items that it finds, in order of arrival. -/
theorem query_eq (h : s.Holds es) (hes : es.Pairwise fun a b => a.arrival < b.arrival)
    (e : Envelope) : s.query e =
      (es.map (·.item)).filter fun a => finds s.tiers e (Spatial.envelope a) := by
  have hfound (x : Entry α) : x ∈ s.oversize ++ s.tiers.flatMap (·.reached e) ↔
      x ∈ es ∧ finds s.tiers e (Spatial.envelope x.item) = true := by
    rw [List.mem_append, h.oversize x, h.tiers.mem_reached e]
    by_cases htakes : ∃ t ∈ s.tiers, t.takes x = true
    · simp [htakes]
    · have hfinds : finds s.tiers e (Spatial.envelope x.item) = true := by
        rw [finds, List.find?_eq_none.mpr]
        · rfl
        · exact fun t ht htx => htakes ⟨t, ht, htx⟩
      simp [htakes, hfinds]
  rw [query, inOrder_eq hes (fun x hx => ((hfound x).mp hx).1)
    (fun x => finds s.tiers e (Spatial.envelope x.item)) fun x hx => by rw [hfound]; simp [hx]]
  rw [List.filter_map]
  rfl

end Tiers

end PlanarJoin
