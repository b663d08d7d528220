import Mathlib.Order.MinMax
import PlanarJoin.Envelope.Basic
import PlanarJoin.Proofs.Binary64.Rank

/-!
# Envelopes by rank

On envelopes whose bounds are numbers in order, the relations between envelopes are inequalities
between the ranks of the bounds.

## Main definitions

* `Envelope.Ordered`: the bounds are numbers, and are not crossed.
* `Envelope.IsHull`: an envelope that covers some envelopes and ends where they do.
* `Envelope.IsSmallest`: the smallest envelope around some envelopes.

## Main results

* `Envelope.isProper_iff`: an envelope is proper if it is ordered and finite.
* `Envelope.meets_iff`, `Envelope.covers_iff`, `Envelope.hasPoint_iff`: the relations on ranks.
* `Envelope.isHull_hullAll`: the envelope around a list of envelopes is their hull.
-/

namespace PlanarJoin.Envelope

open Binary64

/-- The bounds are numbers, and are not crossed. -/
structure Ordered (e : Envelope) : Prop where
  minX_num : e.minX.isNaN = false
  maxX_num : e.maxX.isNaN = false
  minY_num : e.minY.isNaN = false
  maxY_num : e.maxY.isNaN = false
  le_x : rank e.minX ≤ rank e.maxX
  le_y : rank e.minY ≤ rank e.maxY

/-- All bounds are finite. -/
def Finite (e : Envelope) : Prop :=
  e.minX.isFinite = true ∧ e.maxX.isFinite = true ∧ e.minY.isFinite = true ∧ e.maxY.isFinite = true

variable {a b e h : Envelope} {x y : Float}

theorem isEmpty_iff (hx₁ : e.minX.isNaN = false) (hx₂ : e.maxX.isNaN = false)
    (hy₁ : e.minY.isNaN = false) (hy₂ : e.maxY.isNaN = false) :
    e.isEmpty = false ↔ rank e.minX ≤ rank e.maxX ∧ rank e.minY ≤ rank e.maxY := by
  simp only [isEmpty, Bool.or_eq_false_iff, decide_eq_false_iff_not, lt_iff, hx₁, hx₂, hy₁, hy₂,
    true_and, not_lt]

theorem Ordered.isEmpty (h : e.Ordered) : e.isEmpty = false :=
  (isEmpty_iff h.minX_num h.maxX_num h.minY_num h.maxY_num).mpr ⟨h.le_x, h.le_y⟩

/-- An envelope is proper if it is ordered and finite. -/
theorem isProper_iff : e.isProper = true ↔ e.Ordered ∧ e.Finite := by
  simp only [isProper, Bool.and_eq_true, Bool.not_eq_true']
  constructor
  · rintro ⟨⟨⟨⟨hne, hx₁⟩, hx₂⟩, hy₁⟩, hy₂⟩
    have nx₁ := isNaN_of_isFinite hx₁
    have nx₂ := isNaN_of_isFinite hx₂
    have ny₁ := isNaN_of_isFinite hy₁
    have ny₂ := isNaN_of_isFinite hy₂
    obtain ⟨hx, hy⟩ := (isEmpty_iff nx₁ nx₂ ny₁ ny₂).mp hne
    exact ⟨⟨nx₁, nx₂, ny₁, ny₂, hx, hy⟩, hx₁, hx₂, hy₁, hy₂⟩
  · rintro ⟨ho, hx₁, hx₂, hy₁, hy₂⟩
    exact ⟨⟨⟨⟨ho.isEmpty, hx₁⟩, hx₂⟩, hy₁⟩, hy₂⟩

theorem ordered_of_isProper (h : e.isProper = true) : e.Ordered :=
  (isProper_iff.mp h).1

theorem finite_of_isProper (h : e.isProper = true) : e.Finite :=
  (isProper_iff.mp h).2

theorem isEmpty_of_meets (h : a.meets b = true) : a.isEmpty = false ∧ b.isEmpty = false := by
  rw [meets, Bool.and_eq_true, Bool.and_eq_true, Bool.not_eq_true', Bool.not_eq_true'] at h
  exact h.1

/-- Two envelopes meet if on each axis neither begins behind the other. -/
theorem meets_iff (ha : a.Ordered) (hb : b.Ordered) :
    a.meets b = true ↔ (rank a.minX ≤ rank b.maxX ∧ rank b.minX ≤ rank a.maxX) ∧
      rank a.minY ≤ rank b.maxY ∧ rank b.minY ≤ rank a.maxY := by
  simp only [meets, ha.isEmpty, hb.isEmpty, Bool.not_false, Bool.true_and, Bool.not_eq_true',
    Bool.or_eq_false_iff, decide_eq_false_iff_not, lt_iff, ha.minX_num, ha.maxX_num, ha.minY_num,
    ha.maxY_num, hb.minX_num, hb.maxX_num, hb.minY_num, hb.maxY_num, true_and, not_lt]
  constructor
  · rintro ⟨⟨⟨h₁, h₂⟩, h₃⟩, h₄⟩
    exact ⟨⟨h₂, h₁⟩, h₄, h₃⟩
  · rintro ⟨⟨h₂, h₁⟩, h₄, h₃⟩
    exact ⟨⟨⟨h₁, h₂⟩, h₃⟩, h₄⟩

theorem meets_comm (ha : a.Ordered) (hb : b.Ordered) : a.meets b = b.meets a := by
  rw [Bool.eq_iff_iff, meets_iff ha hb, meets_iff hb ha]
  constructor
  · rintro ⟨⟨h₁, h₂⟩, h₃, h₄⟩
    exact ⟨⟨h₂, h₁⟩, h₄, h₃⟩
  · rintro ⟨⟨h₁, h₂⟩, h₃, h₄⟩
    exact ⟨⟨h₂, h₁⟩, h₄, h₃⟩

/-- What covers and what is covered is ordered. -/
theorem covers_iff : a.covers b = true ↔ a.Ordered ∧ b.Ordered ∧
    (rank a.minX ≤ rank b.minX ∧ rank b.maxX ≤ rank a.maxX) ∧
      rank a.minY ≤ rank b.minY ∧ rank b.maxY ≤ rank a.maxY := by
  simp only [covers, Bool.and_eq_true, Bool.not_eq_true', decide_eq_true_eq, le_iff]
  constructor
  · rintro ⟨⟨⟨⟨⟨hae, hbe⟩, nax₁, nbx₁, h₁⟩, nbx₂, nax₂, h₂⟩, nay₁, nby₁, h₃⟩, nby₂, nay₂, h₄⟩
    obtain ⟨hax, hay⟩ := (isEmpty_iff nax₁ nax₂ nay₁ nay₂).mp hae
    obtain ⟨hbx, hby⟩ := (isEmpty_iff nbx₁ nbx₂ nby₁ nby₂).mp hbe
    exact ⟨⟨nax₁, nax₂, nay₁, nay₂, hax, hay⟩, ⟨nbx₁, nbx₂, nby₁, nby₂, hbx, hby⟩, ⟨h₁, h₂⟩, h₃, h₄⟩
  · rintro ⟨ha, hb, ⟨h₁, h₂⟩, h₃, h₄⟩
    exact ⟨⟨⟨⟨⟨ha.isEmpty, hb.isEmpty⟩, ha.minX_num, hb.minX_num, h₁⟩,
      hb.maxX_num, ha.maxX_num, h₂⟩, ha.minY_num, hb.minY_num, h₃⟩, hb.maxY_num, ha.maxY_num, h₄⟩

theorem covers_trans {c : Envelope} (hab : a.covers b = true) (hbc : b.covers c = true) :
    a.covers c = true := by
  obtain ⟨ha, -, ⟨h₁, h₂⟩, h₃, h₄⟩ := covers_iff.mp hab
  obtain ⟨-, hc, ⟨k₁, k₂⟩, k₃, k₄⟩ := covers_iff.mp hbc
  exact covers_iff.mpr ⟨ha, hc, ⟨le_trans h₁ k₁, le_trans k₂ h₂⟩, le_trans h₃ k₃, le_trans k₄ h₄⟩

theorem meets_of_covers {c : Envelope} (h : a.covers b = true) (hc : c.Ordered)
    (hm : b.meets c = true) : a.meets c = true := by
  obtain ⟨ha, hb, ⟨h₁, h₂⟩, h₃, h₄⟩ := covers_iff.mp h
  obtain ⟨⟨k₁, k₂⟩, k₃, k₄⟩ := (meets_iff hb hc).mp hm
  exact (meets_iff ha hc).mpr ⟨⟨le_trans h₁ k₁, le_trans k₂ h₂⟩, le_trans h₃ k₃, le_trans k₄ h₄⟩

/-- What holds a point is ordered, and the point has numbers. -/
theorem hasPoint_iff : e.hasPoint x y = true ↔ e.Ordered ∧ (x.isNaN = false ∧ y.isNaN = false) ∧
    (rank e.minX ≤ rank x ∧ rank x ≤ rank e.maxX) ∧
      rank e.minY ≤ rank y ∧ rank y ≤ rank e.maxY := by
  simp only [hasPoint, Bool.and_eq_true, Bool.not_eq_true', decide_eq_true_eq, le_iff]
  constructor
  · rintro ⟨⟨⟨⟨hne, nx₁, nx, h₁⟩, -, nx₂, h₂⟩, ny₁, ny, h₃⟩, -, ny₂, h₄⟩
    obtain ⟨hx, hy⟩ := (isEmpty_iff nx₁ nx₂ ny₁ ny₂).mp hne
    exact ⟨⟨nx₁, nx₂, ny₁, ny₂, hx, hy⟩, ⟨nx, ny⟩, ⟨h₁, h₂⟩, h₃, h₄⟩
  · rintro ⟨he, ⟨nx, ny⟩, ⟨h₁, h₂⟩, h₃, h₄⟩
    exact ⟨⟨⟨⟨he.isEmpty, he.minX_num, nx, h₁⟩, nx, he.maxX_num, h₂⟩, he.minY_num, ny, h₃⟩, ny,
      he.maxY_num, h₄⟩

theorem hasPoint_of_covers (h : a.covers b = true) (hp : b.hasPoint x y = true) :
    a.hasPoint x y = true := by
  obtain ⟨ha, -, ⟨h₁, h₂⟩, h₃, h₄⟩ := covers_iff.mp h
  obtain ⟨-, hn, ⟨k₁, k₂⟩, k₃, k₄⟩ := hasPoint_iff.mp hp
  exact hasPoint_iff.mpr ⟨ha, hn, ⟨le_trans h₁ k₁, le_trans k₂ h₂⟩, le_trans h₃ k₃, le_trans k₄ h₄⟩

theorem meets_of_hasPoint (ha : a.hasPoint x y = true) (hb : b.hasPoint x y = true) :
    a.meets b = true := by
  obtain ⟨hoa, -, ⟨h₁, h₂⟩, h₃, h₄⟩ := hasPoint_iff.mp ha
  obtain ⟨hob, -, ⟨k₁, k₂⟩, k₃, k₄⟩ := hasPoint_iff.mp hb
  exact (meets_iff hoa hob).mpr
    ⟨⟨le_trans h₁ k₂, le_trans k₁ h₂⟩, le_trans h₃ k₄, le_trans k₃ h₄⟩

/-! ## Corners -/

theorem hasPoint_corner (he : e.Ordered) : e.hasPoint e.minX e.minY = true :=
  hasPoint_iff.mpr ⟨he, ⟨he.minX_num, he.minY_num⟩, ⟨le_rfl, he.le_x⟩, le_rfl, he.le_y⟩

/-- The lower left corner of what two envelopes share lies in both. -/
theorem hasPoint_overlap (ha : a.Ordered) (hb : b.Ordered) (h : a.meets b = true) :
    ∃ e, a.overlap? b = some e ∧ a.hasPoint e.minX e.minY = true ∧
      b.hasPoint e.minX e.minY = true := by
  refine ⟨_, by rw [overlap?, if_pos h], ?_⟩
  obtain ⟨nx, hx⟩ := rank_upper ha.minX_num hb.minX_num
  obtain ⟨ny, hy⟩ := rank_upper ha.minY_num hb.minY_num
  obtain ⟨⟨h₁, h₂⟩, h₃, h₄⟩ := (meets_iff ha hb).mp h
  have := ha.le_x
  have := hb.le_x
  have := ha.le_y
  have := hb.le_y
  constructor <;> refine hasPoint_iff.mpr ⟨by assumption, ⟨nx, ny⟩, ?_⟩ <;> dsimp only <;>
    rw [hx, hy] <;> omega

/-! ## Hulls -/

/-- An envelope that covers some envelopes and ends, on each side, where one of them does. -/
structure IsHull (h : Envelope) (es : List Envelope) : Prop where
  covers : ∀ e ∈ es, h.covers e = true
  minX_attained : ∃ e ∈ es, rank h.minX = rank e.minX
  maxX_attained : ∃ e ∈ es, rank h.maxX = rank e.maxX
  minY_attained : ∃ e ∈ es, rank h.minY = rank e.minY
  maxY_attained : ∃ e ∈ es, rank h.maxY = rank e.maxY

theorem IsHull.ordered {es : List Envelope} (hh : IsHull h es) : h.Ordered := by
  obtain ⟨e, he, -⟩ := hh.minX_attained
  exact (covers_iff.mp (hh.covers e he)).1

theorem isHull_singleton (he : e.Ordered) : IsHull e [e] := by
  refine ⟨?_, ?_, ?_, ?_, ?_⟩
  · intro c hc
    obtain rfl := List.mem_singleton.mp hc
    exact covers_iff.mpr ⟨he, he, ⟨le_rfl, le_rfl⟩, le_rfl, le_rfl⟩
  all_goals exact ⟨e, List.mem_singleton_self e, rfl⟩

theorem attained_min {es : List Envelope} (f : Envelope → Float) {i : Int}
    (h : ∃ c ∈ es, i = rank (f c)) (e : Envelope) :
    ∃ c ∈ es ++ [e], min i (rank (f e)) = rank (f c) := by
  rcases min_choice i (rank (f e)) with hm | hm <;> rw [hm]
  · obtain ⟨c, hc, hr⟩ := h
    exact ⟨c, List.mem_append_left _ hc, hr⟩
  · exact ⟨e, by simp, rfl⟩

theorem attained_max {es : List Envelope} (f : Envelope → Float) {i : Int}
    (h : ∃ c ∈ es, i = rank (f c)) (e : Envelope) :
    ∃ c ∈ es ++ [e], max i (rank (f e)) = rank (f c) := by
  rcases max_choice i (rank (f e)) with hm | hm <;> rw [hm]
  · obtain ⟨c, hc, hr⟩ := h
    exact ⟨c, List.mem_append_left _ hc, hr⟩
  · exact ⟨e, by simp, rfl⟩

/-- The hull of one more envelope. -/
theorem IsHull.hull {es : List Envelope} (hh : IsHull h es) (he : e.Ordered) :
    IsHull (h.hull e) (es ++ [e]) := by
  have ho := hh.ordered
  obtain ⟨nx₁, hx₁⟩ := rank_lower ho.minX_num he.minX_num
  obtain ⟨nx₂, hx₂⟩ := rank_upper ho.maxX_num he.maxX_num
  obtain ⟨ny₁, hy₁⟩ := rank_lower ho.minY_num he.minY_num
  obtain ⟨ny₂, hy₂⟩ := rank_upper ho.maxY_num he.maxY_num
  have := ho.le_x
  have := ho.le_y
  rw [Envelope.hull, if_neg (by simp [ho.isEmpty]), if_neg (by simp [he.isEmpty])]
  have hord : Ordered ⟨lower h.minX e.minX, upper h.maxX e.maxX, lower h.minY e.minY,
      upper h.maxY e.maxY⟩ :=
    ⟨nx₁, nx₂, ny₁, ny₂, by dsimp only; omega, by dsimp only; omega⟩
  refine ⟨?_, ?_, ?_, ?_, ?_⟩
  · intro c hc
    rw [covers_iff]
    rcases List.mem_append.mp hc with hc | hc
    · obtain ⟨-, hco, ⟨h₁, h₂⟩, h₃, h₄⟩ := covers_iff.mp (hh.covers c hc)
      exact ⟨hord, hco, by dsimp only; omega⟩
    · obtain rfl := List.mem_singleton.mp hc
      exact ⟨hord, he, by dsimp only; omega⟩
  · exact hx₁ ▸ attained_min (·.minX) hh.minX_attained e
  · exact hx₂ ▸ attained_max (·.maxX) hh.maxX_attained e
  · exact hy₁ ▸ attained_min (·.minY) hh.minY_attained e
  · exact hy₂ ▸ attained_max (·.maxY) hh.maxY_attained e

theorem hull_empty (e : Envelope) : empty.hull e = e := by
  rw [hull, if_pos (by decide)]

/-- The envelope around some envelopes is their hull. -/
theorem isHull_hullAll {es : List Envelope} (hne : es ≠ []) (hes : ∀ e ∈ es, e.Ordered) :
    IsHull (hullAll es) es := by
  obtain ⟨e, es, rfl⟩ := List.exists_cons_of_ne_nil hne
  rw [hullAll, List.foldl_cons, hull_empty]
  suffices H : ∀ (ds cs : List Envelope) (h : Envelope), IsHull h cs → (∀ d ∈ ds, d.Ordered) →
      IsHull (ds.foldl Envelope.hull h) (cs ++ ds) from
    H es [e] e (isHull_singleton (hes e (by simp))) fun d hd => hes d (by simp [hd])
  intro ds
  induction ds with
  | nil =>
    intro cs h hh _
    rw [List.append_nil]
    exact hh
  | cons d ds ih =>
    intro cs h hh hds
    rw [List.foldl_cons, List.append_cons]
    exact ih _ _ (hh.hull (hds d (by simp))) fun d' hd' => hds d' (by simp [hd'])

/-- The smallest envelope around some envelopes: it covers them, and what covers them covers it.
Around no envelopes it is the empty one. -/
structure IsSmallest (h : Envelope) (es : List Envelope) : Prop where
  covers : ∀ e ∈ es, h.covers e = true
  least : es ≠ [] → ∀ c : Envelope, (∀ e ∈ es, c.covers e = true) → c.covers h = true
  empty : es = [] → h = .empty

/-- What covers some envelopes covers their hull. -/
theorem IsHull.least {es : List Envelope} (hh : IsHull h es) {c : Envelope}
    (hc : ∀ e ∈ es, c.covers e = true) : c.covers h = true := by
  obtain ⟨p, hp, hx₁⟩ := hh.minX_attained
  obtain ⟨q, hq, hx₂⟩ := hh.maxX_attained
  obtain ⟨r, hr, hy₁⟩ := hh.minY_attained
  obtain ⟨s, hs, hy₂⟩ := hh.maxY_attained
  obtain ⟨hco, -, ⟨hp, -⟩, -⟩ := covers_iff.mp (hc p hp)
  obtain ⟨-, -, ⟨-, hq⟩, -⟩ := covers_iff.mp (hc q hq)
  obtain ⟨-, -, -, hr, -⟩ := covers_iff.mp (hc r hr)
  obtain ⟨-, -, -, -, hs⟩ := covers_iff.mp (hc s hs)
  exact covers_iff.mpr ⟨hco, hh.ordered, by omega⟩

/-- The envelope around ordered envelopes is the smallest. -/
theorem isSmallest_hullAll {es : List Envelope} (hes : ∀ e ∈ es, e.Ordered) :
    IsSmallest (hullAll es) es := by
  by_cases hne : es = []
  · subst hne
    exact ⟨fun e he => absurd he List.not_mem_nil, fun h => absurd rfl h, fun _ => rfl⟩
  · have hh := isHull_hullAll hne hes
    exact ⟨hh.covers, fun _ c hc => hh.least hc, fun h => absurd h hne⟩

/-- The hull of finite envelopes is finite. -/
theorem IsHull.isProper {es : List Envelope} (hh : IsHull h es)
    (hes : ∀ e ∈ es, e.isProper = true) :
    h.isProper = true := by
  have ho := hh.ordered
  obtain ⟨a, ha, hax⟩ := hh.minX_attained
  obtain ⟨b, hb, hbx⟩ := hh.maxX_attained
  obtain ⟨c, hc, hcy⟩ := hh.minY_attained
  obtain ⟨d, hd, hdy⟩ := hh.maxY_attained
  have hfa := (isFinite_iff.mp (finite_of_isProper (hes a ha)).1).2
  have hfb := (isFinite_iff.mp (finite_of_isProper (hes b hb)).2.1).2
  have hfc := (isFinite_iff.mp (finite_of_isProper (hes c hc)).2.2.1).2
  have hfd := (isFinite_iff.mp (finite_of_isProper (hes d hd)).2.2.2).2
  exact isProper_iff.mpr ⟨ho, isFinite_iff.mpr ⟨ho.minX_num, hax ▸ hfa⟩,
    isFinite_iff.mpr ⟨ho.maxX_num, hbx ▸ hfb⟩, isFinite_iff.mpr ⟨ho.minY_num, hcy ▸ hfc⟩,
    isFinite_iff.mpr ⟨ho.maxY_num, hdy ▸ hfd⟩⟩

end PlanarJoin.Envelope
