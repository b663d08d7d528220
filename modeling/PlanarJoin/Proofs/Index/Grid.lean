import Mathlib.Order.Interval.Finset.Nat
import PlanarJoin.Index.Grid
import PlanarJoin.Proofs.Binary64.Monotone
import PlanarJoin.Proofs.Envelope.Order

/-!
# Grids of buckets find what they hold

Columns and rows grow with the coordinates, so two envelopes that meet reach a common bucket.  A
query collects the entries of the buckets that an envelope reaches, and gives them back by arrival,
each once.

## Main definitions

* `Layout.Regular`: a layout whose buckets have a size without a sign, if there are several.
* `Layout.rectangle`: the buckets that an envelope reaches, by column and row.
* `Grid.Holds`: a grid whose buckets hold some entries.

## Main results

* `Layout.regular_make`: a layout is regular unless its box measures `-0.0`.
* `Envelope.dividesInOrder_width`: the widths by which division is monotone.
* `Layout.not_disjoint_rectangle`: the rectangles of envelopes that meet overlap.
* `inOrder_eq`: what is collected from several buckets is put back in order.
* `Grid.query_eq`: a query gives the entries that share a bucket with an envelope.
-/

namespace PlanarJoin

open Binary64 Envelope

/-! ## Layouts -/

/-- A length that is zero or a difference in order has no sign, unless it is `-0.0`. -/
theorem isPositive_length {crossed : Bool} {low high : Float}
    (h : crossed = false → ¬ high < low) (hz : (if crossed then 0.0 else high - low) ≠ -0.0) :
    IsPositive (if crossed then 0.0 else high - low) := by
  cases crossed with
  | true =>
    have hzero : IsPositive 0.0 := rfl
    exact hzero
  | false => exact isPositive_sub (h rfl) hz

/-- Division by a length without a sign is monotone, and by `-0.0` it is not. -/
theorem dividesInOrder_iff {w : Float} (h : w ≠ -0.0 → IsPositive w) :
    DividesInOrder w ↔ w ≠ -0.0 :=
  ⟨fun hw hz => not_dividesInOrder_negZero (hz ▸ hw), fun hz => dividesInOrder_of_isPositive (h hz)⟩

namespace Envelope

variable {e : Envelope}

theorem not_lt_of_isEmpty (h : e.isEmpty = false) : ¬ e.maxX < e.minX ∧ ¬ e.maxY < e.minY := by
  rw [isEmpty, Bool.or_eq_false_iff, decide_eq_false_iff_not, decide_eq_false_iff_not] at h
  exact h

theorem isPositive_width (h : e.width ≠ -0.0) : IsPositive e.width :=
  isPositive_length (fun he => (not_lt_of_isEmpty he).1) h

theorem isPositive_height (h : e.height ≠ -0.0) : IsPositive e.height :=
  isPositive_length (fun he => (not_lt_of_isEmpty he).2) h

theorem dividesInOrder_width : DividesInOrder e.width ↔ e.width ≠ -0.0 :=
  dividesInOrder_iff isPositive_width

theorem dividesInOrder_height : DividesInOrder e.height ↔ e.height ≠ -0.0 :=
  dividesInOrder_iff isPositive_height

end Envelope

namespace Layout

/-- Buckets side by side have a size without a sign, and there are not too many to count in
floats. -/
structure Regular (l : Layout) : Prop where
  width : 1 < l.columns → IsPositive l.bucketWidth
  height : 1 < l.rows → IsPositive l.bucketHeight
  columns : 0 < l.columns ∧ l.columns ≤ 2 ^ 53
  rows : 0 < l.rows ∧ l.rows ≤ 2 ^ 53

variable {l : Layout} {a b e : Envelope} {x y : Float}

theorem counts_make (e : Envelope) (columns rows : Nat) :
    (0 < (make e columns rows).columns ∧ (make e columns rows).columns < 2 ^ 53) ∧
      0 < (make e columns rows).rows ∧ (make e columns rows).rows < 2 ^ 53 := by
  have hlimit : bucketLimit < 2 ^ 53 := by decide
  have hcl : (make e columns rows).columns ≤ bucketLimit := Nat.min_le_right _ _
  have hrl : (make e columns rows).rows ≤ bucketLimit :=
    (Nat.min_le_right _ _).trans (Nat.div_le_self _ _)
  exact ⟨⟨columns_make_pos e columns rows, hcl.trans_lt hlimit⟩,
    rows_make_pos e columns rows, hrl.trans_lt hlimit⟩

theorem isPositive_div_ofNat {n : Nat} (hx : IsPositive x) (h0 : 0 < n) (hn : n < 2 ^ 53) :
    IsPositive (x / Float.ofNat n) :=
  isPositive_div hx (isPositiveOf_of_rankOf_pos (canonical_unpack _) (rank_ofNat_pos h0 hn))

theorem regular_make_of_isPositive {columns rows : Nat} (hw : 1 < columns → IsPositive e.width)
    (hh : 1 < rows → IsPositive e.height) : (make e columns rows).Regular := by
  obtain ⟨hc, hr⟩ := counts_make e columns rows
  refine ⟨fun h => isPositive_div_ofNat (hw ?_) hc.1 hc.2,
    fun h => isPositive_div_ofNat (hh ?_) hr.1 hr.2, ⟨hc.1, hc.2.le⟩, hr.1, hr.2.le⟩
  · simp only [make] at h
    omega
  · simp only [make] at h
    omega

/-- The layout of a box is regular, if division by its width and its height is monotone. -/
theorem regular_make (hw : DividesInOrder e.width) (hh : DividesInOrder e.height)
    (columns rows : Nat) : (make e columns rows).Regular :=
  regular_make_of_isPositive (fun _ => isPositive_width (dividesInOrder_width.mp hw))
    fun _ => isPositive_height (dividesInOrder_height.mp hh)

/-- Along one axis, buckets are numbered in the order of the coordinates.  The order does not matter
where there is only one bucket, or where the buckets have no end. -/
theorem floorBelow_position_le {n : Nat} {w : Float} (m : Float) (hn : 0 < n ∧ n ≤ 2 ^ 53)
    (hw : 1 < n → IsPositive w) (h : 1 < n → w.isFinite = true → x ≤ y) :
    floorBelow ((x - m) / w) n ≤ floorBelow ((y - m) / w) n := by
  by_cases h1 : 1 < n
  · refine floorBelow_le hn.2 ?_
    by_cases hfin : w.isFinite = true
    · exact rank_div_le (hw h1) (rank_sub_le m (h h1 hfin))
    · rw [rank_div_of_not_isFinite hfin, rank_div_of_not_isFinite hfin]
  · have := floorBelow_lt (p := (x - m) / w) hn.1 hn.2
    omega

theorem column_le (hl : l.Regular) (h : x ≤ y) : l.column x ≤ l.column y :=
  floorBelow_position_le _ hl.columns hl.width fun _ _ => h

theorem row_le (hl : l.Regular) (h : x ≤ y) : l.row x ≤ l.row y :=
  floorBelow_position_le _ hl.rows hl.height fun _ _ => h

/-! ## Rectangles of buckets -/

/-- The buckets that an envelope reaches, by column and row. -/
def rectangle (l : Layout) (e : Envelope) : Finset (Nat × Nat) :=
  Finset.Icc (l.column e.minX, l.row e.minY) (l.column e.maxX, l.row e.maxY)

theorem mem_rectangle {p : Nat × Nat} : p ∈ l.rectangle e ↔
    (l.column e.minX ≤ p.1 ∧ p.1 ≤ l.column e.maxX) ∧ l.row e.minY ≤ p.2 ∧ p.2 ≤ l.row e.maxY := by
  rw [rectangle, Finset.mem_Icc, Prod.le_def, Prod.le_def]
  exact and_and_and_comm

theorem mem_keysOf_iff {k : Nat} :
    k ∈ l.keysOf e ↔ ∃ p ∈ l.rectangle e, l.key p.1 p.2 = k := by
  rw [mem_keysOf]
  constructor
  · rintro ⟨r, c, hr, hc, h⟩
    exact ⟨(c, r), mem_rectangle.mpr ⟨hc, hr⟩, h⟩
  · rintro ⟨p, hp, h⟩
    obtain ⟨hc, hr⟩ := mem_rectangle.mp hp
    exact ⟨p.2, p.1, hr, hc, h⟩

theorem column_lt_of_mem_rectangle (hc : 0 < l.columns ∧ l.columns ≤ 2 ^ 53) {p : Nat × Nat}
    (hp : p ∈ l.rectangle e) : p.1 < l.columns :=
  (mem_rectangle.mp hp).1.2.trans_lt (floorBelow_lt hc.1 hc.2)

/-- Envelopes reach buckets of the same number if their rectangles overlap. -/
theorem exists_common_key_iff (hc : 0 < l.columns ∧ l.columns ≤ 2 ^ 53) :
    (∃ k ∈ l.keysOf a, k ∈ l.keysOf b) ↔ ¬ Disjoint (l.rectangle a) (l.rectangle b) := by
  simp only [Finset.not_disjoint_iff, mem_keysOf_iff]
  constructor
  · rintro ⟨_, ⟨p, hp, rfl⟩, q, hq, h⟩
    obtain ⟨h₁, h₂⟩ :=
      key_inj (column_lt_of_mem_rectangle hc hq) (column_lt_of_mem_rectangle hc hp) h
    obtain rfl : q = p := Prod.ext h₁ h₂
    exact ⟨q, hp, hq⟩
  · rintro ⟨p, hp, hq⟩
    exact ⟨l.key p.1 p.2, ⟨p, hp, rfl⟩, p, hq, rfl⟩

/-- Two ranges that begin before the other ends have a number in common. -/
theorem exists_common {a b c d : Nat} (hab : a ≤ b) (hcd : c ≤ d) (had : a ≤ d) (hcb : c ≤ b) :
    ∃ k, (a ≤ k ∧ k ≤ b) ∧ c ≤ k ∧ k ≤ d :=
  ⟨max a c, by omega, by omega⟩

/-- The rectangles of envelopes that meet overlap. -/
theorem not_disjoint_rectangle (hl : l.Regular) (ha : a.Ordered) (hb : b.Ordered)
    (h : a.meets b = true) : ¬ Disjoint (l.rectangle a) (l.rectangle b) := by
  obtain ⟨⟨h₁, h₂⟩, h₃, h₄⟩ := (meets_iff ha hb).mp h
  obtain ⟨c, hca, hcb⟩ := exists_common
    (column_le hl (le_iff.mpr ⟨ha.minX_num, ha.maxX_num, ha.le_x⟩))
    (column_le hl (le_iff.mpr ⟨hb.minX_num, hb.maxX_num, hb.le_x⟩))
    (column_le hl (le_iff.mpr ⟨ha.minX_num, hb.maxX_num, h₁⟩))
    (column_le hl (le_iff.mpr ⟨hb.minX_num, ha.maxX_num, h₂⟩))
  obtain ⟨r, hra, hrb⟩ := exists_common
    (row_le hl (le_iff.mpr ⟨ha.minY_num, ha.maxY_num, ha.le_y⟩))
    (row_le hl (le_iff.mpr ⟨hb.minY_num, hb.maxY_num, hb.le_y⟩))
    (row_le hl (le_iff.mpr ⟨ha.minY_num, hb.maxY_num, h₃⟩))
    (row_le hl (le_iff.mpr ⟨hb.minY_num, ha.maxY_num, h₄⟩))
  exact Finset.not_disjoint_iff.mpr
    ⟨(c, r), mem_rectangle.mpr ⟨hca, hra⟩, mem_rectangle.mpr ⟨hcb, hrb⟩⟩

end Layout

/-! ## Order of arrival -/

section InOrder

variable {α : Type} {es xs : List (Entry α)}

/-- Erasing repetitions from a list by arrival leaves one entry of each arrival, in order. -/
theorem eraseReps_loop (e : Entry α) (es acc : List (Entry α))
    (h : (e :: es).Pairwise fun a b => a.arrival ≤ b.arrival) :
    ∃ ys, List.eraseRepsBy.loop (fun a b => a.arrival == b.arrival) e es acc = acc.reverse ++ ys ∧
      (ys.Pairwise fun a b => a.arrival < b.arrival) ∧ (∀ y ∈ ys, y ∈ e :: es) ∧
      ∀ z ∈ e :: es, ∃ y ∈ ys, y.arrival = z.arrival := by
  induction es generalizing e acc with
  | nil =>
    refine ⟨[e], by rw [List.eraseRepsBy.loop, List.reverse_cons], List.pairwise_singleton _ _,
      fun y hy => hy, fun z hz => ⟨z, hz, rfl⟩⟩
  | cons f es ih =>
    rw [List.eraseRepsBy.loop]
    obtain ⟨hef, hrest⟩ := List.pairwise_cons.mp h
    cases heq : e.arrival == f.arrival with
    | true =>
      rw [beq_iff_eq] at heq
      have hskip : (e :: es).Pairwise fun a b => a.arrival ≤ b.arrival :=
        h.sublist (List.Sublist.cons_cons e (List.sublist_cons_self f es))
      obtain ⟨ys, hys, hlt, hsub, hall⟩ := ih e acc hskip
      refine ⟨ys, hys, hlt, ?_, ?_⟩
      · intro y hy
        rcases List.mem_cons.mp (hsub y hy) with rfl | hy
        · exact List.mem_cons_self
        · exact List.mem_cons_of_mem _ (List.mem_cons_of_mem _ hy)
      · intro z hz
        rcases List.mem_cons.mp hz with rfl | hz
        · exact hall z List.mem_cons_self
        · rcases List.mem_cons.mp hz with rfl | hz
          · obtain ⟨y, hy, hya⟩ := hall e List.mem_cons_self
            exact ⟨y, hy, hya.trans heq⟩
          · exact hall z (List.mem_cons_of_mem _ hz)
    | false =>
      rw [beq_eq_false_iff_ne] at heq
      obtain ⟨ys, hys, hlt, hsub, hall⟩ := ih f (e :: acc) hrest
      refine ⟨e :: ys, by rw [hys, List.reverse_cons, List.append_assoc, List.singleton_append],
        ?_, ?_, ?_⟩
      · refine List.pairwise_cons.mpr ⟨?_, hlt⟩
        intro y hy
        have hle : f.arrival ≤ y.arrival := by
          rcases List.mem_cons.mp (hsub y hy) with rfl | hy
          · exact Nat.le_refl _
          · exact (List.pairwise_cons.mp hrest).1 y hy
        have := hef f List.mem_cons_self
        omega
      · intro y hy
        rcases List.mem_cons.mp hy with rfl | hy
        · exact List.mem_cons_self
        · exact List.mem_cons_of_mem _ (hsub y hy)
      · intro z hz
        rcases List.mem_cons.mp hz with rfl | hz
        · exact ⟨z, List.mem_cons_self, rfl⟩
        · obtain ⟨y, hy, hya⟩ := hall z hz
          exact ⟨y, List.mem_cons_of_mem _ hy, hya⟩

/-- Entries in order are some of the entries, one of each arrival. -/
theorem inOrder_spec (xs : List (Entry α)) :
    ((inOrder xs).Pairwise fun a b => a.arrival < b.arrival) ∧ (∀ y ∈ inOrder xs, y ∈ xs) ∧
      ∀ z ∈ xs, ∃ y ∈ inOrder xs, y.arrival = z.arrival := by
  have hsorted := @List.pairwise_mergeSort _ (fun a b : Entry α => decide (a.arrival ≤ b.arrival))
    (fun a b c hab hbc =>
      decide_eq_true (Nat.le_trans (of_decide_eq_true hab) (of_decide_eq_true hbc)))
    (fun a b => by
      rw [Bool.or_eq_true, decide_eq_true_eq, decide_eq_true_eq]
      exact Nat.le_total _ _) xs
  have hperm := List.mergeSort_perm xs fun a b => decide (a.arrival ≤ b.arrival)
  unfold inOrder
  generalize xs.mergeSort (fun a b => decide (a.arrival ≤ b.arrival)) = zs at hsorted hperm
  rcases zs with _ | ⟨e, zs⟩
  · refine ⟨List.Pairwise.nil, fun y hy => absurd hy List.not_mem_nil, ?_⟩
    intro z hz
    exact absurd (hperm.symm.subset hz) List.not_mem_nil
  · obtain ⟨ys, hys, hlt, hsub, hall⟩ := eraseReps_loop e zs [] (hsorted.imp of_decide_eq_true)
    rw [List.eraseRepsBy, hys, List.reverse_nil, List.nil_append]
    exact ⟨hlt, fun y hy => hperm.subset (hsub y hy), fun z hz => hall z (hperm.symm.subset hz)⟩

/-- Entries that arrived one after the other differ. -/
theorem eq_of_arrival_eq (hes : es.Pairwise fun a b => a.arrival < b.arrival) {a b : Entry α}
    (ha : a ∈ es) (hb : b ∈ es) (h : a.arrival = b.arrival) : a = b := by
  induction es with
  | nil => exact absurd ha List.not_mem_nil
  | cons e es ih =>
    obtain ⟨hlt, hes⟩ := List.pairwise_cons.mp hes
    rcases List.mem_cons.mp ha with rfl | ha' <;> rcases List.mem_cons.mp hb with rfl | hb'
    · rfl
    · have := hlt b hb'
      omega
    · have := hlt a ha'
      omega
    · exact ih hes ha' hb'

/-- What is collected of some entries is put back into the order of these. -/
theorem inOrder_eq (hes : es.Pairwise fun a b => a.arrival < b.arrival) (hsub : ∀ e ∈ xs, e ∈ es)
    (p : Entry α → Bool) (hp : ∀ e ∈ es, p e = true ↔ e ∈ xs) : inOrder xs = es.filter p := by
  obtain ⟨hlt, hmem, hall⟩ := inOrder_spec xs
  have hmem_iff (e : Entry α) : e ∈ inOrder xs ↔ e ∈ es.filter p := by
    rw [List.mem_filter]
    constructor
    · intro he
      have := hmem e he
      exact ⟨hsub e this, (hp e (hsub e this)).mpr this⟩
    · rintro ⟨he, hpe⟩
      obtain ⟨y, hy, hya⟩ := hall e ((hp e he).mp hpe)
      rwa [← eq_of_arrival_eq hes (hsub y (hmem y hy)) he hya]
  have hnodup {l : List (Entry α)} (h : l.Pairwise fun a b => a.arrival < b.arrival) : l.Nodup :=
    h.imp fun {a b} hab heq => by rw [heq] at hab; exact Nat.lt_irrefl _ hab
  have hfilter := hes.sublist (List.filter_sublist (p := p))
  have hperm : (inOrder xs).Perm (es.filter p) :=
    (List.perm_ext_iff_of_nodup (hnodup hlt) (hnodup hfilter)).mpr hmem_iff
  refine List.Perm.eq_of_pairwise ?_ hlt hfilter hperm
  intro a b _ _ hab hba
  omega

end InOrder

/-! ## Grids -/

namespace Grid

variable {α : Type} [Spatial α] {g : Grid α} {es : List (Entry α)}

/-- The buckets of a grid hold some entries, each where its envelope reaches. -/
def Holds (g : Grid α) (es : List (Entry α)) : Prop :=
  ∀ k e, e ∈ g.buckets.bucket k ↔ e ∈ es ∧ k ∈ g.layout.keysOf (Spatial.envelope e.item)

theorem holds_empty (l : Layout) : (ofLayout l : Grid α).Holds [] := by
  intro k e
  simp [ofLayout]

/-- Inserting an entry adds just this entry. -/
theorem Holds.insert (h : g.Holds es) (e : Entry α) : (g.insert e).Holds (es ++ [e]) := by
  intro k f
  change f ∈ (g.buckets.putAll e _).bucket k ↔ _ ∧ k ∈ g.layout.keysOf _
  rw [Buckets.bucket_putAll, List.mem_append, h k f, List.mem_append, List.mem_singleton,
    List.mem_replicate, Nat.ne_zero_iff_zero_lt, List.count_pos_iff]
  constructor
  · rintro (⟨hf, hk⟩ | ⟨hk, rfl⟩)
    · exact ⟨.inl hf, hk⟩
    · exact ⟨.inr rfl, hk⟩
  · rintro ⟨hf | rfl, hk⟩
    · exact .inl ⟨hf, hk⟩
    · exact .inr ⟨hk, rfl⟩

/-- Whether an object reaches a bucket that an envelope reaches. -/
def shares (l : Layout) (env : Envelope) (a : α) : Bool :=
  (l.keysOf (Spatial.envelope a)).any (l.keysOf env).contains

/-- A query gives the items that share a bucket with the envelope, in order of arrival. -/
theorem query_eq (h : g.Holds es) (hes : es.Pairwise fun a b => a.arrival < b.arrival)
    (env : Envelope) : g.query env = (es.map (·.item)).filter (shares g.layout env) := by
  have hreached (e : Entry α) : e ∈ g.buckets.reached g.layout env ↔
      e ∈ es ∧ shares g.layout env e.item = true := by
    rw [Buckets.mem_reached, shares, List.any_eq_true]
    simp only [List.contains_iff_mem]
    constructor
    · rintro ⟨k, hk, he⟩
      obtain ⟨hes, hke⟩ := (h k e).mp he
      exact ⟨hes, k, hke, hk⟩
    · rintro ⟨hes, k, hke, hk⟩
      exact ⟨k, hk, (h k e).mpr ⟨hes, hke⟩⟩
  rw [query, inOrder_eq hes (fun e he => ((hreached e).mp he).1)
    (fun e => shares g.layout env e.item) fun e he => by rw [hreached]; simp [he]]
  rw [List.filter_map]
  rfl

theorem shares_iff {l : Layout} (hc : 0 < l.columns ∧ l.columns ≤ 2 ^ 53) {env : Envelope} {a : α} :
    shares l env a = true ↔ ¬ Disjoint (l.rectangle (Spatial.envelope a)) (l.rectangle env) := by
  rw [← Layout.exists_common_key_iff hc, shares, List.any_eq_true]
  simp only [List.contains_iff_mem]

/-- An object that meets a proper envelope shares a bucket with it. -/
theorem shares_of_touches {l : Layout} (hl : l.Regular) {env : Envelope} {a : α}
    (he : env.isProper = true) (ha : (Spatial.envelope a).isProper = true)
    (h : touches env a = true) : shares l env a = true :=
  (shares_iff hl.columns).mpr
    (Layout.not_disjoint_rectangle hl (ordered_of_isProper ha) (ordered_of_isProper he) h)

end Grid

end PlanarJoin
