import PlanarJoin.Proofs.Tiling.Ownership

/-!
# Uniform tilings

The cells of a uniform tiling stand between computed bounds of columns and rows.  Where rounding
leaves these bounds strictly increasing, each cell ends where the next begins, and every point of
the box has exactly one owner: also on edges and corners, and on the outer edges, where the last
column and row are closed.

## Main definitions

* `Tiling.columnBound`, `Tiling.rowBound`: the computed bounds.
* `Tiling.Increasing`: bounds that grow strictly.

## Main results

* `Tiling.ownedOnce_of_uniform`: every point of the box has exactly one owner.
* `Tiling.unique_reachable_owner`: so has every pair that meets, among the cells it is placed into.
-/

namespace PlanarJoin

open Binary64 Envelope

namespace Tiling

variable {t : Tiling} {extent : Envelope} {columns rows : Nat}

/-! ## Bounds -/

/-- A bound of columns or rows; the last one is where everything ends. -/
def bound (low high step : Float) (count i : Nat) : Float :=
  if i = count then high else low + Float.ofNat i * step

theorem slot_eq {low high step : Float} {count i : Nat} (h : i < count) :
    slot low high step count i =
      (bound low high step count i, bound low high step count (i + 1)) := by
  simp only [slot, bound, if_neg h.ne]

/-- The bounds of the columns of a box. -/
def columnBound (extent : Envelope) (columns : Nat) : Nat → Float :=
  bound extent.minX extent.maxX (extent.width / Float.ofNat columns) columns

/-- The bounds of the rows of a box. -/
def rowBound (extent : Envelope) (rows : Nat) : Nat → Float :=
  bound extent.minY extent.maxY (extent.height / Float.ofNat rows) rows

theorem slot_columns {c : Nat} (h : c < columns) :
    slot extent.minX extent.maxX (extent.width / Float.ofNat columns) columns c =
      (columnBound extent columns c, columnBound extent columns (c + 1)) :=
  slot_eq h

theorem slot_rows {r : Nat} (h : r < rows) :
    slot extent.minY extent.maxY (extent.height / Float.ofNat rows) rows r =
      (rowBound extent rows r, rowBound extent rows (r + 1)) :=
  slot_eq h

/-- Bounds that grow strictly up to a count. -/
def Increasing (b : Nat → Float) (count : Nat) : Prop :=
  ∀ i < count, b i < b (i + 1)

instance (b : Nat → Float) (count : Nat) : Decidable (Increasing b count) :=
  inferInstanceAs (Decidable (∀ i < count, b i < b (i + 1)))

theorem lower_of_lt {x y : Float} (h : x < y) : lower x y = x := by
  rw [lower, if_pos (by simp [h])]

theorem upper_of_lt {x y : Float} (h : x < y) : upper x y = y := by
  obtain ⟨-, hy, hlt⟩ := lt_iff.mp h
  rw [upper, if_neg]
  simp only [hy, Bool.or_false, decide_eq_true_eq, lt_iff]
  omega

/-! ## Spans between increasing bounds -/

section Slots

variable {X : Nat → Int} {n : Nat} {v : Int}

theorem lt_of_increasing (hX : ∀ i < n, X i < X (i + 1)) {i j : Nat} (hij : i < j) (hj : j ≤ n) :
    X i < X j := by
  induction j, hij using Nat.le_induction with
  | base => exact hX i (by omega)
  | succ j _ ih => exact (ih (by omega)).trans (hX j (by omega))

/-- A number between the first and the last bound lies in a span. -/
theorem exists_span (hX : ∀ i < n, X i < X (i + 1)) (hn : 0 < n) (h0 : X 0 ≤ v) (hv : v ≤ X n) :
    ∃ i < n, InSpan (X i) (X (i + 1)) (X n) v := by
  rcases hv.lt_or_eq with hlt | rfl
  · suffices H : ∀ m ≤ n, v < X m → ∃ i < m, X i ≤ v ∧ v < X (i + 1) by
      obtain ⟨i, hi, hl, hh⟩ := H n le_rfl hlt
      exact ⟨i, hi, hl, .inl hh⟩
    intro m
    induction m with
    | zero =>
      intro _ h
      omega
    | succ m ih =>
      intro hm h
      by_cases hvm : v < X m
      · obtain ⟨i, hi, hspan⟩ := ih (by omega) hvm
        exact ⟨i, by omega, hspan⟩
      · exact ⟨m, by omega, by omega, h⟩
  · have hlast := hX (n - 1) (by omega)
    rw [Nat.sub_add_cancel hn] at hlast
    refine ⟨n - 1, by omega, ?_⟩
    rw [Nat.sub_add_cancel hn]
    exact ⟨hlast.le, .inr ⟨rfl, rfl⟩⟩

/-- No number lies in two spans. -/
theorem span_unique (hX : ∀ i < n, X i < X (i + 1)) {i j : Nat} (hi : i < n) (hj : j < n)
    (h : InSpan (X i) (X (i + 1)) (X n) v) (h' : InSpan (X j) (X (j + 1)) (X n) v) : i = j := by
  have hlt {i j : Nat} (hij : i < j) (hj : j < n) (h : InSpan (X i) (X (i + 1)) (X n) v)
      (h' : InSpan (X j) (X (j + 1)) (X n) v) : False := by
    have hlast := lt_of_increasing hX (show i + 1 < n by omega) le_rfl
    have hnext : X (i + 1) ≤ X j := by
      rcases (show i + 1 ≤ j from hij).lt_or_eq with h | h
      · exact (lt_of_increasing hX h hj.le).le
      · rw [h]
    obtain ⟨-, hh | ⟨-, hh⟩⟩ := h
    · have := h'.1
      omega
    · omega
  rcases Nat.lt_trichotomy i j with hij | hij | hij
  · exact (hlt hij hj h h').elim
  · exact hij
  · exact (hlt hij hi h' h).elim

end Slots

/-! ## Cells -/

theorem getElem?_rows {β : Type} (f : Nat → Nat → β) (m n i : Nat) :
    ((List.range m).flatMap fun r => (List.range n).map (f r))[i]? =
      if i < m * n then some (f (i / n) (i % n)) else none := by
  induction m with
  | zero => simp
  | succ m ih =>
    have hlen : ((List.range m).flatMap fun r => (List.range n).map (f r)).length = m * n := by
      simp [List.length_flatMap, List.map_const']
    rw [List.range_succ, List.flatMap_append, List.flatMap_singleton, List.getElem?_append,
      hlen, ih, Nat.succ_mul]
    by_cases hi : i < m * n
    · rw [if_pos hi, if_pos hi, if_pos (by omega)]
    · rw [if_neg hi]
      by_cases hi' : i < m * n + n
      · obtain ⟨k, rfl⟩ : ∃ k, i = m * n + k := ⟨i - m * n, by omega⟩
        have hk : k < n := by omega
        rw [if_pos hi', Nat.add_sub_cancel_left, List.getElem?_map, List.getElem?_range hk,
          Nat.mul_comm, Nat.mul_add_div (by omega), Nat.div_eq_of_lt hk, Nat.mul_add_mod_self_left,
          Nat.mod_eq_of_lt hk]
        rfl
      · rw [if_neg hi', List.getElem?_map, List.getElem?_eq_none (by rw [List.length_range]; omega)]
        rfl

/-- The cell in a column and a row stands between their bounds. -/
def cellAt (extent : Envelope) (columns rows c r : Nat) : Envelope :=
  ⟨columnBound extent columns c, columnBound extent columns (c + 1), rowBound extent rows r,
    rowBound extent rows (r + 1)⟩

theorem getElem?_uniformCells (hx : Increasing (columnBound extent columns) columns)
    (hy : Increasing (rowBound extent rows) rows) (i : Nat) :
    (uniformCells extent columns rows)[i]? = if i < rows * columns then
      some (cellAt extent columns rows (i % columns) (i / columns)) else none := by
  rw [uniformCells, getElem?_rows]
  split
  · next hi =>
    have hcols : 0 < columns := Nat.pos_of_ne_zero fun h => by simp [h] at hi
    have hc : i % columns < columns := Nat.mod_lt _ hcols
    have hr : i / columns < rows := (Nat.div_lt_iff_lt_mul hcols).mpr hi
    simp only [slot_columns hc, slot_rows hr, ofBounds]
    rw [lower_of_lt (hx _ hc), upper_of_lt (hx _ hc), lower_of_lt (hy _ hr), upper_of_lt (hy _ hr)]
    rfl
  · rfl

theorem make_of_uniform (h : uniform extent columns rows = .ok t) :
    (0 < columns ∧ 0 < rows) ∧ make (uniformCells extent columns rows) = .ok t := by
  unfold uniform at h
  split at h
  · cases h
  · next hpos =>
    split at h
    · cases h
    · split at h
      · cases h
      · exact ⟨by omega, h⟩

section Uniform

variable (ht : uniform extent columns rows = .ok t)
  (hx : Increasing (columnBound extent columns) columns)
  (hy : Increasing (rowBound extent rows) rows)

include ht hx hy

/-- The cells of a uniform tiling, by column and row. -/
theorem uniform_cells {i : Nat} {e : Envelope} : t.cells[i]? = some e ↔
    ∃ c < columns, ∃ r < rows, i = r * columns + c ∧ e = cellAt extent columns rows c r := by
  obtain ⟨⟨hcols, -⟩, hmake⟩ := make_of_uniform ht
  rw [(made_of_make hmake).2, getElem?_uniformCells hx hy]
  constructor
  · intro h
    split at h
    · next hi =>
      refine ⟨i % columns, Nat.mod_lt _ hcols, i / columns, (Nat.div_lt_iff_lt_mul hcols).mpr hi,
        ?_, (Option.some.inj h).symm⟩
      rw [Nat.mul_comm]
      exact (Nat.div_add_mod i columns).symm
    · cases h
  · rintro ⟨c, hc, r, hr, rfl, rfl⟩
    have hi : r * columns + c < rows * columns :=
      calc r * columns + c < r * columns + columns := by omega
        _ = (r + 1) * columns := (Nat.succ_mul r columns).symm
        _ ≤ rows * columns := Nat.mul_le_mul_right _ hr
    rw [if_pos hi, Nat.mul_comm r, Nat.mul_add_mod_self_left, Nat.mod_eq_of_lt hc,
      Nat.mul_add_div hcols, Nat.div_eq_of_lt hc, Nat.add_zero]

/-- The box around all cells ends where the first and the last column and row do. -/
theorem uniform_extent :
    (rank t.extent.minX = rank (columnBound extent columns 0) ∧
      rank t.extent.maxX = rank (columnBound extent columns columns)) ∧
    rank t.extent.minY = rank (rowBound extent rows 0) ∧
      rank t.extent.maxY = rank (rowBound extent rows rows) := by
  obtain ⟨⟨hcols, hrows⟩, hmake⟩ := make_of_uniform ht
  have hh := (made_of_make hmake).1.isHull
  have hX (i : Nat) (hi : i < columns) := (lt_iff.mp (hx i hi)).2.2
  have hY (i : Nat) (hi : i < rows) := (lt_iff.mp (hy i hi)).2.2
  have hmono {X : Nat → Int} {n i j : Nat} (h : ∀ i < n, X i < X (i + 1))
      (hij : i ≤ j) (hj : j ≤ n) :
      X i ≤ X j := by
    rcases hij.lt_or_eq with hij | rfl
    · exact (lt_of_increasing h hij hj).le
    · rfl
  have hcover {c r : Nat} (hc : c < columns) (hr : r < rows) :=
    (covers_iff.mp (hh.covers (cellAt extent columns rows c r) (List.mem_of_getElem?
      ((uniform_cells ht hx hy).mpr ⟨c, hc, r, hr, rfl, rfl⟩)))).2.2
  have hmem {e : Envelope} (he : e ∈ t.cells) :
      ∃ c < columns, ∃ r < rows, e = cellAt extent columns rows c r := by
    obtain ⟨i, hi⟩ := List.mem_iff_getElem?.mp he
    obtain ⟨c, hc, r, hr, -, rfl⟩ := (uniform_cells ht hx hy).mp hi
    exact ⟨c, hc, r, hr, rfl⟩
  -- one side of each equation is at the corner cells, the other at the cell that attains it
  obtain ⟨⟨hl, -⟩, hb, -⟩ := hcover hcols hrows
  obtain ⟨⟨-, hr⟩, -, htop⟩ := hcover (Nat.sub_lt hcols Nat.one_pos) (Nat.sub_lt hrows Nat.one_pos)
  simp only [cellAt, Nat.sub_add_cancel hcols, Nat.sub_add_cancel hrows] at hl hb hr htop
  obtain ⟨e₁, he₁, h₁⟩ := hh.minX_attained
  obtain ⟨c₁, hc₁, r, -, rfl⟩ := hmem he₁
  obtain ⟨e₂, he₂, h₂⟩ := hh.maxX_attained
  obtain ⟨c₂, hc₂, r, -, rfl⟩ := hmem he₂
  obtain ⟨e₃, he₃, h₃⟩ := hh.minY_attained
  obtain ⟨c, -, r₃, hr₃, rfl⟩ := hmem he₃
  obtain ⟨e₄, he₄, h₄⟩ := hh.maxY_attained
  obtain ⟨c, -, r₄, hr₄, rfl⟩ := hmem he₄
  refine ⟨⟨le_antisymm hl ?_, le_antisymm ?_ hr⟩, le_antisymm hb ?_, le_antisymm ?_ htop⟩
  · exact h₁ ▸ hmono hX (Nat.zero_le c₁) hc₁.le
  · exact h₂ ▸ hmono hX hc₂ le_rfl
  · exact h₃ ▸ hmono hY (Nat.zero_le r₃) hr₃.le
  · exact h₄ ▸ hmono hY hr₄ le_rfl

/-- Every point of the box of a uniform tiling has exactly one owner. -/
theorem ownedOnce_of_uniform : t.OwnedOnce := by
  obtain ⟨⟨hcols, hrows⟩, hmake⟩ := make_of_uniform ht
  have hmade := (made_of_make hmake).1
  obtain ⟨⟨hminX, hmaxX⟩, hminY, hmaxY⟩ := uniform_extent ht hx hy
  have hX (i : Nat) (hi : i < columns) := (lt_iff.mp (hx i hi)).2.2
  have hY (i : Nat) (hi : i < rows) := (lt_iff.mp (hy i hi)).2.2
  constructor
  · intro x y hp
    obtain ⟨-, ⟨nx, ny⟩, ⟨hx₁, hx₂⟩, hy₁, hy₂⟩ := hasPoint_iff.mp hp
    obtain ⟨c, hc, hcx⟩ := exists_span hX hcols (hminX ▸ hx₁) (hmaxX ▸ hx₂)
    obtain ⟨r, hr, hry⟩ := exists_span hY hrows (hminY ▸ hy₁) (hmaxY ▸ hy₂)
    exact ⟨r * columns + c, hmade.owns_iff.mpr ⟨_,
      (uniform_cells ht hx hy).mpr ⟨c, hc, r, hr, rfl, rfl⟩, ⟨nx, hmaxX ▸ hcx⟩, ny, hmaxY ▸ hry⟩⟩
  · intro i j x y hi hj
    obtain ⟨e, he, ⟨-, hex⟩, -, hey⟩ := hmade.owns_iff.mp hi
    obtain ⟨f, hf, ⟨-, hfx⟩, -, hfy⟩ := hmade.owns_iff.mp hj
    obtain ⟨c, hc, r, hr, rfl, rfl⟩ := (uniform_cells ht hx hy).mp he
    obtain ⟨d, hd, s, hs, rfl, rfl⟩ := (uniform_cells ht hx hy).mp hf
    rw [hmaxX] at hex hfx
    rw [hmaxY] at hey hfy
    rw [span_unique hX hc hd hex hfx, span_unique hY hr hs hey hfy]

/-- Every pair of envelopes in the box that meet has exactly one owner, and both are placed into its
cell; every point of the box has exactly one owner, and no other point has any. -/
theorem unique_reachable_owner :
    (∀ a b : Envelope, a.isProper = true → b.isProper = true → t.extent.covers a = true →
      t.extent.covers b = true → a.meets b = true →
      ∃ i, (∀ j, (∃ o, Ownership.make t.cells j = .ok o ∧ o.ownsPair a b = true) ↔ j = i) ∧
        i ∈ t.placement a ∧ i ∈ t.placement b) ∧
    (∀ x y, t.extent.hasPoint x y = true →
      ∃! i, ∃ o, Ownership.make t.cells i = .ok o ∧ o.ownsPoint x y = true) ∧
    ∀ x y, t.extent.hasPoint x y = false →
      ∀ i o, Ownership.make t.cells i = .ok o → o.ownsPoint x y = false := by
  have hmade := (made_of_make (make_of_uniform ht).2).1
  have honce := ownedOnce_of_uniform ht hx hy
  refine ⟨?_, ?_, ?_⟩
  · intro a b ha hb hca _ hm
    obtain ⟨e, he, hpa, hpb⟩ :=
      hasPoint_overlap (ordered_of_isProper ha) (ordered_of_isProper hb) hm
    obtain ⟨i, hi⟩ := honce.total _ _ (hasPoint_of_covers hca hpa)
    refine ⟨i, fun j => ?_, hmade.mem_placement_of_owns hi ha hpa,
      hmade.mem_placement_of_owns hi hb hpb⟩
    simp only [Ownership.ownsPair_of_overlap he]
    exact ⟨fun hj => honce.unique _ _ _ _ hj hi, fun hj => hj ▸ hi⟩
  · intro x y hp
    obtain ⟨i, hi⟩ := honce.total x y hp
    exact ⟨i, hi, fun j hj => honce.unique _ _ _ _ hj hi⟩
  · intro x y hp i o ho
    by_contra hown
    rw [Bool.not_eq_false] at hown
    rw [hmade.extent_hasPoint_of_owns ⟨o, ho, hown⟩] at hp
    cases hp

end Uniform

/-- A box that can be cut into proper cells that tile it gives an exact tiling. -/
theorem uniform_of_tiles (hpos : ¬ (columns = 0 ∨ rows = 0))
    (hext : (!extent.isProper || extent.width ≤ 0.0 || extent.height ≤ 0.0) = false)
    (hsize : columns * rows < Nat.pow 2 64)
    (hcells : ∀ c ∈ uniformCells extent columns rows, c.isProper = true)
    (htiles : tiles (uniformCells extent columns rows)
      (hullAll (uniformCells extent columns rows)) = true) :
    uniform extent columns rows = .ok ⟨uniformCells extent columns rows,
      hullAll (uniformCells extent columns rows), true⟩ := by
  rw [uniform, if_neg hpos, hext, if_neg (by simp), if_neg (Nat.not_le.mpr hsize), ← htiles]
  refine make_of_proper ?_ hcells
  intro hnil
  have hlen := congrArg List.length hnil
  simp only [uniformCells, List.length_flatMap, List.length_map, List.length_range, List.map_const',
    List.sum_replicate_nat, List.length_nil] at hlen
  rcases Nat.mul_eq_zero.mp hlen with h | h
  · exact hpos (.inr h)
  · exact hpos (.inl h)

/-- A square of side ten. -/
def decade : Envelope := ⟨0.0, 10.0, 0.0, 10.0⟩

/-- The square in four quarters. -/
def quarters : Tiling :=
  ⟨uniformCells decade 2 2, hullAll (uniformCells decade 2 2), true⟩

theorem uniform_quarters : uniform decade 2 2 = .ok quarters :=
  uniform_of_tiles (by decide) (by decide +kernel) (by decide) (by decide +kernel)
    (by decide +kernel)

theorem increasing_columns_decade : Increasing (columnBound decade 2) 2 := by decide +kernel

theorem increasing_rows_decade : Increasing (rowBound decade 2) 2 := by decide +kernel

/-- Two boxes that share a corner on the crossing of the inner edges have one owner. -/
theorem unique_owner_at_crossing :
    ∃ i, (∀ j, (∃ o, Ownership.make quarters.cells j = .ok o ∧
        o.ownsPair ⟨4.0, 5.0, 4.0, 5.0⟩ ⟨5.0, 6.0, 5.0, 6.0⟩ = true) ↔ j = i) ∧
      i ∈ quarters.placement ⟨4.0, 5.0, 4.0, 5.0⟩ ∧ i ∈ quarters.placement ⟨5.0, 6.0, 5.0, 6.0⟩ :=
  (unique_reachable_owner uniform_quarters increasing_columns_decade increasing_rows_decade).1
    _ _ (by decide) (by decide) (by decide +kernel) (by decide +kernel) (by decide)

end Tiling

end PlanarJoin
