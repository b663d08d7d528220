import PlanarJoin.Proofs.Binary64.Whole
import PlanarJoin.Proofs.Index.Candidates

/-!
# Counting buckets in machine words

Columns, rows and buckets are counted in words of 64 bits, where a sum or a product may be too
large, a difference may have no value, and nothing can be divided by zero.  Since a layout has at
most `bucketLimit` buckets and at least one, none of this happens: each count has the value that it
has among all numbers, the number of a bucket is below the number of buckets, and two places have
two numbers.  Validation leaves just those counts that a layout takes as they are.

## Main definitions

* `Word.fit?`, `Word.sub?`, `Word.div?`, `Word.clamp?`: arithmetic that may fail in words.
* `Layout.make?`, `Layout.size?`, `Layout.column?`, `Layout.row?`, `Layout.key?`, `Layout.keysOf?`,
  `Tiers.layouts?`: layouts counted in words.
* `Layout.InRange`: everything that is counted in a layout is in range.

## Main results

* `Layout.make?_eq`: making a layout does not fail.
* `Layout.inRange_of_size`: a layout with few buckets is in range.
* `Word.exceeds_iff`: a product that is too large for a word has too many buckets.
* `TierPlan.counts_of_layout`: the float counts of a tier are taken as they are.
* `Layout.inRange_everywhere`: all layouts are in range, and valid settings are laid out as they
  are.
-/

namespace PlanarJoin

open Binary64

/-! ## Words -/

namespace Word

/-- A number, if it fits into a word. -/
def fit? (n : Nat) : Option Nat :=
  if n < 2 ^ 64 then some n else none

/-- A difference that is not negative. -/
def sub? (m n : Nat) : Option Nat :=
  if n ≤ m then some (m - n) else none

/-- A quotient by something that is not zero. -/
def div? (m n : Nat) : Option Nat :=
  if n = 0 then none else some (m / n)

/-- A number cut down to a range that is not empty. -/
def clamp? (n low high : Nat) : Option Nat :=
  if low ≤ high then some (min (max n low) high) else none

variable {m n low high : Nat}

theorem fit?_eq (h : n < 2 ^ 64) : fit? n = some n :=
  if_pos h

theorem sub?_eq (h : n ≤ m) : sub? m n = some (m - n) :=
  if_pos h

theorem div?_eq (h : 0 < n) : div? m n = some (m / n) :=
  if_neg h.ne'

theorem clamp?_eq (h : low ≤ high) : clamp? n low high = some (min (max n low) high) :=
  if_pos h

/-- Whether there are too many buckets to count or to allow. -/
def exceeds (columns rows : Nat) : Bool :=
  match fit? (columns * rows) with
  | some n => bucketLimit < n
  | none => true

/-- Counting in words or among all numbers, the same grids have too many buckets. -/
theorem exceeds_iff {columns rows : Nat} :
    exceeds columns rows = true ↔ bucketLimit < columns * rows := by
  have hlimit : bucketLimit < 2 ^ 64 := by decide
  unfold exceeds fit?
  split
  · next n hn =>
    obtain ⟨-, hsome⟩ := Option.ite_none_right_eq_some.mp hn
    rw [Option.some.inj hsome, decide_eq_true_iff]
  · next hnone =>
    have hlarge : ¬ columns * rows < 2 ^ 64 := fun h => nomatch (if_pos h).symm.trans hnone
    exact iff_of_true rfl (hlimit.trans_le (not_lt.mp hlarge))

end Word

theorem mapM_eq_map {γ δ : Type} {f : γ → Option δ} {g : γ → δ} {l : List γ}
    (h : ∀ a ∈ l, f a = some (g a)) : l.mapM f = some (l.map g) := by
  induction l with
  | nil => rfl
  | cons a l ih =>
    rw [List.forall_mem_cons] at h
    rw [List.mapM_cons, h.1, ih h.2]
    rfl

/-! ## Layouts counted in words -/

namespace Layout

/-- The layout of a box, counted in words. -/
def make? (origin : Envelope) (columns rows : Nat) : Option Layout := do
  let nx ← Word.clamp? columns 1 bucketLimit
  let most ← Word.div? bucketLimit nx
  let ny ← Word.clamp? rows 1 most
  return ⟨origin, nx, ny, origin.width / Float.ofNat nx, origin.height / Float.ofNat ny⟩

/-- The whole part of a position, kept below a count in words. -/
def place? (position : Float) (count : Nat) : Option Nat := do
  let last ← Word.sub? count 1
  return if Float.ofNat last ≤ position then last else position.toUInt64.toNat

variable (l : Layout)

def size? : Option Nat :=
  Word.fit? (l.columns * l.rows)

def column? (x : Float) : Option Nat :=
  place? ((x - l.origin.minX) / l.bucketWidth) l.columns

def row? (y : Float) : Option Nat :=
  place? ((y - l.origin.minY) / l.bucketHeight) l.rows

def key? (column row : Nat) : Option Nat := do
  let before ← Word.fit? (row * l.columns)
  Word.fit? (before + column)

def keysOf? (e : Envelope) : Option (List Nat) := do
  let left ← l.column? e.minX
  let right ← l.column? e.maxX
  let bottom ← l.row? e.minY
  let top ← l.row? e.maxY
  ((span bottom top).flatMap fun r => (span left right).map fun c => (c, r)).mapM fun p =>
    l.key? p.1 p.2

/-- Everything that is counted in a layout is in range. -/
structure InRange : Prop where
  columns : 1 ≤ l.columns
  rows : 1 ≤ l.rows
  /-- The buckets can be counted, and are within the limit. -/
  size : l.size? = some l.size ∧ 1 ≤ l.size ∧ l.size ≤ bucketLimit
  /-- Every coordinate has a column, whether it is a number or not. -/
  column (x : Float) : l.column? x = some (l.column x) ∧ l.column x < l.columns
  /-- Every coordinate has a row, whether it is a number or not. -/
  row (y : Float) : l.row? y = some (l.row y) ∧ l.row y < l.rows
  /-- The number of a bucket is below the number of buckets. -/
  key {c r : Nat} (hc : c < l.columns) (hr : r < l.rows) :
    l.key? c r = some (l.key c r) ∧ l.key c r < l.size
  /-- The buckets that an envelope reaches can be enumerated. -/
  keys (e : Envelope) : l.keysOf? e = some (l.keysOf e) ∧ ∀ k ∈ l.keysOf e, k < l.size
  /-- Different places have different numbers. -/
  distinct {c d r s : Nat} (hc : c < l.columns) (hd : d < l.columns) (hr : r < l.rows)
    (hs : s < l.rows) (h : (c, r) ≠ (d, s)) : l.key c r ≠ l.key d s

theorem make?_eq (origin : Envelope) (columns rows : Nat) :
    make? origin columns rows = some (make origin columns rows) := by
  have hlimit : 1 ≤ bucketLimit := by decide
  have hnx : 0 < min (max columns 1) bucketLimit := columns_make_pos origin columns rows
  have hmost : 1 ≤ bucketLimit / min (max columns 1) bucketLimit :=
    Nat.div_pos (Nat.min_le_right _ _) hnx
  simp only [make?, Word.clamp?_eq hlimit, Word.div?_eq hnx, Word.clamp?_eq hmost,
    Option.bind_eq_bind, Option.bind_some]
  rfl

/-- A position below a count that can be counted down from. -/
theorem place?_eq {position : Float} {count : Nat} (h : 1 ≤ count) :
    place? position count = some (floorBelow position count) := by
  rw [place?, Word.sub?_eq h]
  rfl

variable {l}

section Few

variable (hc : 1 ≤ l.columns) (hr : 1 ≤ l.rows) (hsize : l.size ≤ bucketLimit)

include hr hsize in
theorem columns_le : l.columns ≤ 2 ^ 53 := by
  have hlimit : bucketLimit ≤ 2 ^ 53 := by decide
  exact (Nat.le_mul_of_pos_right _ hr).trans (hsize.trans hlimit)

include hc hsize in
theorem rows_le : l.rows ≤ 2 ^ 53 := by
  have hlimit : bucketLimit ≤ 2 ^ 53 := by decide
  exact (Nat.le_mul_of_pos_left _ hc).trans (hsize.trans hlimit)

theorem key_lt {c r : Nat} (hcol : c < l.columns) (hrow : r < l.rows) : l.key c r < l.size :=
  calc r * l.columns + c
    _ < (r + 1) * l.columns := by rw [Nat.succ_mul]; omega
    _ ≤ l.rows * l.columns := Nat.mul_le_mul_right _ hrow
    _ = l.size := Nat.mul_comm _ _

include hsize in
/-- The number of a bucket fits into a word, and so does the number at which its row begins. -/
theorem key?_eq {c r : Nat} (hcol : c < l.columns) (hrow : r < l.rows) :
    l.key? c r = some (l.key c r) := by
  have hlimit : bucketLimit < 2 ^ 64 := by decide
  have hkey : r * l.columns + c < 2 ^ 64 := (key_lt hcol hrow).trans (hsize.trans_lt hlimit)
  rw [key?, Word.fit?_eq (by omega), Option.bind_eq_bind, Option.bind_some, Word.fit?_eq hkey, key]

include hc hr hsize

/-- A layout with few buckets is in range. -/
theorem inRange_of_size : l.InRange := by
  have hlimit : bucketLimit < 2 ^ 64 := by decide
  have hcolumn (x : Float) : l.column? x = some (l.column x) ∧ l.column x < l.columns :=
    ⟨place?_eq hc, floorBelow_lt hc (columns_le hr hsize)⟩
  have hrow (y : Float) : l.row? y = some (l.row y) ∧ l.row y < l.rows :=
    ⟨place?_eq hr, floorBelow_lt hr (rows_le hc hsize)⟩
  refine ⟨hc, hr, ⟨Word.fit?_eq (hsize.trans_lt hlimit), Nat.mul_pos hc hr, hsize⟩, hcolumn, hrow,
    fun hcol hrow => ⟨key?_eq hsize hcol hrow, key_lt hcol hrow⟩, fun e => ⟨?_, ?_⟩, ?_⟩
  · simp only [keysOf?, (hcolumn _).1, (hrow _).1, Option.bind_eq_bind, Option.bind_some]
    rw [mapM_eq_map (g := fun p => l.key p.1 p.2)]
    · rw [List.map_flatMap, keysOf]
      simp only [List.map_map, Function.comp_def]
    · intro p hp
      simp only [List.mem_flatMap, List.mem_map, mem_span] at hp
      obtain ⟨r, hr, c, hc, rfl⟩ := hp
      exact key?_eq hsize (hc.2.trans_lt (hcolumn _).2) (hr.2.trans_lt (hrow _).2)
  · intro k hk
    obtain ⟨p, hp, rfl⟩ := mem_keysOf_iff.mp hk
    obtain ⟨hcol, hrw⟩ := mem_rectangle.mp hp
    exact key_lt (hcol.2.trans_lt (hcolumn _).2) (hrw.2.trans_lt (hrow _).2)
  · intro c d r s hcol hcol' _ _ h heq
    obtain ⟨rfl, rfl⟩ := key_inj hcol hcol' heq
    exact h rfl

end Few

theorem inRange_make (origin : Envelope) (columns rows : Nat) :
    (make origin columns rows).InRange :=
  inRange_of_size (columns_make_pos origin columns rows) (rows_make_pos origin columns rows)
    (size_make_le origin columns rows)

end Layout

/-! ## Tiers counted in words -/

namespace TierPlan

variable {extent : Envelope} {l : Layout}

/-- The plan for buckets of a size over an extent, counted in words. -/
def make? (extent : Envelope) (size : Float × Float) : Option TierPlan :=
  let (w, h) := size
  if 0.0 < w && 0.0 < h && w < extent.width && h < extent.height then
    let nx := ceiling (extent.width / w)
    let ny := ceiling (extent.height / h)
    let cells := nx * ny
    if !cells.isFinite || Float.ofNat bucketLimit < cells then some (tooFine nx ny)
    else
      let box := Envelope.ofBounds extent.minX (extent.minX + nx * w) extent.minY
        (extent.minY + ny * h)
      (Layout.make? box nx.toUInt64.toNat ny.toUInt64.toNat).map layout
  else some unfit

theorem make?_eq (extent : Envelope) (size : Float × Float) :
    make? extent size = some (make extent size) := by
  simp only [make?, make, Layout.make?_eq, Option.map_some, apply_ite some]

theorem exists_make {size : Float × Float} (h : make extent size = .layout l) :
    ∃ box columns rows, Layout.make box columns rows = l := by
  unfold make at h
  dsimp only at h
  split at h
  · split at h
    · cases h
    · exact ⟨_, _, _, TierPlan.layout.inj h⟩
  · cases h

/-- The counts of a tier are taken as they are. -/
theorem counts_of_layout {w h : Float} (hplan : make extent (w, h) = .layout l) :
    l.columns = (ceiling (extent.width / w)).toUInt64.toNat ∧
      l.rows = (ceiling (extent.height / h)).toUInt64.toNat := by
  have hlimit : bucketLimit < 2 ^ 53 := by decide
  unfold make at hplan
  dsimp only at hplan
  split at hplan
  · next hfit =>
    simp only [Bool.and_eq_true, decide_eq_true_eq] at hfit
    obtain ⟨⟨⟨hw, hh⟩, hwidth⟩, hheight⟩ := hfit
    split at hplan
    · cases hplan
    · next hfew =>
      simp only [Bool.or_eq_true, Bool.not_eq_true', decide_eq_true_eq, not_or,
        Bool.not_eq_false] at hfew
      obtain ⟨hcells, hle⟩ := hfew
      obtain ⟨hnx, hny⟩ := isFinite_of_mul hcells
      obtain ⟨m, n, ⟨hm, hvm⟩, ⟨hn, hvn⟩, hmn⟩ := whole_of_mul_le hlimit
        (count_whole hw hwidth hnx) (count_whole hh hheight hny) hcells hle
      have hml : m ≤ bucketLimit := (Nat.le_mul_of_pos_right _ hn).trans hmn
      have hnl : n ≤ bucketLimit := (Nat.le_mul_of_pos_left _ hm).trans hmn
      obtain rfl := TierPlan.layout.inj hplan
      rw [toUInt64_whole hnx hvm (by omega), toUInt64_whole hny hvn (by omega)]
      exact Layout.make_of_le _ hm hn hmn
  · cases hplan

end TierPlan

namespace Tiers

/-- The layouts of the tiers for some bucket sizes, counted in words. -/
def layouts? (extent : Envelope) (sizes : List (Float × Float)) : Option (List Layout) := do
  let plans ← sizes.mapM (TierPlan.make? extent)
  let last ← Layout.make? extent 1 1
  return (plans.filterMap fun plan =>
    match plan with
    | .layout l => some l
    | _ => none) ++ [last]

theorem layouts?_eq (extent : Envelope) (sizes : List (Float × Float)) :
    layouts? extent sizes = some (layouts extent sizes) := by
  rw [layouts?, mapM_eq_map fun size _ => TierPlan.make?_eq extent size, Layout.make?_eq]
  simp only [Option.bind_eq_bind, Option.bind_some, List.filterMap_map]
  rfl

/-- The layouts of tiers are in range. -/
theorem inRange_of_mem_layouts {extent : Envelope} {sizes : List (Float × Float)} {l : Layout}
    (h : l ∈ layouts extent sizes) : l.InRange := by
  rcases List.mem_append.mp h with h | h
  · obtain ⟨size, -, hsize⟩ := List.mem_filterMap.mp h
    split at hsize
    · next hplan =>
      obtain rfl := Option.some.inj hsize
      obtain ⟨box, columns, rows, rfl⟩ := TierPlan.exists_make hplan
      exact Layout.inRange_make box columns rows
    · cases hsize
  · rw [List.mem_singleton.mp h]
    exact Layout.inRange_make extent 1 1

end Tiers

/-! ## All layouts -/

/-- Valid settings are laid out with their own counts. -/
theorem IndexSettings.counts_of_validate {s : IndexSettings} (h : s.validate = .ok ()) :
    (Layout.make s.extent s.columns s.rows).columns = s.columns ∧
      (Layout.make s.extent s.columns s.rows).rows = s.rows ∧
      (Layout.make s.extent s.columns s.rows).size = s.columns * s.rows := by
  obtain ⟨⟨hcolumns, hrows, hlimit⟩, -⟩ := of_validate h
  obtain ⟨hc, hr⟩ := Layout.make_of_le s.extent hcolumns hrows hlimit
  exact ⟨hc, hr, by rw [Layout.size, hc, hr]⟩

/-- Counting buckets never leaves its range, whatever the box and the counts that are asked for, and
neither does counting the buckets of tiers, whatever their sizes.  What validation refuses is
counted alike in words.  Counts that are valid are taken as they are, and so are those of a tier. -/
theorem Layout.inRange_everywhere :
    (∀ extent columns rows, make? extent columns rows = some (make extent columns rows) ∧
      (make extent columns rows).InRange) ∧
    (∀ columns rows, Word.exceeds columns rows = true ↔ bucketLimit < columns * rows) ∧
    (∀ s : IndexSettings, s.validate = .ok () →
      (make s.extent s.columns s.rows).columns = s.columns ∧
      (make s.extent s.columns s.rows).rows = s.rows ∧
      (make s.extent s.columns s.rows).size = s.columns * s.rows) ∧
    (∀ extent sizes, Tiers.layouts? extent sizes = some (Tiers.layouts extent sizes) ∧
      ∀ l ∈ Tiers.layouts extent sizes, l.InRange) ∧
    ∀ extent w h l, TierPlan.make extent (w, h) = .layout l →
      l.columns = (ceiling (extent.width / w)).toUInt64.toNat ∧
      l.rows = (ceiling (extent.height / h)).toUInt64.toNat := by
  refine ⟨fun extent columns rows => ⟨make?_eq extent columns rows, inRange_make _ _ _⟩,
    fun columns rows => Word.exceeds_iff, fun s hs => IndexSettings.counts_of_validate hs,
    fun extent sizes =>
      ⟨Tiers.layouts?_eq extent sizes, fun l hl => Tiers.inRange_of_mem_layouts hl⟩,
    fun extent w h l hplan => TierPlan.counts_of_layout hplan⟩

/-- The world in as many buckets as there may be. -/
def finestSettings : IndexSettings :=
  { IndexSettings.default with columns := 4096, rows := 4096 }

/-- The finest square layout of the world is valid and reaches the limit, and one more row is cut
off. -/
theorem Layout.inRange_finest :
    finestSettings.validate = .ok () ∧
      (make .world 4096 4096).size = bucketLimit ∧
      (make .world 4096 4097).size = bucketLimit ∧ (make .world 4096 4097).InRange := by
  have hvalid : finestSettings.validate = .ok () := by decide +kernel
  obtain ⟨hmake, -, hsettings, -⟩ := inRange_everywhere
  exact ⟨hvalid, (hsettings finestSettings hvalid).2.2, by decide +kernel,
    (hmake .world 4096 4097).2⟩

end PlanarJoin
