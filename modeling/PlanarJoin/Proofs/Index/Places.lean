import PlanarJoin.Proofs.Index.Contents
import PlanarJoin.Proofs.Index.Exactness

/-!
# Where tiers keep an item

Every item of an index of tiers has one place: the bucket of its center in the first tier whose
buckets are at least as wide and as high as its envelope, or apart from all tiers if there is no
such tier.  Inserting an item changes what is held at its place and nowhere else, so after any calls
each place holds just the items whose place it is, in the order of insertion.

The last tier is a single bucket.  Every query reaches it, and takes what is kept apart as well.

## Main definitions

* `Place`: a bucket of a tier, or apart from all tiers.
* `Tiers.held`: the entries at a place.
* `Tiers.level`, `Tiers.place`: the first tier that an envelope fits, and its place.
* `Tiers.Placed`: tiers in which some entries stand at their places.
* `Index.slots`: the items that calls leave in an index, numbered by arrival.

## Main results

* `Tiers.insert_cases`: what inserting an entry does.
* `Tiers.Placed.insert`: an entry that is inserted stands at its place.
* `Tiers.finds_of_level`: what is in the last tier or apart is found by every query.
* `Index.placed_after`: what an index of tiers holds and finds after any calls.
-/

namespace PlanarJoin

variable {α : Type}

namespace Buckets

theorem size_eq (b : Buckets α) : b.size = b.entries.length := by
  have hheld (p : Nat × Array (Entry α)) (hp : p ∈ b.filled.toList) :
      (b.bucket p.1).length = p.2.size := by
    rw [bucket, Std.HashMap.getD_eq_getD_getElem?,
      Std.HashMap.mem_toList_iff_getElem?_eq_some.mp hp, Option.getD_some, Array.length_toList]
  rw [size, Std.HashMap.fold_eq_foldl_toList, entries, ← Std.HashMap.map_fst_toList_eq_keys,
    List.flatMap_map, List.length_flatMap, List.map_congr_left hheld, List.sum_eq_foldl,
    List.foldl_map]

theorem size_put (b : Buckets α) (e : Entry α) (key : Nat) : (b.put e key).size = b.size + 1 := by
  rw [size_eq, size_eq, (entries_put b e key).length_eq, List.length_cons]

end Buckets

/-- A place in tiers: a bucket of one of them, or apart from all. -/
inductive Place where
  | bucket (tier key : Nat)
  | apart
deriving DecidableEq

namespace Tiers

/-- The entries at a place, in the order in which they were put there. -/
def held (s : Tiers α) : Place → List (Entry α)
  | .bucket j k => s.tiers[j]?.elim [] (·.buckets.bucket k)
  | .apart => s.oversize

theorem map_layout_ofSizes (extent : Envelope) (sizes : List (Float × Float)) :
    (ofSizes extent sizes : Tiers α).tiers.map (·.layout) = layouts extent sizes := by
  rw [ofSizes, List.map_map]
  exact List.map_id _

variable [Spatial α] {ts us : List (Tier α)} {s : Tiers α} {es : List (Entry α)} {x : Entry α}

/-- The number of the first tier that an entry fits; the number of tiers if it fits none. -/
def level (ts : List (Tier α)) (x : Entry α) : Nat :=
  ts.findIdx (·.takes x)

/-- The place of an entry: the bucket of its center in the first tier that it fits. -/
def place (ts : List (Tier α)) (x : Entry α) : Place :=
  (ts.find? (·.takes x)).elim .apart fun t =>
    .bucket (level ts x) (t.home (Spatial.envelope x.item))

/-! ## Places -/

theorem find?_takes (ts : List (Tier α)) (x : Entry α) :
    ts.find? (·.takes x) = ts[level ts x]? :=
  List.find?_eq_getElem?_findIdx

/-- An entry has its place apart, or in the tier of its level. -/
theorem place_cases (ts : List (Tier α)) (x : Entry α) :
    (level ts x = ts.length ∧ place ts x = .apart) ∨
    ∃ t, ts[level ts x]? = some t ∧
      place ts x = .bucket (level ts x) (t.home (Spatial.envelope x.item)) := by
  cases htier : ts[level ts x]? with
  | none =>
    refine .inl ⟨le_antisymm List.findIdx_le_length (List.getElem?_eq_none_iff.mp htier), ?_⟩
    rw [place, find?_takes, htier]
    rfl
  | some t =>
    refine .inr ⟨t, rfl, ?_⟩
    rw [place, find?_takes, htier]
    rfl

/-- The level of an entry depends on the layouts of the tiers, not on what stands in them. -/
theorem level_congr (h : ts.map (·.layout) = us.map (·.layout)) (x : Entry α) :
    level ts x = level us x := by
  have hlayouts (ts : List (Tier α)) : level ts x =
      (ts.map (·.layout)).findIdx fun l => (Tier.ofLayout l : Tier α).takes x := by
    rw [List.findIdx_map]
    rfl
  rw [hlayouts ts, hlayouts us, h]

theorem place_congr (h : ts.map (·.layout) = us.map (·.layout)) (x : Entry α) :
    place ts x = place us x := by
  have hlayouts (ts : List (Tier α)) : place ts x =
      ((ts.map (·.layout))[level ts x]?).elim .apart fun l =>
        .bucket (level ts x) ((Tier.ofLayout l : Tier α).home (Spatial.envelope x.item)) := by
    rw [List.getElem?_map, Option.elim_map, place, find?_takes]
    rfl
  rw [hlayouts ts, hlayouts us, h, level_congr h]

/-! ## Inserting an entry -/

/-- Putting an entry into the first tier that it fits changes this tier, if there is one. -/
theorem put?_eq (x : Entry α) (ts : List (Tier α)) :
    put? x ts =
      if level ts x < ts.length then some (ts.modify (level ts x) (Tier.put · x)) else none := by
  induction ts with
  | nil => rfl
  | cons t ts ih =>
    rw [put?, level, List.findIdx_cons, ← level, ← Tier.takes]
    cases t.takes x with
    | true => simp
    | false =>
      rw [if_neg Bool.false_ne_true, ih]
      simp only [cond_false, List.length_cons, Nat.add_lt_add_iff_right, List.modify_succ_cons]
      split <;> rfl

/-- Inserting an entry puts it apart, or into the tier of its level. -/
theorem insert_cases (s : Tiers α) (x : Entry α) :
    (place s.tiers x = .apart ∧ level s.tiers x = s.tiers.length ∧
      s.insert x = { s with oversize := s.oversize ++ [x] }) ∨
    ∃ t, s.tiers[level s.tiers x]? = some t ∧
      place s.tiers x = .bucket (level s.tiers x) (t.home (Spatial.envelope x.item)) ∧
      s.insert x =
        { s with tiers := s.tiers.modify (level s.tiers x) fun t => t.put x } := by
  obtain ⟨hlevel, hplace⟩ | ⟨t, htier, hplace⟩ := place_cases s.tiers x
  · refine .inl ⟨hplace, hlevel, ?_⟩
    rw [Tiers.insert, put?_eq, if_neg hlevel.not_lt]
  · refine .inr ⟨t, htier, hplace, ?_⟩
    rw [Tiers.insert, put?_eq, if_pos (List.getElem?_eq_some_iff.mp htier).1]

/-- Inserting an entry adds it to its place, and changes no other. -/
theorem held_insert (s : Tiers α) (x : Entry α) (p : Place) :
    (s.insert x).held p = s.held p ++ if place s.tiers x = p then [x] else [] := by
  obtain ⟨hplace, -, hinsert⟩ | ⟨t, htier, hplace, hinsert⟩ := insert_cases s x
  · rw [hinsert, hplace]
    cases p with
    | bucket j k => simp [held]
    | apart => simp [held]
  · rw [hinsert, hplace]
    cases p with
    | apart => simp [held]
    | bucket j k =>
      simp only [held, Place.bucket.injEq]
      by_cases hj : level s.tiers x = j
      · subst hj
        rw [List.getElem?_modify_eq, htier]
        simp only [true_and]
        change (t.buckets.put x _).bucket k = _
        rw [Buckets.bucket_put]
        split <;> simp
      · rw [List.getElem?_modify_ne _ _ hj]
        simp [hj]

/-- Inserting an entry makes its tier larger by one, and no other. -/
theorem sizes_insert (s : Tiers α) (x : Entry α) :
    (s.insert x).sizes = s.sizes.modify (level s.tiers x) (· + 1) := by
  refine List.ext_getElem? fun j => ?_
  rw [List.getElem?_modify, sizes, sizes, List.getElem?_append, List.getElem?_append,
    List.length_map, List.length_map, List.getElem?_map, List.getElem?_map]
  obtain ⟨-, hlevel, hinsert⟩ | ⟨t, htier, -, hinsert⟩ := insert_cases s x
  · rw [hinsert, hlevel]
    by_cases hj : j < s.tiers.length
    · simp [hj, hj.ne']
    · cases hk : j - s.tiers.length with
      | zero => simp [show s.tiers.length = j by omega]
      | succ k => simp [hj]
  · have hlt := (List.getElem?_eq_some_iff.mp htier).1
    rw [hinsert, List.length_modify, List.getElem?_modify]
    by_cases hj : level s.tiers x = j
    · subst hj
      simp [hlt, Tier.put, Buckets.size_put]
    · simp [hj]

/-! ## Entries at their places -/

/-- Tiers in which some entries stand at their places, each once, and are counted there. -/
structure Placed (s : Tiers α) (es : List (Entry α)) : Prop where
  held : ∀ p, s.held p = es.filter fun x => place s.tiers x = p
  entries : s.entries.Perm es
  sizes : s.sizes =
    (List.range (s.tiers.length + 1)).map fun j => es.countP fun x => level s.tiers x == j

theorem placed_ofSizes (extent : Envelope) (sizes : List (Float × Float)) :
    (ofSizes extent sizes : Tiers α).Placed [] := by
  refine ⟨?_, .of_eq (entries_ofSizes extent sizes), ?_⟩
  · intro p
    cases p with
    | bucket j k =>
      cases h : (layouts extent sizes)[j]? <;> simp [Tiers.held, ofSizes, h]
    | apart => rfl
  · have hempty : (Buckets.empty : Buckets α).size = 0 := by
      rw [Buckets.size_eq, Buckets.entries_empty, List.length_nil]
    simp [Tiers.sizes, ofSizes, Function.comp_def, hempty, List.map_const', List.replicate_succ']

/-- An entry that is inserted stands at its place. -/
theorem Placed.insert (h : s.Placed es) (x : Entry α) : (s.insert x).Placed (es ++ [x]) := by
  have hlayouts := map_layout_insert s x
  have hlength : (s.insert x).tiers.length = s.tiers.length := by
    have hmap := congrArg List.length hlayouts
    rwa [List.length_map, List.length_map] at hmap
  refine ⟨?_, ?_, ?_⟩
  · -- the layouts stay, so no entry that was there before gets another place
    intro p
    rw [held_insert, h.held]
    simp only [place_congr hlayouts, List.filter_append, List.filter_singleton, Bool.cond_decide]
  · exact (s.entries_insert x).trans ((h.entries.cons x).trans
      (List.perm_append_singleton x es).symm)
  · rw [sizes_insert, h.sizes, hlength]
    refine List.ext_getElem (by simp) fun j _ _ => ?_
    simp only [List.getElem_modify, List.getElem_map, List.getElem_range, List.countP_append,
      List.countP_singleton, level_congr hlayouts, beq_iff_eq]
    split <;> rfl

omit [Spatial α] in
theorem sum_sizes (s : Tiers α) : s.sizes.sum = s.entries.length := by
  simp [sizes, entries, Buckets.size_eq, List.length_flatMap, Nat.add_comm]

end Tiers

/-! ## Queries -/

/-- A query reaches the bucket of a tier that has no other. -/
theorem Tier.reaches_single {t : Tier α} (hc : t.layout.columns = 1) (hr : t.layout.rows = 1)
    (e a : Envelope) : t.reaches e a = true := by
  have hcolumn (x : Float) : t.layout.column x = 0 := by
    have hlt := Binary64.floorBelow_lt (p := (x - t.layout.origin.minX) / t.layout.bucketWidth)
      Nat.one_pos Nat.one_le_two_pow
    rw [Layout.column, hc]
    exact Nat.lt_one_iff.mp hlt
  have hrow (y : Float) : t.layout.row y = 0 := by
    have hlt := Binary64.floorBelow_lt (p := (y - t.layout.origin.minY) / t.layout.bucketHeight)
      Nat.one_pos Nat.one_le_two_pow
    rw [Layout.row, hr]
    exact Nat.lt_one_iff.mp hlt
  rw [reaches, List.contains_iff_mem, Layout.mem_keysOf]
  refine ⟨0, 0, ⟨?_, ?_⟩, ⟨?_, ?_⟩, ?_⟩
  · rw [hrow]
  · rw [hrow]
  · rw [hcolumn]
  · rw [hcolumn]
  · rw [home, hcolumn, hrow]

/-- What stands in the last tier, or apart, is found by every query. -/
theorem Tiers.finds_of_level [Spatial α] {ts : List (Tier α)} {extent : Envelope}
    {sizes : List (Float × Float)} (hl : ts.map (·.layout) = layouts extent sizes) {x : Entry α}
    (hx : level ts x = ts.length ∨ level ts x + 1 = ts.length) (e : Envelope) :
    finds ts e (Spatial.envelope x.item) = true := by
  have hfind : ts.find? (·.fits (Spatial.envelope x.item)) = ts[level ts x]? := find?_takes ts x
  rw [finds, hfind]
  rcases hx with hx | hx
  · rw [List.getElem?_eq_none hx.ge]
    rfl
  · have hlast : (ts[level ts x]?).map (·.layout) = some (.make extent 1 1) := by
      have hlevel : level ts x = (layouts extent sizes).length - 1 := by
        rw [← hl, List.length_map]
        omega
      rw [← List.getElem?_map, hl, hlevel, ← List.getLast?_eq_getElem?, layouts,
        List.getLast?_concat]
    obtain ⟨t, htier, hlayout⟩ := Option.map_eq_some_iff.mp hlast
    obtain ⟨hcolumns, hrows⟩ :=
      Layout.make_of_le extent Nat.one_pos Nat.one_pos (show 1 * 1 ≤ bucketLimit by decide)
    rw [htier]
    exact Tier.reaches_single (hlayout ▸ hcolumns) (hlayout ▸ hrows) e _

/-! ## Histories -/

namespace Store

variable [Spatial α] {ls : List Layout} {st : Store α} {as : List α}

/-- Tiers of some layouts in which some items stand at their places. -/
def Placed (ls : List Layout) (st : Store α) (as : List α) : Prop :=
  ∃ s : Tiers α, st = .tiers s ∧ s.tiers.map (·.layout) = ls ∧ s.Placed (numbered as)

theorem Placed.insert (h : st.Placed ls as) (a : α) :
    (st.insert ⟨as.length, a⟩).Placed ls (as ++ [a]) := by
  obtain ⟨s, rfl, hlayouts, hplaced⟩ := h
  refine ⟨s.insert ⟨as.length, a⟩, rfl, (s.map_layout_insert _).trans hlayouts, ?_⟩
  rw [numbered_append]
  exact hplaced.insert _

theorem Placed.build (h : st.Placed ls as) : st.build.Placed ls as := by
  obtain ⟨s, rfl, hs⟩ := h
  exact ⟨s, rfl, hs⟩

theorem placed_ofSizes (extent : Envelope) (sizes : List (Float × Float)) :
    (tiers (.ofSizes extent sizes) : Store α).Placed (Tiers.layouts extent sizes) [] :=
  ⟨Tiers.ofSizes extent sizes, rfl, Tiers.map_layout_ofSizes extent sizes,
    Tiers.placed_ofSizes extent sizes⟩

end Store

namespace Index

variable [Spatial α]

/-- The items that some calls leave in an index, numbered by arrival. -/
def slots (calls : List (Call α)) : List (Entry α) :=
  Store.numbered ((inserted calls).filter hasProperEnvelope)

/-- Tiers of any sizes over any box, after any calls: every item with a proper envelope stands once,
in the bucket of its center in the first tier that it fits, or apart if it fits none; the sizes
count the items of each tier and those apart, and add up to the size of the index.  A query for a
proper envelope gives items in the order of insertion, none twice, with all those that stand apart
or in the last tier, which is one bucket over the box. -/
theorem placed_after (extent : Envelope) (sizes : List (Float × Float)) (calls : List (Call α)) :
    ∃ s : Tiers α, ((emptyTiers extent sizes).after calls).store = .tiers s ∧
      s.tiers.map (·.layout) = Tiers.layouts extent sizes ∧ s.Placed (slots calls) ∧
      s.sizes.sum = ((emptyTiers extent sizes : Index α).after calls).size ∧
      ∀ e : Envelope, e.isProper = true → ∃ es : List (Entry α),
        (es.Sublist (slots calls) ∧ es.Pairwise fun x y => x.arrival < y.arrival) ∧
        ((emptyTiers extent sizes).after calls).query e = es.map (·.item) ∧
        ∀ x ∈ slots calls, Tiers.level s.tiers x = s.tiers.length ∨
          Tiers.level s.tiers x + 1 = s.tiers.length → x ∈ es := by
  -- what the index holds answers queries; where it stands is kept beside it
  have hholds := holds_after (i := emptyTiers extent sizes)
    (holds_ofStore (Tiers.holds_ofSizes extent sizes)) calls
  have hkept : ((emptyTiers extent sizes).after calls).store.Placed (Tiers.layouts extent sizes)
      ([] ++ (inserted calls).filter hasProperEnvelope) :=
    store_after (fun a h => h.insert a) (fun h => h.build) rfl
      (Store.placed_ofSizes extent sizes) calls
  rw [List.nil_append] at hholds hkept
  obtain ⟨s, hstore, hlayouts, hplaced⟩ := hkept
  refine ⟨s, hstore, hlayouts, hplaced, ?_, ?_⟩
  · rw [Tiers.sum_sizes, hplaced.entries.length_eq, hholds.size,
      ← List.length_map (·.item), Store.map_item_numbered]
  · intro e he
    have htiers : s.Holds (slots calls) := by
      have hheld := hholds.store
      rwa [hstore] at hheld
    refine ⟨(slots calls).filter fun x => Tiers.finds s.tiers e (Spatial.envelope x.item),
      ⟨List.filter_sublist, (Store.pairwise_numbered _).sublist List.filter_sublist⟩, ?_,
      fun x hx hlevel => ?_⟩
    · rw [query, if_pos he, hstore]
      change s.query e = _
      rw [Tiers.query_eq htiers (Store.pairwise_numbered _), List.filter_map]
      rfl
    · exact List.mem_filter.mpr ⟨hx, Tiers.finds_of_level hlayouts hlevel e⟩

/-- A square as a feature. -/
def square (id : Nat) (x y size : Float) : Feature Nat :=
  ⟨id, .single (.ofCorners ⟨x, y⟩ ⟨x + size, y + size⟩)⟩

/-- Squares of all sizes, and nothing at all; the last one is larger than the world. -/
def squares : List (Call (Feature Nat)) :=
  [.insert (square 1 10.0 10.0 0.0), .insert (square 2 20.0 20.0 0.5), .insert ⟨0, .multiPoint []⟩,
    .insert (square 3 30.0 30.0 3.0), .build, .insert (square 4 (-40.0) (-40.0) 20.0),
    .insert (square 5 (-170.0) (-80.0) 150.0), .insert (square 6 (-200.0) (-100.0) 400.0)]

/-- The squares stand in the tiers of the world by size, the largest apart.  A query far off finds
just this one and the one in the last tier. -/
theorem placed_after_squares : ∃ s : Tiers (Feature Nat),
    ((emptyTiers .world (Tiers.usualSizes .world 360 180)).after squares).store = .tiers s ∧
      s.sizes = [2, 1, 1, 1, 1] ∧
      5 ∈ (((emptyTiers .world (Tiers.usualSizes .world 360 180)).after squares).query
        ⟨60.0, 61.0, 60.0, 61.0⟩).map (·.id) ∧
      6 ∈ (((emptyTiers .world (Tiers.usualSizes .world 360 180)).after squares).query
        ⟨60.0, 61.0, 60.0, 61.0⟩).map (·.id) := by
  obtain ⟨s, hstore, hlayouts, hplaced, -, hquery⟩ :=
    placed_after .world (Tiers.usualSizes .world 360 180) squares
  have htiers := hlayouts.trans (Tiers.map_layout_ofSizes (α := Feature Nat) _ _).symm
  have hlevel (x : Entry (Feature Nat)) := Tiers.level_congr htiers x
  have hlength : s.tiers.length = 4 := by
    rw [← List.length_map (·.layout), hlayouts]
    decide +kernel
  obtain ⟨es, -, hes, hall⟩ := hquery ⟨60.0, 61.0, 60.0, 61.0⟩ (by decide)
  simp only [hlevel, hlength] at hall
  have hlate : ((slots squares).filter fun x =>
      Tiers.level (Tiers.ofSizes .world (Tiers.usualSizes .world 360 180)).tiers x = 4 ∨
      Tiers.level (Tiers.ofSizes .world (Tiers.usualSizes .world 360 180)).tiers x + 1 = 4).map
        (·.item.id) = [5, 6] := by
    decide +kernel
  have hfound (id : Nat) (hid : id ∈ [5, 6]) :
      id ∈ (((emptyTiers .world (Tiers.usualSizes .world 360 180)).after squares).query
        ⟨60.0, 61.0, 60.0, 61.0⟩).map (·.id) := by
    rw [← hlate] at hid
    obtain ⟨x, hx, rfl⟩ := List.mem_map.mp hid
    obtain ⟨hx, hlevel⟩ := List.mem_filter.mp hx
    rw [hes, List.map_map]
    exact List.mem_map.mpr ⟨x, hall x hx (of_decide_eq_true hlevel), rfl⟩
  refine ⟨s, hstore, ?_, hfound 5 (by decide), hfound 6 (by decide)⟩
  rw [hplaced.sizes, hlength]
  simp only [hlevel]
  decide +kernel

end Index

end PlanarJoin
