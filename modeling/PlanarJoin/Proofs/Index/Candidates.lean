import PlanarJoin.Index.Basic
import PlanarJoin.Proofs.Index.Grid
import PlanarJoin.Proofs.Index.Packed
import PlanarJoin.Proofs.Index.Quadrants
import PlanarJoin.Proofs.Index.Tiers

/-!
# What an index finds

An index holds the items with a proper envelope that calls inserted, whenever it is completed in
between.  A query gives some of them, none twice.  The stores that hold every item where its
envelope is, which are buckets, packed trees and trees of quadrants, give all that meet the envelope
among them; tiers hold an item by its center, and may miss one.

## Main definitions

* `IndexSettings.Untiered`: the settings that describe no tiers.
* `Frame`, `Store.frame`: what a store is laid out over.
* `Frame.finds`, `Index.leads`: what a store and an index over a frame find.
* `Store.Holds`, `Index.Holds`: a store or an index that holds some items.
* `Index.Call`, `Index.after`, `Index.inserted`: calls that change an index, and what they insert.
* `Index.Serves`: an index that finds what it was filled with.

## Main results

* `IndexSettings.of_validate`: what validation asks for.
* `Index.holds_after`: calls keep an account of what is held.
* `Index.Holds.query_leads`: a query gives what the frame leads to, whatever the index went through.
* `Index.Holds.query_subperm`: a query gives some of what is held, none twice.
* `Index.serves_after`: an index with valid settings serves what calls insert.
-/

namespace PlanarJoin

open Envelope

variable {α : Type} [Spatial α]

/-- Whether the envelope of an object is proper. -/
def hasProperEnvelope (a : α) : Bool :=
  (Spatial.envelope a).isProper

/-! ## Settings -/

namespace IndexSettings

/-- The settings describe no tiers of buckets. -/
def Untiered (s : IndexSettings) : Prop :=
  s.kind = .grid → s.sizeTiered = false

theorem validate_eq_ok_iff {s : IndexSettings} : s.validate = .ok () ↔ s.fault? = none := by
  unfold validate
  cases s.fault? with
  | none => exact iff_of_true rfl rfl
  | some f => exact iff_of_false nofun nofun

instance (s : IndexSettings) : Decidable (s.validate = .ok ()) :=
  decidable_of_iff (s.fault?.isNone = true)
    (Option.isNone_iff_eq_none.trans validate_eq_ok_iff.symm)

/-- What validation asks for. -/
theorem of_validate {s : IndexSettings} (h : s.validate = .ok ()) :
    (0 < s.columns ∧ 0 < s.rows ∧ s.columns * s.rows ≤ bucketLimit) ∧ 2 ≤ s.nodeCapacity ∧
      s.extent.isProper = true ∧ ¬ s.extent.width ≤ 0.0 ∧ ¬ s.extent.height ≤ 0.0 := by
  have hfault := validate_eq_ok_iff.mp h
  unfold fault? at hfault
  split at hfault
  · cases hfault
  split at hfault
  · cases hfault
  split at hfault
  · cases hfault
  split at hfault
  · cases hfault
  · next hpos hlimit hcapacity hext =>
    simp only [Bool.or_eq_true, Bool.not_eq_true', decide_eq_true_eq, not_or,
      Bool.not_eq_false] at hext
    exact ⟨⟨by omega, by omega, by omega⟩, by omega, hext.1.1, hext.1.2, hext.2⟩

/-- Division by the width and the height of a valid box is monotone. -/
theorem extent_of_validate {s : IndexSettings} (h : s.validate = .ok ()) :
    Binary64.DividesInOrder s.extent.width ∧ Binary64.DividesInOrder s.extent.height := by
  have hneg : (-0.0 : Float) ≤ 0.0 := by decide
  obtain ⟨-, -, -, hwidth, hheight⟩ := of_validate h
  exact ⟨dividesInOrder_width.mpr fun hw => hwidth (hw ▸ hneg),
    dividesInOrder_height.mpr fun hh => hheight (hh ▸ hneg)⟩

theorem validate_default : IndexSettings.default.validate = .ok () := by
  decide +kernel

end IndexSettings

/-! ## Stores -/

/-- What a store is laid out over: buckets, several layers of them, or a tree. -/
inductive Frame where
  | buckets (l : Layout)
  | tiers (ls : List Layout)
  | tree

namespace Frame

/-- A frame of a store that finds all that it holds. -/
def Regular : Frame → Prop
  | buckets l => l.Regular
  | tiers _ => False
  | tree => True

/-- Whether a store over a frame finds an item for an envelope. -/
def finds (f : Frame) (e : Envelope) (a : α) : Bool :=
  match f with
  | buckets l => Grid.shares l e a
  | tiers ls => Tiers.finds (ls.map fun l => (Tier.ofLayout l : Tier α)) e (Spatial.envelope a)
  | tree => touches e a

/-- Over a regular frame, what meets the envelope is found. -/
theorem finds_of_touches {f : Frame} (hf : f.Regular) {e : Envelope} {a : α}
    (he : e.isProper = true) (ha : (Spatial.envelope a).isProper = true) (h : touches e a = true) :
    f.finds e a = true := by
  cases f with
  | buckets l => exact Grid.shares_of_touches hf he ha h
  | tiers ls => exact hf.elim
  | tree => exact h

end Frame

namespace Store

/-- Items numbered by arrival. -/
def numbered (as : List α) : List (Entry α) :=
  as.zipIdx.map fun p => ⟨p.2, p.1⟩

omit [Spatial α] in
theorem numbered_append (as : List α) (a : α) :
    numbered (as ++ [a]) = numbered as ++ [⟨as.length, a⟩] := by
  simp [numbered, List.zipIdx_append]

omit [Spatial α] in
theorem map_item_numbered (as : List α) : (numbered as).map (·.item) = as := by
  rw [numbered, List.map_map]
  exact List.zipIdx_map_fst 0 as

omit [Spatial α] in
theorem pairwise_numbered (as : List α) :
    (numbered as).Pairwise fun a b => a.arrival < b.arrival := by
  rw [numbered, List.pairwise_map]
  have h : (as.zipIdx.map (·.2)).Pairwise (· < ·) := by
    rw [List.zipIdx_map_snd]
    exact List.pairwise_lt_range'
  exact List.pairwise_map.mp h

/-- What a store is laid out over. -/
def frame : Store α → Frame
  | grid g => .buckets g.layout
  | tiers t => .tiers (t.tiers.map (·.layout))
  | packed _ | quadrants _ => .tree

theorem frame_insert (st : Store α) (e : Entry α) : (st.insert e).frame = st.frame := by
  cases st with
  | tiers t => exact congrArg Frame.tiers (t.map_layout_insert e)
  | _ => rfl

theorem frame_build (st : Store α) : st.build.frame = st.frame := by
  cases st <;> rfl

/-- The layout of a store whose items stand in all buckets that they reach. -/
def layout? (st : Store α) : Option Layout :=
  match st.frame with
  | .buckets l => some l
  | _ => none

/-- A store that holds some items, in order of arrival. -/
def Holds : Store α → List α → Prop
  | grid g, as => g.Holds (numbered as)
  | tiers t, as => t.Holds (numbered as)
  | packed t, as => t.Holds as
  | quadrants q, as => q.Nested ∧ q.items.Perm as

variable {st : Store α} {as : List α} {e : Envelope}

/-- Inserting the next item adds just this item. -/
theorem Holds.insert (h : st.Holds as) (a : α) : (st.insert ⟨as.length, a⟩).Holds (as ++ [a]) := by
  cases st with
  | grid g =>
    change (g.insert _).Holds _
    rw [numbered_append]
    exact Grid.Holds.insert h _
  | tiers t =>
    change (t.insert _).Holds _
    rw [numbered_append]
    exact Tiers.Holds.insert h _
  | packed t => exact PackedTree.Holds.insert h a
  | quadrants q =>
    obtain ⟨hn, hperm, -⟩ := Quadrant.takes_add q a h.1
    exact ⟨hn, hperm.trans ((h.2.cons a).trans (List.perm_append_singleton a as).symm)⟩

theorem Holds.build (h : st.Holds as) (has : ∀ a ∈ as, (Spatial.envelope a).isProper = true) :
    st.build.Holds as := by
  cases st with
  | grid g => exact h
  | tiers t => exact h
  | packed t => exact PackedTree.Holds.build h has
  | quadrants q => exact h

/-- A store of buckets gives the items that share a bucket with the envelope, in order. -/
theorem Holds.query_eq (h : st.Holds as) {l : Layout} (hl : st.layout? = some l) (e : Envelope) :
    st.query e = as.filter (Grid.shares l e) := by
  cases st with
  | grid g =>
    obtain rfl : g.layout = l := Option.some.inj hl
    change g.query e = _
    rw [Grid.query_eq h (pairwise_numbered as), map_item_numbered]
  | tiers t => cases hl
  | packed t => cases hl
  | quadrants q => cases hl

/-- Tiers give the items that tiers of the same layouts find, in order. -/
theorem Holds.query_finds (h : st.Holds as) {ts : List (Tier α)}
    (hf : st.frame = .tiers (ts.map (·.layout))) (e : Envelope) :
    st.query e = as.filter fun a => Tiers.finds ts e (Spatial.envelope a) := by
  cases st with
  | tiers t =>
    change t.query e = _
    rw [Tiers.query_eq h (pairwise_numbered as), map_item_numbered]
    simp only [Tiers.finds_congr (Frame.tiers.inj hf)]
  | grid g => cases hf
  | packed t => cases hf
  | quadrants q => cases hf

/-- A tree gives just the items that meet the envelope. -/
theorem Holds.query_perm (h : st.Holds as) (hf : st.frame = .tree) (he : e.Ordered) :
    (st.query e).Perm (as.filter (touches e)) := by
  cases st with
  | grid g => cases hf
  | tiers t => cases hf
  | packed t => exact PackedTree.Holds.query_perm h he
  | quadrants q =>
    change (q.search e).Perm _
    rw [Quadrant.search_eq h.1 he]
    exact h.2.filter _

/-- Buckets and tiers give the items that their frame finds, in order, whatever they went
through. -/
theorem Holds.query_of_frame_ne_tree (h : st.Holds as) (hf : st.frame ≠ .tree) (e : Envelope) :
    st.query e = as.filter (st.frame.finds e) := by
  cases st with
  | grid g => exact h.query_eq rfl e
  | tiers t =>
    have hlayouts : ((t.tiers.map (·.layout)).map fun l => (Tier.ofLayout l : Tier α)).map
        (·.layout) = t.tiers.map (·.layout) := by
      rw [List.map_map]
      exact List.map_id _
    refine (h.query_finds rfl e).trans (List.filter_congr fun a _ => ?_)
    exact (Tiers.finds_congr hlayouts e _).symm
  | packed t => exact absurd rfl hf
  | quadrants q => exact absurd rfl hf

/-- A store gives the items that its frame finds, whatever it went through. -/
theorem Holds.query_frame (h : st.Holds as) (he : e.Ordered) :
    (st.query e).Perm (as.filter (st.frame.finds e)) := by
  by_cases hf : st.frame = .tree
  · have hfinds : st.frame.finds e = (touches e : α → Bool) := by rw [hf]; rfl
    rw [hfinds]
    exact h.query_perm hf he
  · exact List.Perm.of_eq (h.query_of_frame_ne_tree hf e)

/-- The empty store that settings describe holds nothing. -/
theorem holds_newStore (s : IndexSettings) : (s.newStore : Store α).Holds [] := by
  unfold IndexSettings.newStore
  cases s.kind with
  | grid =>
    dsimp only
    split
    · exact Tiers.holds_ofSizes _ _
    · exact Grid.holds_empty _
  | rtree => exact PackedTree.holds_withCapacity _
  | quadtree => exact ⟨trivial, .rfl⟩

omit [Spatial α] in
/-- The frame that settings without tiers describe is regular, if division by the width and by the
height of a box that is cut into buckets is monotone. -/
theorem regular_of_divides {s : IndexSettings} (ht : s.Untiered)
    (h : s.kind = .grid →
      Binary64.DividesInOrder s.extent.width ∧ Binary64.DividesInOrder s.extent.height) :
    (s.newStore : Store α).frame.Regular := by
  unfold IndexSettings.newStore
  cases hk : s.kind with
  | grid =>
    rw [ht hk]
    exact Layout.regular_make (h hk).1 (h hk).2 _ _
  | rtree => trivial
  | quadtree => trivial

omit [Spatial α] in
theorem regular_newStore {s : IndexSettings} (hs : s.validate = .ok ()) (ht : s.Untiered) :
    (s.newStore : Store α).frame.Regular :=
  regular_of_divides ht fun _ => s.extent_of_validate hs

end Store

/-! ## Calls -/

namespace Index

/-- A call that changes an index. -/
inductive Call (α : Type) where
  | insert (a : α)
  | build

/-- The item that a call inserts. -/
def Call.item? : Call α → Option α
  | insert a => some a
  | build => none

/-- The index after a call. -/
def call (i : Index α) : Call α → Index α
  | .insert a => i.insert a
  | .build => i.build

/-- The index after some calls. -/
def after (i : Index α) (calls : List (Call α)) : Index α :=
  calls.foldl call i

/-- The items that some calls insert, in order. -/
def inserted (calls : List (Call α)) : List α :=
  calls.filterMap Call.item?

variable {i : Index α} {as : List α} {e : Envelope}

theorem after_map_insert (i : Index α) (as : List α) : i.after (as.map .insert) = i.insertAll as :=
  List.foldl_map

omit [Spatial α] in
theorem inserted_map_insert (as : List α) : inserted (as.map Call.insert) = as := by
  rw [inserted, List.filterMap_map]
  exact List.filterMap_some

theorem after_append_build (i : Index α) (calls : List (Call α)) :
    i.after (calls ++ [.build]) = (i.after calls).build :=
  List.foldl_append

omit [Spatial α] in
theorem inserted_append_build (calls : List (Call α)) :
    inserted (calls ++ [.build]) = inserted calls := by
  rw [inserted, List.filterMap_append]
  exact List.append_nil _

theorem frame_call (i : Index α) (c : Call α) : (i.call c).store.frame = i.store.frame := by
  cases c with
  | insert a =>
    rw [call, Index.insert]
    split
    · exact Store.frame_insert _ _
    · rfl
  | build => exact Store.frame_build _

theorem frame_after (i : Index α) (calls : List (Call α)) :
    (i.after calls).store.frame = i.store.frame := by
  unfold after
  induction calls generalizing i with
  | nil => rfl
  | cons c calls ih => exact (ih (i.call c)).trans (frame_call i c)

theorem layout?_after (i : Index α) (calls : List (Call α)) :
    (i.after calls).store.layout? = i.store.layout? := by
  rw [Store.layout?, frame_after]
  rfl

/-- An index that holds some items with proper envelopes. -/
structure Holds (i : Index α) (as : List α) : Prop where
  store : i.store.Holds as
  size : i.size = as.length
  proper : ∀ a ∈ as, (Spatial.envelope a).isProper = true
  extent : i.extent = hullAll (as.map Spatial.envelope)

theorem holds_ofStore {st : Store α} (h : st.Holds []) : (ofStore st).Holds [] :=
  ⟨h, rfl, fun _ ha => absurd ha List.not_mem_nil, rfl⟩

/-- Inserting an item adds it if its envelope is proper. -/
theorem Holds.insert (h : i.Holds as) (a : α) :
    (i.insert a).Holds (as ++ [a].filter hasProperEnvelope) := by
  unfold Index.insert
  dsimp only
  split
  · next ha =>
    rw [List.filter_cons_of_pos (show hasProperEnvelope a = true from ha), List.filter_nil]
    refine ⟨?_, ?_, ?_, ?_⟩
    · rw [h.size]
      exact h.store.insert a
    · rw [h.size, List.length_append, List.length_singleton]
    · intro b hb
      rcases List.mem_append.mp hb with hb | hb
      · exact h.proper b hb
      · obtain rfl := List.mem_singleton.mp hb
        exact ha
    · rw [h.extent, List.map_append, hullAll, hullAll, List.foldl_append]
      rfl
  · next ha =>
    rw [List.filter_cons_of_neg (show ¬ hasProperEnvelope a = true from ha),
      List.filter_nil, List.append_nil]
    exact ⟨h.store, h.size, h.proper, h.extent⟩

theorem Holds.build (h : i.Holds as) : i.build.Holds as :=
  ⟨h.store.build h.proper, h.size, h.proper, h.extent⟩

theorem Holds.call (h : i.Holds as) (c : Call α) :
    (i.call c).Holds (as ++ c.item?.toList.filter hasProperEnvelope) := by
  cases c with
  | insert a => exact h.insert a
  | build =>
    change i.build.Holds (as ++ [])
    rw [List.append_nil]
    exact h.build

/-- Calls add what they insert, in order, as far as it has proper envelopes. -/
theorem holds_after (h : i.Holds as) (calls : List (Call α)) :
    (i.after calls).Holds (as ++ (inserted calls).filter hasProperEnvelope) := by
  unfold after
  induction calls generalizing i as with
  | nil =>
    change i.Holds (as ++ [])
    rw [List.append_nil]
    exact h
  | cons c calls ih =>
    have hcons : inserted (c :: calls) = c.item?.toList ++ inserted calls := by
      cases c <;> rfl
    have hstep := ih (h.call c)
    rw [List.append_assoc, ← List.filter_append, ← hcons] at hstep
    exact hstep

theorem holds_emptyIndex_after (s : IndexSettings) (calls : List (Call α)) :
    (s.emptyIndex.after calls).Holds ((inserted calls).filter hasProperEnvelope) := by
  have h := holds_after (holds_ofStore (Store.holds_newStore s)) calls
  rw [List.nil_append] at h
  exact h

theorem ofList_eq_after (s : IndexSettings) (as : List α) :
    ofList s as = s.emptyIndex.after (as.map .insert ++ [.build]) := by
  rw [after_append_build, after_map_insert]
  rfl

theorem frame_ofList (s : IndexSettings) (as : List α) :
    (ofList s as).store.frame = (s.newStore : Store α).frame := by
  rw [ofList_eq_after, frame_after]
  rfl

theorem holds_ofList (s : IndexSettings) (as : List α) :
    (ofList s as).Holds (as.filter hasProperEnvelope) := by
  have h := holds_emptyIndex_after s (as.map .insert ++ [.build])
  rwa [← ofList_eq_after, inserted_append_build, inserted_map_insert] at h

/-! ## Candidates -/

theorem Holds.query_subperm (h : i.Holds as) (e : Envelope) : (i.query e).Subperm as := by
  by_cases he : e.isProper = true
  · rw [query, if_pos he]
    exact (h.store.query_frame (ordered_of_isProper he)).subperm.trans List.filter_sublist.subperm
  · rw [query, if_neg he]
    exact List.nil_subperm

theorem Holds.isEmpty_iff (h : i.Holds (as.filter hasProperEnvelope)) :
    i.isEmpty = true ↔ ∀ a ∈ as, ¬ (Spatial.envelope a).isProper = true := by
  rw [isEmpty, beq_iff_eq, h.size, List.length_eq_zero_iff, List.filter_eq_nil_iff]
  rfl

/-- Whether an index over a frame leads from an envelope to an object. -/
def leads (f : Frame) (e : Envelope) (a : α) : Bool :=
  e.isProper && hasProperEnvelope a && f.finds e a

theorem leads_eq (f : Frame) (e : Envelope) (a : α) :
    leads f e a = (e.isProper && (hasProperEnvelope a && f.finds e a)) :=
  Bool.and_assoc _ _ _

/-- What an improper envelope leads to is nothing. -/
theorem filter_leads_of_not_isProper (f : Frame) (as : List α) (he : ¬ e.isProper = true) :
    as.filter (leads f e) = [] := by
  refine List.filter_eq_nil_iff.mpr fun a _ ha => ?_
  rw [leads_eq, Bool.and_eq_true] at ha
  exact he ha.1

theorem filter_finds_hasProperEnvelope (f : Frame) (as : List α) (he : e.isProper = true) :
    (as.filter hasProperEnvelope).filter (f.finds e) = as.filter (leads f e) := by
  rw [List.filter_filter]
  exact List.filter_congr fun a _ => by rw [leads_eq, he, Bool.true_and, Bool.and_comm]

/-- A query gives the objects to which the frame leads, of all that an index was filled with. -/
theorem Holds.query_leads (h : i.Holds (as.filter hasProperEnvelope)) (e : Envelope) :
    (i.query e).Perm (as.filter (leads i.store.frame e)) := by
  by_cases he : e.isProper = true
  · rw [query, if_pos he, ← filter_finds_hasProperEnvelope _ _ he]
    exact h.store.query_frame (ordered_of_isProper he)
  · rw [query, if_neg he, filter_leads_of_not_isProper _ _ he]

/-- Buckets and tiers give these objects in the order of insertion. -/
theorem Holds.query_eq_leads (h : i.Holds (as.filter hasProperEnvelope))
    (hf : i.store.frame ≠ .tree) (e : Envelope) :
    i.query e = as.filter (leads i.store.frame e) := by
  by_cases he : e.isProper = true
  · rw [query, if_pos he, ← filter_finds_hasProperEnvelope _ _ he]
    exact h.store.query_of_frame_ne_tree hf e
  · rw [query, if_neg he, filter_leads_of_not_isProper _ _ he]

/-- An index that was filled with some objects: it holds those with a proper envelope, and what it
is laid out over is regular. -/
structure Serves (i : Index α) (as : List α) : Prop where
  holds : i.Holds (as.filter hasProperEnvelope)
  regular : i.store.frame.Regular

/-- An index without tiers serves what was inserted into it, however it was built. -/
theorem serves_after_of_divides {s : IndexSettings} (ht : s.Untiered)
    (h : s.kind = .grid →
      Binary64.DividesInOrder s.extent.width ∧ Binary64.DividesInOrder s.extent.height)
    (calls : List (Call α)) : (s.emptyIndex.after calls).Serves (inserted calls) := by
  refine ⟨holds_emptyIndex_after s calls, ?_⟩
  rw [frame_after]
  exact Store.regular_of_divides ht h

/-- An index with valid settings serves what was inserted into it, however it was built. -/
theorem serves_after {s : IndexSettings} (hs : s.validate = .ok ()) (ht : s.Untiered)
    (calls : List (Call α)) : (s.emptyIndex.after calls).Serves (inserted calls) :=
  serves_after_of_divides ht (fun _ => s.extent_of_validate hs) calls

theorem serves_ofList {s : IndexSettings} (hs : s.validate = .ok ()) (ht : s.Untiered)
    (as : List α) : (ofList s as).Serves as := by
  have h := serves_after hs ht (as.map .insert ++ [.build])
  rwa [← ofList_eq_after, inserted_append_build, inserted_map_insert] at h

/-- A query for a proper envelope gives some of the items, none twice, and all that meet it. -/
theorem Serves.query_spec (h : i.Serves as) (he : e.isProper = true) :
    ∃ p : α → Bool, (i.query e).Perm ((as.filter hasProperEnvelope).filter p) ∧
      ∀ a ∈ as.filter hasProperEnvelope, touches e a = true → p a = true := by
  rw [query, if_pos he]
  exact ⟨i.store.frame.finds e, h.holds.store.query_frame (ordered_of_isProper he),
    fun a ha hm => Frame.finds_of_touches h.regular he (h.holds.proper a ha) hm⟩

end Index

end PlanarJoin
