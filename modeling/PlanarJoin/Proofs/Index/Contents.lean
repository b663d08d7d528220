import PlanarJoin.Proofs.Index.Candidates

/-!
# What an index holds

Everything that stands anywhere in an index, whether or not a query reaches it.  In a grid an item
stands in many buckets and counts once, by its number of arrival.  In all other stores every item
stands in one place, and what is counted are the places.

## Main definitions

* `Buckets.entries`: the entries of all buckets.
* `Tiers.entries`: the entries of all tiers, and those that are too large for all of them.
* `Store.Filed`: tiers in which every item has one place.
* `Index.contents`: the items of an index.

## Main results

* `Buckets.entries_put`, `Tiers.entries_insert`: an entry takes one place.
* `Index.store_after`: what a store keeps while it is filled, it has after any calls.
* `Index.contents_after`: after any calls an index holds the items with a proper envelope that were
  inserted, each once.
-/

namespace PlanarJoin

open Envelope

variable {α : Type}

/-! ## Buckets -/

/-- A proper envelope reaches some bucket of a regular layout. -/
theorem Layout.exists_mem_keysOf {l : Layout} (hl : l.Regular) {e : Envelope} (he : e.Ordered) :
    ∃ k, k ∈ l.keysOf e := by
  have hself : e.meets e = true := (meets_iff he he).mpr ⟨⟨he.le_x, he.le_x⟩, he.le_y, he.le_y⟩
  obtain ⟨k, hk, -⟩ := (Layout.exists_common_key_iff hl.columns).mpr
    (Layout.not_disjoint_rectangle hl he he hself)
  exact ⟨k, hk⟩

namespace Buckets

/-- The entries of all buckets. -/
def entries (b : Buckets α) : List (Entry α) :=
  b.filled.keys.flatMap b.bucket

theorem entries_empty : (empty : Buckets α).entries = [] := by
  simp [entries]

theorem bucket_of_not_mem {b : Buckets α} {k : Nat} (h : k ∉ b.filled) : b.bucket k = [] := by
  rw [bucket, Std.HashMap.getD_eq_fallback h]

theorem mem_entries {b : Buckets α} {e : Entry α} : e ∈ b.entries ↔ ∃ k, e ∈ b.bucket k := by
  rw [entries, List.mem_flatMap]
  refine ⟨fun ⟨k, _, he⟩ => ⟨k, he⟩, fun ⟨k, he⟩ => ⟨k, ?_, he⟩⟩
  by_contra hk
  rw [bucket_of_not_mem fun hmem => hk (Std.HashMap.mem_keys.mpr hmem)] at he
  exact List.not_mem_nil he

theorem mem_keys_put {b : Buckets α} {e : Entry α} {key k : Nat} :
    k ∈ (b.put e key).filled.keys ↔ key = k ∨ k ∈ b.filled.keys := by
  rw [Std.HashMap.mem_keys, put, Std.HashMap.mem_alter, Std.HashMap.mem_keys]
  by_cases h : key = k <;> simp [h]

/-- An entry that is put into a bucket takes one place there. -/
theorem entries_put (b : Buckets α) (e : Entry α) (key : Nat) :
    (b.put e key).entries.Perm (e :: b.entries) := by
  have hothers {keys : List Nat} (hkey : key ∉ keys) :
      keys.flatMap (b.put e key).bucket = keys.flatMap b.bucket :=
    List.flatMap_congr fun k hk => by
      rw [bucket_put, if_neg]
      rintro rfl
      exact hkey hk
  have hsplit {keys : List Nat} (hnodup : keys.Nodup) (hkey : key ∈ keys) :
      ((keys.flatMap (b.put e key).bucket)).Perm (e :: keys.flatMap b.bucket) := by
    have hperm := List.perm_cons_erase hkey
    refine (hperm.flatMap_right _).trans (.trans ?_ ((hperm.flatMap_right _).symm.cons e))
    rw [List.flatMap_cons, List.flatMap_cons, hothers (hnodup.not_mem_erase), bucket_put,
      if_pos rfl, List.append_assoc]
    exact List.perm_middle
  by_cases hkey : key ∈ b.filled.keys
  · have hkeys : (b.put e key).filled.keys.Perm b.filled.keys := by
      rw [List.perm_ext_iff_of_nodup Std.HashMap.nodup_keys Std.HashMap.nodup_keys]
      intro k
      rw [mem_keys_put, or_iff_right_of_imp]
      rintro rfl
      exact hkey
    exact (hkeys.flatMap_right _).trans (hsplit Std.HashMap.nodup_keys hkey)
  · have hkeys : (b.put e key).filled.keys.Perm (key :: b.filled.keys) := by
      rw [List.perm_ext_iff_of_nodup Std.HashMap.nodup_keys
        (Std.HashMap.nodup_keys.cons hkey)]
      intro k
      rw [mem_keys_put, List.mem_cons, eq_comm]
    have hnone : b.bucket key = [] :=
      bucket_of_not_mem fun hmem => hkey (Std.HashMap.mem_keys.mpr hmem)
    refine (hkeys.flatMap_right _).trans ?_
    rw [List.flatMap_cons, hothers hkey, bucket_put, if_pos rfl, hnone]
    exact .rfl

end Buckets

/-! ## Tiers -/

namespace Tiers

variable [Spatial α]

/-- All entries, those that are too large for all tiers first. -/
def entries (s : Tiers α) : List (Entry α) :=
  s.oversize ++ s.tiers.flatMap (·.buckets.entries)

omit [Spatial α] in
theorem entries_ofSizes (extent : Envelope) (sizes : List (Float × Float)) :
    (ofSizes extent sizes : Tiers α).entries = [] := by
  simp [entries, ofSizes, Buckets.entries_empty]

/-- An entry that is put into one of some tiers takes one place there. -/
theorem entries_put? {e : Entry α} {ts us : List (Tier α)} (h : put? e ts = some us) :
    (us.flatMap (·.buckets.entries)).Perm (e :: ts.flatMap (·.buckets.entries)) := by
  induction ts generalizing us with
  | nil => cases h
  | cons t ts ih =>
    rw [put?] at h
    split at h
    · obtain rfl := Option.some.inj h
      exact (t.buckets.entries_put e _).append_right _
    · obtain ⟨us, hus, rfl⟩ := Option.map_eq_some_iff.mp h
      exact ((ih hus).append_left _).trans List.perm_middle

theorem entries_insert (s : Tiers α) (e : Entry α) :
    (s.insert e).entries.Perm (e :: s.entries) := by
  unfold Tiers.insert
  split
  · next us hput => exact ((entries_put? hput).append_left _).trans List.perm_middle
  · rw [entries, List.append_assoc]
    exact List.perm_middle

end Tiers

/-! ## Stores -/

namespace Store

/-- All items of a store.  What stands in several buckets of a grid counts once. -/
def contents : Store α → List α
  | grid g => (inOrder g.buckets.entries).map (·.item)
  | tiers t => t.entries.map (·.item)
  | packed t => t.root.elim [] Node.items ++ t.pending
  | quadrants q => q.items

variable [Spatial α] {st : Store α} {as : List α}

/-- Tiers in which every item has one place. -/
def Filed : Store α → List α → Prop
  | tiers t, as => t.entries.Perm (numbered as)
  | _, _ => True

theorem Filed.insert (h : st.Filed as) (a : α) : (st.insert ⟨as.length, a⟩).Filed (as ++ [a]) := by
  cases st with
  | tiers t =>
    change (t.insert _).entries.Perm _
    rw [numbered_append]
    exact (t.entries_insert _).trans ((h.cons _).trans (List.perm_append_singleton _ _).symm)
  | _ => trivial

theorem Filed.build (h : st.Filed as) : st.build.Filed as := by
  cases st with
  | tiers t => exact h
  | _ => trivial

omit [Spatial α] in
theorem filed_newStore (s : IndexSettings) : (s.newStore : Store α).Filed [] := by
  rw [IndexSettings.newStore]
  split
  · split
    · exact .of_eq (Tiers.entries_ofSizes _ _)
    · trivial
  · trivial
  · trivial

/-- A store that holds some items has these contents. -/
theorem Holds.contents_perm (h : st.Holds as) (hf : st.Filed as)
    (hl : ∀ l, st.layout? = some l → l.Regular)
    (has : ∀ a ∈ as, (Spatial.envelope a).isProper = true) : st.contents.Perm as := by
  cases st with
  | grid g =>
    have hmem (e : Entry α) : e ∈ g.buckets.entries ↔ e ∈ numbered as := by
      rw [Buckets.mem_entries]
      constructor
      · rintro ⟨k, he⟩
        exact ((h k e).mp he).1
      · intro he
        have hitem : e.item ∈ as := by
          rw [← map_item_numbered as]
          exact List.mem_map_of_mem he
        obtain ⟨k, hk⟩ := Layout.exists_mem_keysOf (hl g.layout rfl)
          (ordered_of_isProper (has _ hitem))
        exact ⟨k, (h k e).mpr ⟨he, hk⟩⟩
    have hall := inOrder_eq (pairwise_numbered as) (fun e he => (hmem e).mp he) (fun _ => true)
      fun e he => iff_of_true rfl ((hmem e).mpr he)
    rw [contents, hall, List.filter_true, map_item_numbered]
  | tiers t =>
    have hitems := hf.map (·.item)
    rwa [map_item_numbered] at hitems
  | packed t =>
    obtain ⟨-, rfl, -, hroot⟩ := h
    rw [contents, PackedTree.pending]
    cases hr : t.root with
    | none =>
      rw [hr] at hroot
      have hdrop := List.take_append_drop t.packed t.items.toList
      rw [show t.items.toList.take t.packed = [] from hroot] at hdrop
      exact .of_eq hdrop
    | some n =>
      rw [hr] at hroot
      have hsome := hroot.2.append_right (t.items.toList.drop t.packed)
      rwa [List.take_append_drop] at hsome
  | quadrants q => exact h.2

omit [Spatial α] in
/-- Valid settings describe a regular layout, if they describe one. -/
theorem regular_of_layout?_newStore {s : IndexSettings} (hs : s.validate = .ok ()) {l : Layout}
    (h : (s.newStore : Store α).layout? = some l) : l.Regular := by
  by_cases ht : s.Untiered
  · have hreg := regular_newStore (α := α) hs ht
    unfold layout? at h
    split at h
    · next hframe =>
      obtain rfl := Option.some.inj h
      rwa [hframe] at hreg
    · cases h
  · simp only [IndexSettings.Untiered, Classical.not_imp, Bool.not_eq_false] at ht
    rw [IndexSettings.newStore, ht.1] at h
    dsimp only at h
    rw [if_pos ht.2] at h
    cases h

end Store

namespace Index

/-- All items of an index. -/
def contents (i : Index α) : List α :=
  i.store.contents

variable [Spatial α] {i : Index α} {as : List α}

/-- What inserting the next item and completing a store keep is kept by any calls, for the items
with a proper envelope that they insert. -/
theorem store_after {P : Store α → List α → Prop}
    (hinsert : ∀ {st as} (a : α), P st as → P (st.insert ⟨as.length, a⟩) (as ++ [a]))
    (hbuild : ∀ {st as}, P st as → P st.build as) (hsize : i.size = as.length) (h : P i.store as)
    (calls : List (Call α)) :
    P (i.after calls).store (as ++ (inserted calls).filter hasProperEnvelope) := by
  unfold after
  induction calls generalizing i as with
  | nil =>
    change P i.store (as ++ [])
    rwa [List.append_nil]
  | cons c calls ih =>
    rw [List.foldl_cons]
    cases c with
    | build => exact ih hsize (hbuild h)
    | insert a =>
      change P (calls.foldl call (i.insert a)).store
        (as ++ (a :: inserted calls).filter hasProperEnvelope)
      unfold Index.insert
      dsimp only
      split
      · next ha =>
        rw [List.filter_cons_of_pos (show hasProperEnvelope a = true from ha), List.append_cons,
          hsize]
        have hlength : as.length + 1 = (as ++ [a]).length := by
          rw [List.length_append, List.length_singleton]
        exact ih hlength (hinsert a h)
      · next ha =>
        rw [List.filter_cons_of_neg (show ¬ hasProperEnvelope a = true from ha)]
        exact ih hsize h

/-- After any calls an index with valid settings holds the items with a proper envelope that were
inserted, each once. -/
theorem contents_after {s : IndexSettings} (hs : s.validate = .ok ()) (calls : List (Call α)) :
    (s.emptyIndex.after calls).contents.Perm ((inserted calls).filter hasProperEnvelope) := by
  have hholds := holds_emptyIndex_after s calls
  have hfiled : (s.emptyIndex.after calls).store.Filed
      ([] ++ (inserted calls).filter hasProperEnvelope) :=
    store_after (fun a h => h.insert a) (fun h => h.build) rfl (Store.filed_newStore s) calls
  rw [List.nil_append] at hfiled
  refine hholds.store.contents_perm hfiled (fun l hl => ?_) hholds.proper
  rw [layout?_after] at hl
  exact Store.regular_of_layout?_newStore hs hl

theorem contents_ofList {s : IndexSettings} (hs : s.validate = .ok ()) (as : List α) :
    (ofList s as).contents.Perm (as.filter hasProperEnvelope) := by
  have h := contents_after hs (as.map .insert ++ [.build])
  rwa [← ofList_eq_after, inserted_append_build, inserted_map_insert] at h

end Index

end PlanarJoin
