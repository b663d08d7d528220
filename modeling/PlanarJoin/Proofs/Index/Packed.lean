import Mathlib.Data.List.Perm.Basic
import Mathlib.Order.Bounds.Basic
import PlanarJoin.Index.Packed
import PlanarJoin.Proofs.Binary64.Root
import PlanarJoin.Proofs.Envelope.Order

/-!
# Packed trees find what they hold

A search leaves out a subtree whose box does not meet the envelope.  As the box of a node covers the
boxes below it, nothing is lost by that.  Every packing of a level leaves fewer trees, until one is
left, and keeps their items.

## Main definitions

* `Node.items`: the items of a tree, from left to right.
* `Node.Boxed`: the box of every node covers what is below it.
* `PackedTree.Holds`: a packed tree that holds some items, the first ones in its tree.

## Main results

* `isLeast_sliceCount`: below `2 ^ 52` groups the number of slices is the least one whose square is
  enough.
* `flatten_pack_perm`: packing neither loses nor repeats anything.
* `Node.search_eq`: a search gives the items that meet the envelope.
* `length_pack_lt`: packing leaves fewer groups than there were things to pack.
* `Node.raise_spec`: what is packed into one tree is all there was.
* `PackedTree.Holds.insert`, `PackedTree.Holds.build`: inserting and packing keep what is held.
* `PackedTree.Holds.query_perm`: a packed tree finds the items that meet an envelope.
-/

namespace PlanarJoin

open Envelope

/-! ## The number of slices -/

section Slices

open Binary64

variable {n : Nat}

/-- The root of a number that fits a machine word is small, so it is raised to a whole number. -/
theorem sliceCount_eq (hn : 0 < n) (hw : n < 2 ^ 64) :
    (Float.ofNat n).sqrt.isFinite = true ∧ sliceCount n = ⌈value (Float.ofNat n).sqrt⌉₊ ∧
      value (Float.ofNat n).sqrt ≤ 2 ^ 32 := by
  obtain ⟨hfin, hbound⟩ := bounded_ofNat hw
  have hle : value (Float.ofNat n) ≤ (2 ^ 32 : ℕ) ^ 2 := by
    refine (le_abs_self _).trans (hbound.trans ?_)
    norm_num
  obtain ⟨hroot, h0, hc⟩ := value_sqrt_le hfin (zero_lt_one.trans_le (one_le_value_ofNat hw hn))
    (by norm_num) hle
  rw [Nat.cast_pow, Nat.cast_ofNat] at hc
  exact ⟨hroot, toUInt64_ceiling hroot h0 (by linarith), hc⟩

theorem sliceCount_le (hw : n < 2 ^ 64) : sliceCount n ≤ 2 ^ 32 := by
  rcases Nat.eq_zero_or_pos n with rfl | hn
  · decide
  · obtain ⟨-, heq, hc⟩ := sliceCount_eq hn hw
    rw [heq]
    exact Nat.ceil_le.mpr (by exact_mod_cast hc)

/-- However many groups there are, they are cut into slices. -/
theorem sliceCount_pos (hn : 0 < n) : 0 < sliceCount n := by
  refine one_le_toUInt64_ceiling ?_
  obtain ⟨hnum, hnear⟩ := nearest_natCast n
  have hone : rank 1.0 ≤ rank (Float.ofNat n) := by
    refine (nearest_value isFinite_one).mono hnear ?_
    rw [value_one]
    exact_mod_cast hn
  by_cases hfin : (Float.ofNat n).isFinite = true
  · refine rank_one_le_sqrt hfin ?_
    rw [← value_one]
    exact (value_le_value_iff isFinite_one hfin).mpr hone
  · -- as many groups as this only have an infinite root
    have hlow : 0 < rank 1.0 := by decide
    rw [rank_sqrt_of_top (not_lt.mp fun h => hfin (isFinite_of_rank (hlow.trans_le hone) h))]
    exact (rank_le_top 1.0).2

/-- The number of slices is the least one whose square is enough, as long as floats can tell. -/
theorem isLeast_sliceCount (hn : n < 2 ^ 52) : IsLeast {c | n ≤ c * c} (sliceCount n) := by
  rcases Nat.eq_zero_or_pos n with rfl | hpos
  · exact ⟨Nat.zero_le _, fun c _ => (show sliceCount 0 = 0 by decide).trans_le (Nat.zero_le c)⟩
  have hfin := isFinite_ofNat (show n < 2 ^ 53 by omega)
  have hvalue := value_ofNat (show n < 2 ^ 53 by omega)
  have h0 : 0 < value (Float.ofNat n) := by
    rw [hvalue]
    exact_mod_cast hpos
  obtain ⟨hroot, heq, -⟩ := sliceCount_eq hpos (show n < 2 ^ 64 by omega)
  rw [heq]
  refine ⟨?_, fun c hc => ?_⟩
  · change n ≤ _
    by_contra hlt
    -- one more than the square is still within the number, so the root is beyond
    refine (Nat.le_ceil (value (Float.ofNat n).sqrt)).not_gt
      (lt_value_sqrt hfin (by rw [hvalue]; exact_mod_cast hn) ?_ hroot)
    rw [hvalue, pow_two]
    exact_mod_cast not_le.mp hlt
  · refine Nat.ceil_le.mpr ?_
    have hsmall {b : Nat} (hb : b ≤ 2 ^ 52) (hle : n ≤ b * b) :
        value (Float.ofNat n).sqrt ≤ b := by
      refine (value_sqrt_le hfin h0 hb ?_).2.2
      rw [hvalue, pow_two]
      exact_mod_cast hle
    rcases Nat.le_total c (2 ^ 26) with hle | hge
    · exact hsmall (by omega) hc
    · exact (hsmall (b := 2 ^ 26) (by norm_num) (by omega)).trans (by exact_mod_cast hge)

end Slices

/-! ## Packing -/

/-- Packing neither loses nor repeats anything. -/
theorem flatten_pack_perm {β : Type} {capacity : Nat} (hc : 0 < capacity) (box : β → Envelope)
    (xs : List β) : (pack capacity box xs).flatten.Perm xs := by
  rw [pack, List.flatten_eq_flatMap, List.flatMap_assoc]
  -- the groups of a slice give the slice back, and the slices the sorted list
  refine (List.Perm.flatMap_left (g := id) _ fun ys _ => ?_).trans ?_
  · rw [List.flatMap_id, flatten_chunks hc]
    exact sortByFloat_perm _ ys
  · rw [List.flatMap_id]
    rcases xs with _ | ⟨x, xs⟩
    · simp [sortByFloat]
    · have hgroups : 0 < ((x :: xs).length + capacity - 1) / capacity :=
        Nat.div_pos (by rw [List.length_cons]; omega) hc
      rw [flatten_chunks (Nat.mul_pos (sliceCount_pos hgroups) hc)]
      exact sortByFloat_perm _ _

section Pack

variable {β : Type} {capacity : Nat}

@[simp]
theorem pack_nil (capacity : Nat) (box : β → Envelope) : pack capacity box [] = [] := by
  simp [pack, sortByFloat]

theorem mem_pack (hc : 0 < capacity) (box : β → Envelope) {xs g : List β}
    (hg : g ∈ pack capacity box xs) : g ≠ [] ∧ ∀ x ∈ g, x ∈ xs := by
  constructor
  · obtain ⟨ys, -, hys⟩ := List.mem_flatMap.mp hg
    exact List.ne_nil_of_length_pos (length_of_mem_chunks hys).1
  · intro x hx
    exact (flatten_pack_perm hc box xs).subset (List.mem_flatten_of_mem hg hx)

theorem div_up_lt {n : Nat} (hc : 2 ≤ capacity) (hn : 2 ≤ n) :
    (n + capacity - 1) / capacity < n := by
  rw [Nat.div_lt_iff_lt_mul (by omega)]
  obtain ⟨m, rfl⟩ := Nat.exists_eq_add_of_le hn
  have := Nat.mul_le_mul_left m hc
  rw [Nat.add_mul]
  omega

/-- Slices of whole runs are cut into as many runs as they were cut from. -/
theorem length_flatMap_chunks (hc : 0 < capacity) {slices : Nat} (hs : 0 < slices)
    (f : List β → List β) (hf : ∀ ys, (f ys).length = ys.length) (zs : List β) :
    ((chunks (slices * capacity) zs).flatMap fun ys => chunks capacity (f ys)).length =
      (zs.length + capacity - 1) / capacity := by
  have hslice : 0 < slices * capacity := Nat.mul_pos hs hc
  generalize hn : slices * capacity = slice at hslice
  fun_induction chunks slice zs with
  | case1 zs h ih =>
    rw [List.flatMap_cons, List.length_append, ih, length_chunks hc, hf, List.length_take,
      List.length_drop]
    rcases Nat.le_total slice zs.length with hle | hge
    · have hsplit : zs.length + capacity - 1 =
          zs.length - slice + capacity - 1 + capacity * slices := by
        rw [Nat.mul_comm capacity, hn]
        omega
      have hfull : slice + capacity - 1 = capacity - 1 + capacity * slices := by
        rw [Nat.mul_comm capacity, hn]
        omega
      rw [Nat.min_eq_left hle, hsplit, hfull, Nat.add_mul_div_left _ _ hc,
        Nat.add_mul_div_left _ _ hc, Nat.div_eq_of_lt (show capacity - 1 < capacity by omega)]
      omega
    · rw [Nat.min_eq_right hge, Nat.sub_eq_zero_of_le hge, Nat.zero_add,
        Nat.div_eq_of_lt (show capacity - 1 < capacity by omega), Nat.add_zero]
  | case2 zs h =>
    have hnil : zs = [] := by simpa [hslice] using h
    rw [hnil, List.flatMap_nil, List.length_nil, List.length_nil, Nat.zero_add,
      Nat.div_eq_of_lt (by omega)]

/-- Packing leaves as many groups as the capacity asks for, rounded up. -/
theorem length_pack (hc : 0 < capacity) (box : β → Envelope) (xs : List β) :
    (pack capacity box xs).length = (xs.length + capacity - 1) / capacity := by
  have hsort {f : β → Float} (ys : List β) : (sortByFloat f ys).length = ys.length :=
    (sortByFloat_perm f ys).length_eq
  rcases xs with _ | ⟨x, xs⟩
  · rw [pack_nil, List.length_nil, List.length_nil, Nat.zero_add, Nat.div_eq_of_lt (by omega)]
  · have hroot := sliceCount_pos
      (Nat.div_pos (show capacity ≤ (x :: xs).length + capacity - 1 by simp) hc)
    rw [pack, length_flatMap_chunks hc hroot _ hsort, hsort]

theorem length_pack_lt (hc : 2 ≤ capacity) (box : β → Envelope) {xs : List β}
    (hxs : 2 ≤ xs.length) :
    (pack capacity box xs).length < xs.length := by
  rw [length_pack (by omega)]
  exact div_up_lt hc hxs

end Pack

/-! ## Trees -/

namespace Node

variable {α : Type}

mutual

/-- The items of a tree, from left to right. -/
def items : Node α → List α
  | leaf _ as => as
  | branch _ ns => itemsAll ns

/-- The items of some trees. -/
def itemsAll : List (Node α) → List α
  | [] => []
  | n :: ns => items n ++ itemsAll ns

end

theorem itemsAll_eq (ns : List (Node α)) : itemsAll ns = ns.flatMap items := by
  induction ns with
  | nil => rfl
  | cons n ns ih => rw [itemsAll, ih, List.flatMap_cons]

variable [Spatial α] {e : Envelope} {n : Node α} {ns : List (Node α)}

theorem searchAll_eq (e : Envelope) (ns : List (Node α)) :
    searchAll e ns = ns.flatMap (search e) := by
  induction ns with
  | nil => rfl
  | cons n ns ih => rw [searchAll, ih, List.flatMap_cons]

/-- The box of every node covers what is below it. -/
inductive Boxed : Node α → Prop
  | leaf {b : Envelope} {as : List α} (h : ∀ a ∈ as, b.covers (Spatial.envelope a) = true) :
    Boxed (.leaf b as)
  | branch {b : Envelope} {ns : List (Node α)} (hbox : ∀ n ∈ ns, b.covers n.box = true)
    (hns : ∀ n ∈ ns, Boxed n) : Boxed (.branch b ns)

theorem Boxed.covers (h : n.Boxed) : ∀ a ∈ n.items, n.box.covers (Spatial.envelope a) = true := by
  induction h with
  | leaf h => exact h
  | branch hbox _ ih =>
    intro a ha
    rw [items, itemsAll_eq, List.mem_flatMap] at ha
    obtain ⟨m, hm, ha⟩ := ha
    exact covers_trans (hbox m hm) (ih m hm a ha)

/-- Nothing under a box that does not meet an envelope meets it. -/
theorem filter_eq_nil (he : e.Ordered) {b : Envelope} {as : List α} (hb : ¬ b.meets e = true)
    (h : ∀ a ∈ as, b.covers (Spatial.envelope a) = true) : as.filter (touches e) = [] := by
  rw [List.filter_eq_nil_iff]
  intro a ha hm
  exact hb (meets_of_covers (h a ha) he hm)

/-- A search gives the items that meet the envelope. -/
theorem search_eq (h : n.Boxed) (he : e.Ordered) : search e n = n.items.filter (touches e) := by
  induction h with
  | leaf h =>
    rw [search, items]
    split
    · rfl
    · next hb => exact (filter_eq_nil he hb h).symm
  | @branch b ns hbox hns ih =>
    rw [search]
    split
    · rw [searchAll_eq, items, itemsAll_eq, List.filter_flatMap]
      exact List.flatMap_congr fun m hm => ih m hm
    · next hb => exact (filter_eq_nil he hb (Boxed.branch hbox hns).covers).symm

theorem boxed_ofItems {as : List α} (hne : as ≠ [])
    (h : ∀ a ∈ as, (Spatial.envelope a).isProper = true) :
    (ofItems as).Boxed ∧ (ofItems as).box.Ordered := by
  have hh : IsHull (hullAll (as.map Spatial.envelope)) (as.map Spatial.envelope) := by
    refine isHull_hullAll (by simpa using hne) ?_
    intro c hc
    obtain ⟨a, ha, rfl⟩ := List.mem_map.mp hc
    exact ordered_of_isProper (h a ha)
  exact ⟨.leaf fun a ha => hh.covers _ (List.mem_map_of_mem ha), hh.ordered⟩

theorem boxed_ofChildren (hne : ns ≠ []) (h : ∀ m ∈ ns, m.Boxed ∧ m.box.Ordered) :
    (ofChildren ns).Boxed ∧ (ofChildren ns).box.Ordered := by
  have hh : IsHull (hullAll (ns.map box)) (ns.map box) := by
    refine isHull_hullAll (by simpa using hne) ?_
    intro c hc
    obtain ⟨m, hm, rfl⟩ := List.mem_map.mp hc
    exact (h m hm).2
  exact ⟨.branch (fun m hm => hh.covers _ (List.mem_map_of_mem hm)) fun m hm => (h m hm).1,
    hh.ordered⟩

/-- A level packed into branches. -/
theorem packed_level {capacity : Nat} (hc : 0 < capacity) (h : ∀ m ∈ ns, m.Boxed ∧ m.box.Ordered) :
    (∀ m ∈ (pack capacity box ns).map ofChildren, m.Boxed ∧ m.box.Ordered) ∧
      (((pack capacity box ns).map ofChildren).flatMap items).Perm (ns.flatMap items) := by
  constructor
  · intro m hm
    obtain ⟨g, hg, rfl⟩ := List.mem_map.mp hm
    obtain ⟨hne, hsub⟩ := mem_pack hc box hg
    exact boxed_ofChildren hne fun m hm => h m (hsub m hm)
  · have hitems : ((pack capacity box ns).map ofChildren).flatMap items =
        (pack capacity box ns).flatten.flatMap items := by
      rw [List.flatMap_map, List.flatten_eq_flatMap, List.flatMap_assoc]
      refine List.flatMap_congr ?_
      intro g _
      rw [ofChildren, items, itemsAll_eq]
      rfl
    rw [hitems]
    exact (flatten_pack_perm hc box ns).flatMap_right _

/-- What is packed into one tree is all there was. -/
theorem raise_spec {capacity : Nat} (hc : 2 ≤ capacity) (fuel : Nat) (hne : ns ≠ [])
    (hfuel : ns.length ≤ fuel + 1) (h : ∀ m ∈ ns, m.Boxed ∧ m.box.Ordered) :
    ∃ root, raise capacity fuel ns = some root ∧ root.Boxed ∧
      root.items.Perm (ns.flatMap items) := by
  induction fuel generalizing ns with
  | zero =>
    rcases ns with _ | ⟨n, _ | ⟨m, ns⟩⟩
    · exact absurd rfl hne
    · exact ⟨n, rfl, (h n (by simp)).1, by simp⟩
    · simp at hfuel
  | succ fuel ih =>
    rcases ns with _ | ⟨n, _ | ⟨m, ns⟩⟩
    · exact absurd rfl hne
    · exact ⟨n, rfl, (h n (by simp)).1, by simp⟩
    · have hlt : (pack capacity box (n :: m :: ns)).length < (n :: m :: ns).length :=
        length_pack_lt hc box (by simp)
      obtain ⟨hnext, hperm⟩ := packed_level (show 0 < capacity by omega) h
      have hnil : (pack capacity box (n :: m :: ns)).map ofChildren ≠ [] := by
        intro hnil
        rw [List.map_eq_nil_iff] at hnil
        have hflat := flatten_pack_perm (show 0 < capacity by omega) box (n :: m :: ns)
        rw [hnil] at hflat
        simpa using hflat.length_eq
      obtain ⟨root, hroot, hboxed, hitems⟩ := ih hnil (by rw [List.length_map]; omega) hnext
      exact ⟨root, hroot, hboxed, hitems.trans hperm⟩

/-- The tree of some items holds them, and finds those that meet an envelope. -/
theorem ofList?_spec {capacity : Nat} (hc : 2 ≤ capacity) {as : List α} (hne : as ≠ [])
    (h : ∀ a ∈ as, (Spatial.envelope a).isProper = true) :
    ∃ root, ofList? capacity as = some root ∧ root.Boxed ∧ root.items.Perm as := by
  have hpos : 0 < capacity := by omega
  have hleaves : ∀ m ∈ (pack capacity Spatial.envelope as).map ofItems,
      m.Boxed ∧ m.box.Ordered := by
    intro m hm
    obtain ⟨g, hg, rfl⟩ := List.mem_map.mp hm
    obtain ⟨hgne, hsub⟩ := mem_pack hpos Spatial.envelope hg
    exact boxed_ofItems hgne fun a ha => h a (hsub a ha)
  have hperm := flatten_pack_perm hpos Spatial.envelope as
  have hitems : ((pack capacity Spatial.envelope as).map ofItems).flatMap items =
      (pack capacity Spatial.envelope as).flatten := by
    rw [List.flatMap_map, List.flatMap_def]
    congr 1
    exact List.map_id'' (fun _ => rfl) _
  obtain ⟨root, hroot, hboxed, hri⟩ := raise_spec hc
    ((pack capacity Spatial.envelope as).map ofItems).length (by
      intro hnil
      rw [List.map_eq_nil_iff] at hnil
      rw [hnil] at hperm
      exact hne hperm.symm.eq_nil) (Nat.le_succ _) hleaves
  exact ⟨root, hroot, hboxed, hri.trans (hitems ▸ hperm)⟩

end Node

namespace PackedTree

variable {α : Type} [Spatial α] {t : PackedTree α} {e : Envelope}

/-- A tree that holds some items, in any order; there is no tree for none. -/
def Rooted : Option (Node α) → List α → Prop
  | none, as => as = []
  | some n, as => n.Boxed ∧ n.items.Perm as

/-- A packed tree that holds some items, in order of arrival: the first ones are in the tree. -/
structure Holds (t : PackedTree α) (as : List α) : Prop where
  capacity : 2 ≤ t.capacity
  items : t.items.toList = as
  packed : t.packed ≤ as.length
  root : Rooted t.root (as.take t.packed)

theorem holds_withCapacity (capacity : Nat) : (withCapacity capacity : PackedTree α).Holds [] :=
  ⟨Nat.le_max_right _ _, rfl, Nat.le_refl 0, rfl⟩

theorem Holds.insert {as : List α} (h : t.Holds as) (a : α) : (t.insert a).Holds (as ++ [a]) := by
  have hlen : t.packed ≤ (as ++ [a]).length :=
    h.packed.trans (by rw [List.length_append]; exact Nat.le_add_right _ _)
  refine ⟨h.capacity, by rw [PackedTree.insert, Array.toList_push, h.items], hlen, ?_⟩
  rw [PackedTree.insert, List.take_append_of_le_length h.packed]
  exact h.root

/-- Packing puts all items into the tree. -/
theorem Holds.build {as : List α} (h : t.Holds as)
    (has : ∀ a ∈ as, (Spatial.envelope a).isProper = true) : t.build.Holds as := by
  have hsize : t.items.size = as.length := by rw [← h.items, Array.length_toList]
  unfold PackedTree.build
  split
  · exact h
  · next hb =>
    have hne : as ≠ [] := by
      rintro rfl
      rw [isBuilt, hsize, Nat.le_zero.mp h.packed] at hb
      exact hb rfl
    obtain ⟨root, hroot, hboxed, hitems⟩ := Node.ofList?_spec h.capacity hne has
    refine ⟨h.capacity, h.items, hsize.le, ?_⟩
    simp only [h.items, hroot, hsize, List.take_length]
    exact ⟨hboxed, hitems⟩

/-- A query gives the items that meet the envelope, packed or not. -/
theorem Holds.query_perm {as : List α} (h : t.Holds as) (he : e.Ordered) :
    (t.query e).Perm (as.filter (touches e)) := by
  have hsplit : as.filter (touches e) =
      (as.take t.packed).filter (touches e) ++ (as.drop t.packed).filter (touches e) := by
    rw [← List.filter_append, List.take_append_drop]
  rw [query, pending, h.items, hsplit]
  refine List.Perm.append_right _ ?_
  have hroot := h.root
  cases hr : t.root with
  | none =>
    rw [hr] at hroot
    rw [show as.take t.packed = [] from hroot]
    exact .rfl
  | some n =>
    rw [hr] at hroot
    dsimp only
    rw [Node.search_eq hroot.1 he]
    exact hroot.2.filter _

end PackedTree

end PlanarJoin
