import Mathlib.Algebra.BigOperators.Group.Finset.Basic
import Mathlib.Algebra.Order.Floor.Div
import Mathlib.Data.Nat.Log
import Mathlib.Order.Bounds.Basic
import PlanarJoin.Proofs.Index.Exactness

/-!
# The shape of a packed tree

A packed tree is built level by level: the items are packed into leaves, the leaves into branches,
these into branches again until one node is left.  A level has as many nodes as the level below asks
for, rounded up, whatever the boxes are.  So the numbers of nodes, the depth and the rounds of the
loop depend on the number of items and on the capacity alone.

Packing looks at envelopes only, so the tree of some items is the image of a tree of numbered items,
in which every number stands in one leaf.

## Main definitions

* `Node.Packed`: a tree whose leaves all have the same depth and whose nodes are filled within the
  capacity.
* `Node.above`, `Node.level`: the nodes that a level is packed into, and the levels of some items.
* `Node.map`: a tree with other items at the same places.
* `PackedTree.Grown`: a packed tree whose tree is the one of its first items.

## Main results

* `Node.length_level`: how many nodes a level has.
* `Node.ofList?_shape`: the loop over the levels ends with the tree, and what that looks like.
* `Node.ofList?_map`: packing looks at envelopes only.
* `Index.shape_after_build`: what completing a packed tree ends with, after any calls.
-/

namespace PlanarJoin

/-! ## Rounding up -/

theorem ceilDiv_ceilDiv {a b : Nat} (ha : 0 < a) (hb : 0 < b) (n : Nat) :
    (n ⌈/⌉ a) ⌈/⌉ b = n ⌈/⌉ (a * b) := by
  refine eq_of_forall_ge_iff fun m => ?_
  rw [ceilDiv_le_iff_le_mul hb, ceilDiv_le_iff_le_mul ha, ceilDiv_le_iff_le_mul (Nat.mul_pos ha hb),
    Nat.mul_assoc]

/-- A slice is no longer than a machine word can say, for a number of entries that fits in memory:
it is one run, or less than twice the entries, or the runs are short. -/
theorem sliceCount_mul_lt {m capacity : Nat} (hc : 0 < capacity) (hcap : capacity < 2 ^ 64)
    (hm : m ≤ 2 ^ 63) : sliceCount (m ⌈/⌉ capacity) * capacity < 2 ^ 64 := by
  have hdiv : m ⌈/⌉ capacity * capacity ≤ m + capacity - 1 := Nat.div_mul_le_self _ _
  have hruns : m ⌈/⌉ capacity ≤ m := by
    rw [ceilDiv_le_iff_le_mul hc]
    exact Nat.le_mul_of_pos_left m hc
  rcases Nat.lt_or_ge (m ⌈/⌉ capacity) (2 ^ 52) with hfew | hmany
  · have hroot := (isLeast_sliceCount hfew).2 (Nat.le_mul_self _)
    rcases Nat.lt_or_ge capacity m with hlt | hle
    · have := Nat.mul_le_mul_right capacity hroot
      omega
    · have hone : m ⌈/⌉ capacity ≤ 1 := (ceilDiv_le_iff_le_mul hc).mpr (by rwa [Nat.mul_one])
      have := Nat.mul_le_mul_right capacity (hroot.trans hone)
      omega
  · have hshort := (Nat.mul_le_mul_right capacity hmany).trans hdiv
    have hroot : sliceCount (m ⌈/⌉ capacity) ≤ 2 ^ 32 := sliceCount_le (by omega)
    have := Nat.mul_le_mul_right capacity hroot
    omega

theorem isLeast_depth {capacity : Nat} (hc : 2 ≤ capacity) (n : Nat) :
    IsLeast {d | 1 ≤ d ∧ n ≤ capacity ^ d} (max 1 (Nat.clog capacity n)) := by
  refine ⟨⟨Nat.le_max_left _ _, ?_⟩, ?_⟩
  · exact (Nat.clog_le_iff_le_pow (by omega)).mp (Nat.le_max_right _ _)
  · rintro d ⟨hpos, hle⟩
    exact Nat.max_le.mpr ⟨hpos, (Nat.clog_le_iff_le_pow (by omega)).mpr hle⟩

/-! ## Packing what stands for something else -/

section Map

variable {α β : Type}

theorem chunks_map (f : α → β) (n : Nat) (xs : List α) :
    chunks n (xs.map f) = (chunks n xs).map (List.map f) := by
  fun_induction chunks n xs with
  | case1 xs h ih =>
    have hne : xs.map f ≠ [] := by simpa using List.ne_nil_of_length_pos h.2
    rw [chunks_of_pos h.1 hne, ← List.map_take, ← List.map_drop, ih, List.map_cons]
  | case2 xs h => rw [chunks, dif_neg (by simpa using h), List.map_nil]

theorem sortByFloat_map (f : α → β) (g : β → Float) (xs : List α) :
    sortByFloat g (xs.map f) = (sortByFloat (fun x => g (f x)) xs).map f :=
  (List.map_mergeSort (f := f) fun _ _ _ _ => rfl).symm

theorem pack_map (f : α → β) (capacity : Nat) (box : β → Envelope) (xs : List α) :
    pack capacity box (xs.map f) = (pack capacity (fun x => box (f x)) xs).map (List.map f) := by
  rw [pack, sortByFloat_map, chunks_map, List.flatMap_map, List.length_map, pack, List.map_flatMap]
  refine List.flatMap_congr fun ys _ => ?_
  rw [sortByFloat_map, chunks_map]

end Map

theorem length_of_mem_pack {β : Type} {capacity : Nat} {box : β → Envelope} {xs g : List β}
    (hg : g ∈ pack capacity box xs) : 1 ≤ g.length ∧ g.length ≤ capacity := by
  obtain ⟨ys, -, hys⟩ := List.mem_flatMap.mp hg
  exact length_of_mem_chunks hys

/-- An item with its number stands where the item does. -/
instance {α : Type} [Spatial α] : Spatial (Entry α) where
  envelope e := Spatial.envelope e.item
  shape e := Spatial.shape e.item

namespace Node

variable {α β : Type}

mutual

/-- A tree with other items at the same places. -/
def map (f : α → β) : Node α → Node β
  | leaf b as => leaf b (as.map f)
  | branch b ns => branch b (mapAll f ns)

/-- Trees with other items at the same places. -/
def mapAll (f : α → β) : List (Node α) → List (Node β)
  | [] => []
  | n :: ns => map f n :: mapAll f ns

end

theorem mapAll_eq (f : α → β) (ns : List (Node α)) : mapAll f ns = ns.map (map f) := by
  induction ns with
  | nil => rfl
  | cons n ns ih => rw [mapAll, ih, List.map_cons]

@[simp]
theorem box_map (f : α → β) (n : Node α) : (n.map f).box = n.box := by
  cases n <;> simp only [map, box]

theorem ofChildren_map (f : α → β) (ns : List (Node α)) :
    ofChildren (ns.map (map f)) = (ofChildren ns).map f := by
  simp only [ofChildren, map, mapAll_eq, List.map_map, Function.comp_def, box_map]

/-- The nodes that a level is packed into. -/
def above (capacity : Nat) (ns : List (Node α)) : List (Node α) :=
  (pack capacity box ns).map ofChildren

theorem above_map (f : α → β) (capacity : Nat) (ns : List (Node α)) :
    above capacity (ns.map (map f)) = (above capacity ns).map (map f) := by
  simp only [above, pack_map, box_map, List.map_map, Function.comp_def, ofChildren_map]

theorem raise_map (f : α → β) (capacity fuel : Nat) (ns : List (Node α)) :
    raise capacity fuel (ns.map (map f)) = (raise capacity fuel ns).map (map f) := by
  induction fuel generalizing ns with
  | zero => exact List.head?_map
  | succ fuel ih =>
    rcases ns with _ | ⟨n, _ | ⟨m, ns⟩⟩
    · rfl
    · rfl
    · exact (congrArg (raise capacity fuel) (above_map f capacity (n :: m :: ns))).trans (ih _)

section Natural

variable [Spatial α]

@[simp]
theorem ofList?_nil (capacity : Nat) : ofList? capacity ([] : List α) = none := by
  rw [ofList?, pack_nil]
  rfl

/-- The tree of some items is built by their envelopes alone. -/
theorem ofList?_map [Spatial β] {f : α → β} (hf : ∀ a, Spatial.envelope (f a) = Spatial.envelope a)
    (capacity : Nat) (as : List α) :
    ofList? capacity (as.map f) = (ofList? capacity as).map (map f) := by
  have hleaf (bs : List α) : ofItems (bs.map f) = (ofItems bs).map f := by
    simp only [ofItems, map, List.map_map, Function.comp_def, hf]
  have hleaves : (pack capacity Spatial.envelope (as.map f)).map ofItems =
      ((pack capacity Spatial.envelope as).map ofItems).map (map f) := by
    simp only [pack_map, hf, List.map_map, Function.comp_def, hleaf]
  rw [ofList?, hleaves, List.length_map, raise_map]
  rfl

end Natural

/-! ## Levels -/

variable {capacity d : Nat} {ns : List (Node α)}

theorem depthAll_eq (hne : ns ≠ []) (h : ∀ n ∈ ns, n.depth = d) : depthAll ns = d := by
  induction ns with
  | nil => exact absurd rfl hne
  | cons n ns ih =>
    rw [depthAll, h n List.mem_cons_self]
    rcases eq_or_ne ns [] with rfl | hns
    · exact Nat.max_zero d
    · rw [ih hns fun m hm => h m (List.mem_cons_of_mem n hm), Nat.max_self]

theorem countAll_eq (ns : List (Node α)) : countAll ns = (ns.map count).sum := by
  induction ns with
  | nil => rfl
  | cons n ns ih => rw [countAll, ih, List.map_cons, List.sum_cons]

theorem length_above (hc : 0 < capacity) (ns : List (Node α)) :
    (above capacity ns).length = ns.length ⌈/⌉ capacity := by
  rw [above, List.length_map, length_pack hc]
  rfl

/-- Packing a level adds one node for every group. -/
theorem countAll_above (hc : 0 < capacity) (ns : List (Node α)) :
    countAll (above capacity ns) = countAll ns + (above capacity ns).length := by
  have hgroups (gs : List (List (Node α))) :
      countAll (gs.map ofChildren) = countAll gs.flatten + gs.length := by
    induction gs with
    | nil => rfl
    | cons g gs ih =>
      rw [List.map_cons, countAll, ih, List.flatten_cons, countAll_eq (g ++ _), List.map_append,
        List.sum_append, ← countAll_eq, ← countAll_eq, ofChildren, count, List.length_cons]
      omega
  have hperm := ((flatten_pack_perm hc box ns).map count).sum_eq
  rw [above, hgroups, List.length_map, countAll_eq, countAll_eq, hperm]

/-- While a level has two nodes at least it is packed again; the loop ends with the one that is
left, whatever the bound on its rounds. -/
theorem raise_eq {root : Node α} {e : Nat} (hroot : (above capacity)^[e] ns = [root])
    (hlong : ∀ k < e, 2 ≤ ((above capacity)^[k] ns).length) {fuel : Nat} (hfuel : e ≤ fuel) :
    raise capacity fuel ns = some root := by
  induction e generalizing ns fuel with
  | zero =>
    obtain rfl : ns = [root] := hroot
    cases fuel <;> rfl
  | succ e ih =>
    obtain ⟨fuel, rfl⟩ := Nat.exists_eq_succ_of_ne_zero (show fuel ≠ 0 by omega)
    have hnext : raise capacity fuel (above capacity ns) = some root :=
      ih hroot (fun k hk => hlong (k + 1) (by omega)) (by omega)
    have htwo := hlong 0 (by omega)
    rcases ns with _ | ⟨n, _ | ⟨m, ns⟩⟩
    · simp at htwo
    · simp at htwo
    · exact hnext

variable [Spatial α] {as : List α}

/-- A tree of a depth: every leaf is that deep; a leaf holds one item at least and as many as the
capacity at most, a branch as many trees; and every box is the hull of what is right below. -/
inductive Packed (capacity : Nat) : Nat → Node α → Prop
  | leaf {as : List α} (hpos : 1 ≤ as.length) (hle : as.length ≤ capacity) :
    Packed capacity 1 (.leaf (.hullAll (as.map Spatial.envelope)) as)
  | branch {d : Nat} {ns : List (Node α)} (hpos : 1 ≤ ns.length) (hle : ns.length ≤ capacity)
    (hns : ∀ n ∈ ns, Packed capacity d n) :
    Packed capacity (d + 1) (.branch (.hullAll (ns.map box)) ns)

theorem Packed.depth_eq {n : Node α} (h : n.Packed capacity d) : n.depth = d := by
  induction h with
  | leaf => rw [depth]
  | branch hpos _ _ ih => rw [depth, depthAll_eq (List.ne_nil_of_length_pos hpos) ih, Nat.add_comm]

theorem packed_above (hc : 0 < capacity) (h : ∀ n ∈ ns, n.Packed capacity d) :
    ∀ n ∈ above capacity ns, n.Packed capacity (d + 1) := by
  intro n hn
  obtain ⟨g, hg, rfl⟩ := List.mem_map.mp hn
  obtain ⟨hpos, hle⟩ := length_of_mem_pack hg
  exact .branch hpos hle fun m hm => h m ((mem_pack hc box hg).2 m hm)

/-- The levels of the tree of some items, from the leaves up. -/
def level (capacity : Nat) (as : List α) (k : Nat) : List (Node α) :=
  (above capacity)^[k] ((pack capacity Spatial.envelope as).map ofItems)

theorem level_succ (capacity : Nat) (as : List α) (k : Nat) :
    level capacity as (k + 1) = above capacity (level capacity as k) :=
  Function.iterate_succ_apply' _ _ _

theorem length_level (hc : 0 < capacity) (as : List α) (k : Nat) :
    (level capacity as k).length = as.length ⌈/⌉ capacity ^ (k + 1) := by
  induction k with
  | zero =>
    rw [level, Function.iterate_zero_apply, List.length_map, length_pack hc, Nat.zero_add,
      Nat.pow_one]
    rfl
  | succ k ih =>
    rw [level_succ, length_above hc, ih, ceilDiv_ceilDiv (Nat.pow_pos hc) hc, ← Nat.pow_succ]

/-- All trees of a level have the same depth. -/
theorem packed_of_mem_level (hc : 0 < capacity) (as : List α) (k : Nat) :
    ∀ n ∈ level capacity as k, n.Packed capacity (k + 1) := by
  induction k with
  | zero =>
    intro n hn
    obtain ⟨g, hg, rfl⟩ := List.mem_map.mp hn
    obtain ⟨hpos, hle⟩ := length_of_mem_pack hg
    exact .leaf hpos hle
  | succ k ih =>
    rw [level_succ]
    exact packed_above hc ih

/-- The trees of a level have as many nodes as there are on this level and below. -/
theorem countAll_level (hc : 0 < capacity) (as : List α) (k : Nat) :
    countAll (level capacity as k) =
      ∑ j ∈ Finset.range (k + 1), as.length ⌈/⌉ capacity ^ (j + 1) := by
  induction k with
  | zero =>
    have hleaves (gs : List (List α)) : countAll (gs.map ofItems) = gs.length := by
      rw [countAll_eq, List.map_map, List.map_congr_left (g := fun _ => 1) fun g _ => by
        rw [Function.comp_apply, ofItems, count], List.map_const', List.sum_replicate,
        smul_eq_mul, Nat.mul_one]
    rw [Finset.sum_range_one, ← length_level hc, level, Function.iterate_zero_apply, hleaves,
      List.length_map]
  | succ k ih =>
    rw [level_succ, countAll_above hc, ih, ← level_succ, length_level hc, ← Finset.sum_range_succ]

/-- Every round leaves fewer nodes. -/
theorem length_level_add_le (hc : 2 ≤ capacity) {e : Nat}
    (hlong : ∀ k < e, 2 ≤ (level capacity as k).length) :
    (level capacity as e).length + e ≤ (level capacity as 0).length := by
  induction e with
  | zero => exact Nat.le_refl _
  | succ e ih =>
    have hstep : (level capacity as (e + 1)).length < (level capacity as e).length := by
      rw [level_succ, above, List.length_map]
      exact length_pack_lt hc box (hlong e (Nat.lt_succ_self e))
    have := ih fun k hk => hlong k (Nat.lt_succ_of_lt hk)
    omega

/-- A level has one node left just when the capacity has become enough for all items. -/
theorem length_level_le_one_iff (hc : 0 < capacity) (k : Nat) :
    (level capacity as k).length ≤ 1 ↔ as.length ≤ capacity ^ (k + 1) := by
  rw [length_level hc, ceilDiv_le_iff_le_mul (Nat.pow_pos hc), Nat.mul_one]

/-- The loop packs a level again just while the capacity has not been enough. -/
theorem two_le_length_level_iff (hc : 2 ≤ capacity)
    (hd : IsLeast {d | 1 ≤ d ∧ as.length ≤ capacity ^ d} d) (k : Nat) :
    2 ≤ (level capacity as k).length ↔ k + 1 < d := by
  have hone : (level capacity as k).length ≤ 1 ↔ as.length ≤ capacity ^ (k + 1) :=
    length_level_le_one_iff (by omega) k
  constructor
  · intro htwo
    by_contra hge
    have hpow := Nat.pow_le_pow_right (show 0 < capacity by omega) (Nat.le_of_not_lt hge)
    have := hone.mpr (hd.1.2.trans hpow)
    omega
  · intro hlt
    by_contra hshort
    have hle : d ≤ k + 1 := hd.2 ⟨Nat.le_add_left 1 k, hone.mp (by omega)⟩
    omega

/-- How the loop over the levels of some items runs, and ends with a tree of some depth. -/
structure LevelsEnd (capacity : Nat) (as : List α) (d : Nat) (root : Node α) : Prop where
  /-- A level has as many nodes as rounding up makes them. -/
  length : ∀ k, (level capacity as k).length = as.length ⌈/⌉ capacity ^ (k + 1)
  /-- A level of two nodes at least is packed again; this happens below the depth. -/
  again : ∀ k, 2 ≤ (level capacity as k).length ↔ k + 1 < d
  /-- The node that is left is the tree. -/
  last : level capacity as (d - 1) = [root]
  /-- Any bound on the rounds that is not below that gives this tree. -/
  raise : ∀ fuel, d - 1 ≤ fuel → Node.raise capacity fuel (level capacity as 0) = some root

/-- The loop over the levels ends with the tree, whose depth is the least for which the capacity is
enough. -/
theorem ofList?_shape (hc : 2 ≤ capacity) (hne : as ≠ [])
    (hd : IsLeast {d | 1 ≤ d ∧ as.length ≤ capacity ^ d} d) :
    ∃ root, ofList? capacity as = some root ∧ root.Packed capacity d ∧
      root.count = ∑ j ∈ Finset.range d, as.length ⌈/⌉ capacity ^ (j + 1) ∧
      LevelsEnd capacity as d root := by
  have hpos : 0 < capacity := by omega
  have hlong := two_le_length_level_iff hc hd
  obtain ⟨⟨hd1, hdn⟩, -⟩ := hd
  obtain ⟨e, rfl⟩ := Nat.exists_eq_add_of_le' hd1
  have hone : (level capacity as e).length = 1 := by
    have hle := (length_level_le_one_iff hpos e).mpr hdn
    have hmany : ¬ (level capacity as e).length ≤ 0 := by
      rw [length_level hpos, ceilDiv_le_iff_le_mul (Nat.pow_pos hpos), Nat.mul_zero, Nat.le_zero,
        List.length_eq_zero_iff]
      exact hne
    omega
  obtain ⟨root, hroot⟩ := List.length_eq_one_iff.mp hone
  have hraise {fuel : Nat} (hfuel : e ≤ fuel) :
      raise capacity fuel (level capacity as 0) = some root :=
    raise_eq hroot (fun k hk => (hlong k).mpr (Nat.succ_lt_succ hk)) hfuel
  -- every round leaves fewer nodes, so as many rounds as there are leaves are enough
  have hrounds : e ≤ (level capacity as 0).length :=
    Nat.le_of_add_left_le (length_level_add_le hc fun k hk => (hlong k).mpr (Nat.succ_lt_succ hk))
  have hpacked : root.Packed capacity (e + 1) :=
    packed_of_mem_level hpos as e root (hroot ▸ List.mem_singleton_self root)
  refine ⟨root, hraise hrounds, hpacked, ?_, length_level hpos as, hlong, hroot,
    fun fuel => hraise⟩
  rw [← countAll_level hpos, hroot, countAll, countAll, Nat.add_zero]

/-- The tree of some items is the image of a tree in which every number stands in one leaf. -/
theorem exists_slots (hc : 2 ≤ capacity) (has : ∀ a ∈ as, (Spatial.envelope a).isProper = true)
    (hd : IsLeast {d | 1 ≤ d ∧ as.length ≤ capacity ^ d} d) {root : Node α}
    (hroot : ofList? capacity as = some root) :
    ∃ slots : Node (Entry α), root = slots.map (·.item) ∧
      slots.items.Perm (Store.numbered as) ∧ slots.Packed capacity d := by
  have hitems := Store.map_item_numbered as
  have hmap := ofList?_map (f := fun e : Entry α => e.item) (fun _ => rfl) capacity
    (Store.numbered as)
  rw [hitems, hroot] at hmap
  have hne : Store.numbered as ≠ [] := by
    intro hnil
    rw [hnil, ofList?_nil] at hmap
    cases hmap
  have hlen : as.length = (Store.numbered as).length := by
    rw [← List.length_map (fun e : Entry α => e.item), hitems]
  have hproper : ∀ e ∈ Store.numbered as, (Spatial.envelope e).isProper = true := by
    intro e he
    exact has e.item (hitems ▸ List.mem_map_of_mem he)
  rw [hlen] at hd
  obtain ⟨slots, hslots, hpacked, -⟩ := ofList?_shape hc hne hd
  obtain ⟨slots', hslots', -, hperm⟩ := ofList?_spec hc hne hproper
  obtain rfl : slots = slots' := Option.some.inj (hslots.symm.trans hslots')
  rw [hslots] at hmap
  exact ⟨slots, Option.some.inj hmap, hperm, hpacked⟩

end Node

/-! ## Histories -/

variable {α : Type} [Spatial α] {capacity : Nat}

namespace PackedTree

/-- A packed tree whose tree is the one of its first items. -/
structure Grown (n : Nat) (t : PackedTree α) : Prop where
  capacity : t.capacity = n
  packed : t.packed ≤ t.items.size
  root : t.root = Node.ofList? n (t.items.toList.take t.packed)

variable {t : PackedTree α}

theorem grown_withCapacity (hc : 2 ≤ capacity) :
    (withCapacity capacity : PackedTree α).Grown capacity :=
  ⟨Nat.max_eq_left hc, Nat.le_refl 0, (Node.ofList?_nil capacity).symm⟩

theorem Grown.insert (h : t.Grown capacity) (a : α) : (t.insert a).Grown capacity := by
  refine ⟨h.capacity, ?_, ?_⟩
  · rw [PackedTree.insert, Array.size_push]
    exact Nat.le_succ_of_le h.packed
  · rw [PackedTree.insert, Array.toList_push, List.take_append_of_le_length h.packed]
    exact h.root

/-- Packing leaves the tree of all items and nothing pending. -/
theorem Grown.root_build (h : t.Grown capacity) :
    t.build.root = Node.ofList? capacity t.items.toList ∧ t.build.packed = t.items.size := by
  unfold PackedTree.build
  split
  · next hb =>
    have hall : t.packed = t.items.size := by rwa [isBuilt, beq_iff_eq] at hb
    refine ⟨?_, hall⟩
    rw [h.root, hall, ← Array.length_toList, List.take_length]
  · rw [h.capacity]
    exact ⟨rfl, rfl⟩

theorem items_build (t : PackedTree α) : t.build.items = t.items := by
  unfold PackedTree.build
  split <;> rfl

theorem capacity_build (t : PackedTree α) : t.build.capacity = t.capacity := by
  unfold PackedTree.build
  split <;> rfl

theorem Grown.build (h : t.Grown capacity) : t.build.Grown capacity := by
  obtain ⟨hroot, hpacked⟩ := h.root_build
  refine ⟨t.capacity_build.trans h.capacity, ?_, ?_⟩
  · rw [t.items_build, hpacked]
  · rw [hroot, t.items_build, hpacked, ← Array.length_toList, List.take_length]

end PackedTree

namespace Index

theorem grown_call {i : Index α} {t : PackedTree α} (hi : i.store = .packed t)
    (ht : t.Grown capacity) (c : Call α) :
    ∃ t', (i.call c).store = .packed t' ∧ t'.Grown capacity := by
  cases c with
  | insert a =>
    rw [call, Index.insert]
    split
    · exact ⟨t.insert a, by rw [hi, Store.insert], ht.insert a⟩
    · exact ⟨t, hi, ht⟩
  | build => exact ⟨t.build, by rw [call, Index.build, hi, Store.build], ht.build⟩

theorem grown_after {i : Index α} {t : PackedTree α} (hi : i.store = .packed t)
    (ht : t.Grown capacity) (calls : List (Call α)) :
    ∃ t', (i.after calls).store = .packed t' ∧ t'.Grown capacity := by
  unfold after
  induction calls generalizing i t with
  | nil => exact ⟨t, hi, ht⟩
  | cons c calls ih =>
    obtain ⟨t', hi', ht'⟩ := grown_call hi ht c
    exact ih hi' ht'

/-- What completing a packed tree ends with, after any calls that inserted an item with a proper
envelope.  The tree is the image of one of numbered items.  Every number stands in one leaf; all
leaves have the least depth for which the capacity is enough; nodes are filled within the capacity
and have the hulls of what is right below as their boxes; and the reported numbers are these.  The
loop over the levels ends with this tree, and no slice is longer than a machine word can say, for as
many items as fit in memory. -/
theorem shape_after_build (hc : 2 ≤ capacity) {calls : List (Call α)} {as : List α}
    (has : (inserted calls).filter hasProperEnvelope = as) (hne : as ≠ []) :
    ∃ (t : PackedTree α) (slots : Node (Entry α)) (root : Node α) (d : Nat),
      ((emptyPacked capacity).after (calls ++ [.build])).store = .packed t ∧ t.pending = [] ∧
      t.root = some root ∧ root = slots.map (·.item) ∧
      slots.items.Perm (Store.numbered as) ∧ slots.Packed capacity d ∧
      IsLeast {d | 1 ≤ d ∧ as.length ≤ capacity ^ d} d ∧
      ((emptyPacked capacity).after (calls ++ [.build])).stats.depth = d ∧
      ((emptyPacked capacity).after (calls ++ [.build])).stats.nodes =
        ∑ j ∈ Finset.range d, as.length ⌈/⌉ capacity ^ (j + 1) ∧
      Node.LevelsEnd capacity as d root ∧
      (capacity < 2 ^ 64 → as.length ≤ 2 ^ 63 → ∀ m ≤ as.length,
        sliceCount (m ⌈/⌉ capacity) * capacity < 2 ^ 64) := by
  obtain ⟨t, hstore, ht⟩ := grown_after (i := emptyPacked capacity) rfl
    (PackedTree.grown_withCapacity hc) calls
  have hholds : ((emptyPacked capacity).after calls).Holds as := by
    have hempty : (emptyPacked capacity : Index α).Holds [] :=
      holds_ofStore (PackedTree.holds_withCapacity capacity)
    have hafter := holds_after hempty calls
    rwa [List.nil_append, has] at hafter
  have hitems : t.items.toList = as := by
    have hheld := hholds.store
    rw [hstore] at hheld
    exact hheld.items
  -- the last call packs all items anew, unless the tree is theirs already
  obtain ⟨hroot, hall⟩ := ht.root_build
  rw [hitems] at hroot
  have hd := isLeast_depth hc as.length
  generalize max 1 (Nat.clog capacity as.length) = d at hd
  obtain ⟨root, hof, hpacked, hcount, hlevels⟩ := Node.ofList?_shape hc hne hd
  obtain ⟨slots, hmap, hperm, hslots⟩ := Node.exists_slots hc hholds.proper hd hof
  have hbuilt : ((emptyPacked capacity).after (calls ++ [.build])).store = .packed t.build := by
    rw [after_append_build, build, hstore, Store.build]
  have htree : t.build.root = some root := hroot.trans hof
  refine ⟨t.build, slots, root, d, hbuilt, ?_, htree, hmap, hperm, hslots, hd, ?_, ?_, hlevels, ?_⟩
  · rw [PackedTree.pending, t.items_build, hall, ← Array.length_toList, List.drop_length]
  · rw [stats, hbuilt, Store.depth, PackedTree.depth, htree]
    exact hpacked.depth_eq
  · rw [stats, hbuilt, Store.nodeCount, PackedTree.nodeCount, htree]
    exact hcount
  · intro hcap hmem m hm
    exact sliceCount_mul_lt (by omega) hcap (hm.trans hmem)

/-- Three items in nodes for two: two leaves below the root. -/
theorem shape_after_build_scattered :
    ((emptyPacked 2).after (scattered ++ [.build])).stats.depth = 2 ∧
    ((emptyPacked 2).after (scattered ++ [.build])).stats.nodes = 3 := by
  have hlen : ((inserted scattered).filter hasProperEnvelope).length = 3 := by decide +kernel
  have hne : (inserted scattered).filter hasProperEnvelope ≠ [] := by
    intro hnil
    rw [hnil] at hlen
    cases hlen
  obtain ⟨-, -, -, d, -, -, -, -, -, -, hd, hdepth, hnodes, -⟩ :=
    shape_after_build (show 2 ≤ 2 by decide) rfl hne
  rw [hlen] at hd hnodes
  have htwo : d ≤ 2 := hd.2 ⟨by decide, by decide⟩
  have henough : 3 ≤ 2 ^ d := hd.1.2
  obtain rfl : d = 2 := by
    interval_cases d
    · exact absurd henough (by decide)
    · exact absurd henough (by decide)
    · rfl
  exact ⟨hdepth, hnodes⟩

end Index

end PlanarJoin
