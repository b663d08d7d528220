import PlanarJoin.Proofs.Nearest.Smallest

/-!
# Heaps keep the farthest on top

No entry of a heap is farther than its parent.  A rising entry is out of order only with its parent,
and a sinking entry only with its children; each swap moves the place where order is missing, and
where the move ends nothing is missing.

## Main definitions

* `Heap.Measured`: every entry has a distance that is a number.
* `Heap.InOrder`: no entry is farther than its parent.
* `Heap.Rising`, `Heap.Sinking`: order is missing only above, or only below, one position.

## Main results

* `Heap.inOrder_rise`, `Heap.rising_sink`: how the moves end.
* `Heap.WellFormed.push`, `Heap.WellFormed.pop?`: adding an entry, and taking the farthest away.
* `Heap.pairwise_ascending`: the entries come out with the nearest first.
-/

namespace PlanarJoin

open Binary64

variable {α : Type}

namespace Heap

variable {es : Array (Ranked α)} {i : Nat}

/-- The rank of the distance at a position. -/
def keyAt (es : Array (Ranked α)) (i : Nat) : Int :=
  rank (distanceAt es i)

/-- Every entry has a distance that is a number. -/
def Measured (es : Array (Ranked α)) : Prop :=
  ∀ e ∈ es.toList, e.distance.isNaN = false

/-- No entry is farther than its parent. -/
def InOrder (es : Array (Ranked α)) : Prop :=
  ∀ j, 0 < j → j < es.size → keyAt es j ≤ keyAt es ((j - 1) / 2)

/-- Only the entry at `i` may be farther than its parent, and its children are not farther than that
parent. -/
structure Rising (es : Array (Ranked α)) (i : Nat) : Prop where
  off : ∀ j, 0 < j → j < es.size → j ≠ i → keyAt es j ≤ keyAt es ((j - 1) / 2)
  grand : 0 < i → ∀ j, 0 < j → j < es.size → (j - 1) / 2 = i → keyAt es j ≤ keyAt es ((i - 1) / 2)

/-- Only the entry at `i` may be out of order with its parent and its children, and its children are
not farther than its parent. -/
structure Sinking (es : Array (Ranked α)) (i : Nat) : Prop where
  off : ∀ j, 0 < j → j < es.size → j ≠ i → (j - 1) / 2 ≠ i → keyAt es j ≤ keyAt es ((j - 1) / 2)
  grand : 0 < i → ∀ j, 0 < j → j < es.size → (j - 1) / 2 = i → keyAt es j ≤ keyAt es ((i - 1) / 2)

/-! ## Keys -/

theorem keyAt_of_getElem? {e : Ranked α} (h : es[i]? = some e) : keyAt es i = e.key := by
  rw [keyAt, distanceAt, h, Ranked.key]

theorem Measured.distanceAt (h : Measured es) (i : Nat) : (distanceAt es i).isNaN = false := by
  unfold Heap.distanceAt
  split
  · next e he => exact h e (Array.mem_toList_iff.mpr (Array.mem_of_getElem? he))
  · decide

theorem Measured.perm {fs : Array (Ranked α)} (h : Measured es) (hp : fs.Perm es) : Measured fs :=
  fun e he => h e (hp.toList.mem_iff.mp he)

theorem Measured.lt_iff (h : Measured es) (i j : Nat) :
    Heap.distanceAt es i < Heap.distanceAt es j ↔ keyAt es i < keyAt es j := by
  rw [Binary64.lt_iff]
  exact ⟨fun hlt => hlt.2.2, fun hlt => ⟨h.distanceAt i, h.distanceAt j, hlt⟩⟩

theorem Measured.le_iff (h : Measured es) (i j : Nat) :
    Heap.distanceAt es i ≤ Heap.distanceAt es j ↔ keyAt es i ≤ keyAt es j := by
  rw [Binary64.le_iff]
  exact ⟨fun hle => hle.2.2, fun hle => ⟨h.distanceAt i, h.distanceAt j, hle⟩⟩

theorem keyAt_swapIfInBounds {j : Nat} (hi : i < es.size) (hj : j < es.size) (m : Nat) :
    keyAt (es.swapIfInBounds i j) m =
      if m = i then keyAt es j else if m = j then keyAt es i else keyAt es m := by
  have hget : (es.swapIfInBounds i j)[m]? =
      if m = i then es[j]? else if m = j then es[i]? else es[m]? := by
    rw [Array.swapIfInBounds_def, dif_pos hi, dif_pos hj, Array.getElem?_swap,
      Array.getElem?_eq_getElem hi, Array.getElem?_eq_getElem hj]
    split_ifs <;> grind
  simp only [keyAt, distanceAt, hget]
  split_ifs <;> rfl

/-! ## The moves -/

/-- A swap with the parent moves the missing order up. -/
theorem Rising.swap (h : Rising es i) (hi : 0 < i) (hsize : i < es.size)
    (hlt : keyAt es ((i - 1) / 2) < keyAt es i) :
    Rising (es.swapIfInBounds i ((i - 1) / 2)) ((i - 1) / 2) := by
  have hkey := keyAt_swapIfInBounds hsize (show (i - 1) / 2 < es.size by omega)
  constructor
  · intro j hj hjs hne
    rw [Array.size_swapIfInBounds] at hjs
    rw [hkey, hkey]
    by_cases hji : j = i
    · subst hji
      rw [if_pos rfl, if_neg (by omega), if_pos rfl]
      exact hlt.le
    · rw [if_neg hji, if_neg hne]
      have hoff := h.off j hj hjs hji
      by_cases hpi : (j - 1) / 2 = i
      · rw [if_pos hpi]
        exact h.grand hi j hj hjs hpi
      · rw [if_neg hpi]
        by_cases hpp : (j - 1) / 2 = (i - 1) / 2
        · rw [if_pos hpp]
          rw [hpp] at hoff
          omega
        · rw [if_neg hpp]
          exact hoff
  · intro hp j hj hjs hparent
    rw [Array.size_swapIfInBounds] at hjs
    have hgrand := h.off ((i - 1) / 2) hp (by omega) (by omega)
    rw [hkey, hkey, if_neg (show ((i - 1) / 2 - 1) / 2 ≠ i by omega),
      if_neg (show ((i - 1) / 2 - 1) / 2 ≠ (i - 1) / 2 by omega)]
    by_cases hji : j = i
    · rw [if_pos hji]
      exact hgrand
    · rw [if_neg hji, if_neg (by omega)]
      have hoff := h.off j hj hjs hji
      rw [hparent] at hoff
      exact hoff.trans hgrand

/-- Where rising ends, nothing is out of order. -/
theorem inOrder_rise (hm : Measured es) (h : Rising es i) (hi : i < es.size) :
    InOrder (rise es i) := by
  fun_induction rise es i with
  | case1 es i hpos parent hlt ih =>
    have hkey := (hm.lt_iff _ _).mp hlt
    refine ih (hm.perm (swapIfInBounds_perm es i parent)) (h.swap hpos hi hkey) ?_
    rw [Array.size_swapIfInBounds]
    omega
  | case2 es i hpos parent hge =>
    intro j hj hjs
    by_cases hji : j = i
    · subst hji
      have hkey := (not_congr (hm.lt_iff _ _)).mp hge
      exact not_lt.mp hkey
    · exact h.off j hj hjs hji
  | case3 es i hpos =>
    intro j hj hjs
    exact h.off j hj hjs (by omega)

/-- A swap with the farther child moves the missing order down. -/
theorem Sinking.swap {c : Nat} (h : Sinking es i) (hc : 0 < c) (hcs : c < es.size)
    (hparent : (c - 1) / 2 = i)
    (hmax : ∀ j, 0 < j → j < es.size → (j - 1) / 2 = i → keyAt es j ≤ keyAt es c) :
    Sinking (es.swapIfInBounds i c) c := by
  have hkey := keyAt_swapIfInBounds (show i < es.size by omega) hcs
  constructor
  · intro j hj hjs hne hpc
    rw [Array.size_swapIfInBounds] at hjs
    rw [hkey, hkey, if_neg hne, if_neg hpc]
    by_cases hji : j = i
    · subst hji
      rw [if_pos rfl, if_neg (by omega)]
      exact h.grand hj c hc hcs hparent
    · rw [if_neg hji]
      by_cases hpi : (j - 1) / 2 = i
      · rw [if_pos hpi]
        exact hmax j hj hjs hpi
      · rw [if_neg hpi]
        exact h.off j hj hjs hji hpi
  · intro _ j hj hjs hpj
    rw [Array.size_swapIfInBounds] at hjs
    rw [hkey, hkey, if_neg (show j ≠ i by omega), if_neg (show j ≠ c by omega), if_pos hparent]
    have hoff := h.off j hj hjs (by omega) (by omega)
    rw [hpj] at hoff
    exact hoff

/-- At a position without children only the order above can be missing. -/
theorem Sinking.rising (h : Sinking es i) (hleaf : es.size ≤ 2 * i + 1) : Rising es i where
  off j hj hjs hne := h.off j hj hjs hne (by omega)
  grand _ j hj hjs hp := absurd hp (by omega)

/-- Where sinking ends, the entry can only be too far for its parent. -/
theorem rising_sink (hm : Measured es) (h : Sinking es i) (hi : i < es.size) :
    Rising (sink es i).1 (sink es i).2 ∧ (sink es i).2 < (sink es i).1.size := by
  fun_induction sink es i with
  | case1 es i left hlt child ih =>
    have hleft : left = 2 * i + 1 := rfl
    have hchild : child = left + 1 ∧ keyAt es left ≤ keyAt es child ∨
        child = left ∧ keyAt es (left + 1) ≤ keyAt es child := by
      by_cases hle : distanceAt es left ≤ distanceAt es (left + 1)
      · refine .inl ⟨if_pos hle, ?_⟩
        rw [show child = left + 1 from if_pos hle]
        exact (hm.le_iff _ _).mp hle
      · refine .inr ⟨if_neg hle, ?_⟩
        rw [show child = left from if_neg hle]
        exact (not_le.mp ((not_congr (hm.le_iff _ _)).mp hle)).le
    have hsize : child < es.size := by omega
    refine ih (hm.perm (swapIfInBounds_perm es i child)) (h.swap (by omega) hsize (by omega) ?_) ?_
    · intro j hj hjs hp
      obtain rfl | rfl : j = left ∨ j = left + 1 := by omega
      · rcases hchild with ⟨-, hle⟩ | ⟨heq, -⟩
        · exact hle
        · rw [heq]
      · rcases hchild with ⟨heq, -⟩ | ⟨-, hle⟩
        · rw [heq]
        · exact hle
    · rw [Array.size_swapIfInBounds]
      exact hsize
  | case2 es i left hnot hlast =>
    have hleft : left = 2 * i + 1 := rfl
    refine ⟨(h.swap (by omega) (by omega) (by omega) ?_).rising ?_, ?_⟩
    · intro j hj hjs hp
      obtain rfl : j = left := by omega
      exact le_rfl
    · rw [Array.size_swapIfInBounds]
      omega
    · rw [Array.size_swapIfInBounds]
      omega
  | case3 es i left hnot hlast => exact ⟨h.rising (by omega), hi⟩

/-! ## Heaps -/

/-- A heap whose entries have distances that are numbers, the farthest on top. -/
structure WellFormed (h : Heap α) : Prop where
  measured : Measured h.entries
  inOrder : InOrder h.entries

theorem wellFormed_empty : (empty : Heap α).WellFormed :=
  ⟨fun _ he => absurd he List.not_mem_nil, fun _ _ hj => absurd hj (Nat.not_lt_zero _)⟩

variable {h rest : Heap α} {e : Ranked α}

/-- No position has a greater key than the first. -/
theorem InOrder.keyAt_le (h : InOrder es) : ∀ i < es.size, keyAt es i ≤ keyAt es 0 := by
  -- along the parents, which have smaller positions
  intro i
  induction i using Nat.strongRecOn with
  | ind i ih =>
    intro hi
    rcases Nat.eq_zero_or_pos i with rfl | hpos
    · exact le_rfl
    · exact (h i hpos hi).trans (ih ((i - 1) / 2) (by omega) (by omega))

theorem WellFormed.key_le_top (hw : h.WellFormed) {far : Ranked α}
    (ht : h.top? = some far) : ∀ x ∈ h.entries.toList, x.key ≤ far.key := by
  intro x hx
  obtain ⟨i, hi⟩ := List.getElem?_of_mem hx
  rw [Array.getElem?_toList] at hi
  have hsize := (Array.getElem?_eq_some_iff.mp hi).1
  have hle := hw.inOrder.keyAt_le i hsize
  rw [keyAt_of_getElem? hi, keyAt_of_getElem? ht] at hle
  exact hle

/-- Adding an entry keeps the farthest on top. -/
theorem WellFormed.push (hw : h.WellFormed) (he : e.distance.isNaN = false) :
    (h.push e).WellFormed := by
  have hm : Measured (h.entries.push e) := by
    intro x hx
    rw [Array.toList_push, List.mem_append, List.mem_singleton] at hx
    rcases hx with hx | rfl
    · exact hw.measured x hx
    · exact he
  have hkey {j : Nat} (hj : j < h.entries.size) :
      keyAt (h.entries.push e) j = keyAt h.entries j := by
    rw [keyAt, distanceAt, Array.getElem?_push_lt hj, ← Array.getElem?_eq_getElem hj]
    rfl
  have hr : Rising (h.entries.push e) h.entries.size := by
    constructor
    · intro j hj hjs hne
      rw [Array.size_push] at hjs
      rw [hkey (by omega), hkey (by omega)]
      exact hw.inOrder j hj (by omega)
    · intro _ j hj hjs hp
      rw [Array.size_push] at hjs
      omega
  exact ⟨hm.perm (rise_perm _ _), inOrder_rise hm hr (by rw [Array.size_push]; omega)⟩

/-- What is popped was on top. -/
theorem top?_of_pop? (hp : h.pop? = some (e, rest)) : h.top? = some e := by
  unfold Heap.pop? at hp
  split at hp
  · cases hp
  · next last hb =>
    dsimp only at hp
    rw [Array.back?_eq_getElem?] at hb
    have hlt := (Array.getElem?_eq_some_iff.mp hb).1
    split at hp
    · next hnone =>
      obtain ⟨rfl, -⟩ := Prod.mk.inj (Option.some.inj hp)
      rw [Array.getElem?_eq_none_iff, Array.size_pop] at hnone
      rw [top?, ← hb]
      congr 1
      omega
    · next top htop =>
      obtain ⟨rfl, -⟩ := Prod.mk.inj (Option.some.inj hp)
      rw [Array.getElem?_pop] at htop
      split at htop
      · exact htop
      · cases htop

/-- Taking the top entry away takes just this entry away. -/
theorem pop_perm (ht : h.top? = some e) : (e :: h.pop.entries.toList).Perm h.entries.toList := by
  cases hp : h.pop? with
  | none =>
    have hzero := (pop?_eq_none_iff h).mp hp
    rw [top?, Array.getElem?_eq_none_iff.mpr (show h.entries.size ≤ 0 from hzero.le)] at ht
    cases ht
  | some popped =>
    obtain rfl : e = popped.1 := Option.some.inj (ht.symm.trans (top?_of_pop? hp))
    rw [pop, hp]
    exact pop?_perm hp

/-- With another entry on top, order is missing at most below it. -/
theorem sinking_set (ho : InOrder es) (last : Ranked α) :
    Sinking (es.pop.setIfInBounds 0 last) 0 := by
  have hkey {j : Nat} (hj : 0 < j) (hjs : j < es.size - 1) :
      keyAt (es.pop.setIfInBounds 0 last) j = keyAt es j := by
    rw [keyAt, distanceAt, Array.getElem?_setIfInBounds_ne (by omega), Array.getElem?_pop,
      if_pos hjs]
    rfl
  constructor
  · intro j hj hjs _ hp
    rw [Array.size_setIfInBounds, Array.size_pop] at hjs
    rw [hkey hj hjs, hkey (by omega) (by omega)]
    exact ho j hj (by omega)
  · intro h0
    exact absurd h0 (Nat.lt_irrefl 0)

theorem Measured.set {last : Ranked α} (hm : Measured es) (hlast : last.distance.isNaN = false) :
    Measured (es.pop.setIfInBounds 0 last) := by
  intro x hx
  rw [Array.toList_setIfInBounds, Array.toList_pop] at hx
  rcases List.mem_or_eq_of_mem_set hx with hx | rfl
  · exact hm x ((List.dropLast_sublist _).mem hx)
  · exact hlast

/-- Taking the top entry away keeps the farthest on top, and leaves nothing farther. -/
theorem WellFormed.pop? (hw : h.WellFormed) (hp : h.pop? = some (e, rest)) :
    rest.WellFormed ∧ ∀ x ∈ rest.entries.toList, x.key ≤ e.key := by
  have hperm := pop?_perm hp
  have hmeasured : Measured rest.entries :=
    fun x hx => hw.measured x (hperm.mem_iff.mp (List.mem_cons_of_mem e hx))
  refine ⟨⟨hmeasured, ?_⟩, fun x hx =>
    hw.key_le_top (top?_of_pop? hp) x (hperm.mem_iff.mp (List.mem_cons_of_mem e hx))⟩
  unfold Heap.pop? at hp
  split at hp
  · cases hp
  · next last hb =>
    dsimp only at hp
    split at hp
    · next hnone =>
      obtain ⟨-, rfl⟩ := Prod.mk.inj (Option.some.inj hp)
      rw [Array.getElem?_eq_none_iff] at hnone
      intro j hj hjs
      exact absurd (hjs.trans_le hnone) (Nat.not_lt_zero j)
    · next top htop =>
      obtain ⟨-, rfl⟩ := Prod.mk.inj (Option.some.inj hp)
      have hlast : last.distance.isNaN = false :=
        hw.measured last (Array.mem_toList_iff.mpr (Array.mem_of_back? hb))
      have hm := hw.measured.set hlast
      have hpos : 0 < (h.entries.pop.setIfInBounds 0 last).size := by
        rw [Array.size_setIfInBounds]
        exact (Array.getElem?_eq_some_iff.mp htop).1
      -- the last entry sinks from the top to the bottom, and rises from where it ends
      obtain ⟨hr, hi⟩ := rising_sink hm (sinking_set hw.inOrder last) hpos
      exact inOrder_rise (hm.perm (sink_perm _ _)) hr hi

/-- Entries are popped in descending order. -/
theorem popAll_spec {n : Nat} (hw : h.WellFormed) (hn : h.size ≤ n) :
    (popAll n h).Perm h.entries.toList ∧ (popAll n h).Pairwise fun a b => b.key ≤ a.key := by
  induction n generalizing h with
  | zero =>
    have hnil : h.entries.toList = [] := List.eq_nil_of_length_eq_zero (Nat.le_zero.mp hn)
    rw [hnil]
    exact ⟨.rfl, .nil⟩
  | succ n ih =>
    rw [popAll]
    cases hp : h.pop? with
    | none =>
      have hnil : h.entries.toList = [] :=
        List.eq_nil_of_length_eq_zero ((pop?_eq_none_iff h).mp hp)
      rw [hnil]
      exact ⟨.rfl, .nil⟩
    | some popped =>
      obtain ⟨e, rest⟩ := popped
      have hperm := pop?_perm hp
      obtain ⟨hrest, hmax⟩ := hw.pop? hp
      have hsize : rest.size ≤ n := by
        have hlen := hperm.length_eq
        rw [List.length_cons, Array.length_toList, Array.length_toList] at hlen
        unfold size at hn ⊢
        omega
      obtain ⟨hall, hdesc⟩ := ih hrest hsize
      refine ⟨(hall.cons e).trans hperm, List.pairwise_cons.mpr ⟨?_, hdesc⟩⟩
      intro x hx
      exact hmax x (hall.mem_iff.mp hx)

/-- The entries of a heap come out with the nearest first. -/
theorem pairwise_ascending (hw : h.WellFormed) :
    h.ascending.Perm h.entries.toList ∧ h.ascending.Pairwise (·.key ≤ ·.key) := by
  obtain ⟨hperm, hdesc⟩ := popAll_spec hw le_rfl
  exact ⟨(List.reverse_perm _).trans hperm, List.pairwise_reverse.mpr hdesc⟩

end Heap

end PlanarJoin
