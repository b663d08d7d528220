import Mathlib.Data.List.Perm.Basic
import PlanarJoin.Index.Quadrants
import PlanarJoin.Proofs.Envelope.Order

/-!
# Trees of quadrants find what they hold

An item goes down only into a quadrant that covers it, so a quadrant that does not meet an envelope
holds nothing that does.  The root holds also what reaches outside of it, and is always searched.

## Main definitions

* `Quadrant.items`: all items of a tree.
* `Quadrant.Nested`: the quadrants of every box cover what they hold.
* `Quadrant.Takes`: a way of adding an item that keeps the others.

## Main results

* `Quadrant.search_eq`: a search gives the items that meet the envelope.
* `Quadrant.takes_add`: adding an item to a tree adds just this item.
-/

namespace PlanarJoin

open Envelope

namespace Quadrant

variable {α : Type}

/-- All items of a tree. -/
def items : Quadrant α → List α
  | whole _ as => as
  | cut _ as ul ur ll lr => as ++ (ul.items ++ (ur.items ++ (ll.items ++ lr.items)))

variable [Spatial α] {q ul ur ll lr : Quadrant α} {a : α} {e : Envelope}

/-- The box covers all items. -/
def Encloses (q : Quadrant α) : Prop :=
  ∀ a ∈ q.items, q.covers a = true

/-- The quadrants of every box cover what they hold. -/
def Nested : Quadrant α → Prop
  | whole _ _ => True
  | cut _ _ ul ur ll lr =>
    ((ul.Encloses ∧ ul.Nested) ∧ ur.Encloses ∧ ur.Nested) ∧
      (ll.Encloses ∧ ll.Nested) ∧ lr.Encloses ∧ lr.Nested

/-! ## Searching -/

theorem search_quadrant (hq : q.Encloses) (he : e.Ordered)
    (hs : search e q = q.items.filter (touches e)) :
    (if q.bounds.meets e then search e q else []) = q.items.filter (touches e) := by
  split
  · exact hs
  · next hb =>
    symm
    rw [List.filter_eq_nil_iff]
    intro a ha hm
    exact hb (meets_of_covers (hq a ha) he hm)

/-- A search gives the items that meet the envelope. -/
theorem search_eq (h : q.Nested) (he : e.Ordered) : search e q = q.items.filter (touches e) := by
  induction q with
  | whole b as => rfl
  | cut b as ul ur ll lr ihul ihur ihll ihlr =>
    obtain ⟨⟨hul, hur⟩, hll, hlr⟩ := h
    rw [search, search_quadrant hul.1 he (ihul hul.2), search_quadrant hur.1 he (ihur hur.2),
      search_quadrant hll.1 he (ihll hll.2), search_quadrant hlr.1 he (ihlr hlr.2), items]
    simp only [List.filter_append]

/-! ## Adding items -/

/-- A way of adding an item that keeps the others and the box. -/
def Takes (add : Quadrant α → α → Quadrant α) : Prop :=
  ∀ q a, q.Nested → (add q a).Nested ∧ (add q a).items.Perm (a :: q.items) ∧
    (add q a).bounds = q.bounds

omit [Spatial α] in
theorem items_hold (q : Quadrant α) (a : α) : (q.hold a).items.Perm (a :: q.items) := by
  cases q with
  | whole b as => exact List.perm_append_singleton a as
  | cut b as ul ur ll lr =>
    simp only [hold, items, List.append_assoc, List.singleton_append]
    exact List.perm_middle

theorem takes_hold : Takes (hold : Quadrant α → α → Quadrant α) := by
  intro q a hq
  refine ⟨?_, items_hold q a, ?_⟩
  · cases q with
    | whole b as => trivial
    | cut b as ul ur ll lr => exact hq
  · cases q <;> rfl

omit [Spatial α] in
theorem perm_within {xs ys : List α} (h : xs.Perm (a :: ys)) (l r : List α) :
    (l ++ (xs ++ r)).Perm (a :: (l ++ (ys ++ r))) :=
  ((h.append_right r).append_left l).trans List.perm_middle

/-- A quadrant that covers an item still covers all its items when it has taken it. -/
theorem Takes.encloses {add : Quadrant α → α → Quadrant α} (h : Takes add)
    (hq : q.Encloses ∧ q.Nested) (ha : q.covers a = true) :
    (add q a).Encloses ∧ (add q a).Nested := by
  obtain ⟨hn, hperm, hb⟩ := h q a hq.2
  refine ⟨?_, hn⟩
  intro c hc
  rw [covers, hb]
  rcases List.mem_cons.mp (hperm.subset hc) with rfl | hc
  · exact ha
  · exact hq.1 c hc

/-- Handing an item to a quadrant adds just this item. -/
theorem takes_place {add : Quadrant α → α → Quadrant α} (h : Takes add) : Takes (place add) := by
  intro q a hq
  cases q with
  | whole b as => exact ⟨trivial, List.perm_append_singleton a as, rfl⟩
  | cut b as ul ur ll lr =>
    obtain ⟨⟨hul, hur⟩, hll, hlr⟩ := hq
    unfold place
    dsimp only
    split
    · next hc =>
      refine ⟨⟨⟨h.encloses hul hc, hur⟩, hll, hlr⟩, ?_, rfl⟩
      exact perm_within (h ul a hul.2).2.1 as _
    · split
      · next hc =>
        refine ⟨⟨⟨hul, h.encloses hur hc⟩, hll, hlr⟩, ?_, rfl⟩
        simpa only [items, List.append_assoc] using
          perm_within (h ur a hur.2).2.1 (as ++ ul.items) (ll.items ++ lr.items)
      · split
        · next hc =>
          refine ⟨⟨⟨hul, hur⟩, h.encloses hll hc, hlr⟩, ?_, rfl⟩
          simpa only [items, List.append_assoc] using
            perm_within (h ll a hll.2).2.1 (as ++ (ul.items ++ ur.items)) lr.items
        · split
          · next hc =>
            refine ⟨⟨⟨hul, hur⟩, hll, h.encloses hlr hc⟩, ?_, rfl⟩
            simpa only [items, List.append_assoc, List.append_nil] using
              perm_within (h lr a hlr.2).2.1 (as ++ (ul.items ++ (ur.items ++ ll.items))) []
          · exact ⟨⟨⟨hul, hur⟩, hll, hlr⟩, items_hold (cut b as ul ur ll lr) a, rfl⟩

theorem Takes.foldl {add : Quadrant α → α → Quadrant α} (h : Takes add) (as : List α)
    (hq : q.Nested) : (as.foldl add q).Nested ∧ (as.foldl add q).items.Perm (as ++ q.items) ∧
      (as.foldl add q).bounds = q.bounds := by
  induction as generalizing q with
  | nil => exact ⟨hq, .rfl, rfl⟩
  | cons a as ih =>
    obtain ⟨hn, hperm, hb⟩ := h q a hq
    obtain ⟨hn', hperm', hb'⟩ := ih hn
    exact ⟨hn', hperm'.trans ((hperm.append_left as).trans List.perm_middle), hb'.trans hb⟩

theorem nested_quarter (b : Envelope) :
    (quarter b : Quadrant α).Nested ∧ (quarter b : Quadrant α).items = [] := by
  have hempty (c : Envelope) :
      (whole c [] : Quadrant α).Encloses ∧ (whole c [] : Quadrant α).Nested :=
    ⟨fun a ha => absurd ha List.not_mem_nil, trivial⟩
  exact ⟨⟨⟨hempty _, hempty _⟩, hempty _, hempty _⟩, rfl⟩

/-- Inserting an item adds just this item, however often the box may be cut. -/
theorem takes_insert (cuts : Nat) : Takes (insert cuts : Quadrant α → α → Quadrant α) := by
  induction cuts with
  | zero =>
    intro q a hq
    rw [insert]
    exact takes_hold q a hq
  | succ cuts ih =>
    intro q a hq
    cases q with
    | whole b as =>
      rw [insert]
      split
      · obtain ⟨hn, hitems⟩ := @nested_quarter α _ b
        obtain ⟨hn', hperm, hb⟩ := (takes_place ih).foldl (as ++ [a]) hn
        rw [hitems, List.append_nil] at hperm
        exact ⟨hn', hperm.trans (List.perm_append_singleton a as), hb⟩
      · exact ⟨trivial, List.perm_append_singleton a as, rfl⟩
    | cut b as ul ur ll lr =>
      rw [insert]
      · exact takes_place ih _ a hq
      · rintro _ _ ⟨⟩

theorem takes_add : Takes (add : Quadrant α → α → Quadrant α) := by
  intro q a hq
  rw [add]
  split
  · exact takes_insert maxCuts q a hq
  · exact takes_hold q a hq

end Quadrant

end PlanarJoin
