import PlanarJoin.Proofs.Index.Exactness
import PlanarJoin.Proofs.Index.Shape

/-!
# How boxes are cut into quadrants

A box is cut when it holds too much, but no deeper than a greatest depth.  Afterwards it holds only
what crosses the borders between its quadrants, and every quadrant on the way down to an item covers
it.  The top also holds what reaches outside of it, and this counts for nothing: it may be more than
the threshold, and a quadrant whose border has overflowed may cover it.

To add an item is to add others again and again, as a box that is cut hands on all that it holds.
This ends because each box that is cut lies deeper than the one before.

## Main definitions

* `Quadrant.quadrants`, `Quadrant.Leads`, `Quadrant.bottom`: ways down a tree.
* `Quadrant.Settled`: boxes are cut where they hold too much, and only there.
* `Quadrant.WellCut`: what holds of the box at the end of a way down.
* `Quadrant.Adds`: how an item is added, call by call, without a bound on the calls.
* `Quadrant.map`: a tree with other items at the same places.

## Main results

* `Quadrant.settled_insert`, `Quadrant.settled_add`: adding an item keeps a tree settled.
* `Quadrant.wellCut_bottom`: a settled tree is well cut along every way down.
* `Quadrant.adds_insert`, `Quadrant.Adds.unique`: adding an item to a settled tree ends, with one
  result.
* `Quadrant.add_map`: adding looks at envelopes only.
* `Index.cuts_after`: what a tree of quadrants looks like after any calls.
-/

namespace PlanarJoin

namespace Quadrant

variable {α β : Type}

/-! ## Ways down -/

/-- The quadrants of a box; there are none if it is whole. -/
def quadrants : Quadrant α → List (Quadrant α)
  | whole _ _ => []
  | cut _ _ ul ur ll lr => [ul, ur, ll, lr]

/-- A way down from the top: each box is a quadrant of the one before. -/
def Leads : Quadrant α → List (Quadrant α) → Prop
  | _, [] => True
  | q, c :: path => c ∈ q.quadrants ∧ c.Leads path

/-- The box at the end of a way down. -/
def bottom : Quadrant α → List (Quadrant α) → Quadrant α
  | q, [] => q
  | _, c :: path => c.bottom path

theorem mem_items_of_mem_held {q : Quadrant α} {a : α} (h : a ∈ q.held) : a ∈ q.items := by
  cases q with
  | whole b as => exact h
  | cut b as ul ur ll lr => exact List.mem_append_left _ h

theorem mem_items_of_quadrant {q c : Quadrant α} {a : α} (hc : c ∈ q.quadrants)
    (ha : a ∈ c.items) : a ∈ q.items := by
  cases q with
  | whole b as => cases hc
  | cut b as ul ur ll lr =>
    simp only [quadrants, List.mem_cons, List.not_mem_nil, or_false] at hc
    simp only [items, List.mem_append]
    rcases hc with rfl | rfl | rfl | rfl
    · exact .inr (.inl ha)
    · exact .inr (.inr (.inl ha))
    · exact .inr (.inr (.inr (.inl ha)))
    · exact .inr (.inr (.inr (.inr ha)))

theorem mem_items_of_bottom {q : Quadrant α} {path : List (Quadrant α)} (h : q.Leads path) {a : α}
    (ha : a ∈ (q.bottom path).items) : a ∈ q.items := by
  induction path generalizing q with
  | nil => exact ha
  | cons c path ih => exact mem_items_of_quadrant h.1 (ih h.2 ha)

variable [Spatial α] [Spatial β] {p : α → Bool} {cuts : Nat} {q : Quadrant α} {a : α}

/-- The quadrants of a nested box cover what they hold, and are nested themselves. -/
theorem Nested.of_quadrant (h : q.Nested) {c : Quadrant α} (hc : c ∈ q.quadrants) :
    c.Encloses ∧ c.Nested := by
  cases q with
  | whole b as => cases hc
  | cut b as ul ur ll lr =>
    obtain ⟨⟨hul, hur⟩, hll, hlr⟩ := h
    simp only [quadrants, List.mem_cons, List.not_mem_nil, or_false] at hc
    rcases hc with rfl | rfl | rfl | rfl <;> assumption

/-! ## Where boxes are cut -/

/-- A box that may be cut `cuts` more times is cut where it holds too much, and only there.  A whole
one that may be cut holds no more than the threshold; a cut one holds what crosses the borders.  At
the top only the items with a property count. -/
def Settled : (α → Bool) → Nat → Quadrant α → Prop
  | _, 0, whole _ _ => True
  | _, 0, cut _ _ _ _ _ _ => False
  | p, _ + 1, whole _ as => (as.filter p).length ≤ threshold
  | p, cuts + 1, cut _ as ul ur ll lr =>
    (∀ a ∈ as, p a = true → ∀ c ∈ [ul, ur, ll, lr], c.covers a = false) ∧
      (Settled (fun _ => true) cuts ul ∧ Settled (fun _ => true) cuts ur) ∧
        Settled (fun _ => true) cuts ll ∧ Settled (fun _ => true) cuts lr

theorem settled_whole_nil (p : α → Bool) (cuts : Nat) (b : Envelope) :
    Settled p cuts (whole b []) := by
  cases cuts with
  | zero => trivial
  | succ cuts => exact Nat.zero_le _

/-- A box just cut holds nothing, and neither do its quadrants. -/
theorem settled_quarter (p : α → Bool) (cuts : Nat) (b : Envelope) :
    Settled p (cuts + 1) (quarter b) :=
  ⟨fun _ ha => absurd ha List.not_mem_nil,
    ⟨settled_whole_nil _ _ _, settled_whole_nil _ _ _⟩, settled_whole_nil _ _ _,
    settled_whole_nil _ _ _⟩

/-- What does not count may be held at the top. -/
theorem Settled.hold (h : Settled p cuts q) (ha : p a = false) : Settled p cuts (q.hold a) := by
  cases q with
  | whole b as =>
    cases cuts with
    | zero => trivial
    | succ cuts =>
      change ((as ++ [a]).filter p).length ≤ threshold
      rw [List.filter_append, List.filter_cons_of_neg (by rw [ha]; exact Bool.false_ne_true),
        List.filter_nil, List.append_nil]
      exact h
  | cut b as ul ur ll lr =>
    cases cuts with
    | zero => exact h
    | succ cuts =>
      refine ⟨?_, h.2⟩
      intro c hc hp
      rcases List.mem_append.mp hc with hc | hc
      · exact h.1 c hc hp
      · obtain rfl := List.mem_singleton.mp hc
        rw [ha] at hp
        cases hp

/-- What becomes of a quadrant when an item is handed on: nothing, or it takes the item. -/
def Handed (add : Quadrant α → α → Quadrant α) (a : α) (c c' : Quadrant α) : Prop :=
  c' = c ∨ c.covers a = true ∧ c' = add c a

/-- An item is handed on to quadrants that cover it, or held if there are none. -/
theorem place_cases (add : Quadrant α → α → Quadrant α) (b : Envelope) (as : List α)
    (ul ur ll lr : Quadrant α) (a : α) :
    (∃ ul' ur' ll' lr', place add (cut b as ul ur ll lr) a = cut b as ul' ur' ll' lr' ∧
      (Handed add a ul ul' ∧ Handed add a ur ur') ∧ Handed add a ll ll' ∧ Handed add a lr lr') ∨
    place add (cut b as ul ur ll lr) a = cut b (as ++ [a]) ul ur ll lr ∧
      ∀ c ∈ [ul, ur, ll, lr], c.covers a = false := by
  have hsame (c : Quadrant α) : Handed add a c c := .inl rfl
  unfold place
  dsimp only
  split
  · next h =>
    exact .inl ⟨_, _, _, _, rfl, ⟨.inr ⟨h, rfl⟩, hsame ur⟩, hsame ll, hsame lr⟩
  · next hul =>
    split
    · next h =>
      exact .inl ⟨_, _, _, _, rfl, ⟨hsame ul, .inr ⟨h, rfl⟩⟩, hsame ll, hsame lr⟩
    · next hur =>
      split
      · next h =>
        exact .inl ⟨_, _, _, _, rfl, ⟨hsame ul, hsame ur⟩, .inr ⟨h, rfl⟩, hsame lr⟩
      · next hll =>
        split
        · next h =>
          exact .inl ⟨_, _, _, _, rfl, ⟨hsame ul, hsame ur⟩, hsame ll, .inr ⟨h, rfl⟩⟩
        · next hlr =>
          refine .inr ⟨rfl, ?_⟩
          simp only [List.mem_cons, List.not_mem_nil, or_false, forall_eq_or_imp, forall_eq]
          exact ⟨eq_false_of_ne_true hul, eq_false_of_ne_true hur, eq_false_of_ne_true hll,
            eq_false_of_ne_true hlr⟩

/-- A way of adding an item that keeps boxes settled, whatever counts at the top, and where they
are. -/
def Settles (cuts : Nat) (add : Quadrant α → α → Quadrant α) : Prop :=
  ∀ p q a, Settled p cuts q → Settled p cuts (add q a) ∧ (add q a).bounds = q.bounds

theorem Settles.handed {add : Quadrant α → α → Quadrant α} (hadd : Settles cuts add)
    {c c' : Quadrant α} (h : Handed add a c c') (hc : Settled p cuts c) :
    Settled p cuts c' ∧ ∀ x, c'.covers x = c.covers x := by
  rcases h with rfl | ⟨-, rfl⟩
  · exact ⟨hc, fun _ => rfl⟩
  · obtain ⟨hs, hb⟩ := hadd p c a hc
    exact ⟨hs, fun x => by rw [covers, hb, ← covers]⟩

/-- Handing an item on keeps a cut box settled, if this keeps its quadrants so. -/
theorem Settled.place {add : Quadrant α → α → Quadrant α} (hadd : Settles cuts add)
    (h : Settled p (cuts + 1) q) (hq : q.quadrants ≠ []) (a : α) :
    Settled p (cuts + 1) (Quadrant.place add q a) ∧ (Quadrant.place add q a).bounds = q.bounds ∧
      (Quadrant.place add q a).quadrants ≠ [] := by
  cases q with
  | whole b as => exact absurd rfl hq
  | cut b as ul ur ll lr =>
    obtain ⟨hcross, ⟨hul, hur⟩, hll, hlr⟩ := h
    rcases place_cases add b as ul ur ll lr a with
      ⟨ul', ur', ll', lr', heq, ⟨h₁, h₂⟩, h₃, h₄⟩ | ⟨heq, hnone⟩ <;> rw [heq]
    · obtain ⟨s₁, c₁⟩ := hadd.handed h₁ hul
      obtain ⟨s₂, c₂⟩ := hadd.handed h₂ hur
      obtain ⟨s₃, c₃⟩ := hadd.handed h₃ hll
      obtain ⟨s₄, c₄⟩ := hadd.handed h₄ hlr
      refine ⟨⟨?_, ⟨s₁, s₂⟩, s₃, s₄⟩, rfl, List.cons_ne_nil _ _⟩
      simpa only [List.mem_cons, List.not_mem_nil, or_false, forall_eq_or_imp, forall_eq, c₁, c₂,
        c₃, c₄] using hcross
    · refine ⟨⟨?_, ⟨hul, hur⟩, hll, hlr⟩, rfl, List.cons_ne_nil _ _⟩
      intro x hx hp
      rcases List.mem_append.mp hx with hx | hx
      · exact hcross x hx hp
      · obtain rfl := List.mem_singleton.mp hx
        exact hnone

/-- So does handing on several. -/
theorem Settled.foldl_place {add : Quadrant α → α → Quadrant α} (hadd : Settles cuts add)
    (h : Settled p (cuts + 1) q) (hq : q.quadrants ≠ []) (as : List α) :
    Settled p (cuts + 1) (as.foldl (Quadrant.place add) q) ∧
      (as.foldl (Quadrant.place add) q).bounds = q.bounds := by
  induction as generalizing q with
  | nil => exact ⟨h, rfl⟩
  | cons a as ih =>
    obtain ⟨hs, hb, hne⟩ := h.place hadd hq a
    obtain ⟨hs', hb'⟩ := ih hs hne
    exact ⟨hs', hb'.trans hb⟩

/-- Inserting an item keeps a box settled. -/
theorem settled_insert (cuts : Nat) : Settles cuts (insert cuts : Quadrant α → α → Quadrant α) := by
  induction cuts with
  | zero =>
    intro p q a h
    cases q with
    | whole b as => exact ⟨trivial, rfl⟩
    | cut b as ul ur ll lr => exact h.elim
  | succ cuts ih =>
    intro p q a h
    cases q with
    | whole b as =>
      rw [insert]
      split
      · exact (settled_quarter p cuts b).foldl_place ih (List.cons_ne_nil _ _) (as ++ [a])
      · next hfew =>
        refine ⟨?_, rfl⟩
        have hlen := List.length_filter_le p (as ++ [a])
        rw [List.length_append, List.length_singleton] at hlen
        exact hlen.trans (Nat.le_of_not_lt hfew)
    | cut b as ul ur ll lr =>
      rw [insert]
      · obtain ⟨hs, hb, -⟩ := h.place ih (List.cons_ne_nil _ _) a
        exact ⟨hs, hb⟩
      · rintro _ _ ⟨⟩

/-- Adding an item keeps a tree settled, where only the items count that the top covers. -/
theorem settled_add {e : Envelope} (he : q.bounds = e)
    (h : Settled (fun a => e.covers (Spatial.envelope a)) maxCuts q) (a : α) :
    Settled (fun a => e.covers (Spatial.envelope a)) maxCuts (q.add a) ∧ (q.add a).bounds = e := by
  rw [add]
  split
  · obtain ⟨hs, hb⟩ := settled_insert maxCuts _ q a h
    exact ⟨hs, hb.trans he⟩
  · next hout =>
    refine ⟨h.hold ?_, ?_⟩
    · rw [← he]
      exact eq_false_of_ne_true hout
    · rw [← he]
      cases q <;> rfl

theorem settled_foldl_add {e : Envelope} (he : q.bounds = e)
    (h : Settled (fun a => e.covers (Spatial.envelope a)) maxCuts q) (as : List α) :
    Settled (fun a => e.covers (Spatial.envelope a)) maxCuts (as.foldl add q) := by
  induction as generalizing q with
  | nil => exact h
  | cons a as ih =>
    obtain ⟨hs, hb⟩ := settled_add he h a
    exact ih hb hs

/-! ## What a settled tree looks like -/

/-- A settled tree is no higher than it may be cut. -/
theorem Settled.height_le (h : Settled p cuts q) : q.height ≤ cuts + 1 := by
  induction q generalizing p cuts with
  | whole b as => exact Nat.le_add_left 1 cuts
  | cut b as ul ur ll lr ihul ihur ihll ihlr =>
    cases cuts with
    | zero => exact h.elim
    | succ cuts =>
      obtain ⟨-, ⟨hul, hur⟩, hll, hlr⟩ := h
      have := ihul hul
      have := ihur hur
      have := ihll hll
      have := ihlr hlr
      rw [height]
      omega

/-- The quadrants of a settled box are settled. -/
theorem Settled.of_quadrant (h : Settled p cuts q) {c : Quadrant α} (hc : c ∈ q.quadrants) :
    ∃ n, cuts = n + 1 ∧ Settled (fun _ => true) n c := by
  cases q with
  | whole b as => cases hc
  | cut b as ul ur ll lr =>
    cases cuts with
    | zero => exact h.elim
    | succ n =>
      obtain ⟨-, ⟨hul, hur⟩, hll, hlr⟩ := h
      simp only [quadrants, List.mem_cons, List.not_mem_nil, or_false] at hc
      refine ⟨n, rfl, ?_⟩
      rcases hc with rfl | rfl | rfl | rfl <;> assumption

/-- The box at the end of a way down is settled, where everything counts below the top. -/
theorem Settled.bottom (h : Settled p cuts q) {path : List (Quadrant α)} (hpath : q.Leads path) :
    path.length ≤ cuts ∧ Settled (if path = [] then p else fun _ => true) (cuts - path.length)
      (q.bottom path) := by
  induction path generalizing p cuts q with
  | nil => exact ⟨Nat.zero_le _, h⟩
  | cons c path ih =>
    obtain ⟨n, rfl, hc⟩ := h.of_quadrant hpath.1
    obtain ⟨hlen, hs⟩ := ih hc hpath.2
    rw [ite_self] at hs
    rw [List.length_cons, if_neg (List.cons_ne_nil _ _), Nat.add_sub_add_right]
    exact ⟨Nat.succ_le_succ hlen, hs⟩

theorem Nested.covers_bottom (h : q.Nested) {path : List (Quadrant α)} (hpath : q.Leads path)
    (ha : a ∈ (q.bottom path).items) {c : Quadrant α} (hc : c ∈ path) : c.covers a = true := by
  induction path generalizing q with
  | nil => cases hc
  | cons d path ih =>
    obtain ⟨hd, hn⟩ := h.of_quadrant hpath.1
    rcases List.mem_cons.mp hc with rfl | hc
    · exact hd a (mem_items_of_bottom hpath.2 ha)
    · exact ih hn hpath.2 ha hc

/-- Whether an item counts in the box at the end of a way down: at the top only if the tree covers
it. -/
def counts (extent : Envelope) (path : List (Quadrant α)) (a : α) : Bool :=
  !path.isEmpty || extent.covers (Spatial.envelope a)

/-- What holds of the box at the end of a way down. -/
structure WellCut (extent : Envelope) (path : List (Quadrant α)) (q : Quadrant α) : Prop where
  depth_le : path.length ≤ maxCuts
  /-- What it holds is covered by every quadrant on the way. -/
  covered : ∀ a ∈ q.held, ∀ c ∈ path, c.covers a = true
  /-- At the greatest depth it is not cut. -/
  whole_of_deepest : path.length = maxCuts → q.quadrants = []
  /-- If it is cut, none of its quadrants covers what it holds. -/
  crossing : ∀ a ∈ q.held, counts extent path a = true → ∀ c ∈ q.quadrants, c.covers a = false
  /-- If it is not cut but might be, it holds no more than the threshold. -/
  few : q.quadrants = [] → path.length < maxCuts →
    (q.held.filter (counts extent path)).length ≤ threshold

/-- A settled tree is well cut along every way down. -/
theorem wellCut_bottom {e : Envelope} (hn : q.Nested)
    (h : Settled (fun a => e.covers (Spatial.envelope a)) maxCuts q) {path : List (Quadrant α)}
    (hpath : q.Leads path) : WellCut e path (q.bottom path) := by
  obtain ⟨hlen, hs⟩ := h.bottom hpath
  have hcounts : (if path = [] then fun a => e.covers (Spatial.envelope a) else fun _ => true) =
      counts e path := by
    funext a
    cases path <;> rfl
  rw [hcounts] at hs
  have hcovered (a : α) (ha : a ∈ (q.bottom path).held) (c : Quadrant α) (hc : c ∈ path) :
      c.covers a = true :=
    hn.covers_bottom hpath (mem_items_of_mem_held ha) hc
  generalize q.bottom path = r at hs hcovered
  refine ⟨hlen, hcovered, ?_, ?_, ?_⟩
  · intro hdeep
    rw [hdeep, Nat.sub_self] at hs
    cases r with
    | whole b as => rfl
    | cut b as ul ur ll lr => exact hs.elim
  · intro a ha hcount c hc
    cases r with
    | whole b as => cases hc
    | cut b as ul ur ll lr =>
      cases hcuts : maxCuts - path.length with
      | zero =>
        rw [hcuts] at hs
        exact hs.elim
      | succ n =>
        rw [hcuts] at hs
        exact hs.1 a ha hcount c hc
  · intro hwhole hshort
    cases r with
    | whole b as =>
      obtain ⟨n, hcuts⟩ := Nat.exists_eq_add_of_lt hshort
      rw [hcuts, Nat.add_assoc, Nat.add_sub_cancel_left] at hs
      exact hs
    | cut b as ul ur ll lr => cases hwhole

/-! ## Adding an item ends -/

mutual

/-- How an item is added to a box that lies `depth` quadrants deep.  Each call that this makes is a
premise, and nothing bounds their number. -/
inductive Adds : Nat → Quadrant α → α → Quadrant α → Prop
  | stays {depth b as a} (h : as.length + 1 ≤ threshold ∨ maxCuts ≤ depth) :
    Adds depth (whole b as) a (whole b (as ++ [a]))
  | cuts {depth b as a q} (hfull : threshold < as.length + 1) (hdepth : depth < maxCuts)
    (h : AddsAll depth (quarter b) (as ++ [a]) q) : Adds depth (whole b as) a q
  | upperLeft {depth b as ul ur ll lr a q} (hul : ul.covers a = true)
    (h : Adds (depth + 1) ul a q) :
    Adds depth (cut b as ul ur ll lr) a (cut b as q ur ll lr)
  | upperRight {depth b as ul ur ll lr a q} (hul : ul.covers a = false) (hur : ur.covers a = true)
    (h : Adds (depth + 1) ur a q) :
    Adds depth (cut b as ul ur ll lr) a (cut b as ul q ll lr)
  | lowerLeft {depth b as ul ur ll lr a q} (hul : ul.covers a = false) (hur : ur.covers a = false)
    (hll : ll.covers a = true) (h : Adds (depth + 1) ll a q) :
    Adds depth (cut b as ul ur ll lr) a (cut b as ul ur q lr)
  | lowerRight {depth b as ul ur ll lr a q} (hul : ul.covers a = false) (hur : ur.covers a = false)
    (hll : ll.covers a = false) (hlr : lr.covers a = true) (h : Adds (depth + 1) lr a q) :
    Adds depth (cut b as ul ur ll lr) a (cut b as ul ur ll q)
  | crosses {depth b as ul ur ll lr a} (hul : ul.covers a = false) (hur : ur.covers a = false)
    (hll : ll.covers a = false) (hlr : lr.covers a = false) :
    Adds depth (cut b as ul ur ll lr) a (cut b (as ++ [a]) ul ur ll lr)

/-- How several items are added, one after the other. -/
inductive AddsAll : Nat → Quadrant α → List α → Quadrant α → Prop
  | nil {depth q} : AddsAll depth q [] q
  | cons {depth q a q' as q''} (h : Adds depth q a q') (h' : AddsAll depth q' as q'') :
    AddsAll depth q (a :: as) q''

end

mutual

/-- The calls leave no choice, so there is one way to add an item. -/
theorem Adds.unique {depth : Nat} {q r s : Quadrant α} {a : α} :
    Adds depth q a r → Adds depth q a s → r = s
  | .stays h, h' => by
    cases h' with
    | stays _ => rfl
    | cuts hfull hdepth _ => omega
  | .cuts hfull hdepth h, h' => by
    cases h' with
    | stays _ => omega
    | cuts _ _ h' => exact h.unique h'
  | .upperLeft hul h, h' => by
    cases h' with
    | upperLeft _ h' => rw [h.unique h']
    | _ => simp_all only [Bool.false_eq_true]
  | .upperRight hul hur h, h' => by
    cases h' with
    | upperRight _ _ h' => rw [h.unique h']
    | _ => simp_all only [Bool.true_eq_false, Bool.false_eq_true]
  | .lowerLeft hul hur hll h, h' => by
    cases h' with
    | lowerLeft _ _ _ h' => rw [h.unique h']
    | _ => simp_all only [Bool.true_eq_false, Bool.false_eq_true]
  | .lowerRight hul hur hll hlr h, h' => by
    cases h' with
    | lowerRight _ _ _ _ h' => rw [h.unique h']
    | _ => simp_all only [Bool.true_eq_false, Bool.false_eq_true]
  | .crosses hul hur hll hlr, h' => by
    cases h' with
    | crosses _ _ _ _ => rfl
    | _ => simp_all only [Bool.true_eq_false]

/-- Nor is there a choice in adding several. -/
theorem AddsAll.unique {depth : Nat} {q r s : Quadrant α} {as : List α} :
    AddsAll depth q as r → AddsAll depth q as s → r = s
  | .nil, h' => by
    cases h'
    rfl
  | .cons h hs, h' => by
    cases h' with
    | cons h' hs' =>
      obtain rfl := h.unique h'
      exact hs.unique hs'

end

/-- A way of adding an item to boxes of some depth that ends, if they are settled. -/
def Ends (depth cuts : Nat) (add : Quadrant α → α → Quadrant α) : Prop :=
  ∀ p q a, Settled p cuts q → Adds depth q a (add q a)

/-- Handing an item on ends if the quadrants take it in the end. -/
theorem Ends.place {depth : Nat} {add : Quadrant α → α → Quadrant α}
    (hadd : Ends (depth + 1) cuts add) (h : Settled p (cuts + 1) q) (hq : q.quadrants ≠ [])
    (a : α) : Adds depth q a (Quadrant.place add q a) := by
  cases q with
  | whole b as => exact absurd rfl hq
  | cut b as ul ur ll lr =>
    obtain ⟨-, ⟨hul, hur⟩, hll, hlr⟩ := h
    unfold Quadrant.place
    dsimp only
    split
    · next h₁ => exact .upperLeft h₁ (hadd _ _ a hul)
    · next h₁ =>
      split
      · next h₂ => exact .upperRight (eq_false_of_ne_true h₁) h₂ (hadd _ _ a hur)
      · next h₂ =>
        split
        · next h₃ =>
          exact .lowerLeft (eq_false_of_ne_true h₁) (eq_false_of_ne_true h₂) h₃ (hadd _ _ a hll)
        · next h₃ =>
          split
          · next h₄ =>
            exact .lowerRight (eq_false_of_ne_true h₁) (eq_false_of_ne_true h₂)
              (eq_false_of_ne_true h₃) h₄ (hadd _ _ a hlr)
          · next h₄ =>
            exact .crosses (eq_false_of_ne_true h₁) (eq_false_of_ne_true h₂)
              (eq_false_of_ne_true h₃) (eq_false_of_ne_true h₄)

theorem Ends.foldl_place {depth : Nat} {add : Quadrant α → α → Quadrant α}
    (hadd : Ends (depth + 1) cuts add) (hsettles : Settles cuts add)
    (h : Settled p (cuts + 1) q) (hq : q.quadrants ≠ []) (as : List α) :
    AddsAll depth q as (as.foldl (Quadrant.place add) q) := by
  induction as generalizing q with
  | nil => exact .nil
  | cons a as ih =>
    obtain ⟨hs, -, hne⟩ := h.place hsettles hq a
    exact .cons (hadd.place h hq a) (ih hs hne)

/-- Adding an item to a settled box ends: what is cut lies deeper each time. -/
theorem adds_insert {depth : Nat} (hdepth : depth + cuts = maxCuts) :
    Ends depth cuts (insert cuts : Quadrant α → α → Quadrant α) := by
  induction cuts generalizing depth with
  | zero =>
    intro p q a h
    cases q with
    | whole b as => exact .stays (.inr hdepth.ge)
    | cut b as ul ur ll lr => exact h.elim
  | succ cuts ih =>
    have hends : Ends (depth + 1) cuts (insert cuts : Quadrant α → α → Quadrant α) :=
      ih (by omega)
    intro p q a h
    cases q with
    | whole b as =>
      rw [insert]
      split
      · next hfull =>
        exact .cuts hfull (by omega) (hends.foldl_place (settled_insert cuts)
          (settled_quarter p cuts b) (List.cons_ne_nil _ _) (as ++ [a]))
      · next hfew => exact .stays (.inl (Nat.le_of_not_lt hfew))
    | cut b as ul ur ll lr =>
      rw [insert]
      · exact hends.place h (List.cons_ne_nil _ _) a
      · rintro _ _ ⟨⟩

/-! ## Items in their places -/

/-- A tree with other items at the same places. -/
def map (f : α → β) : Quadrant α → Quadrant β
  | whole b as => whole b (as.map f)
  | cut b as ul ur ll lr => cut b (as.map f) (ul.map f) (ur.map f) (ll.map f) (lr.map f)

omit [Spatial α] [Spatial β] in
theorem height_map (f : α → β) (q : Quadrant α) : (q.map f).height = q.height := by
  induction q with
  | whole b as => rfl
  | cut b as ul ur ll lr ihul ihur ihll ihlr => rw [map, height, height, ihul, ihur, ihll, ihlr]

section Map

variable {f : α → β} (hf : ∀ a, Spatial.envelope (f a) = Spatial.envelope a)

include hf

theorem covers_map (q : Quadrant α) (a : α) : (q.map f).covers (f a) = q.covers a := by
  rw [covers, covers, hf]
  cases q <;> rfl

theorem place_map {add : Quadrant α → α → Quadrant α} {add' : Quadrant β → β → Quadrant β}
    (hadd : ∀ q a, add' (q.map f) (f a) = (add q a).map f) (q : Quadrant α) (a : α) :
    place add' (q.map f) (f a) = (place add q a).map f := by
  cases q with
  | whole b as => simp only [place, map, List.map_append, List.map_cons, List.map_nil]
  | cut b as ul ur ll lr =>
    simp only [place, map, covers_map hf, hadd]
    split
    · rfl
    · split
      · rfl
      · split
        · rfl
        · split
          · rfl
          · simp only [map, List.map_append, List.map_cons, List.map_nil]

omit [Spatial α] [Spatial β] hf in
theorem hold_map (q : Quadrant α) (a : α) : (q.map f).hold (f a) = (q.hold a).map f := by
  cases q <;> simp only [hold, map, List.map_append, List.map_cons, List.map_nil]

theorem insert_map (cuts : Nat) (q : Quadrant α) (a : α) :
    insert cuts (q.map f) (f a) = (insert cuts q a).map f := by
  induction cuts generalizing q a with
  | zero =>
    rw [insert, insert]
    exact hold_map q a
  | succ cuts ih =>
    cases q with
    | whole b as =>
      have hlist : as.map f ++ [f a] = (as ++ [a]).map f := by
        rw [List.map_append, List.map_singleton]
      rw [map, insert, insert, List.length_map, hlist]
      split
      · have hquarter : (quarter b : Quadrant β) = (quarter b : Quadrant α).map f := rfl
        rw [List.foldl_map, hquarter]
        exact List.foldl_hom (map f) fun q a => place_map hf ih q a
      · rfl
    | cut b as ul ur ll lr =>
      rw [insert, map, insert]
      · exact place_map hf ih (cut b as ul ur ll lr) a
      · rintro _ _ ⟨⟩
      · rintro _ _ ⟨⟩

theorem add_map (q : Quadrant α) (a : α) : (q.map f).add (f a) = (q.add a).map f := by
  rw [add, add, covers_map hf, insert_map hf, hold_map]
  split <;> rfl

end Map

end Quadrant

namespace Index

variable {α : Type} [Spatial α]

/-- What becomes of a tree of quadrants: the items that calls insert are added, as far as they have
proper envelopes. -/
theorem store_after_quadrants {i : Index α} {q : Quadrant α} (hi : i.store = .quadrants q)
    (calls : List (Call α)) : (i.after calls).store =
      .quadrants (((inserted calls).filter hasProperEnvelope).foldl Quadrant.add q) := by
  unfold after
  induction calls generalizing i q with
  | nil => exact hi
  | cons c calls ih =>
    cases c with
    | insert a =>
      have hcons : inserted (.insert a :: calls) = a :: inserted calls := rfl
      rw [List.foldl_cons, hcons, List.filter_cons]
      split
      · next ha =>
        refine ih ?_
        rw [call, Index.insert, if_pos (show (Spatial.envelope a).isProper = true from ha), hi]
        rfl
      · next ha =>
        refine ih ?_
        rw [call, Index.insert, if_neg (show ¬ (Spatial.envelope a).isProper = true from ha), hi]
    | build => exact ih (by rw [call, build, hi]; rfl)

/-- What a tree of quadrants of any box looks like after any calls.  It is the image of a tree of
numbered items, in which every number stands in one box.  It has no more than seventeen levels, it
is well cut along every way down.  Adding one more item that its box covers ends, with one
result. -/
theorem cuts_after (extent : Envelope) (calls : List (Call α)) :
    ∃ slots : Quadrant (Entry α),
      ((emptyQuadrants extent).after calls).store = .quadrants (slots.map (·.item)) ∧
      slots.items.Perm (Store.numbered ((inserted calls).filter hasProperEnvelope)) ∧
      ((emptyQuadrants extent).after calls).stats.depth ≤ 17 ∧
      (∀ path, slots.Leads path → Quadrant.WellCut extent path (slots.bottom path)) ∧
      ∀ e, slots.covers e = true → ∀ q, Quadrant.Adds 0 slots e q ↔ q = slots.add e := by
  have hstored := store_after_quadrants (i := emptyQuadrants extent) rfl calls
  generalize (inserted calls).filter hasProperEnvelope = as at hstored
  let slots : Quadrant (Entry α) := (Store.numbered as).foldl Quadrant.add (.whole extent [])
  have hslots : slots.map (·.item) = as.foldl Quadrant.add (.whole extent []) := by
    conv_rhs => rw [← Store.map_item_numbered as, List.foldl_map]
    exact (List.foldl_hom (Quadrant.map Entry.item) fun q e =>
      Quadrant.add_map (f := Entry.item) (fun _ => rfl) q e).symm
  have hstore : ((emptyQuadrants extent).after calls).store = .quadrants (slots.map (·.item)) :=
    hstored.trans (congrArg _ hslots.symm)
  obtain ⟨hnested, hperm, -⟩ :=
    Quadrant.takes_add.foldl (q := .whole extent []) (Store.numbered as) trivial
  have hsettled := Quadrant.settled_foldl_add (q := .whole extent []) rfl
    (Quadrant.settled_whole_nil _ _ _) (Store.numbered as)
  refine ⟨slots, hstore, ?_, ?_, ?_, ?_⟩
  · rwa [Quadrant.items, List.append_nil] at hperm
  · rw [stats, hstore, Store.depth, Quadrant.height_map]
    exact hsettled.height_le
  · intro path hpath
    exact Quadrant.wellCut_bottom hnested hsettled hpath
  · intro e he q
    have hadds : Quadrant.Adds 0 slots e (slots.add e) := by
      rw [Quadrant.add, if_pos he]
      exact Quadrant.adds_insert (Nat.zero_add _) _ _ _ hsettled
    refine ⟨fun h => h.unique hadds, ?_⟩
    rintro rfl
    exact hadds

end Index

end PlanarJoin
