import PlanarJoin.Nearest.Search
import PlanarJoin.Proofs.Binary64.Monotone
import PlanarJoin.Proofs.Index.Candidates
import PlanarJoin.Proofs.Nearest.Selector
import PlanarJoin.Proofs.Rounds

/-!
# The last window has seen the nearest

The radius doubles until the window settles the search or overflows.  A window that is finite and
settles the search has seen the `k` nearest items: either it covers everything, or `k` items lie
within its radius and whatever it has missed lies beyond.  A window with infinite bounds sees
nothing.

## Main definitions

* `SeenWithin`: an item that is nearer than half the width of a window meets the window.
* `hasFiniteDistance`: whether the distance of an object can be told and is finite.
* `Searchable.Answers`, `Index.Answers`: an index that finds what it holds.
* `Searchable.blind`, `Index.blind`: the window that ends a search has infinite bounds.

## Main results

* `doubled_top`: a positive radius overflows before the doublings run out.
* `Searchable.nearest_subperm`: a search gives no item twice.
* `Searchable.Answers.keeps_nearest`: a search that ends with a finite window finds the nearest
  items.
* `Index.Answers.nearest_spec`: a search of an index does, or finds nothing.
-/

namespace PlanarJoin

open Binary64 Envelope

/-! ## Radii -/

/-- A radius doubled some times. -/
def doubled (r : Float) : Nat → Float
  | 0 => r
  | n + 1 => doubled r n * 2.0

theorem iterate_double (r : Float) (n : Nat) : (· * 2.0)^[n] r = doubled r n := by
  induction n with
  | zero => rfl
  | succ n ih => rw [Function.iterate_succ_apply', ih, doubled]

/-- The rank of a positive radius doubles until it reaches the length of a binade, and from then on
grows by that length. -/
theorem rank_doubled {r : Float} (hr : 0 < rank r) (n : Nat) :
    min (2 ^ n) (2 ^ 52) ≤ rank (doubled r n) ∧
      min (((n : Int) - 52) * 2 ^ 52) top ≤ rank (doubled r n) := by
  induction n with
  | zero =>
    refine ⟨?_, ?_⟩
    · rw [doubled, pow_zero]
      omega
    · simp only [doubled, top]
      omega
  | succ n ih =>
    obtain ⟨hpow, hlin⟩ := ih
    have hpos : (0 : Int) < 2 ^ n := by positivity
    rw [doubled, rank_double (by omega), pow_succ]
    push_cast
    refine ⟨?_, ?_⟩
    · simp only [top]
      omega
    · by_cases hn : 52 ≤ n
      · have hbinade : (2 : Int) ^ 52 ≤ 2 ^ n := by gcongr; norm_num
        simp only [top] at hlin ⊢
        omega
      · simp only [top]
        omega

/-- A positive radius overflows before the doublings run out. -/
theorem doubled_top {r : Float} (hr : 0 < rank r) : top ≤ rank (doubled r maxDoublings) := by
  have h := (rank_doubled hr maxDoublings).2
  simp only [maxDoublings, top] at h ⊢
  omega

theorem firstRadius_spec (extent : Envelope) (p : Coord) (k size : Nat) :
    (firstRadius extent p k size).isFinite = true ∧ 0.0 < firstRadius extent p k size := by
  unfold firstRadius
  dsimp only
  split
  · next h =>
    rw [Bool.and_eq_true, decide_eq_true_eq] at h
    exact h
  · decide

theorem firstRadius_pos (extent : Envelope) (p : Coord) (k size : Nat) :
    0 < rank (firstRadius extent p k size) :=
  (lt_iff.mp (firstRadius_spec extent p k size).2).2.2

/-! ## Windows -/

theorem windowAt_eq {p : Coord} (hp : p.isFinite = true) (r : Float) :
    windowAt p r = ⟨p.x - r, p.x + r, p.y - r, p.y + r⟩ := by
  obtain ⟨hx, hy⟩ := Bool.and_eq_true_iff.mp hp
  have nx := isNaN_of_isFinite hx
  have ny := isNaN_of_isFinite hy
  have ho : (ofPoint p.x p.y).Ordered :=
    ⟨nx, nx, ny, ny, le_refl (rank p.x), le_refl (rank p.y)⟩
  rw [windowAt, grow, if_neg (by rw [ho.isEmpty]; exact Bool.false_ne_true)]
  rfl

theorem windowAt_of_top {p : Coord} (hp : p.isFinite = true) {r : Float} (hr : top ≤ rank r) :
    (windowAt p r).isProper = false := by
  obtain ⟨hx, -⟩ := Bool.and_eq_true_iff.mp hp
  have hmax : (windowAt p r).maxX.isFinite = false := by
    rw [windowAt_eq hp]
    exact not_isFinite_add hx hr
  rw [isProper, hmax, Bool.and_false, Bool.false_and, Bool.false_and]

/-- An infinite window covers every proper envelope. -/
theorem covers_windowAt_of_top {p : Coord} (hp : p.isFinite = true) {e : Envelope}
    (he : e.isProper = true) {r : Float} (hr : top ≤ rank r) : (windowAt p r).covers e = true := by
  obtain ⟨hx, hy⟩ := Bool.and_eq_true_iff.mp hp
  obtain ⟨⟨nx₂, hx₂⟩, nx₁, hx₁⟩ := add_sub_of_top hx hr
  obtain ⟨⟨ny₂, hy₂⟩, ny₁, hy₁⟩ := add_sub_of_top hy hr
  have htop : -top ≤ top := by decide
  have hlow (x : Float) := (rank_le_top x).1
  have hhigh (x : Float) := (rank_le_top x).2
  rw [windowAt_eq hp, covers_iff]
  dsimp only
  rw [hx₁, hx₂, hy₁, hy₂]
  refine ⟨⟨nx₁, nx₂, ny₁, ny₂, ?_, ?_⟩, ordered_of_isProper he, ⟨hlow _, hhigh _⟩, hlow _, hhigh _⟩
  · dsimp only
    rw [hx₁, hx₂]
    exact htop
  · dsimp only
    rw [hy₁, hy₂]
    exact htop

/-- A wider window covers the narrower one. -/
theorem covers_windowAt {p : Coord} (hp : p.isFinite = true) {d r : Float}
    (hd : d.isFinite = true) (hw : (windowAt p d).isProper = true) (hlt : d < r) :
    (windowAt p r).covers (windowAt p d) = true := by
  obtain ⟨-, hnum, hrank⟩ := lt_iff.mp hlt
  by_cases hr : top ≤ rank r
  · exact covers_windowAt_of_top hp hw hr
  · have hlow := (isFinite_iff.mp hd).2.1
    have hrfin : r.isFinite = true := isFinite_iff.mpr ⟨hnum, by omega, not_le.mp hr⟩
    have hle : value d ≤ value r := (value_le_value_iff hd hrfin).mpr hrank.le
    have hproper := ordered_of_isProper hw
    rw [windowAt_eq hp] at hproper ⊢
    rw [windowAt_eq hp]
    -- the bounds move outward with the radius, as rounding keeps the order
    have haxis {x : Float} (hx : x.isFinite = true) :
        ((x - r).isNaN = false ∧ rank (x - r) ≤ rank (x - d)) ∧
          (x + r).isNaN = false ∧ rank (x + d) ≤ rank (x + r) := by
      obtain ⟨hsub, hsub'⟩ := nearest_sub hx hrfin
      obtain ⟨hadd, hadd'⟩ := nearest_add hx hrfin
      exact ⟨⟨hsub, hsub'.mono (nearest_sub hx hd).2 (by linarith)⟩, hadd,
        (nearest_add hx hd).2.mono hadd' (by linarith)⟩
    obtain ⟨hx, hy⟩ := Bool.and_eq_true_iff.mp hp
    obtain ⟨⟨nx₁, hx₁⟩, nx₂, hx₂⟩ := haxis hx
    obtain ⟨⟨ny₁, hy₁⟩, ny₂, hy₂⟩ := haxis hy
    exact covers_iff.mpr ⟨⟨nx₁, nx₂, ny₁, ny₂, (hx₁.trans hproper.le_x).trans hx₂,
      (hy₁.trans hproper.le_y).trans hy₂⟩, hproper, ⟨hx₁, hx₂⟩, hy₁, hy₂⟩

theorem value_greatest : value greatest + value (-greatest) = 0 := by
  have hpos : greatest.toModel.unpack = .finite .positive (2 ^ 53 - 1) 971 (by decide) := rfl
  have hneg : (-greatest).toModel.unpack = .finite .negative (2 ^ 53 - 1) 971 (by decide) := rfl
  rw [value, value, hpos, hneg, valueOf, valueOf, ← add_mul, ← Int.cast_add]
  norm_num [Float.Model.UnpackedFloat.Sign.apply]

/-- The window of a negative radius is empty, at the latest that of the least float. -/
theorem windowAt_negative {p : Coord} (hp : p.isFinite = true) (e : Envelope) :
    (windowAt p (-greatest)).meets e = false := by
  obtain ⟨hx, -⟩ := Bool.and_eq_true_iff.mp hp
  have hg : (-greatest).isFinite = true := by decide
  have hg' : greatest.isFinite = true := by decide
  obtain ⟨-, hlow, hhigh⟩ := isFinite_iff.mp hx
  obtain ⟨hnan, hadd⟩ := nearest_add hx hg
  obtain ⟨hnan', hsub⟩ := nearest_sub hx hg
  have hrank : rank (-greatest) = 1 - top ∧ rank greatest = top - 1 := by decide
  have hge : value (-greatest) ≤ value p.x := (value_le_value_iff hg hx).mpr (by omega)
  have hle : value p.x ≤ value greatest := (value_le_value_iff hx hg').mpr (by omega)
  have hsum := value_greatest
  have hlt : p.x + -greatest < p.x - -greatest := by
    refine lt_iff.mpr ⟨hnan, hnan', ?_⟩
    simp only [top] at hrank
    rcases le_total (value p.x) 0 with h0 | h0
    · have h₁ := hadd.mono (nearest_value hg) (by linarith)
      have h₂ := nearest_zero.mono hsub (by linarith)
      omega
    · have h₁ := hadd.mono nearest_zero (by linarith)
      have h₂ := (nearest_value hg').mono hsub (by linarith)
      omega
  have hempty : (windowAt p (-greatest)).isEmpty = true := by
    rw [windowAt_eq hp, isEmpty]
    simp only [hlt, decide_true, Bool.true_or]
  rw [meets, hempty]
  rfl

variable {α : Type} [Spatial α]

/-- An item that is nearer than half the width of a window around a point meets the window. -/
def SeenWithin (p : Coord) (as : List α) : Prop :=
  ∀ a ∈ as, (Spatial.envelope a).isProper = true → ∀ d r, distanceTo a p = .ok d → d < r →
    (windowAt p r).meets (Spatial.envelope a) = true

/-- Whether the window of the distance of an object already meets it. -/
def meetsAtDistance (p : Coord) (a : α) : Bool :=
  match distanceTo a p with
  | .ok d =>
    d.isFinite && (windowAt p d).isProper && (windowAt p d).meets (Spatial.envelope a)
  | .error _ => true

/-- Objects that the windows of their distances meet are met by the wider ones. -/
theorem seenWithin_of_meets {p : Coord} {as : List α} (hp : p.isFinite = true)
    (h : as.all (meetsAtDistance p) = true) : SeenWithin p as := by
  intro a ha hproper d r hd hlt
  have hmeets := List.all_eq_true.mp h a ha
  simp only [meetsAtDistance, hd, Bool.and_eq_true] at hmeets
  obtain ⟨⟨hfin, hw⟩, hm⟩ := hmeets
  exact meets_of_covers (covers_windowAt hp hfin hw hlt) (ordered_of_isProper hproper) hm

/-! ## Ranked items -/

variable {p : Coord} {as bs : List α} {e : Ranked α}

/-- A ranked item has its own distance. -/
theorem mem_filterMap_ranked : e ∈ as.filterMap (ranked? p) ↔
    e.item ∈ as ∧ distanceTo e.item p = .ok e.distance := by
  rw [List.mem_filterMap]
  constructor
  · rintro ⟨a, ha, hr⟩
    unfold ranked? at hr
    split at hr
    · next d hd =>
      obtain rfl := Option.some.inj hr
      exact ⟨ha, hd⟩
    · cases hr
  · rintro ⟨ha, hd⟩
    exact ⟨e.item, ha, by rw [ranked?, hd]⟩

theorem mem_finiteRanked : e ∈ finiteRanked p as ↔
    (e.item ∈ as ∧ distanceTo e.item p = .ok e.distance) ∧ e.distance.isFinite = true := by
  rw [finiteRanked, List.mem_filter, mem_filterMap_ranked]
  rfl

theorem finiteRanked_append (p : Coord) (as bs : List α) :
    finiteRanked p (as ++ bs) = finiteRanked p as ++ finiteRanked p bs := by
  rw [finiteRanked, List.filterMap_append, List.filter_append]
  rfl

theorem finiteRanked_flatMap {β : Type} (p : Coord) (xs : List β) (f : β → List α) :
    finiteRanked p (xs.flatMap f) = (xs.map fun x => finiteRanked p (f x)).flatten := by
  induction xs with
  | nil => rfl
  | cons x xs ih =>
    rw [List.flatMap_cons, finiteRanked_append, ih]
    rfl

theorem finiteRanked_perm (h : as.Perm bs) : (finiteRanked p as).Perm (finiteRanked p bs) :=
  (h.filterMap _).filter _

theorem finiteRanked_subperm (h : as.Subperm bs) :
    (finiteRanked p as).Subperm (finiteRanked p bs) := by
  obtain ⟨cs, hperm, hsub⟩ := h
  exact ⟨finiteRanked p cs, finiteRanked_perm hperm, (hsub.filterMap _).filter _⟩

/-- Ranking and picking some items can be exchanged. -/
theorem finiteRanked_filter (p : Coord) (as : List α) (f : α → Bool) :
    finiteRanked p (as.filter f) = (finiteRanked p as).filter fun e => f e.item := by
  have hranked (a : α) : (if f a then ranked? p a else none) =
      (ranked? p a).filter fun e => f e.item := by
    unfold ranked?
    cases distanceTo a p with
    | error _ =>
      rw [ite_self]
      rfl
    | ok d => rfl
  rw [finiteRanked, finiteRanked, List.filter_filter, List.filterMap_filter]
  simp only [hranked, ← List.filter_filterMap, List.filter_filter, Bool.and_comm]

/-- Whether the distance of an object from a point can be told and is finite. -/
def hasFiniteDistance (p : Coord) (a : α) : Bool :=
  match distanceTo a p with
  | .ok d => d.isFinite
  | .error _ => false

/-- The objects that are ranked are those at a finite distance. -/
theorem map_item_finiteRanked (p : Coord) (as : List α) :
    (finiteRanked p as).map (·.item) = as.filter (hasFiniteDistance p) := by
  induction as with
  | nil => rfl
  | cons a as ih =>
    rw [finiteRanked, List.filterMap_cons, ranked?, List.filter_cons, hasFiniteDistance, ← ih]
    cases distanceTo a p with
    | error _ => rfl
    | ok d =>
      by_cases hd : d.isFinite = true <;> simp [finiteRanked, Ranked.isFinite, hd]

/-- An item that the windows see is not at a distance of minus infinity. -/
theorem SeenWithin.isFinite_of_le (h : SeenWithin p as) (hp : p.isFinite = true)
    (has : ∀ a ∈ as, (Spatial.envelope a).isProper = true) {r : Float} (hr : rank r < top)
    (he : e ∈ as.filterMap (ranked? p)) (hle : e.distance ≤ r) : e.distance.isFinite = true := by
  obtain ⟨hmem, hd⟩ := mem_filterMap_ranked.mp he
  obtain ⟨hnum, -, hrank⟩ := le_iff.mp hle
  refine isFinite_iff.mpr ⟨hnum, ?_, by omega⟩
  by_contra hlow
  have hg : (-greatest).isNaN = false ∧ rank (-greatest) = 1 - top := by decide
  have hlt : e.distance < -greatest := lt_iff.mpr ⟨hnum, hg.1, by omega⟩
  have hm := h _ hmem (has _ hmem) _ _ hd hlt
  rw [windowAt_negative hp] at hm
  cases hm

namespace Searchable

variable {s : Searchable α} {k : Nat}

/-- An index that finds what it holds: it knows the number of its items and the box around them,
gives none of them twice, and leaves out only what does not meet the envelope. -/
structure Answers (s : Searchable α) (as : List α) : Prop where
  proper : ∀ a ∈ as, (Spatial.envelope a).isProper = true
  size : s.size = as.length
  extent : s.extent = hullAll (as.map Spatial.envelope)
  query : ∀ e : Envelope, e.isProper = true → ∃ rest : List α,
    (s.query e ++ rest).Perm as ∧ ∀ a ∈ rest, touches e a = false

/-- The window that ends a search has infinite bounds. -/
def blind (s : Searchable α) (p : Coord) (k : Nat) : Bool :=
  (s.windows p k).getLast?.any fun w => !(windowAt p w.radius).isProper

/-- The windows are those of the rounds in which the radius doubles. -/
theorem windowsFrom_eq (s : Searchable α) (p : Coord) (k fuel : Nat) (r : Float) :
    s.windowsFrom p k fuel r =
      (rounds (fun r => s.settles p k (s.window p r)) (· * 2.0) fuel r).map (s.window p) := by
  induction fuel generalizing r with
  | zero => rfl
  | succ fuel ih =>
    rw [windowsFrom, rounds]
    cases s.settles p k (s.window p r) with
    | true => rfl
    | false => rw [if_neg Bool.false_ne_true, if_neg Bool.false_ne_true, List.map_cons, ih]

/-- The windows end with one that settles the search, or when the doublings run out. -/
theorem getLast?_windowsFrom (s : Searchable α) (p : Coord) (k fuel : Nat) (r : Float) :
    ∃ n, (s.windowsFrom p k fuel r).getLast? = some (s.window p (doubled r n)) ∧
      (s.settles p k (s.window p (doubled r n)) = true ∨ n = fuel) := by
  obtain ⟨n, hlast, hn⟩ :=
    getLast?_rounds (fun r => s.settles p k (s.window p r)) (· * 2.0) fuel r
  simp only [iterate_double] at hlast hn
  exact ⟨n, by rw [windowsFrom_eq, List.getLast?_map, hlast, Option.map_some], hn⟩

theorem exists_eq_window {w : Window α} (h : (s.windows p k).getLast? = some w) :
    ∃ r, w = s.window p r := by
  unfold windows at h
  split at h
  · cases h
  · obtain ⟨n, hlast, -⟩ :=
      s.getLast?_windowsFrom p k maxDoublings (firstRadius s.extent p k s.size)
    exact ⟨_, Option.some.inj (h.symm.trans hlast)⟩

theorem nearest_subperm (h : ∀ e, (s.query e).Subperm as) (p : Coord) (k : Nat) :
    (s.nearest p k).Subperm (finiteRanked p as) := by
  unfold nearest
  cases hlast : (s.windows p k).getLast? with
  | none => exact List.nil_subperm
  | some w =>
    obtain ⟨r, rfl⟩ := exists_eq_window hlast
    exact (nearestOf_spec _ p k).1.subperm.trans (finiteRanked_subperm (h _))

/-- A search for some items among some has windows, and the last settles it or has overflowed. -/
theorem Answers.exists_last (h : s.Answers as) (hp : p.isFinite = true) (hk : 0 < k)
    (hne : as ≠ []) :
    ∃ r, (s.windows p k).getLast? = some (s.window p r) ∧ 0 < rank r ∧
      (s.settles p k (s.window p r) = true ∨ top ≤ rank r) := by
  have hsize : 0 < s.size := h.size ▸ List.length_pos_iff.mpr hne
  have hproper : s.extent.isProper = true := by
    have hall : ∀ e ∈ as.map Spatial.envelope, e.isProper = true := List.forall_mem_map.mpr h.proper
    rw [h.extent]
    have hhull := isHull_hullAll (by simpa using hne) fun e he => ordered_of_isProper (hall e he)
    exact hhull.isProper hall
  have hfirst := firstRadius_pos s.extent p k s.size
  obtain ⟨n, hlast, hn⟩ := s.getLast?_windowsFrom p k maxDoublings (firstRadius s.extent p k s.size)
  refine ⟨_, ?_, ?_, hn.imp id fun hn => hn ▸ doubled_top hfirst⟩
  · rw [windows, if_neg (by simp [hk.ne', hsize.ne', hproper, hp])]
    exact hlast
  · have := (rank_doubled hfirst n).1
    have : (0 : Int) < 2 ^ n := by positivity
    omega

/-- A window that covers the index has seen every item. -/
theorem Answers.query_perm_of_covers (h : s.Answers as) {e : Envelope} (he : e.isProper = true)
    (hcov : e.covers s.extent = true) : (s.query e).Perm as := by
  obtain ⟨rest, hperm, hout⟩ := h.query e he
  suffices hnil : rest = [] by
    rw [hnil, List.append_nil] at hperm
    exact hperm
  rw [List.eq_nil_iff_forall_not_mem]
  intro a hrest
  have ha : a ∈ as := hperm.mem_iff.mp (List.mem_append_right _ hrest)
  have ho := ordered_of_isProper (h.proper a ha)
  have hhull : IsHull s.extent (as.map Spatial.envelope) := by
    rw [h.extent]
    refine isHull_hullAll (List.ne_nil_of_mem (List.mem_map_of_mem ha)) ?_
    exact List.forall_mem_map.mpr fun b hb => ordered_of_isProper (h.proper b hb)
  have hmem := covers_trans hcov (hhull.covers _ (List.mem_map_of_mem ha))
  have hcorner := hasPoint_corner ho
  have hmeets : touches e a = true :=
    meets_of_hasPoint hcorner (hasPoint_of_covers hmem hcorner)
  rw [hout a hrest] at hmeets
  cases hmeets

/-- A finite window that has `k` items within its radius has seen enough. -/
theorem Answers.enough_of_within (h : s.Answers as) (hp : p.isFinite = true)
    (hseen : SeenWithin p as) {r : Float} (hr : 0 < rank r) (hw : (windowAt p r).isProper = true)
    (hk : k ≤ (((s.query (windowAt p r)).filterMap (ranked? p)).filter (·.distance ≤ r)).length) :
    Enough k (finiteRanked p as) (finiteRanked p (s.query (windowAt p r))) := by
  have htop : rank r < top := by
    by_contra hge
    rw [windowAt_of_top hp (not_lt.mp hge)] at hw
    cases hw
  obtain ⟨rest, hperm, hout⟩ := h.query _ hw
  have hmem {a : α} (ha : a ∈ s.query (windowAt p r)) : a ∈ as :=
    hperm.mem_iff.mp (List.mem_append_left _ ha)
  refine ⟨finiteRanked p rest, ?_, ?_⟩
  · rw [← finiteRanked_append]
    exact finiteRanked_perm hperm
  · intro e he
    obtain ⟨⟨hitem, hd⟩, hfin⟩ := mem_finiteRanked.mp he
    have ha : e.item ∈ as := hperm.mem_iff.mp (List.mem_append_right _ hitem)
    have hbeyond : rank r ≤ e.key := by
      by_contra hlt
      have hnum := isNaN_of_isFinite (isFinite_of_rank hr htop)
      have hm := hseen _ ha (h.proper _ ha) _ r hd
        (lt_iff.mpr ⟨isNaN_of_isFinite hfin, hnum, not_le.mp hlt⟩)
      rw [meets_comm (ordered_of_isProper hw) (ordered_of_isProper (h.proper _ ha))] at hm
      have hmissed : (Spatial.envelope e.item).meets (windowAt p r) = false := hout _ hitem
      rw [hmissed] at hm
      cases hm
    refine hk.trans ?_
    rw [finiteRanked, List.countP_filter, ← List.countP_eq_length_filter]
    refine List.countP_mono_left ?_
    intro g hg hle
    have hle := of_decide_eq_true hle
    have hseen' : SeenWithin p (s.query (windowAt p r)) := fun a ha => hseen a (hmem ha)
    have hgfin : g.distance.isFinite = true :=
      hseen'.isFinite_of_le hp (fun a ha => h.proper a (hmem ha)) htop hg hle
    rw [Bool.and_eq_true, decide_eq_true_eq]
    exact ⟨(le_iff.mp hle).2.2.trans hbeyond, hgfin⟩

theorem Answers.windows_eq_nil (h : s.Answers as) (hnone : k = 0 ∨ as = []) :
    s.windows p k = [] := by
  have hcond : (k = 0 || s.size == 0) = true := by
    rcases hnone with rfl | rfl
    · rfl
    · simp [h.size]
  rw [windows, if_pos (by simp only [hcond, Bool.true_or])]

/-- A search does not end blind if all its windows have finite bounds. -/
theorem blind_of_windows (h : ∀ w ∈ s.windows p k, (windowAt p w.radius).isProper = true) :
    s.blind p k = false := by
  rw [blind, Option.any_eq_false]
  intro w hw
  simp [h w (List.mem_of_getLast? hw)]

theorem nearest_of_not_isFinite (hp : ¬ p.isFinite = true) : s.nearest p k = [] := by
  have hnone : s.windows p k = [] := by
    rw [windows, if_pos]
    rw [Bool.not_eq_true] at hp
    rw [hp, Bool.not_false, Bool.or_true]
  rw [nearest, hnone]
  rfl

theorem nearest_of_last {r : Float} (h : (s.windows p k).getLast? = some (s.window p r)) :
    s.nearest p k = nearestOf (s.query (windowAt p r)) p k ∧
      s.blind p k = !(windowAt p r).isProper := by
  rw [nearest, blind, h]
  exact ⟨rfl, rfl⟩

/-- A search that does not end with an infinite window finds the nearest items. -/
theorem Answers.keeps_nearest (h : s.Answers as) (hp : p.isFinite = true)
    (hseen : SeenWithin p as) (hsees : s.blind p k = false) :
    Keeps k (finiteRanked p as) (s.nearest p k) := by
  by_cases hnone : k = 0 ∨ as = []
  · rw [nearest, h.windows_eq_nil hnone]
    rcases hnone with rfl | rfl
    · exact keeps_zero _
    · exact keeps_nil
  · obtain ⟨hk, hne⟩ := not_or.mp hnone
    obtain ⟨r, hlast, hr, hend⟩ := h.exists_last hp (Nat.pos_of_ne_zero hk) hne
    obtain ⟨hnearest, hblind⟩ := nearest_of_last hlast
    have hw : (windowAt p r).isProper = true := by
      rw [hsees] at hblind
      simpa using hblind.symm
    have hkeeps := (nearestOf_spec (s.query (windowAt p r)) p k).1
    rw [hnearest]
    rcases hend with hend | hend
    · rw [settles, Bool.or_eq_true, decide_eq_true_eq] at hend
      rcases hend with hk | hcov
      · exact hkeeps.of_enough (h.enough_of_within hp hseen hr hw hk)
      · exact hkeeps.congr (finiteRanked_perm (h.query_perm_of_covers hw hcov)) .rfl
    · rw [windowAt_of_top hp hend] at hw
      cases hw

end Searchable

namespace Index

variable {i : Index α} {k : Nat}

theorem Holds.nearest_subperm (h : i.Holds as) (p : Coord) (k : Nat) :
    (i.nearest p k).Subperm (finiteRanked p as) :=
  Searchable.nearest_subperm h.query_subperm p k

/-- An index that finds what it holds. -/
def Answers (i : Index α) (as : List α) : Prop :=
  i.searchable.Answers as

theorem Answers.size (h : i.Answers as) : i.size = as.length :=
  Searchable.Answers.size h

/-- The window that ends a search of an index has infinite bounds. -/
def blind (i : Index α) (p : Coord) (k : Nat) : Bool :=
  i.searchable.blind p k

/-- An index that serves some objects answers for those with a proper envelope. -/
theorem Serves.answers (h : i.Serves as) : i.Answers (as.filter hasProperEnvelope) := by
  refine ⟨h.holds.proper, h.holds.size, h.holds.extent, ?_⟩
  intro e he
  obtain ⟨f, hperm, hf⟩ := h.query_spec he
  refine ⟨(as.filter hasProperEnvelope).filter (!f ·),
    (hperm.append_right _).trans (List.filter_append_perm f _), ?_⟩
  intro a ha
  obtain ⟨hmem, hout⟩ := List.mem_filter.mp ha
  by_contra hm
  rw [hf a hmem (by simpa using hm)] at hout
  cases hout

theorem answers_ofList {s : IndexSettings} (hs : s.validate = .ok ()) (ht : s.sizeTiered = false)
    (as : List α) : (ofList s as).Answers (as.filter hasProperEnvelope) :=
  (serves_ofList hs (fun _ => ht) as).answers

/-- A search finds the nearest items, or nothing if it ends with an infinite window. -/
theorem Answers.nearest_spec (h : i.Answers as) (hp : p.isFinite = true) (hseen : SeenWithin p as)
    (k : Nat) : if i.blind p k then i.nearest p k = [] else
      Keeps k (finiteRanked p as) (i.nearest p k) := by
  cases hb : i.blind p k with
  | false => exact Searchable.Answers.keeps_nearest h hp hseen hb
  | true =>
    rw [if_pos rfl]
    by_cases hnone : k = 0 ∨ as = []
    · rw [nearest, Searchable.nearest, Searchable.Answers.windows_eq_nil h hnone]
      rfl
    · obtain ⟨hk, hne⟩ := not_or.mp hnone
      obtain ⟨r, hlast, -⟩ :=
        Searchable.Answers.exists_last h hp (Nat.pos_of_ne_zero hk) hne
      obtain ⟨hnearest, hblind⟩ := Searchable.nearest_of_last hlast
      have hw : (windowAt p r).isProper = false := by
        rw [show i.searchable.blind p k = true from hb] at hblind
        simpa using hblind.symm
      have hnil : i.searchable.query (windowAt p r) = [] := by
        change i.query _ = []
        rw [Index.query, hw]
        rfl
      rw [nearest, hnearest, hnil]
      have hkeeps := (nearestOf_spec ([] : List α) p k).1
      exact List.eq_nil_of_length_eq_zero (hkeeps.1.trans (Nat.min_zero k))

end Index

end PlanarJoin
