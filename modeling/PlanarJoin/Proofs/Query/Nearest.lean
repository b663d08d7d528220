import PlanarJoin.Proofs.Gathering
import PlanarJoin.Proofs.Nearest.Parts
import PlanarJoin.Proofs.Tiling.Partition
import PlanarJoin.Proofs.Tiling.Uniform
import PlanarJoin.Query.Nearest

/-!
# The nearest of a collection

Each partition gives enough of the items that it owns, and the nearest of these are the nearest of
all.  A partition fails to do so in one case: the window that ends its search has overflowed to
infinite bounds, which no index answers.  What such a partition owns is overlooked, and that matters
unless enough of the rest is as near.

## Main definitions

* `Tiling.ranks`: a partition ranks an object.
* `Index.fetch`: what is found when a number of items is asked for.
* `Index.blindFor`, `Collection.blindIn`: the last search of a partition ends with an infinite
  window.
* `Collection.overlooks`: an item is owned by such a partition.

## Main results

* `Collection.nearest_of_parts`: what all partitions give is put together.
* `Index.Answers.nearestOwned_spec`: a partition gives enough of what it owns, or nothing.
* `Collection.nearestIn_spec`: the same with and without indexes.
* `Collection.nearest_iff`: the nearest of a collection are given just if what is overlooked does
  not matter.
-/

namespace PlanarJoin

open Binary64 Envelope

variable {α : Type} [Spatial α]

/-! ## Fetching until enough is owned -/

/-- Doubling a positive number again and again, up to a greatest one, adds one each time at least.
-/
theorem le_iterate_saturate {a g : Nat} (hg : 0 < g) (ha : 0 < a) (n : Nat) :
    min (a + n) g ≤ (fun a => min (2 * a) g)^[n] a := by
  induction n with
  | zero => exact Nat.min_le_left _ _
  | succ n ih =>
    rw [Function.iterate_succ_apply']
    omega

namespace Index

variable {i : Index α} {o : Option Ownership} {p : Coord} {k : Nat} {as : List α}

/-- The last search for what a partition owns ends with an infinite window. -/
def blindFor (i : Index α) (o : Option Ownership) (p : Coord) (k : Nat) : Bool :=
  (i.fetches o p k).getLast?.any fun f => i.blind p f.asked

/-- What is found when a number of items is asked for. -/
def fetch (i : Index α) (p : Coord) (asked : Nat) : Fetch α :=
  ⟨asked, i.nearest p asked⟩

/-- What is fetched is found in the rounds in which the number of items doubles. -/
theorem fetchesFrom_eq (i : Index α) (o : Option Ownership) (p : Coord) (k fuel asked : Nat) :
    i.fetchesFrom o p k fuel asked =
      (rounds (fun a => (i.fetch p a).settles o k) (fun a => min (2 * a) greatestCount) fuel
        asked).map (i.fetch p) := by
  induction fuel generalizing asked with
  | zero => rfl
  | succ fuel ih =>
    rw [fetchesFrom, rounds]
    change (if (i.fetch p asked).settles o k then _ else _) = _
    cases (i.fetch p asked).settles o k with
    | true => rfl
    | false =>
      rw [if_neg Bool.false_ne_true, if_neg Bool.false_ne_true, List.map_cons, ih]
      rfl

/-- The fetches end with one that settles, or with one that asks for more than there is. -/
theorem getLast?_fetchesFrom (i : Index α) (o : Option Ownership) (p : Coord) (k fuel : Nat)
    {asked : Nat} (hpos : 0 < k → 0 < asked) :
    ∃ n, (i.fetchesFrom o p k fuel asked).getLast? = some (i.fetch p n) ∧
      ((i.fetch p n).settles o k = true ∨ min (asked + fuel) greatestCount ≤ n) := by
  obtain ⟨m, hlast, hm⟩ := getLast?_rounds (fun a => (i.fetch p a).settles o k)
    (fun a => min (2 * a) greatestCount) fuel asked
  refine ⟨_, by rw [fetchesFrom_eq, List.getLast?_map, hlast, Option.map_some], ?_⟩
  rcases Nat.eq_zero_or_pos k with rfl | hk
  · exact .inl (Bool.or_eq_true_iff.mpr (.inl (decide_eq_true (Nat.zero_le _))))
  · refine hm.imp_right ?_
    rintro rfl
    exact le_iterate_saturate (by decide) (hpos hk) m

theorem Holds.nearestOwned_subperm (h : i.Holds as) (o : Option Ownership) (p : Coord) (k : Nat) :
    (i.nearestOwned o p k).Subperm (finiteRanked p (as.filter (ownsObject o))) := by
  obtain ⟨n, hlast, -⟩ := i.getLast?_fetchesFrom o p k (i.size + 1) id
  rw [nearestOwned, fetches, hlast, finiteRanked_filter]
  exact (h.nearest_subperm p n).filter _

/-- A partition gives enough of what it owns, or nothing if its last search ends with an infinite
window. -/
theorem Answers.nearestOwned_spec (h : i.Answers as) (hp : p.isFinite = true)
    (hseen : SeenWithin p as) (hlen : as.length ≤ greatestCount) (o : Option Ownership) (k : Nat) :
    if i.blindFor o p k then i.nearestOwned o p k = [] else
      Enough k (finiteRanked p (as.filter (ownsObject o))) (i.nearestOwned o p k) := by
  obtain ⟨n, hlast, hend⟩ := i.getLast?_fetchesFrom o p k (i.size + 1) id
  have hspec := h.nearest_spec hp hseen n
  rw [blindFor, nearestOwned, fetches, hlast, Option.any_some]
  change if i.blind p n then (i.fetch p n).owned o = [] else Enough k _ ((i.fetch p n).owned o)
  cases hb : i.blind p n with
  | true =>
    rw [hb, if_pos rfl] at hspec
    rw [if_pos rfl, Fetch.owned, fetch, hspec]
    rfl
  | false =>
    rw [hb, if_neg Bool.false_ne_true] at hspec
    rw [if_neg Bool.false_ne_true, finiteRanked_filter]
    obtain ⟨-, rest, hperm, hle⟩ := id hspec
    refine ⟨rest.filter fun e => ownsObject o e.item, ?_, ?_⟩
    · rw [Fetch.owned, ← List.filter_append]
      exact hperm.filter _
    · intro f hf
      obtain ⟨hf, -⟩ := List.mem_filter.mp hf
      have hall : ((i.fetch p n).owned o).countP (·.key ≤ f.key) = ((i.fetch p n).owned o).length :=
        List.countP_eq_length.mpr fun e he =>
          decide_eq_true (hle e (List.mem_filter.mp he).1 f hf)
      rw [hall]
      have hfull := (hspec.full hperm).resolve_left (List.ne_nil_of_mem hf)
      rcases hend with hend | hend
      · -- enough is owned, as what was asked for was found
        rw [Fetch.settles, Bool.or_eq_true, decide_eq_true_eq, decide_eq_true_eq] at hend
        refine hend.resolve_right ?_
        intro hlt
        exact absurd hfull hlt.ne
      · have hrest := List.length_pos_of_mem hf
        have htotal := hperm.length_eq
        rw [List.length_append] at htotal
        have hranked : (finiteRanked p as).length ≤ as.length :=
          (List.length_filter_le _ _).trans (List.length_filterMap_le _ _)
        have hsize := h.size
        omega

end Index

/-- Whether a partition ranks an object: it holds a copy, and where objects have owners it owns this
one. -/
def Tiling.ranks (t : Tiling) (i : Nat) (a : α) : Bool :=
  t.places i a && ownsObject (t.owner? i) a

namespace Collection

variable {c c₀ : Collection α} {t : Tiling} {as : List α} {p : Coord} {k : Nat} {useIndex : Bool}

/-- If every partition gives something, the nearest of all that is given are taken. -/
theorem nearest_of_parts {R : Nat → List (Ranked α) → Prop} {n : Nat} (hcount : c.count = n)
    (hidx : useIndex = true → c.hasIndex = true)
    (h : ∀ i < n, ∃ es, c.nearestIn p k useIndex i = .ok es ∧ R i es) :
    ∃ lists, c.nearest p k useIndex = .ok (mergeNearest lists k) ∧
      List.Forall₂ R (List.range n) lists := by
  obtain ⟨lists, hlists, hall⟩ := exists_mapM_ok (f := c.nearestIn p k useIndex) (R := R)
    (l := List.range n) fun i hi => h i (List.mem_range.mp hi)
  refine ⟨lists, ?_, hall⟩
  have herror : (useIndex && !c.hasIndex) = false := by
    cases huse : useIndex with
    | false => rfl
    | true => rw [hidx huse]; rfl
  rw [nearest, herror, hcount, hlists]
  rfl

/-! ## What a partition ranks -/

theorem filter_ownsObject_partition (h₀ : t.partition as = .ok c₀) (hc : c₀.Indexed c) (i : Nat) :
    (c.partition i).filter (ownsObject (t.owner? i)) = as.filter (t.ranks i) := by
  rw [hc.partition_eq h₀, List.filter_filter]
  exact List.filter_congr fun a _ => Bool.and_comm _ _

theorem nearestIn_scan (ht : t.Made) (h₀ : t.partition as = .ok c₀) (hc : c₀.Indexed c) {i : Nat}
    (hi : i < t.size) : ∃ es, c.nearestIn p k false i = .ok es ∧
      Keeps k (finiteRanked p (as.filter (t.ranks i))) es := by
  refine ⟨nearestOf (as.filter (t.ranks i)) p k, ?_, (nearestOf_spec _ p k).1⟩
  rw [nearestIn, hc.ownership h₀ ht hi, ← filter_ownsObject_partition h₀ hc]
  rfl

/-! ## What is overlooked -/

/-- A partition has an index whose last search ends with an infinite window. -/
def blindIn (c : Collection α) (p : Coord) (k i : Nat) : Bool :=
  match c.index? i, c.ownership i with
  | some x, .ok o => x.blindFor o p k
  | _, _ => false

/-- A partition gives an object. -/
def gives (c : Collection α) (i : Nat) (a : α) : Bool :=
  match c.ownership i with
  | .ok o => ownsObject o a
  | .error _ => false

/-- An object is owned by a partition whose last search ends with an infinite window. -/
def overlooks (c : Collection α) (p : Coord) (k : Nat) (a : α) : Bool :=
  (List.range c.count).any fun i => c.blindIn p k i && c.gives i a

section Parts

variable (hmade : t.Made) (hexact : t.exact = true) (h₀ : t.partition as = .ok c₀)
  (hc : c₀.Prebuilt c)

include hmade hexact h₀ hc in
theorem gives_eq {i : Nat} (hi : i < t.size) (a : α) :
    c.gives i a =
      (t.ownershipOf i).ownsPoint (Spatial.envelope a).minX (Spatial.envelope a).minY := by
  rw [gives, hc.ownership h₀ hmade hexact hi]
  rfl

include hmade hexact h₀ hc in
/-- An object in the tiling is given by one partition, and is placed there. -/
theorem exists_giver (honce : t.OwnedOnce) {a : α} (ha : a ∈ as)
    (hproper : (Spatial.envelope a).isProper = true) :
    ∃ i < t.size, t.places i a = true ∧ ∀ j < t.size, c.gives j a = true ↔ j = i := by
  obtain ⟨-, -, -, -, hcov⟩ := Tiling.partition_spec h₀
  have hcorner := hasPoint_corner (ordered_of_isProper hproper)
  obtain ⟨i, hi, howns, honly⟩ :=
    honce.exists_owner hmade (hasPoint_of_covers (hcov a ha hproper) hcorner)
  refine ⟨i, hi, Tiling.places_iff.mpr (hmade.mem_placement_of_owns howns hproper hcorner), ?_⟩
  intro j hj
  rw [gives_eq hmade hexact h₀ hc hj]
  exact honly j hj

/-- What a partition is to give: what is placed there and owned, or nothing if its search is blind.
-/
def share (c : Collection α) (t : Tiling) (as : List α) (p : Coord) (k : Nat) (useIndex : Bool)
    (i : Nat) : List α :=
  as.filter fun a => (t.places i a && c.gives i a) && !(useIndex && c.blindIn p k i)

theorem share_of_blind {i : Nat} (hblind : c.blindIn p k i = true) :
    c.share t as p k true i = [] := by
  rw [share, hblind, List.filter_eq_nil_iff]
  simp

include hmade h₀ hc in
theorem share_of_sees {i : Nat} (hi : i < t.size) (hsees : (useIndex && c.blindIn p k i) = false) :
    c.share t as p k useIndex i = as.filter (t.ranks i) := by
  have hgives (a : α) : c.gives i a = ownsObject (t.owner? i) a := by
    rw [gives, hc.toIndexed.ownership h₀ hmade hi]
  simp only [share, hsees, hgives, Bool.not_false, Bool.and_true]
  rfl

include hmade h₀ hc in
/-- Each partition gives enough of its share. -/
theorem nearestIn_spec (hidx : useIndex = true → c.hasIndex = true) (hp : p.isFinite = true)
    (hlen : as.length ≤ greatestCount) (hseen : SeenWithin p as) {i : Nat} (hi : i < t.size) :
    ∃ es, c.nearestIn p k useIndex i = .ok es ∧
      Enough k (finiteRanked p (c.share t as p k useIndex i)) es := by
  cases useIndex with
  | false =>
    obtain ⟨es, hes, hkeeps⟩ := nearestIn_scan (p := p) (k := k) hmade h₀ hc.toIndexed hi
    rw [share_of_sees hmade h₀ hc hi rfl]
    exact ⟨es, hes, hkeeps.enough⟩
  | true =>
    have hown := hc.toIndexed.ownership h₀ hmade hi
    obtain ⟨s, hs, ht, hindex⟩ := hc.index h₀ (hidx rfl) hi
    have hproper : (as.filter (t.places i)).filter hasProperEnvelope = as.filter (t.places i) :=
      List.filter_eq_self.mpr fun a ha => Tiling.isProper_of_places (List.mem_filter.mp ha).2
    have hanswers := Index.answers_ofList hs ht (as.filter (t.places i))
    rw [hproper] at hanswers
    have hspec := hanswers.nearestOwned_spec hp
      (fun a ha => hseen a (List.mem_filter.mp ha).1)
      ((List.length_filter_le _ _).trans hlen) (t.owner? i) k
    have hblind : c.blindIn p k i =
        (Index.ofList s (as.filter (t.places i))).blindFor (t.owner? i) p k := by
      rw [blindIn, hindex, hown]
    have hranks : (as.filter (t.places i)).filter (ownsObject (t.owner? i)) =
        as.filter (t.ranks i) := by
      rw [← filter_ownsObject_partition h₀ hc.toIndexed, hc.partition_eq h₀]
    rw [← hblind, hranks] at hspec
    rw [nearestIn, hown, hindex]
    refine ⟨_, rfl, ?_⟩
    cases hb : c.blindIn p k i with
    | true =>
      rw [hb, if_pos rfl] at hspec
      rw [share_of_blind hb]
      dsimp only
      rw [hspec]
      exact Enough.refl k []
    | false =>
      rw [hb, if_neg Bool.false_ne_true] at hspec
      rw [share_of_sees hmade h₀ hc hi (show (true && c.blindIn p k i) = false from hb)]
      exact hspec

include h₀ hc in
/-- An object is overlooked if the search of the partition that gives it is blind. -/
theorem overlooks_eq {a : α} {i : Nat} (hi : i < t.size)
    (honly : ∀ j < t.size, c.gives j a = true ↔ j = i) : c.overlooks p k a = c.blindIn p k i := by
  rw [Bool.eq_iff_iff, overlooks, hc.count_eq h₀, List.any_eq_true]
  constructor
  · rintro ⟨j, hj, hjb⟩
    obtain ⟨hblind, hgives⟩ := Bool.and_eq_true_iff.mp hjb
    obtain rfl := (honly j (List.mem_range.mp hj)).mp hgives
    exact hblind
  · intro hblind
    exact ⟨i, List.mem_range.mpr hi, Bool.and_eq_true_iff.mpr ⟨hblind, (honly i hi).mpr rfl⟩⟩

include hmade hexact h₀ hc in
/-- The shares together are everything that is not overlooked. -/
theorem flatMap_share_perm (honce : t.OwnedOnce) :
    ((List.range t.size).flatMap (c.share t as p k useIndex)).Perm
      ((as.filter hasProperEnvelope).filter fun a => !(useIndex && c.overlooks p k a)) := by
  rw [List.filter_filter]
  refine flatMap_filter_perm ?_ ?_
  · intro a ha hq
    obtain ⟨hsees, hproper⟩ := Bool.and_eq_true_iff.mp hq
    obtain ⟨i, hi, hplaced, honly⟩ := exists_giver hmade hexact h₀ hc honce ha hproper
    rw [overlooks_eq h₀ hc hi honly] at hsees
    refine ⟨i, hi, ?_⟩
    intro j hj
    rw [Bool.and_eq_true, Bool.and_eq_true, honly j hj]
    constructor
    · rintro ⟨⟨-, hj⟩, -⟩
      exact hj
    · rintro rfl
      exact ⟨⟨hplaced, rfl⟩, hsees⟩
  · intro a ha j hj hP
    obtain ⟨hown, hsees⟩ := Bool.and_eq_true_iff.mp hP
    obtain ⟨hplaced, hgives⟩ := Bool.and_eq_true_iff.mp hown
    have hproper := Tiling.isProper_of_places hplaced
    obtain ⟨i, hi, -, honly⟩ := exists_giver hmade hexact h₀ hc honce ha hproper
    obtain rfl := (honly j hj).mp hgives
    rw [← overlooks_eq h₀ hc hi honly] at hsees
    exact Bool.and_eq_true_iff.mpr ⟨hsees, hproper⟩

include hmade hexact h₀ hc in
/-- The nearest that are given are the nearest of what is not overlooked. -/
theorem nearest_spec (honce : t.OwnedOnce) (hidx : useIndex = true → c.hasIndex = true)
    (hp : p.isFinite = true) (hlen : as.length ≤ greatestCount) (hseen : SeenWithin p as) :
    ∃ out, c.nearest p k useIndex = .ok out ∧ out.Pairwise (·.key ≤ ·.key) ∧
      Keeps k ((finiteRanked p (as.filter hasProperEnvelope)).filter fun e =>
        !(useIndex && c.overlooks p k e.item)) out := by
  obtain ⟨lists, hout, hall⟩ := nearest_of_parts (hc.count_eq h₀) hidx fun i hi =>
    nearestIn_spec hmade h₀ hc hidx hp hlen hseen hi
  have hperm :
      (finiteRanked p ((List.range t.size).flatMap (c.share t as p k useIndex))).Perm _ :=
    finiteRanked_perm (flatMap_share_perm hmade hexact h₀ hc honce)
  rw [finiteRanked_filter] at hperm
  exact ⟨_, hout, (mergeNearest_spec lists k).2, (keeps_mergeNearest hall).congr hperm .rfl⟩

end Parts

/-- The nearest of a collection on a uniform tiling: they come in ascending order, none twice, and
have the smallest distances of all items that are not overlooked.  They have the smallest distances
of all just if every item that is overlooked is at least as far as `k` others.  There are no more
items than a search can ask for. -/
theorem nearest_iff {extent : Envelope} {columns rows : Nat}
    (ht : Tiling.uniform extent columns rows = .ok t)
    (hx : Tiling.Increasing (Tiling.columnBound extent columns) columns)
    (hy : Tiling.Increasing (Tiling.rowBound extent rows) rows) (hexact : t.exact = true)
    (h₀ : t.partition as = .ok c₀) (hc : c₀.Prebuilt c) (hidx : useIndex = true → c.hasIndex = true)
    (hlen : as.length ≤ greatestCount) (hp : p.isFinite = true) (hseen : SeenWithin p as)
    (k : Nat) :
    let all := finiteRanked p (as.filter hasProperEnvelope)
    let overlooked : Ranked α → Bool := fun e => useIndex && c.overlooks p k e.item
    ∃ out, c.nearest p k useIndex = .ok out ∧ out.Pairwise (·.distance ≤ ·.distance) ∧
      out.Subperm all ∧
      out.map Ranked.key = smallest k ((all.filter (!overlooked ·)).map Ranked.key) ∧
      (out.map Ranked.key = smallest k (all.map Ranked.key) ↔
        ∀ e ∈ all, overlooked e = true →
          k ≤ (all.filter (!overlooked ·)).countP (·.key ≤ e.key)) := by
  intro all overlooked
  have hmade := (Tiling.made_of_make (Tiling.make_of_uniform ht).2).1
  obtain ⟨out, hout, hsorted, hkeeps⟩ := nearest_spec (k := k) hmade hexact h₀ hc
    (Tiling.ownedOnce_of_uniform ht hx hy) hidx hp hlen hseen
  have hsub : out.Subperm all := hkeeps.subperm.trans List.filter_sublist.subperm
  refine ⟨out, hout, ?_, hsub, hkeeps.map_key hsorted, ?_⟩
  · refine hsorted.imp_of_mem ?_
    intro e f he hf hle
    have hnum {e : Ranked α} (he : e ∈ out) : e.distance.isNaN = false :=
      isNaN_of_isFinite (mem_finiteRanked.mp (hsub.subset he)).2
    exact le_iff.mpr ⟨hnum he, hnum hf, hle⟩
  · have hsplit : (all.filter (!overlooked ·) ++ all.filter (overlooked ·)).Perm all := by
      have := List.filter_append_perm (!overlooked ·) all
      simpa only [Bool.not_not] using this
    rw [hkeeps.map_key_append_iff hsorted hsplit]
    simp only [List.mem_filter, and_imp]
    rfl

/-- A box so wide that twice its width overflows, to `1.6e308`. -/
def farBox : Envelope := ⟨0.0, Float.ofBits 0x7fec7b1f3cac7433, 0.0, 1.0⟩

def farTiling : Tiling :=
  ⟨Tiling.uniformCells farBox 1 1, hullAll (Tiling.uniformCells farBox 1 1), true⟩

theorem uniform_farBox : Tiling.uniform farBox 1 1 = .ok farTiling :=
  Tiling.uniform_of_tiles (by decide) (by decide +kernel) (by decide) (by decide +kernel)
    (by decide +kernel)

/-- A point at the origin, one at `1.5e308` and one at the end of the box. -/
def farFeatures : List (Feature Nat) :=
  [⟨1, .single (.point ⟨0.0, 0.0⟩)⟩, ⟨2, .single (.point ⟨Float.ofBits 0x7feab36d48e1acf0, 0.0⟩)⟩,
    ⟨3, .single (.point ⟨Float.ofBits 0x7fec7b1f3cac7433, 0.0⟩)⟩]

theorem seenWithin_farFeatures : SeenWithin ⟨0.0, 0.0⟩ farFeatures :=
  seenWithin_of_meets rfl (by decide +kernel)

/-- The usual settings for a tree of quadrants. -/
def quadrantSettings : IndexSettings := { IndexSettings.default with kind := .quadtree }

/-- Of three items even the one at the point itself is overlooked: the third window is infinite. -/
theorem nearest_farFeatures : ∃ c₀ c, farTiling.partition farFeatures = .ok c₀ ∧
    c₀.buildIndex quadrantSettings = .ok c ∧ c.nearest ⟨0.0, 0.0⟩ 2 true = .ok [] ∧
      (finiteRanked ⟨0.0, 0.0⟩ (farFeatures.filter hasProperEnvelope)).length = 3 := by
  obtain ⟨c₀, h₀⟩ : ∃ c₀, farTiling.partition farFeatures = .ok c₀ := exists_ok (by decide +kernel)
  have hc := buildIndex_ok (s := quadrantSettings) IndexSettings.validate_default c₀
  obtain ⟨out, hout, -⟩ := nearest_iff uniform_farBox (by decide +kernel) (by decide +kernel) rfl h₀
    (.indexed rfl hc) (fun _ : true = true => rfl) (by decide) rfl seenWithin_farFeatures 2
  have hrun : ((farTiling.partition farFeatures).toOption.bind fun c₀ =>
      (c₀.buildIndex quadrantSettings).toOption.bind fun c =>
        (c.nearest ⟨0.0, 0.0⟩ 2 true).toOption.map List.length) = some 0 := by
    decide +kernel
  rw [h₀] at hrun
  simp only [Except.toOption, Option.bind_some, hc, hout, Option.map_some,
    Option.some.injEq] at hrun
  obtain rfl := List.eq_nil_of_length_eq_zero hrun
  exact ⟨c₀, _, h₀, hc, hout, by decide +kernel⟩

end Collection

end PlanarJoin
