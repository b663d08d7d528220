import PlanarJoin.Proofs.Query.Nearest

/-!
# The searches end

Two loops go on until a search is settled: one doubles the window, and one asks for twice as many
items until enough of them are owned.  The first ends at the latest when the radius has overflowed,
as an infinite window covers every proper extent, whatever the index answers.  The second ends at
the latest when the greatest number is asked for, as no list has so many items.  So the bounds on
the rounds that the definitions carry make no difference.

## Main results

* `Searchable.windows_end`: the windows double until the first that settles the search.
* `Index.Holds.fetches_end`: twice as many items are asked for until the first time that settles.
* `searches_end`: both loops end.
-/

namespace PlanarJoin

open Binary64 Envelope

/-! ## Doubling the window -/

variable {α : Type} [Spatial α]

namespace Searchable

/-- A window whose radius has overflowed settles a search, whatever it has found. -/
theorem settles_of_top {s : Searchable α} {p : Coord} (he : s.extent.isProper = true)
    (hp : p.isFinite = true) (k : Nat) {r : Float} (hr : top ≤ rank r) :
    s.settles p k (s.window p r) = true := by
  rw [settles, Bool.or_eq_true]
  exact .inr (covers_windowAt_of_top hp he hr)

/-- The windows double until the first that settles the search, at the latest when the radius has
overflowed. -/
theorem windows_end (s : Searchable α) (he : s.extent.isProper = true) {p : Coord}
    (hp : p.isFinite = true) {k : Nat} (hk : 1 ≤ k) (hsize : 1 ≤ s.size) :
    ∃ n ≤ maxDoublings,
      IsLeast {m | s.settles p k
        (s.window p (doubled (firstRadius s.extent p k s.size) m)) = true} n ∧
      s.windows p k = (List.range (n + 1)).map (fun m =>
        s.window p (doubled (firstRadius s.extent p k s.size) m)) ∧
      ∀ fuel, n ≤ fuel →
        s.windowsFrom p k fuel (firstRadius s.extent p k s.size) = s.windows p k := by
  have hlast := settles_of_top he hp k (doubled_top (firstRadius_pos s.extent p k s.size))
  rw [← iterate_double] at hlast
  obtain ⟨n, hn, hrounds⟩ :=
    exists_rounds (fun r => s.settles p k (s.window p r)) (· * 2.0) hlast
  have hle : n ≤ maxDoublings := hn.2 hlast
  have hfrom {fuel : Nat} (hfuel : n ≤ fuel) :
      s.windowsFrom p k fuel (firstRadius s.extent p k s.size) = (List.range (n + 1)).map fun m =>
        s.window p (doubled (firstRadius s.extent p k s.size) m) := by
    rw [windowsFrom_eq, hrounds fuel hfuel, List.map_map]
    simp only [Function.comp_def, iterate_double]
  have hwindows : s.windows p k =
      s.windowsFrom p k maxDoublings (firstRadius s.extent p k s.size) := by
    have hk0 : k ≠ 0 := by omega
    have hs0 : s.size ≠ 0 := by omega
    rw [windows, if_neg (by simp [hk0, hs0, he, hp])]
  simp only [iterate_double] at hn
  exact ⟨n, hle, hn, hwindows.trans (hfrom hle),
    fun fuel hfuel => (hfrom hfuel).trans (hwindows.trans (hfrom hle)).symm⟩

end Searchable

/-! ## Asking for more -/

theorem iterate_saturate {k g : Nat} (hk : k ≤ g) (n : Nat) :
    (fun a => min (2 * a) g)^[n] k = min (k * 2 ^ n) g := by
  induction n with
  | zero => rw [Function.iterate_zero_apply, pow_zero, Nat.mul_one, Nat.min_eq_left hk]
  | succ n ih =>
    rw [Function.iterate_succ_apply', ih, pow_succ, ← Nat.mul_assoc]
    omega

namespace Index

variable {i : Index α} {as : List α} {o : Option Ownership} {p : Coord} {k : Nat}

theorem Holds.settles_of_lt (h : i.Holds as) (o : Option Ownership) (p : Coord) (k : Nat)
    {asked : Nat} (hlt : as.length < asked) : (i.fetch p asked).settles o k = true := by
  have hfound : (i.nearest p asked).length ≤ as.length :=
    (h.nearest_subperm p asked).length_le.trans
      ((List.length_filter_le _ _).trans (List.length_filterMap_le _ _))
  rw [Fetch.settles, Bool.or_eq_true, decide_eq_true_eq, decide_eq_true_eq]
  exact .inr (hfound.trans_lt hlt)

/-- Twice as many items are asked for until enough are owned or no more are found, at the latest
when the greatest number is asked for. -/
theorem Holds.fetches_end (h : i.Holds as) (hlen : as.length < greatestCount)
    (hk : k ≤ greatestCount) (o : Option Ownership) (p : Coord) :
    ∃ n ≤ 64, IsLeast {m | (i.fetch p (min (k * 2 ^ m) greatestCount)).settles o k = true} n ∧
      i.fetches o p k =
        (List.range (n + 1)).map (fun m => i.fetch p (min (k * 2 ^ m) greatestCount)) ∧
      ∀ fuel, n ≤ fuel → i.fetchesFrom o p k fuel k = i.fetches o p k := by
  have hends (b : Nat) (hb : k = 0 ∨ as.length < min (k * 2 ^ b) greatestCount) :
      (i.fetch p ((fun a => min (2 * a) greatestCount)^[b] k)).settles o k = true := by
    rw [iterate_saturate hk]
    rcases hb with rfl | hlt
    · rfl
    · exact h.settles_of_lt o p k hlt
  have hgreat : k = 0 ∨ as.length < min (k * 2 ^ 64) greatestCount := by
    have : greatestCount < 2 ^ 64 := by decide
    omega
  have hsoon : k = 0 ∨ as.length < min (k * 2 ^ (as.length + 1)) greatestCount := by
    rcases Nat.eq_zero_or_pos k with h0 | hpos
    · exact .inl h0
    · have hpow : as.length + 1 < 2 ^ (as.length + 1) := Nat.lt_two_pow_self
      have := Nat.le_mul_of_pos_left (2 ^ (as.length + 1)) hpos
      omega
  -- so few rounds are made that the bound of the definition is not reached
  obtain ⟨n, hn, hrounds⟩ := exists_rounds (fun a => (i.fetch p a).settles o k)
    (fun a => min (2 * a) greatestCount) (hends 64 hgreat)
  have hfrom {fuel : Nat} (hfuel : n ≤ fuel) : i.fetchesFrom o p k fuel k =
      (List.range (n + 1)).map fun m => i.fetch p (min (k * 2 ^ m) greatestCount) := by
    rw [fetchesFrom_eq, hrounds fuel hfuel, List.map_map]
    simp only [Function.comp_def, iterate_saturate hk]
  have hfuel : n ≤ i.size + 1 := by
    rw [h.size]
    exact hn.2 (hends _ hsoon)
  have hle : n ≤ 64 := hn.2 (hends 64 hgreat)
  simp only [iterate_saturate hk] at hn
  exact ⟨n, hle, hn, hfrom hfuel, fun fuel h => (hfrom h).trans (hfrom hfuel).symm⟩

end Index

/-- Both loops end.  For every proper extent, finite point and positive number of items, the first
radius is finite and positive, and the windows double until the first that settles the search,
whatever the index answers.  For every index and every number of items up to the greatest, twice as
many are asked for, but no more than the greatest, until the first time that settles; an index in
memory has fewer items.  More rounds than these would be allowed, and are not made. -/
theorem searches_end :
    (∀ (s : Searchable α) (p : Coord) (k : Nat), s.extent.isProper = true → p.isFinite = true →
      1 ≤ k → 1 ≤ s.size →
      let r := firstRadius s.extent p k s.size
      (r.isFinite = true ∧ 0.0 < r) ∧
      ∃ n ≤ maxDoublings,
        IsLeast {m | s.settles p k (s.window p (doubled r m)) = true} n ∧
        s.windows p k = (List.range (n + 1)).map (fun m => s.window p (doubled r m)) ∧
        ∀ fuel, n ≤ fuel → s.windowsFrom p k fuel r = s.windows p k) ∧
    (∀ (s : IndexSettings) (calls : List (Index.Call α)) (o : Option Ownership) (p : Coord)
      (k : Nat), (Index.inserted calls).length < greatestCount → k ≤ greatestCount →
      let i := s.emptyIndex.after calls
      let asked := fun m => min (k * 2 ^ m) greatestCount
      ∃ n ≤ 64, IsLeast {m | (i.fetch p (asked m)).settles o k = true} n ∧
        i.fetches o p k = (List.range (n + 1)).map (fun m => i.fetch p (asked m)) ∧
        ∀ fuel, n ≤ fuel → i.fetchesFrom o p k fuel k = i.fetches o p k) := by
  constructor
  · intro s p k he hp hk hsize
    exact ⟨firstRadius_spec _ _ _ _, s.windows_end he hp hk hsize⟩
  · intro s calls o p k hlen hk
    have hholds := Index.holds_emptyIndex_after s calls
    exact hholds.fetches_end ((List.length_filter_le _ _).trans_lt hlen) hk o p

/-- An index that never finds anything. -/
def silent : Searchable (Feature Nat) := ⟨1, ⟨0.0, 1.0, 0.0, 1.0⟩, fun _ => []⟩

/-- A search of an index that finds nothing ends, and so does one for the greatest number of items,
which never becomes greater. -/
theorem searches_end_silent : (∃ n ≤ maxDoublings, (silent.windows ⟨5.0, 5.0⟩ 1).length = n + 1) ∧
    ∃ n ≤ 64, ((IndexSettings.default.emptyIndex.after
      [.insert (⟨1, .single (.point ⟨0.0, 0.0⟩)⟩ : Feature Nat)]).fetches none ⟨5.0, 5.0⟩
        greatestCount).map (·.asked) = List.replicate (n + 1) greatestCount := by
  obtain ⟨hwindows, hfetches⟩ := searches_end (α := Feature Nat)
  constructor
  · obtain ⟨-, n, hn, -, heq, -⟩ := hwindows silent ⟨5.0, 5.0⟩ 1 (by decide) (by decide)
      (Nat.le_refl 1) (Nat.le_refl 1)
    exact ⟨n, hn, by rw [heq, List.length_map, List.length_range]⟩
  · obtain ⟨n, hn, -, heq, -⟩ := hfetches .default
      [.insert ⟨1, .single (.point ⟨0.0, 0.0⟩)⟩] none ⟨5.0, 5.0⟩ greatestCount (by decide)
      (Nat.le_refl _)
    refine ⟨n, hn, ?_⟩
    rw [heq, List.map_map, List.eq_replicate_iff, List.length_map, List.length_range]
    refine ⟨rfl, List.forall_mem_map.mpr fun m _ => ?_⟩
    exact Nat.min_eq_right (Nat.le_mul_of_pos_right greatestCount (Nat.two_pow_pos m))

end PlanarJoin
