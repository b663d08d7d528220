import Mathlib.Data.List.Forall2
import Mathlib.Data.List.Perm.Basic
import Mathlib.Data.List.Perm.Lattice
import Mathlib.Data.List.Perm.Subperm
import Mathlib.Data.List.ProdSigma

/-!
# Gathering what the partitions give

Queries ask every partition and put the answers together.  What is found in just one of the
partitions is found once in all, and if every partition answers there is an answer.

## Main definitions

* `Alike`: computations that fail alike, or succeed with answers in a relation.

## Main results

* `flatMap_comm_perm`: the order of two gatherings does not matter.
* `flatMap_filter_perm_replicate`: items are found as often as there are places that find them.
* `flatMap_filter_perm`: items of which each is found in one place are all found once.
* `exists_mapM_ok`: if every part succeeds, the whole does.
* `flatMap_subperm`, `flatMap_subperm_of_forall₂`: gathering fewer things gives fewer.
* `Alike.bind`, `Alike.map`, `Alike.mapM`: steps and parts that are alike.
-/

namespace PlanarJoin

variable {α β γ : Type}

/-! ## Found in some places -/

theorem map_filter_eq_flatMap (p : α → Bool) (f : α → β) (as : List α) :
    (as.filter p).map f = as.flatMap fun a => if p a then [f a] else [] := by
  induction as with
  | nil => rfl
  | cons a as ih =>
    rw [List.flatMap_cons, List.filter_cons, ← ih]
    split <;> rfl

theorem filter_eq_flatMap (p : α → Bool) (as : List α) :
    as.filter p = as.flatMap fun a => if p a then [a] else [] := by
  rw [← map_filter_eq_flatMap p (fun a => a), List.map_id']

theorem flatMap_comm_perm (xs : List α) (ys : List β) (f : α → β → List γ) :
    (xs.flatMap fun x => ys.flatMap (f x)).Perm (ys.flatMap fun y => xs.flatMap (f · y)) := by
  induction xs with
  | nil => simp
  | cons x xs ih =>
    rw [List.flatMap_cons]
    refine (ih.append_left _).trans ((List.flatMap_append_perm ys _ _).trans (List.Perm.of_eq ?_))
    exact List.flatMap_congr fun y _ => by rw [List.flatMap_cons]

/-- What one of the numbers below a count gives is given as often as numbers give it. -/
theorem flatMap_range_ite (n : Nat) (p : Nat → Bool) (x : α) :
    ((List.range n).flatMap fun j => if p j then [x] else []) =
      List.replicate ((List.range n).countP p) x := by
  rw [← map_filter_eq_flatMap p (fun _ => x), List.map_const', List.countP_eq_length_filter]

/-- Items are found as often as there are places where they are found. -/
theorem flatMap_filter_perm_replicate (n : Nat) (p : Nat → α → Bool) (as : List α) :
    ((List.range n).flatMap fun i => as.filter (p i)).Perm
      (as.flatMap fun a => List.replicate ((List.range n).countP (p · a)) a) := by
  simp only [filter_eq_flatMap]
  refine (flatMap_comm_perm _ as _).trans (List.Perm.of_eq ?_)
  exact List.flatMap_congr fun a _ => flatMap_range_ite n (p · a) a

/-- Repeated by their names, items have different names just if none is repeated. -/
theorem nodup_flatMap_replicate {as : List α} {name : α → β} (h : (as.map name).Nodup)
    (n : α → Nat) :
    (as.flatMap fun a => List.replicate (n a) (name a)).Nodup ↔ ∀ a ∈ as, n a ≤ 1 := by
  rw [List.nodup_flatMap]
  simp only [List.nodup_replicate]
  refine and_iff_left ((List.pairwise_map.mp h).imp ?_)
  intro a b hab x hxa hxb
  exact hab ((List.eq_of_mem_replicate hxa).symm.trans (List.eq_of_mem_replicate hxb))

theorem countP_range_eq_one {n i : Nat} {p : Nat → Bool} (hi : i < n)
    (hp : ∀ j < n, p j = true ↔ j = i) : (List.range n).countP p = 1 := by
  have hcount : (List.range n).countP p = (List.range n).count i := by
    refine List.countP_congr ?_
    intro j hj
    rw [hp j (List.mem_range.mp hj), beq_iff_eq]
  rw [hcount]
  exact List.count_eq_one_of_mem List.nodup_range (List.mem_range.mpr hi)

/-- Items of which each is found in one place are all found once. -/
theorem flatMap_filter_perm {n : Nat} {p : Nat → α → Bool} {q : α → Bool} {as : List α}
    (hone : ∀ a ∈ as, q a = true → ∃ i < n, ∀ j < n, p j a = true ↔ j = i)
    (hnone : ∀ a ∈ as, ∀ i < n, p i a = true → q a = true) :
    ((List.range n).flatMap fun i => as.filter (p i)).Perm (as.filter q) := by
  refine (flatMap_filter_perm_replicate n p as).trans (List.Perm.of_eq ?_)
  rw [filter_eq_flatMap]
  refine List.flatMap_congr ?_
  intro a ha
  cases hq : q a with
  | true =>
    obtain ⟨i, hi, hp⟩ := hone a ha hq
    rw [countP_range_eq_one hi hp]
    rfl
  | false =>
    have hzero : (List.range n).countP (p · a) = 0 := by
      rw [List.countP_eq_zero]
      intro i hi hp
      rw [hnone a ha i (List.mem_range.mp hi) hp] at hq
      cases hq
    rw [hzero]
    rfl

/-! ## Answers -/

theorem exists_ok {ε : Type} {x : Except ε α} (h : x.isOk = true) : ∃ y, x = .ok y := by
  cases x with
  | error e => cases h
  | ok y => exact ⟨y, rfl⟩

theorem eq_ok_of_toOption {ε : Type} {x : Except ε α} {a : α} (h : x.toOption = some a) :
    x = .ok a := by
  cases x with
  | error e => cases h
  | ok b => exact congrArg _ (Option.some.inj h)

theorem exists_of_bind_eq_ok {ε : Type} {x : Except ε α} {f : α → Except ε β} {b : β}
    (h : (x >>= f) = .ok b) : ∃ a, x = .ok a ∧ f a = .ok b := by
  cases x with
  | error e => cases h
  | ok a => exact ⟨a, rfl, h⟩

/-- An answer that is given after a check is given because the check succeeds. -/
theorem ok_of_map_const {ε : Type} {check : Except ε Unit} {a b : α}
    (h : check.map (fun _ => a) = .ok b) : check = .ok () ∧ a = b := by
  cases check with
  | error e => cases h
  | ok u => exact ⟨rfl, Except.ok.inj h⟩

/-- If every part succeeds, the whole does, and is made of what the parts give. -/
theorem exists_mapM_ok {ε : Type} {f : α → Except ε β} {R : α → β → Prop} {l : List α}
    (h : ∀ a ∈ l, ∃ b, f a = .ok b ∧ R a b) : ∃ bs, l.mapM f = .ok bs ∧ List.Forall₂ R l bs := by
  induction l with
  | nil => exact ⟨[], rfl, .nil⟩
  | cons a l ih =>
    obtain ⟨b, hb, hR⟩ := h a List.mem_cons_self
    obtain ⟨bs, hbs, hall⟩ := ih fun a ha => h a (List.mem_cons_of_mem _ ha)
    refine ⟨b :: bs, ?_, .cons hR hall⟩
    rw [List.mapM_cons, hb, hbs]
    rfl

/-- Of fewer items fewer pass. -/
theorem filter_sublist_filter {p q : α → Bool} {as : List α}
    (h : ∀ a ∈ as, p a = true → q a = true) : (as.filter p).Sublist (as.filter q) := by
  have hboth : as.filter p = (as.filter q).filter p := by
    rw [List.filter_filter]
    refine List.filter_congr ?_
    intro a ha
    cases hp : p a with
    | false => rfl
    | true => rw [h a ha hp, Bool.and_self]
  rw [hboth]
  exact List.filter_sublist

theorem flatten_subperm_of_forall₂ {xss yss : List (List α)}
    (h : List.Forall₂ List.Subperm xss yss) : xss.flatten.Subperm yss.flatten := by
  induction h with
  | nil => exact .refl []
  | cons hxy _ ih => exact hxy.append ih

theorem flatMap_subperm {f g : α → List β} {as : List α} (h : ∀ a ∈ as, (f a).Subperm (g a)) :
    (as.flatMap f).Subperm (as.flatMap g) := by
  induction as with
  | nil => exact .refl []
  | cons a as ih =>
    rw [List.flatMap_cons, List.flatMap_cons]
    exact (h a List.mem_cons_self).append (ih fun b hb => h b (List.mem_cons_of_mem _ hb))

theorem flatMap_subperm_of_forall₂ {f : α → List γ} {g : β → List γ} {as : List α} {bs : List β}
    (h : List.Forall₂ (fun a b => (g b).Subperm (f a)) as bs) :
    (bs.flatMap g).Subperm (as.flatMap f) := by
  induction h with
  | nil => exact .refl []
  | cons hab _ ih =>
    rw [List.flatMap_cons, List.flatMap_cons]
    exact hab.append ih

theorem flatMap_perm_of_forall₂ {f : α → List γ} {g : β → List γ} {as : List α} {bs : List β}
    (h : List.Forall₂ (fun a b => (g b).Perm (f a)) as bs) :
    (bs.flatMap g).Perm (as.flatMap f) := by
  induction h with
  | nil => exact .rfl
  | cons hab _ ih =>
    rw [List.flatMap_cons, List.flatMap_cons]
    exact hab.append ih

/-! ## Two ways to an answer -/

/-- Two computations fail alike, or both succeed with answers in a relation. -/
inductive Alike {ε : Type} (R : α → β → Prop) : Except ε α → Except ε β → Prop
  | error (e : ε) : Alike R (.error e) (.error e)
  | ok {a : α} {b : β} (h : R a b) : Alike R (.ok a) (.ok b)

namespace Alike

variable {δ ε : Type} {R : α → β → Prop} {S : γ → δ → Prop} {x : Except ε α} {y : Except ε β}

theorem refl (x : Except ε α) : Alike Eq x x := by
  cases x with
  | error e => exact .error e
  | ok a => exact .ok rfl

theorem exists_ok {a : α} (h : Alike R (.ok a) y) : ∃ b, y = .ok b ∧ R a b := by
  cases h with
  | ok h => exact ⟨_, rfl, h⟩

theorem weaken {T : α → β → Prop} (h : Alike R x y) (hT : ∀ a b, R a b → T a b) :
    Alike T x y := by
  cases h with
  | error e => exact .error e
  | ok h => exact .ok (hT _ _ h)

theorem bind (h : Alike R x y) {f : α → Except ε γ} {g : β → Except ε δ}
    (hfg : ∀ a b, R a b → Alike S (f a) (g b)) : Alike S (x >>= f) (y >>= g) := by
  cases h with
  | error e => exact .error e
  | ok h => exact hfg _ _ h

theorem map (h : Alike R x y) {f : α → γ} {g : β → δ} (hfg : ∀ a b, R a b → S (f a) (g b)) :
    Alike S (x.map f) (y.map g) := by
  cases h with
  | error e => exact .error e
  | ok h => exact .ok (hfg _ _ h)

/-- Parts that are alike make wholes that are alike. -/
theorem mapM {T : β → δ → Prop} {f : α → Except ε β} {g : α → Except ε δ}
    (h : ∀ a, Alike T (f a) (g a)) (l : List α) :
    Alike (List.Forall₂ T) (l.mapM f) (l.mapM g) := by
  induction l with
  | nil => exact .ok .nil
  | cons a l ih =>
    rw [List.mapM_cons, List.mapM_cons]
    refine (h a).bind ?_
    intro b d hbd
    refine ih.bind ?_
    intro bs ds hall
    exact .ok (.cons hbd hall)

end Alike

end PlanarJoin
