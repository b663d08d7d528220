import Mathlib.Data.List.Nodup
import Mathlib.Data.List.Perm.Basic
import PlanarJoin.Settings.Json

/-!
# Records

An object is taken as a record if each of its members is allowed and no field is given twice; the
order of the members does not matter then.  A record of some fields, in any order and among members
that are passed over, is read as these fields, and what is read for a field is what the value gives
for it, by name or by position.

## Main definitions

* `Json.Record.Allows`, `Json.Record.named?`: the members of a record, and those under its names.
* `Json.Record.Written`: the objects that give some fields of a record.
* `Json.Record.Refuses`: the objects that are not taken as a record.
* `Json.Record.Gives`: the value that is given for a field.

## Main results

* `Json.Record.fields?_object`: what is read from an object.
* `Json.Record.Written.fields?`: the fields that were written are read, in whichever order.
* `Json.Record.written_toValue`: an object with all fields, in order, is such an object.
* `Json.Record.Refuses.fields?`: a refused object is not read.
* `Json.Record.gives_iff`: what is read for a field is what is given for it.
-/

namespace PlanarJoin.Json.Record

/-! ## Lookups -/

section Lookup

variable {α β : Type} [BEq α] [LawfulBEq α] {a : α} {l l' : List (α × β)}

/-- Where keys differ, a lookup finds whatever is there. -/
theorem lookup_eq_some_iff_mem (h : (l.map (·.1)).Nodup) {b : β} :
    l.lookup a = some b ↔ (a, b) ∈ l := by
  induction l with
  | nil => simp
  | cons p l ih =>
    obtain ⟨k, c⟩ := p
    obtain ⟨hk, hl⟩ := List.nodup_cons.mp h
    by_cases hak : a = k
    · subst hak
      rw [List.lookup_cons_self, List.mem_cons, Option.some_inj, Prod.mk.injEq]
      constructor
      · rintro rfl
        exact .inl ⟨rfl, rfl⟩
      · rintro (⟨-, rfl⟩ | hb)
        · rfl
        · exact absurd (List.mem_map_of_mem hb) hk
    · have hne : (a == k) = false := beq_eq_false_iff_ne.mpr hak
      rw [List.lookup_cons, hne, List.mem_cons, Prod.mk.injEq]
      simp only [hak, false_and, false_or]
      exact ih hl

/-- The order of different keys does not matter to a lookup. -/
theorem lookup_eq_of_perm (h : l.Perm l') (hnodup : (l.map (·.1)).Nodup) :
    l.lookup a = l'.lookup a := by
  refine Option.ext fun b => ?_
  rw [lookup_eq_some_iff_mem hnodup, lookup_eq_some_iff_mem ((h.map _).nodup_iff.mp hnodup),
    h.mem_iff]

end Lookup

variable {r : Record} {ms : List (Option String × Value)} {m : Option String × Value}
  {given : List (Option Value)} {known : List (String × Value)} {names : List String}
  {name : String} {v w : Value} {i : Nat}

/-! ## Members -/

/-- A member that is not refused by its name. -/
def Allows (r : Record) (m : Option String × Value) : Prop :=
  ∃ k, m.1 = some k ∧ (r.strict = true → k ∈ r.names)

/-- The name and value of a member, if it stands under a name of the record. -/
def named? (r : Record) (m : Option String × Value) : Option (String × Value) :=
  m.1.bind fun k => if r.names.contains k then some (k, m.2) else none

theorem named?_eq_some_iff :
    r.named? m = some (name, w) ↔ m = (some name, w) ∧ name ∈ r.names := by
  obtain ⟨_ | k, v⟩ := m
  · simp [named?]
  · simp only [named?, Option.bind_some, Option.ite_none_right_eq_some, Option.some.injEq,
      Prod.mk.injEq, List.contains_iff_mem]
    constructor
    · rintro ⟨hk, rfl, rfl⟩
      exact ⟨⟨rfl, rfl⟩, hk⟩
    · rintro ⟨⟨rfl, rfl⟩, hk⟩
      exact ⟨hk, rfl, rfl⟩

/-- The members under names of the record are found if all are allowed. -/
theorem known?_eq_some_iff :
    r.known? ms = some known ↔ (∀ m ∈ ms, r.Allows m) ∧ ms.filterMap r.named? = known := by
  induction ms generalizing known with
  | nil => simp [known?]
  | cons m ms ih =>
    rw [List.forall_mem_cons]
    obtain ⟨_ | k, v⟩ := m
    · simp [known?, Allows]
    rw [known?]
    by_cases hk : r.names.contains k = true
    · have hnamed : r.named? (some k, v) = some (k, v) := if_pos hk
      have hallows : r.Allows (some k, v) := ⟨k, rfl, fun _ => List.contains_iff_mem.mp hk⟩
      rw [if_pos hk, List.filterMap_cons_some hnamed, Option.map_eq_some_iff]
      simp only [ih, hallows, true_and]
      constructor
      · rintro ⟨_, ⟨hms, rfl⟩, rfl⟩
        exact ⟨hms, rfl⟩
      · rintro ⟨hms, rfl⟩
        exact ⟨_, ⟨hms, rfl⟩, rfl⟩
    · have hnamed : r.named? (some k, v) = none := if_neg hk
      have hallows : r.Allows (some k, v) ↔ r.strict = false := by
        simp [Allows, List.contains_iff_mem.not.mp hk]
      rw [if_neg hk, List.filterMap_cons_none hnamed, hallows]
      cases r.strict with
      | true => simp
      | false => simpa using ih

/-- An object is read as a record if its members are allowed and no field is given twice. -/
theorem fields?_object : r.fields? (.object ms) = some given ↔ (∀ m ∈ ms, r.Allows m) ∧
    ((ms.filterMap r.named?).map (·.1)).Nodup ∧
    r.names.map (fun name => (ms.filterMap r.named?).lookup name) = given := by
  rw [fields?, Option.bind_eq_some_iff]
  constructor
  · rintro ⟨known, hknown, hgiven⟩
    obtain ⟨hms, rfl⟩ := known?_eq_some_iff.mp hknown
    rw [Option.ite_none_right_eq_some] at hgiven
    exact ⟨hms, hgiven.1, Option.some.inj hgiven.2⟩
  · rintro ⟨hms, hnodup, rfl⟩
    exact ⟨_, known?_eq_some_iff.mpr ⟨hms, rfl⟩, if_pos hnodup⟩

/-! ## Written records -/

/-- The fields that are given, with their names. -/
def assignments (names : List String) (given : List (Option Value)) : List (String × Value) :=
  (names.zip given).filterMap fun p => p.2.map (p.1, ·)

/-- The objects that give some fields of a record, in any order; a record that is not strict may
have other members, which are passed over. -/
def Written (r : Record) (given : List (Option Value)) (v : Value) : Prop :=
  ∃ ms others, v = .object ms ∧
    ms.Perm ((assignments r.names given).map (fun p => (some p.1, p.2)) ++ others) ∧
    ∀ m ∈ others, r.strict = false ∧ ∃ k, m.1 = some k ∧ k ∉ r.names

theorem mem_names_of_mem_assignments {p : String × Value} (h : p ∈ assignments names given) :
    p.1 ∈ names := by
  obtain ⟨⟨name, w⟩, hp, hw⟩ := List.mem_filterMap.mp h
  obtain ⟨w, -, rfl⟩ := Option.map_eq_some_iff.mp hw
  exact (List.of_mem_zip hp).1

theorem assignments_cons (name : String) (names : List String) (w : Option Value)
    (given : List (Option Value)) : assignments (name :: names) (w :: given) =
      (w.map (name, ·)).toList ++ assignments names given := by
  cases w <;> rfl

theorem nodup_assignments (h : names.Nodup) (given : List (Option Value)) :
    ((assignments names given).map (·.1)).Nodup := by
  induction names generalizing given with
  | nil => exact .nil
  | cons name names ih =>
    obtain ⟨hname, hnames⟩ := List.nodup_cons.mp h
    cases given with
    | nil => exact .nil
    | cons w given =>
      rw [assignments_cons]
      cases w with
      | none => exact ih hnames given
      | some w =>
        refine List.nodup_cons.mpr ⟨fun hmem => hname ?_, ih hnames given⟩
        obtain ⟨p, hp, rfl⟩ := List.mem_map.mp hmem
        exact mem_names_of_mem_assignments hp

/-- Different names find the fields that are given. -/
theorem map_lookup_assignments (h : names.Nodup) (hlen : given.length = names.length) :
    names.map (fun name => (assignments names given).lookup name) = given := by
  induction names generalizing given with
  | nil => rw [List.length_eq_zero_iff.mp hlen]; rfl
  | cons name names ih =>
    obtain ⟨w, given, rfl⟩ := List.exists_cons_of_length_eq_add_one hlen
    obtain ⟨hname, hnames⟩ := List.nodup_cons.mp h
    rw [List.map_cons, assignments_cons]
    congr 1
    · cases w with
      | none =>
        refine List.lookup_eq_none_iff.mpr fun p hp => bne_iff_ne.mpr ?_
        rintro rfl
        exact hname (mem_names_of_mem_assignments hp)
      | some w => exact List.lookup_cons_self
    · refine (List.map_congr_left fun k hk => ?_).trans (ih hnames (Nat.succ.inj hlen))
      cases w with
      | none => rfl
      | some w =>
        have hne : (k == name) = false := beq_eq_false_iff_ne.mpr fun h => hname (h ▸ hk)
        exact (List.lookup_cons ..).trans (by rw [hne]; rfl)

theorem filterMap_named?_assignments (given : List (Option Value)) :
    ((assignments r.names given).map fun p => (some p.1, p.2)).filterMap r.named? =
      assignments r.names given := by
  rw [List.filterMap_map]
  refine (List.filterMap_congr fun p hp => ?_).trans List.filterMap_some
  exact named?_eq_some_iff.mpr ⟨rfl, mem_names_of_mem_assignments hp⟩

/-- The fields that were written are read, in whichever order they are. -/
theorem Written.fields? (hnames : r.names.Nodup) (hlen : given.length = r.names.length)
    (h : r.Written given v) : r.fields? v = some given := by
  obtain ⟨ms, others, rfl, hperm, hothers⟩ := h
  have hothers' : others.filterMap r.named? = [] := by
    refine List.filterMap_eq_nil_iff.mpr fun m hm => ?_
    obtain ⟨-, k, hk, hnot⟩ := hothers m hm
    rw [named?, hk, Option.bind_some, if_neg (List.contains_iff_mem.not.mpr hnot)]
  have hknown : (ms.filterMap r.named?).Perm (assignments r.names given) := by
    have := hperm.filterMap r.named?
    rwa [List.filterMap_append, filterMap_named?_assignments, hothers', List.append_nil] at this
  have hnodup := nodup_assignments hnames given
  refine fields?_object.mpr ⟨fun m hm => ?_, (hknown.map _).nodup_iff.mpr hnodup, ?_⟩
  · rcases List.mem_append.mp (hperm.mem_iff.mp hm) with hm | hm
    · obtain ⟨p, hp, rfl⟩ := List.mem_map.mp hm
      exact ⟨p.1, rfl, fun _ => mem_names_of_mem_assignments hp⟩
    · obtain ⟨hstrict, k, hk, -⟩ := hothers m hm
      exact ⟨k, hk, fun h => absurd h (by rw [hstrict]; exact Bool.false_ne_true)⟩
  · refine (List.map_congr_left fun name _ => ?_).trans (map_lookup_assignments hnames hlen)
    exact (lookup_eq_of_perm hknown.symm hnodup).symm

theorem written_toValue (r : Record) (vs : List Value) :
    r.Written (vs.map some) (r.toValue vs) := by
  refine ⟨_, [], rfl, ?_, nofun⟩
  have hall : assignments r.names (vs.map some) = r.names.zip vs := by
    rw [assignments, List.zip_map_right, List.filterMap_map]
    exact List.filterMap_some
  rw [List.append_nil, hall, List.zip_map_left]
  exact .refl _

/-! ## Refused records -/

/-- The objects that are not taken as a record: a name is not known, or a field is given twice. -/
def Refuses (r : Record) (v : Value) : Prop :=
  ∃ ms, v = .object ms ∧ ((r.strict = true ∧ ∃ m ∈ ms, ∀ name ∈ r.names, m.1 ≠ some name) ∨
    ∃ name ∈ r.names, 2 ≤ (ms.map (·.1)).count (some name))

/-- A name is found as often as it is there. -/
theorem count_named (h : name ∈ r.names) (ms : List (Option String × Value)) :
    ((ms.filterMap r.named?).map (·.1)).count name = (ms.map (·.1)).count (some name) := by
  rw [List.map_filterMap, List.count_filterMap, List.count, List.countP_map]
  refine List.countP_congr fun m _ => ?_
  obtain ⟨_ | k, w⟩ := m
  · simp [named?]
  · by_cases hk : k = name
    · subst hk
      simp [named?, h]
    · simp [named?, hk]

/-- A refused object is not read. -/
theorem Refuses.fields? (h : r.Refuses v) : r.fields? v = none := by
  obtain ⟨ms, rfl, hms⟩ := h
  refine Option.eq_none_iff_forall_ne_some.mpr fun given hgiven => ?_
  obtain ⟨hallows, hnodup, -⟩ := fields?_object.mp hgiven
  rcases hms with ⟨hstrict, m, hm, hne⟩ | ⟨name, hname, htwice⟩
  · obtain ⟨k, hk, hknown⟩ := hallows m hm
    exact hne k (hknown hstrict) hk
  · have honce := List.nodup_iff_count_le_one.mp hnodup name
    rw [count_named hname] at honce
    omega

/-! ## Given fields -/

/-- The value that is given for a field, by name or by position. -/
inductive Gives (r : Record) : Value → String → Value → Prop
  | member {ms : List (Option String × Value)} {name : String} {w : Value}
    (h : (some name, w) ∈ ms) : Gives r (.object ms) name w
  | item {vs : List Value} {i : Nat} {name : String} {w : Value} (hname : r.names[i]? = some name)
    (h : vs[i]? = some w) : Gives r (.array vs) name w

/-- The item at a position is read there, and nothing behind the last one. -/
theorem getElem?_padded (vs : List Value) (n i : Nat) :
    (vs.map some ++ List.replicate n none)[i]? = some (some w) ↔ vs[i]? = some w := by
  by_cases hi : i < vs.length
  · rw [List.getElem?_append_left (by rwa [List.length_map]), List.getElem?_map,
      Option.map_eq_some_iff]
    simp only [Option.some_inj, exists_eq_right]
  · rw [List.getElem?_append_right (by rw [List.length_map]; omega), List.getElem?_replicate,
      List.getElem?_eq_none (by omega)]
    split <;> simp

/-- What is read for a field is what is given for it. -/
theorem gives_iff (hnames : r.names.Nodup) (h : r.fields? v = some given)
    (hi : r.names[i]? = some name) : r.Gives v name w ↔ given[i]? = some (some w) := by
  cases v with
  | object ms =>
    obtain ⟨-, hnodup, rfl⟩ := fields?_object.mp h
    rw [List.getElem?_map, hi, Option.map_some, Option.some_inj, lookup_eq_some_iff_mem hnodup,
      List.mem_filterMap]
    constructor
    · rintro (hw | _)
      exact ⟨_, hw, named?_eq_some_iff.mpr ⟨rfl, List.mem_of_getElem? hi⟩⟩
    · rintro ⟨m, hm, hw⟩
      obtain ⟨rfl, -⟩ := named?_eq_some_iff.mp hw
      exact .member hm
  | array vs =>
    rw [fields?, Option.ite_none_right_eq_some] at h
    obtain rfl := Option.some.inj h.2
    rw [getElem?_padded]
    constructor
    · intro hgives
      cases hgives with
      | item hj hw =>
        obtain ⟨hlt, -⟩ := List.getElem?_eq_some_iff.mp hi
        rwa [(List.getElem?_inj hlt hnames).mp (hi.trans hj.symm)]
    · exact .item hi
  | _ => cases h

end PlanarJoin.Json.Record
