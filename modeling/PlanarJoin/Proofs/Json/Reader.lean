import PlanarJoin.Json.Reader
import PlanarJoin.Proofs.Json.Grammar

/-!
# Reading tokens

The reader takes the tokens of a value apart again.  The fuel it is given, twice the number of
tokens, is more than it needs, as each call takes a token of its own; and whatever the fuel, it
reads nothing but the tokens of values.

## Main definitions

* `Json.Value.Enough`: fuel with which the tokens of values are read.
* `Json.Value.Faithful`: fuel with which nothing else is.

## Main results

* `Json.Value.read_tokens`: the tokens of a value are read as the value.
* `Json.Value.parse?_eq_some_iff_tokenize`: a text is read as a value if its tokens are those of
  the value.
-/

namespace PlanarJoin.Json.Value

variable {ts rest : List Token} {fuel : Nat}

/-! ## Brackets -/

theorem exists_tokens (v : Value) : ∃ t ts, v.tokens = t :: ts ∧ t ≠ .closeArray := by
  cases v with
  | array vs => cases vs <;> exact ⟨_, _, rfl, nofun⟩
  | object ms => cases ms <;> exact ⟨_, _, rfl, nofun⟩
  | _ => exact ⟨_, _, rfl, nofun⟩

theorem length_tokens_pos (v : Value) : 0 < v.tokens.length := by
  obtain ⟨t, ts, hts, -⟩ := v.exists_tokens
  rw [hts]
  exact Nat.succ_pos _

theorem head?_tokens (v : Value) (rest : List Token) :
    (v.tokens ++ rest).head? ≠ some .closeArray := by
  obtain ⟨t, ts, hts, ht⟩ := v.exists_tokens
  rw [hts]
  exact fun h => ht (Option.some.inj h)

theorem read_openArray (h : ts.head? ≠ some .closeArray) :
    read (fuel + 1) (.openArray :: ts) =
      (readItems fuel ts).map fun (vs, ts) => (array vs, ts) := by
  match ts with
  | [] => rfl
  | t :: ts => cases t <;> first | rfl | exact absurd rfl h

theorem read_openObject (h : ts.head? ≠ some .closeObject) :
    read (fuel + 1) (.openObject :: ts) =
      (readMembers fuel ts).map fun (ms, ts) => (object ms, ts) := by
  match ts with
  | [] => rfl
  | t :: ts => cases t <;> first | rfl | exact absurd rfl h

/-! ## Values -/

/-- With this much fuel, everything whose tokens are as many is read. -/
structure Enough (fuel : Nat) : Prop where
  value : ∀ v rest, v.tokens.length ≤ fuel → read fuel (v.tokens ++ rest) = some (v, rest)
  items : ∀ v vs rest, (v.tokens ++ itemTokens vs).length < fuel →
    readItems fuel (v.tokens ++ (itemTokens vs ++ .closeArray :: rest)) = some (v :: vs, rest)
  members : ∀ k v ms rest, (v.tokens ++ memberTokens ms).length < fuel →
    readMembers fuel (.string k :: .colon ::
      (v.tokens ++ (memberTokens ms ++ .closeObject :: rest))) = some ((k, v) :: ms, rest)

theorem Enough.succ_value (h : Enough fuel) (v : Value) (rest : List Token)
    (hv : v.tokens.length ≤ fuel + 1) : read (fuel + 1) (v.tokens ++ rest) = some (v, rest) := by
  cases v with
  | null | bool b | number n | string s => rfl
  | array vs =>
    cases vs with
    | nil => rfl
    | cons v vs =>
      simp only [tokens, List.length_cons, List.length_append, List.length_nil] at hv
      simp only [tokens, List.cons_append, List.append_assoc, List.nil_append]
      rw [read_openArray (head?_tokens v _), h.items v vs rest (by rw [List.length_append]; omega)]
      rfl
  | object ms =>
    cases ms with
    | nil => rfl
    | cons m ms =>
      obtain ⟨k, v⟩ := m
      simp only [tokens, List.length_cons, List.length_append, List.length_nil] at hv
      simp only [tokens, List.cons_append, List.append_assoc, List.nil_append]
      rw [read_openObject (fun h => by cases h),
        h.members k v ms rest (by rw [List.length_append]; omega)]
      rfl

theorem Enough.succ_items (h : Enough fuel) (v : Value) (vs : List Value) (rest : List Token)
    (hv : (v.tokens ++ itemTokens vs).length < fuel + 1) :
    readItems (fuel + 1) (v.tokens ++ (itemTokens vs ++ .closeArray :: rest)) =
      some (v :: vs, rest) := by
  rw [List.length_append] at hv
  rw [readItems, h.value v _ (by omega)]
  cases vs with
  | nil => rfl
  | cons w vs =>
    simp only [itemTokens, List.length_cons, List.length_append] at hv
    simp only [itemTokens, List.cons_append, List.append_assoc]
    rw [h.items w vs rest (by rw [List.length_append]; omega)]
    rfl

theorem Enough.succ_members (h : Enough fuel) (k : Option String) (v : Value)
    (ms : List (Option String × Value)) (rest : List Token)
    (hv : (v.tokens ++ memberTokens ms).length < fuel + 1) :
    readMembers (fuel + 1) (.string k :: .colon ::
      (v.tokens ++ (memberTokens ms ++ .closeObject :: rest))) = some ((k, v) :: ms, rest) := by
  rw [List.length_append] at hv
  rw [readMembers, h.value v _ (by omega)]
  cases ms with
  | nil => rfl
  | cons m ms =>
    obtain ⟨l, w⟩ := m
    simp only [memberTokens, List.length_cons, List.length_append] at hv
    simp only [memberTokens, List.cons_append, List.append_assoc]
    rw [h.members l w ms rest (by rw [List.length_append]; omega)]
    rfl

/-- Any fuel is enough for as many tokens, by the recursion of the reader. -/
theorem enough (fuel : Nat) : Enough fuel := by
  induction fuel with
  | zero =>
    refine ⟨?_, fun _ _ _ h => absurd h (Nat.not_lt_zero _),
      fun _ _ _ _ h => absurd h (Nat.not_lt_zero _)⟩
    intro v rest hv
    exact absurd hv (Nat.not_le_of_lt v.length_tokens_pos)
  | succ fuel ih => exact ⟨ih.succ_value, ih.succ_items, ih.succ_members⟩

theorem read_tokens (v : Value) (rest : List Token) (h : v.tokens.length ≤ fuel) :
    read fuel (v.tokens ++ rest) = some (v, rest) :=
  (enough fuel).value v rest h

/-! ## Tokens of values -/

/-- With this much fuel, only the tokens of a value are read as the value. -/
structure Faithful (fuel : Nat) : Prop where
  value : ∀ ts v rest, read fuel ts = some (v, rest) → ts = v.tokens ++ rest
  items : ∀ ts vs rest, readItems fuel ts = some (vs, rest) →
    ∃ w ws, vs = w :: ws ∧ ts = w.tokens ++ (itemTokens ws ++ .closeArray :: rest)
  members : ∀ ts ms rest, readMembers fuel ts = some (ms, rest) →
    ∃ k v ls, ms = (k, v) :: ls ∧
      ts = .string k :: .colon :: (v.tokens ++ (memberTokens ls ++ .closeObject :: rest))

theorem Faithful.succ_value (h : Faithful fuel) (ts : List Token) (v : Value) (rest : List Token)
    (hread : read (fuel + 1) ts = some (v, rest)) : ts = v.tokens ++ rest := by
  unfold read at hread
  split at hread
  · cases hread
    rfl
  · cases hread
    rfl
  · cases hread
    rfl
  · cases hread
    rfl
  · cases hread
    rfl
  · obtain ⟨⟨vs, ts'⟩, hvs, hv⟩ := Option.map_eq_some_iff.mp hread
    obtain ⟨rfl, rfl⟩ := Prod.mk.inj hv
    obtain ⟨w, ws, rfl, rfl⟩ := h.items _ _ _ hvs
    simp [tokens]
  · cases hread
    rfl
  · obtain ⟨⟨ms, ts'⟩, hms, hv⟩ := Option.map_eq_some_iff.mp hread
    obtain ⟨rfl, rfl⟩ := Prod.mk.inj hv
    obtain ⟨k, v, ls, rfl, rfl⟩ := h.members _ _ _ hms
    simp [tokens]
  · cases hread

theorem Faithful.succ_items (h : Faithful fuel) (ts : List Token) (vs : List Value)
    (rest : List Token) (hread : readItems (fuel + 1) ts = some (vs, rest)) :
    ∃ w ws, vs = w :: ws ∧ ts = w.tokens ++ (itemTokens ws ++ .closeArray :: rest) := by
  unfold readItems at hread
  split at hread
  · next v ts' hv =>
    cases hread
    exact ⟨v, [], rfl, h.value _ _ _ hv⟩
  · next v ts' hv =>
    obtain ⟨⟨ws, ts''⟩, hws, heq⟩ := Option.map_eq_some_iff.mp hread
    obtain ⟨rfl, rfl⟩ := Prod.mk.inj heq
    obtain ⟨w, ws, rfl, rfl⟩ := h.items _ _ _ hws
    refine ⟨v, w :: ws, rfl, ?_⟩
    rw [h.value _ _ _ hv, itemTokens]
    simp
  · cases hread

theorem Faithful.succ_members (h : Faithful fuel) (ts : List Token)
    (ms : List (Option String × Value)) (rest : List Token)
    (hread : readMembers (fuel + 1) ts = some (ms, rest)) :
    ∃ k v ls, ms = (k, v) :: ls ∧
      ts = .string k :: .colon :: (v.tokens ++ (memberTokens ls ++ .closeObject :: rest)) := by
  unfold readMembers at hread
  split at hread
  · next k ts' =>
    split at hread
    · next v ts'' hv =>
      cases hread
      exact ⟨k, v, [], rfl, by rw [h.value _ _ _ hv]; rfl⟩
    · next v ts'' hv =>
      obtain ⟨⟨ls, ts₃⟩, hls, heq⟩ := Option.map_eq_some_iff.mp hread
      obtain ⟨rfl, rfl⟩ := Prod.mk.inj heq
      obtain ⟨l, w, ls, rfl, rfl⟩ := h.members _ _ _ hls
      refine ⟨k, v, (l, w) :: ls, rfl, ?_⟩
      rw [h.value _ _ _ hv, memberTokens]
      simp
    · cases hread
  · cases hread

/-- Whatever the fuel, by the recursion of the reader. -/
theorem faithful (fuel : Nat) : Faithful fuel := by
  induction fuel with
  | zero => exact ⟨nofun, nofun, nofun⟩
  | succ fuel ih => exact ⟨ih.succ_value, ih.succ_items, ih.succ_members⟩

/-! ## Texts -/

/-- A text is read as a value if its tokens are those of the value. -/
theorem parse?_eq_some_iff_tokenize {text : String} {v : Value} :
    parse? text = some v ↔ tokenize text.toList = some v.tokens := by
  constructor
  · intro h
    unfold parse? at h
    split at h
    · cases h
    · next ts hts =>
      split at h
      · next w hw =>
        obtain rfl := Option.some.inj h
        rw [hts, (faithful _).value _ _ _ hw, List.append_nil]
      · cases h
  · intro h
    have hread := read_tokens v [] (show v.tokens.length ≤ 2 * v.tokens.length + 1 by omega)
    rw [List.append_nil] at hread
    rw [Value.parse?, h]
    dsimp only
    rw [hread]

end PlanarJoin.Json.Value
