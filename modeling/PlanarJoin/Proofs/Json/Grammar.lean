import PlanarJoin.Proofs.Json.Token

/-!
# The grammar of JSON texts

What the texts of a value look like, independently of the machine: words, numbers and strings in any
spelling, items and members between brackets with commas between them, and blanks around whatever is
not a single token.  The machine cuts every such text into the tokens of its value.

## Main definitions

* `Json.Padded`: a text between blanks.
* `Json.Value.Spells`, `Json.Value.IsText`: the texts of a value, without and with blanks around
  them.
* `Json.Value.tokens`: the tokens of a value.

## Main results

* `Json.gives_intercalate`: texts with commas between them give their tokens with commas between
  them.
* `Json.Value.Spells.gives`, `Json.Value.IsText.tokenize`: a text of a value gives the tokens of the
  value.
-/

namespace PlanarJoin.Json

variable {cs : List Char} {us : List Token}

/-! ## Texts of values -/

/-- A text between blanks. -/
structure Padded where
  before : List Char
  chars : List Char
  after : List Char
  blank : Blank before ∧ Blank after

def Padded.text (p : Padded) : List Char :=
  p.before ++ (p.chars ++ p.after)

namespace Value

/-- A member of an object as it is spelled: a name, a colon and a value, with blanks. -/
structure MemberText where
  name : Option String
  value : Value
  key : Padded
  content : Padded

def MemberText.text (m : MemberText) : List Char :=
  m.key.text ++ ':' :: m.content.text

/-- The texts of a value, without blanks around them. -/
inductive Spells : List Char → Value → Prop
  | null : Spells "null".toList null
  | true : Spells "true".toList (bool Bool.true)
  | false : Spells "false".toList (bool Bool.false)
  | number {cs : List Char} {n : Number} (h : Number.Spells cs n) : Spells cs (number n)
  | string {cs : List Char} {s : Option String} (h : Quotes cs s) : Spells cs (string s)
  | noItems {cs : List Char} (h : Blank cs) : Spells ('[' :: (cs ++ [']'])) (array [])
  | items {ps : List (Padded × Value)} (hne : ps ≠ []) (h : ∀ p ∈ ps, Spells p.1.chars p.2) :
    Spells ('[' :: ([','].intercalate (ps.map (·.1.text)) ++ [']'])) (array (ps.map (·.2)))
  | noMembers {cs : List Char} (h : Blank cs) : Spells ('\x7b' :: (cs ++ ['\x7d'])) (object [])
  | members {ms : List MemberText} (hne : ms ≠ []) (hkeys : ∀ m ∈ ms, Quotes m.key.chars m.name)
    (h : ∀ m ∈ ms, Spells m.content.chars m.value) :
    Spells ('\x7b' :: ([','].intercalate (ms.map (·.text)) ++ ['\x7d']))
      (object (ms.map fun m => (m.name, m.value)))

/-- The texts of a value, with blanks around them or without. -/
def IsText (text : String) (v : Value) : Prop :=
  ∃ p : Padded, text.toList = p.text ∧ Spells p.chars v

mutual

/-- The tokens of a value. -/
def tokens : Value → List Token
  | null => [.null]
  | bool b => [.bool b]
  | number n => [.number n]
  | string s => [.string s]
  | array [] => [.openArray, .closeArray]
  | array (v :: vs) => .openArray :: (tokens v ++ itemTokens vs ++ [.closeArray])
  | object [] => [.openObject, .closeObject]
  | object ((k, v) :: ms) =>
    .openObject :: .string k :: .colon :: (tokens v ++ memberTokens ms ++ [.closeObject])

/-- The tokens of the further items of an array. -/
def itemTokens : List Value → List Token
  | [] => []
  | v :: vs => .comma :: (tokens v ++ itemTokens vs)

/-- The tokens of the further members of an object. -/
def memberTokens : List (Option String × Value) → List Token
  | [] => []
  | (k, v) :: ms => .comma :: .string k :: .colon :: (tokens v ++ memberTokens ms)

end

/-- The tokens of a member. -/
def ofMember (m : Option String × Value) : List Token :=
  .string m.1 :: .colon :: tokens m.2

theorem tokens_items (v : Value) (vs : List Value) : tokens (array (v :: vs)) =
    .openArray :: ([.comma].intercalate ((v :: vs).map tokens) ++ [.closeArray]) := by
  have hitems : tokens v ++ itemTokens vs = [.comma].intercalate ((v :: vs).map tokens) := by
    induction vs generalizing v with
    | nil => simp [itemTokens]
    | cons w vs ih =>
      rw [itemTokens, ih w]
      simp [List.intercalate_cons_cons]
  rw [tokens, hitems]

/-- The tokens of members have commas between them. -/
theorem tokens_members (m : Option String × Value) (ms : List (Option String × Value)) :
    tokens (object (m :: ms)) =
      .openObject :: ([.comma].intercalate ((m :: ms).map ofMember) ++ [.closeObject]) := by
  have hmembers :
      ofMember m ++ memberTokens ms = [.comma].intercalate ((m :: ms).map ofMember) := by
    induction ms generalizing m with
    | nil => simp [memberTokens]
    | cons l ms ih =>
      rw [memberTokens, ← List.cons_append, ← List.cons_append, ← ofMember, ih l]
      simp [List.intercalate_cons_cons]
  obtain ⟨k, v⟩ := m
  rw [← hmembers, tokens]
  simp [ofMember]

end Value

/-! ## The tokens of a text -/

theorem Padded.gives {p : Padded} (h : GivesBeforeStop p.chars us) : GivesBeforeStop p.text us := by
  have hafter := h.append_beforeStop p.blank.2.gives.beforeStop fun rest hrest =>
    p.blank.2.stops hrest
  rw [List.append_nil] at hafter
  exact p.blank.1.gives.append_beforeStop hafter

/-- Texts with commas between them give their tokens with commas between them. -/
theorem gives_intercalate {γ : Type} {text : γ → List Char} {tokens : γ → List Token} {xs : List γ}
    (h : ∀ x ∈ xs, GivesBeforeStop (text x) (tokens x)) :
    GivesBeforeStop ([','].intercalate (xs.map text)) ([.comma].intercalate (xs.map tokens)) := by
  have hcomma : Gives [','] [.comma] := gives_mark fun _ => rfl
  induction xs with
  | nil => exact gives_nil.beforeStop
  | cons x xs ih =>
    obtain ⟨hx, hxs⟩ := List.forall_mem_cons.mp h
    cases xs with
    | nil => simpa using hx
    | cons y ys =>
      rw [List.map_cons, List.map_cons, List.map_cons, List.map_cons, List.intercalate_cons_cons,
        List.intercalate_cons_cons, List.append_assoc, List.append_assoc, ← List.map_cons,
        ← List.map_cons]
      exact hx.append_beforeStop (hcomma.append_beforeStop (ih hxs))
        fun _ _ => stops_cons (by decide)

theorem gives_brackets {left right : Char} {t t' : Token} (hleft : Gives [left] [t])
    (hright : Gives [right] [t']) (hstop : isNumeric right = false ∧ right.isAlpha = false)
    (h : GivesBeforeStop cs us) : GivesBeforeStop (left :: (cs ++ [right])) (t :: (us ++ [t'])) :=
  (hleft.append (h.append hright fun _ => stops_cons hstop)).beforeStop

namespace Value

variable {v : Value}

theorem gives_array (h : GivesBeforeStop cs us) :
    GivesBeforeStop ('[' :: (cs ++ [']'])) (.openArray :: (us ++ [.closeArray])) :=
  gives_brackets (gives_mark fun _ => rfl) (gives_mark fun _ => rfl) (by decide) h

theorem gives_object (h : GivesBeforeStop cs us) :
    GivesBeforeStop ('\x7b' :: (cs ++ ['\x7d'])) (.openObject :: (us ++ [.closeObject])) :=
  gives_brackets (gives_mark fun _ => rfl) (gives_mark fun _ => rfl) (by decide) h

theorem MemberText.gives {m : MemberText} (hkey : Quotes m.key.chars m.name)
    (h : GivesBeforeStop m.content.chars m.value.tokens) :
    GivesBeforeStop m.text (ofMember (m.name, m.value)) := by
  have hcolon : Gives [':'] [.colon] := gives_mark fun _ => rfl
  exact (Padded.gives hkey.gives.beforeStop).append_beforeStop
    (hcolon.append_beforeStop (Padded.gives h)) fun _ _ => stops_cons (by decide)

/-- A text of a value gives the tokens of the value. -/
theorem Spells.gives (h : Spells cs v) : GivesBeforeStop cs v.tokens := by
  induction h with
  | null => exact givesBeforeStop_word (fun _ => rfl) rfl rfl
  | true => exact givesBeforeStop_word (fun _ => rfl) rfl rfl
  | false => exact givesBeforeStop_word (fun _ => rfl) rfl rfl
  | number h => exact h.gives
  | string h => exact h.gives.beforeStop
  | noItems h => exact gives_array h.gives.beforeStop
  | @items ps hne _ ih =>
    obtain ⟨p, ps, rfl⟩ := List.exists_cons_of_ne_nil hne
    have hitems := tokens_items p.2 (ps.map (·.2))
    rw [← List.map_cons, List.map_map] at hitems
    rw [hitems]
    exact gives_array (gives_intercalate fun q hq => Padded.gives (ih q hq))
  | noMembers h => exact gives_object h.gives.beforeStop
  | @members ms hne hkeys _ ih =>
    obtain ⟨m, ms, rfl⟩ := List.exists_cons_of_ne_nil hne
    have hmembers := tokens_members (m.name, m.value) (ms.map fun m => (m.name, m.value))
    rw [← List.map_cons (f := fun m : MemberText => (m.name, m.value)), List.map_map] at hmembers
    rw [hmembers]
    exact gives_object (gives_intercalate fun q hq => MemberText.gives (hkeys q hq) (ih q hq))

/-- A text of a value is cut into the tokens of the value. -/
theorem IsText.tokenize {text : String} (h : IsText text v) :
    tokenize text.toList = some v.tokens := by
  obtain ⟨p, htext, hp⟩ := h
  have hscan := Padded.gives hp.gives [] [] stops_nil
  rw [List.append_nil, List.append_nil] at hscan
  change ((Scan.between []).finish text.toList).map _ = _
  rw [htext, hscan]
  exact congrArg some (List.reverse_reverse _)

end Value

end PlanarJoin.Json
