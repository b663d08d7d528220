import PlanarJoin.Json.Writer
import PlanarJoin.Proofs.Json.Reader

/-!
# Reading what was written

What is written for a value is one of its texts: between brackets each item starts on a line of its
own, and the bracket that ends them does too.  This makes reading the inverse of writing.

## Main definitions

* `Json.Value.Writable`: a value that has a text.

## Main results

* `Json.quotes_quote`: a quoted string is a text of the string.
* `Json.Value.Writable.spells`, `Json.Value.Writable.isText`: what is written for a value is one of
  its texts, without and with blanks around it.
* `Json.Value.parse?_write`: what is written is read as it was.
-/

namespace PlanarJoin.Json

variable {n : Nat}

/-! ## Blanks -/

theorem toList_newline (depth : Nat) :
    (newline depth).toList = '\n' :: List.replicate (2 * depth) ' ' := by
  unfold newline String.pushn
  induction 2 * depth with
  | zero => rfl
  | succ n ih => rw [Nat.repeat, String.toList_push, ih, List.cons_append, ← List.replicate_succ']

theorem blank_newline (depth : Nat) : Blank (newline depth).toList := by
  rw [toList_newline]
  intro c hc
  rcases List.mem_cons.mp hc with rfl | hc
  · exact .inr (.inl rfl)
  · exact .inl (List.eq_of_mem_replicate hc)

theorem blank_space : Blank [' '] :=
  List.forall_mem_singleton.mpr (.inl rfl)

/-! ## Strings -/

theorem hexDigit?_digitChar : ∀ n < 16, hexDigit? n.digitChar = some n := by decide

theorem charsOf?_char (c : Char) (us : List Unit16) :
    charsOf? (.char c :: us) = (charsOf? us).map (c :: ·) := by
  rw [charsOf?]

theorem charsOf?_code (h : n < 0xd800) (us : List Unit16) :
    charsOf? (.code n :: us) = (charsOf? us).map (Char.ofNat n :: ·) := by
  have hlow : ¬ (0xd800 ≤ n ∧ n < 0xdc00) := by omega
  have hhigh : ¬ (0xdc00 ≤ n ∧ n < 0xe000) := by omega
  have hall : ¬ (0xd800 ≤ n ∧ n < 0xe000) := by omega
  match us with
  | [] => simp only [charsOf?, if_neg hall]
  | .char d :: us => simp only [charsOf?, if_neg hall]
  | .code m :: us => rw [charsOf?, if_neg hlow, if_neg hhigh]

/-- A small code is spelled by two zeros and its two digits. -/
theorem spells_code (h : n < 256) :
    Unit16.Spells (['\\', 'u', '0', '0'] ++ hexPair n) (.code n) := by
  have hvalue : 16 * (16 * (16 * 0 + 0) + n / 16) + n % 16 = n := by omega
  have hzero : hexDigit? '0' = some 0 := rfl
  have hspells := Unit16.Spells.code hzero hzero (hexDigit?_digitChar (n / 16) (by omega))
    (hexDigit?_digitChar (n % 16) (by omega))
  rw [hvalue] at hspells
  exact hspells

/-- What is written for a character in a string spells a unit that stands for it. -/
theorem exists_spells_escapeChar (c : Char) :
    ∃ u, u.Spells (escapeChar c) ∧ ∀ us, charsOf? (u :: us) = (charsOf? us).map (c :: ·) := by
  have hletter {e : Char} (he : escaped? e = some c) :
      ∃ u, u.Spells ['\\', e] ∧ ∀ us, charsOf? (u :: us) = (charsOf? us).map (c :: ·) :=
    ⟨.char c, .letter he, charsOf?_char c⟩
  unfold escapeChar
  split
  · next h => exact hletter (by rw [h]; rfl)
  split
  · next h => exact hletter (by rw [h]; rfl)
  split
  · next h => exact hletter (by rw [h]; rfl)
  split
  · next h => exact hletter (by rw [h]; rfl)
  split
  · next h => exact hletter (by rw [h]; rfl)
  split
  · next h => exact hletter (by rw [h]; rfl)
  split
  · next h => exact hletter (by rw [h]; rfl)
  split
  · next h =>
    refine ⟨.code c.toNat, spells_code (by omega), fun us => ?_⟩
    rw [charsOf?_code (by omega), Char.ofNat_toNat]
  · next hquote hback _ _ _ _ _ hcontrol =>
    exact ⟨.char c, .plain hquote hback (Nat.le_of_not_lt hcontrol), charsOf?_char c⟩

/-- The characters of a string spell units that stand for them. -/
theorem exists_units (cs : List Char) :
    ∃ us : List (List Char × Unit16), us.flatMap (·.1) = cs.flatMap escapeChar ∧
      (∀ u ∈ us, u.2.Spells u.1) ∧ charsOf? (us.map (·.2)) = some cs := by
  induction cs with
  | nil => exact ⟨[], rfl, nofun, rfl⟩
  | cons c cs ih =>
    obtain ⟨u, hu, hchars⟩ := exists_spells_escapeChar c
    obtain ⟨us, htext, hus, hcs⟩ := ih
    refine ⟨(escapeChar c, u) :: us, ?_, List.forall_mem_cons.mpr ⟨hu, hus⟩, ?_⟩
    · rw [List.flatMap_cons, List.flatMap_cons, htext]
    · rw [List.map_cons, hchars, hcs]
      rfl

theorem quotes_quote (s : String) : Quotes (quote s).toList (some s) := by
  obtain ⟨us, htext, hus, hchars⟩ := exists_units s.toList
  have hquotes := Quotes.mk hus
  rw [htext, textOf?, hchars, Option.map_some, String.ofList_toList] at hquotes
  simpa [quote] using hquotes

/-! ## Values -/

namespace Value

variable {v : Value} {depth : Nat}

/-- A value that has a text: its numbers are well-formed and its strings are texts. -/
inductive Writable : Value → Prop
  | null : Writable null
  | bool (b : Bool) : Writable (bool b)
  | number {n : Number} (h : n.spelling.WellFormed) : Writable (number n)
  | string (s : String) : Writable (string (some s))
  | array {vs : List Value} (h : ∀ v ∈ vs, Writable v) : Writable (array vs)
  | object {ms : List (Option String × Value)} (hk : ∀ m ∈ ms, m.1.isSome = true)
    (h : ∀ m ∈ ms, Writable m.2) : Writable (object ms)

/-- A text on a new line. -/
def onLine (depth : Nat) (cs after : List Char) (h : Blank after) : Padded :=
  ⟨(newline depth).toList, cs, after, blank_newline depth, h⟩

/-- Items on lines of their own, with blanks behind the last, are texts with commas between them. -/
theorem exists_items {after : List Char} (hafter : Blank after) {v : Value} {vs : List Value}
    (h : ∀ w ∈ v :: vs, Spells (w.writeAt depth).toList w) :
    ∃ ps : List (Padded × Value), ps.map (·.2) = v :: vs ∧ (∀ p ∈ ps, Spells p.1.chars p.2) ∧
      (newline depth ++ v.writeAt depth ++ writeItems depth vs).toList ++ after =
        [','].intercalate (ps.map (·.1.text)) := by
  induction vs generalizing v with
  | nil =>
    refine ⟨[(onLine depth (v.writeAt depth).toList after hafter, v)], rfl, ?_, ?_⟩
    · exact List.forall_mem_singleton.mpr (h v List.mem_cons_self)
    · simp [onLine, Padded.text, writeItems]
  | cons w vs ih =>
    obtain ⟨hv, hvs⟩ := List.forall_mem_cons.mp h
    obtain ⟨ps, hps, hspells, htext⟩ := ih hvs
    obtain ⟨p, ps, rfl⟩ := List.exists_cons_of_ne_nil (l := ps) (by rintro rfl; cases hps)
    refine ⟨(onLine depth (v.writeAt depth).toList [] blank_nil, v) :: p :: ps, ?_,
      List.forall_mem_cons.mpr ⟨hv, hspells⟩, ?_⟩
    · rw [List.map_cons, hps]
    · rw [List.map_cons, List.map_cons, List.intercalate_cons_cons,
        ← List.map_cons (f := fun p : Padded × Value => p.1.text), ← htext]
      simp [onLine, Padded.text, writeItems]

/-- A member on a line of its own. -/
def memberOn (depth : Nat) (k : String) (v : Value) (after : List Char) (h : Blank after) :
    MemberText :=
  ⟨some k, v, onLine depth (quote k).toList [] blank_nil,
    ⟨[' '], (v.writeAt depth).toList, after, blank_space, h⟩⟩

/-- So are members. -/
theorem exists_members {after : List Char} (hafter : Blank after) {k : String} {v : Value}
    {ms : List (Option String × Value)} (hk : ∀ m ∈ ms, m.1.isSome = true)
    (h : ∀ m ∈ (some k, v) :: ms, Spells (m.2.writeAt depth).toList m.2) :
    ∃ ts : List MemberText, ts.map (fun t => (t.name, t.value)) = (some k, v) :: ms ∧
      (∀ t ∈ ts, Quotes t.key.chars t.name ∧ Spells t.content.chars t.value) ∧
      (newline depth ++ quote k ++ ": " ++ v.writeAt depth ++ writeMembers depth ms).toList ++
        after = [','].intercalate (ts.map (·.text)) := by
  induction ms generalizing k v with
  | nil =>
    refine ⟨[memberOn depth k v after hafter], rfl, ?_, ?_⟩
    · exact List.forall_mem_singleton.mpr ⟨quotes_quote k, h _ List.mem_cons_self⟩
    · simp [memberOn, onLine, MemberText.text, Padded.text, writeMembers]
  | cons m ms ih =>
    obtain ⟨_ | l, w⟩ := m
    · exact absurd (hk _ List.mem_cons_self) nofun
    obtain ⟨hv, hms⟩ := List.forall_mem_cons.mp h
    obtain ⟨ts, hts, hspells, htext⟩ := ih (fun m hm => hk m (List.mem_cons_of_mem _ hm)) hms
    obtain ⟨t, ts, rfl⟩ := List.exists_cons_of_ne_nil (l := ts) (by rintro rfl; cases hts)
    refine ⟨memberOn depth k v [] blank_nil :: t :: ts, ?_,
      List.forall_mem_cons.mpr ⟨⟨quotes_quote k, hv⟩, hspells⟩, ?_⟩
    · rw [List.map_cons, hts]
      rfl
    · rw [List.map_cons, List.map_cons, List.intercalate_cons_cons,
        ← List.map_cons (f := MemberText.text), ← htext]
      simp [memberOn, onLine, MemberText.text, Padded.text, writeMembers]

/-- What is written for a value is a text of it. -/
theorem Writable.spells (h : v.Writable) (depth : Nat) : Spells (v.writeAt depth).toList v := by
  induction h generalizing depth with
  | null => exact .null
  | bool b =>
    cases b with
    | true => exact .true
    | false => exact .false
  | number h => exact .number (Number.spells_write h)
  | string s => exact .string (quotes_quote s)
  | @array vs _ ih =>
    cases vs with
    | nil =>
      rw [writeAt]
      exact .noItems blank_nil
    | cons v vs =>
      obtain ⟨ps, hps, hspells, htext⟩ := exists_items (blank_newline depth)
        fun w hw => ih w hw (depth + 1)
      have hitems := Spells.items (by rintro rfl; cases hps) hspells
      rw [← htext, hps] at hitems
      simpa [writeAt] using hitems
  | @object ms hk _ ih =>
    cases ms with
    | nil =>
      rw [writeAt]
      exact .noMembers blank_nil
    | cons m ms =>
      obtain ⟨_ | k, v⟩ := m
      · exact absurd (hk _ List.mem_cons_self) nofun
      obtain ⟨ts, hts, hspells, htext⟩ := exists_members (blank_newline depth)
        (fun m hm => hk m (List.mem_cons_of_mem _ hm)) fun m hm => ih m hm (depth + 1)
      have hmembers := Spells.members (by rintro rfl; cases hts) (fun t ht => (hspells t ht).1)
        fun t ht => (hspells t ht).2
      rw [← htext, hts] at hmembers
      simpa [writeAt] using hmembers

theorem Writable.isText (h : v.Writable) : IsText v.write v :=
  ⟨⟨[], v.write.toList, [], blank_nil, blank_nil⟩, (List.append_nil _).symm, h.spells 0⟩

/-- What is written for a value is read as the value. -/
theorem parse?_write (h : v.Writable) : parse? v.write = some v :=
  parse?_eq_some_iff_tokenize.mpr h.isText.tokenize

end Value

end PlanarJoin.Json
