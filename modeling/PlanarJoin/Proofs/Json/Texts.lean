import PlanarJoin.Proofs.Json.Pieces
import PlanarJoin.Proofs.Json.Reader

/-!
# The texts that are read

A text is read as a value if it is one of the value's texts, and only then.  The grammar gives the
tokens of the value for each of these; and the pieces of a text with these tokens, put together as
the items and members of the value are, make up a text by the grammar.

## Main results

* `Json.Value.induct`: induction over the items and members of values.
* `Json.Value.exists_padded`: pieces with the tokens of a value are a text of it between blanks.
* `Json.Value.parse?_eq_some_iff`: the texts that are read as a value are the texts of the value.
* `Json.Value.IsText.unique`: a text is a text of one value only.
-/

namespace PlanarJoin.Json

variable {cs : List Char}

/-- Pieces with commas between them are texts with commas between them. -/
theorem Pieces.exists_texts {γ δ : Type} {tokens : γ → List Token} {text : δ → List Char}
    {of : δ → γ} {P : δ → Prop} {x : γ} {xs : List γ}
    (h : ∀ y ∈ x :: xs, ∀ cs, Pieces cs (tokens y) → ∃ d, of d = y ∧ P d ∧ cs = text d)
    (hcs : Pieces cs ([.comma].intercalate ((x :: xs).map tokens))) :
    ∃ ds : List δ, ds.map of = x :: xs ∧ (∀ d ∈ ds, P d) ∧
      cs = [','].intercalate (ds.map text) := by
  induction xs generalizing x cs with
  | nil =>
    rw [List.map_singleton, List.intercalate_singleton] at hcs
    obtain ⟨d, rfl, hd, rfl⟩ := h x List.mem_cons_self cs hcs
    exact ⟨[d], rfl, List.forall_mem_singleton.mpr hd, by simp⟩
  | cons y ys ih =>
    obtain ⟨hx, hys⟩ := List.forall_mem_cons.mp h
    rw [List.map_cons, List.map_cons, List.intercalate_cons_cons, List.append_assoc,
      ← List.map_cons] at hcs
    obtain ⟨left, comma, right, rfl, hleft, hcomma, hright⟩ := hcs.exists_around
    cases hcomma
    obtain ⟨d, rfl, hd, rfl⟩ := hx left hleft
    obtain ⟨ds, hds, hall, rfl⟩ := ih hys hright
    obtain ⟨e, ds, rfl⟩ := List.exists_cons_of_ne_nil (l := ds) (by rintro rfl; cases hds)
    refine ⟨d :: e :: ds, by rw [List.map_cons, hds], List.forall_mem_cons.mpr ⟨hd, hall⟩, ?_⟩
    rw [List.map_cons, List.map_cons, List.map_cons, List.intercalate_cons_cons,
      List.append_assoc]

theorem Pieces.exists_padded {t : Token} (h : Pieces cs [t]) :
    ∃ p : Padded, cs = p.text ∧ t.Spells p.chars := by
  obtain ⟨xs, ys, zs, rfl, hxs, ht, hzs⟩ := exists_around (show Pieces cs ([] ++ [t]) from h)
  exact ⟨⟨xs, ys, zs, hxs.blank_of_nil, hzs.blank_of_nil⟩, rfl, ht⟩

/-- Pieces between brackets are between blanks with the brackets around them. -/
theorem Pieces.exists_brackets {t t' : Token} {us : List Token}
    (h : Pieces cs (t :: (us ++ [t']))) :
    ∃ before left mid right after, Blank before ∧ Blank after ∧ t.Spells left ∧ t'.Spells right ∧
      Pieces mid us ∧ cs = before ++ (left ++ (mid ++ right) ++ after) := by
  obtain ⟨before, left, zs, rfl, hbefore, hleft, hzs⟩ :=
    exists_around (show Pieces cs ([] ++ _) from h)
  obtain ⟨mid, right, after, rfl, hmid, hright, hafter⟩ := hzs.exists_around
  refine ⟨before, left, mid, right, after, hbefore.blank_of_nil, hafter.blank_of_nil, hleft, hright,
    hmid, ?_⟩
  simp only [List.append_assoc]

namespace Value

/-- Induction over the items and members of values. -/
theorem induct {motive : Value → Prop} (null : motive null) (bool : ∀ b, motive (bool b))
    (number : ∀ n, motive (number n)) (string : ∀ s, motive (string s))
    (array : ∀ vs, (∀ v ∈ vs, motive v) → motive (array vs))
    (object : ∀ ms, (∀ m ∈ ms, motive m.2) → motive (object ms)) (v : Value) : motive v := by
  refine @Value.rec motive (fun vs => ∀ v ∈ vs, motive v) (fun ms => ∀ m ∈ ms, motive m.2)
    (fun m => motive m.2) null bool number string array object nofun ?_ nofun ?_ ?_ v
  · exact fun v vs hv hvs => List.forall_mem_cons.mpr ⟨hv, hvs⟩
  · exact fun m ms hm hms => List.forall_mem_cons.mpr ⟨hm, hms⟩
  · exact fun k v hv => hv

/-- Pieces with the tokens of an array are a text of it, if this is so for each item. -/
theorem exists_padded_array {vs : List Value}
    (ih : ∀ v ∈ vs, ∀ cs, Pieces cs v.tokens → ∃ p : Padded, cs = p.text ∧ Spells p.chars v)
    (h : Pieces cs (array vs).tokens) :
    ∃ p : Padded, cs = p.text ∧ Spells p.chars (array vs) := by
  cases vs with
  | nil =>
    obtain ⟨before, _, mid, _, after, hbefore, hafter, hleft, hright, hmid, rfl⟩ :=
      Pieces.exists_brackets (show Pieces cs (_ :: ([] ++ [_])) from h)
    cases hleft
    cases hright
    exact ⟨⟨before, _, after, hbefore, hafter⟩, rfl, .noItems hmid.blank_of_nil⟩
  | cons v vs =>
    rw [tokens_items] at h
    obtain ⟨before, _, mid, _, after, hbefore, hafter, hleft, hright, hmid, rfl⟩ :=
      h.exists_brackets
    cases hleft
    cases hright
    have hitem : ∀ w ∈ v :: vs, ∀ cs, Pieces cs w.tokens → ∃ p : Padded × Value,
        p.2 = w ∧ Spells p.1.chars p.2 ∧ cs = p.1.text := by
      intro w hw cs hcs
      obtain ⟨p, rfl, hp⟩ := ih w hw cs hcs
      exact ⟨(p, w), rfl, hp, rfl⟩
    obtain ⟨ps, hps, hspells, rfl⟩ := Pieces.exists_texts hitem hmid
    refine ⟨⟨before, _, after, hbefore, hafter⟩, rfl, ?_⟩
    rw [← hps]
    exact .items (by rintro rfl; cases hps) hspells

/-- Pieces with the tokens of a member are a text of it, if this is so for its value. -/
theorem exists_memberText {m : Option String × Value}
    (ih : ∀ cs, Pieces cs m.2.tokens → ∃ p : Padded, cs = p.text ∧ Spells p.chars m.2)
    (h : Pieces cs (ofMember m)) :
    ∃ t : MemberText, (t.name, t.value) = m ∧
      (Quotes t.key.chars t.name ∧ Spells t.content.chars t.value) ∧ cs = t.text := by
  obtain ⟨key, _, content, rfl, hkey, hcolon, hcontent⟩ :=
    Pieces.exists_around (show Pieces cs ([_] ++ _) from h)
  cases hcolon
  obtain ⟨⟨before, chars, after, hblank⟩, rfl, hname⟩ := hkey.exists_padded
  cases hname with
  | string hname =>
    obtain ⟨p, rfl, hp⟩ := ih content hcontent
    exact ⟨⟨m.1, m.2, ⟨before, chars, after, hblank⟩, p⟩, rfl, ⟨hname, hp⟩, rfl⟩

/-- Pieces with the tokens of an object are a text of it, if this is so for each member's value. -/
theorem exists_padded_object {ms : List (Option String × Value)}
    (ih : ∀ m ∈ ms, ∀ cs, Pieces cs m.2.tokens → ∃ p : Padded, cs = p.text ∧ Spells p.chars m.2)
    (h : Pieces cs (object ms).tokens) :
    ∃ p : Padded, cs = p.text ∧ Spells p.chars (object ms) := by
  cases ms with
  | nil =>
    obtain ⟨before, _, mid, _, after, hbefore, hafter, hleft, hright, hmid, rfl⟩ :=
      Pieces.exists_brackets (show Pieces cs (_ :: ([] ++ [_])) from h)
    cases hleft
    cases hright
    exact ⟨⟨before, _, after, hbefore, hafter⟩, rfl, .noMembers hmid.blank_of_nil⟩
  | cons m ms =>
    rw [tokens_members] at h
    obtain ⟨before, _, mid, _, after, hbefore, hafter, hleft, hright, hmid, rfl⟩ :=
      h.exists_brackets
    cases hleft
    cases hright
    obtain ⟨ts, hts, hspells, rfl⟩ := Pieces.exists_texts
      (fun l hl cs hcs => exists_memberText (ih l hl) hcs) hmid
    refine ⟨⟨before, _, after, hbefore, hafter⟩, rfl, ?_⟩
    rw [← hts]
    exact .members (by rintro rfl; cases hts) (fun t ht => (hspells t ht).1)
      fun t ht => (hspells t ht).2

/-- Pieces with the tokens of a value are a text of it between blanks. -/
theorem exists_padded (v : Value) (h : Pieces cs v.tokens) :
    ∃ p : Padded, cs = p.text ∧ Spells p.chars v := by
  induction v using induct generalizing cs with
  | null =>
    obtain ⟨⟨_, _, _, hblank⟩, rfl, ht⟩ := Pieces.exists_padded h
    cases ht
    exact ⟨⟨_, _, _, hblank⟩, rfl, .null⟩
  | bool b =>
    obtain ⟨⟨_, _, _, hblank⟩, rfl, ht⟩ := Pieces.exists_padded h
    cases ht with
    | true => exact ⟨⟨_, _, _, hblank⟩, rfl, .true⟩
    | false => exact ⟨⟨_, _, _, hblank⟩, rfl, .false⟩
  | number n =>
    obtain ⟨⟨_, _, _, hblank⟩, rfl, ht⟩ := Pieces.exists_padded h
    cases ht with
    | number hn => exact ⟨⟨_, _, _, hblank⟩, rfl, .number hn⟩
  | string s =>
    obtain ⟨⟨_, _, _, hblank⟩, rfl, ht⟩ := Pieces.exists_padded h
    cases ht with
    | string hs => exact ⟨⟨_, _, _, hblank⟩, rfl, .string hs⟩
  | array vs ih => exact exists_padded_array (fun v hv _ => ih v hv) h
  | object ms ih => exact exists_padded_object (fun m hm _ => ih m hm) h

/-- The texts that are read as a value are the texts of the value. -/
theorem parse?_eq_some_iff {text : String} {v : Value} :
    parse? text = some v ↔ IsText text v := by
  rw [parse?_eq_some_iff_tokenize]
  exact ⟨fun h => exists_padded v (pieces_of_tokenize h), IsText.tokenize⟩

/-- A text is a text of one value only. -/
theorem IsText.unique {text : String} {v w : Value} (hv : IsText text v) (hw : IsText text w) :
    v = w := by
  rw [← parse?_eq_some_iff] at hv hw
  exact Option.some.inj (hv.symm.trans hw)

end Value

end PlanarJoin.Json
