import PlanarJoin.Proofs.Envelope.Order
import PlanarJoin.Proofs.Json.Writer
import PlanarJoin.Proofs.Settings.Drafts

/-!
# Settings survive being written

Settings that are valid are read from their text as they were: they are written as a draft with
nothing left out.  Their names and flags are read whatever they are, and so are the counts, as
validation or the width of a word bounds them.  The bounds of the extent are floats, and this is all
that is asked of them: the text of each reads back as the float.  That is so for decimals short
enough to be read exactly; a long one may be read as a neighbour.

## Main definitions

* `Json.ReadsBack`: a float whose text reads back.
* `Envelope.ReadsBack`: an envelope of such floats.
* `Settings.draft`: settings as a draft with nothing left out.

## Main results

* `Settings.written_toValue`: what is written for settings gives this draft.
* `Settings.ofJson_toJson`: settings are read from their text as they were.
-/

namespace PlanarJoin

namespace Json

/-! ## Records -/

namespace Record

variable {r : Record} {vs : List Value}

theorem writable_toValue (h : ∀ v ∈ vs, v.Writable) : (r.toValue vs).Writable := by
  refine .object ?_ ?_
  · rintro ⟨k, v⟩ hm
    obtain ⟨name, -, rfl⟩ := List.mem_map.mp (List.of_mem_zip hm).1
    rfl
  · rintro ⟨k, v⟩ hm
    exact h v (List.of_mem_zip hm).2

end Record

/-! ## Counts and floats -/

/-- A float whose text reads back as the float. -/
def ReadsBack (x : Float) : Prop :=
  (numberOf? (Number.ofFloat x).write.toList).bind Number.toFloat? = some x

instance (x : Float) : Decidable (ReadsBack x) :=
  inferInstanceAs (Decidable (_ = _))

theorem wellFormed_ofFloat (x : Float) : (Number.ofFloat x).spelling.WellFormed :=
  Decimal.Style.json.wellFormed_spellFloat x

/-- The digits are never lost; what is asked of a float is that they mean the same again. -/
theorem ReadsBack.toFloat? {x : Float} (h : ReadsBack x) :
    (Number.ofFloat x).toFloat? = some x := by
  rw [ReadsBack, (Number.spells_write (wellFormed_ofFloat x)).numberOf?] at h
  exact h

theorem Value.isFloat_ofFloat {x : Float} (hx : x.isFinite = true) (h : ReadsBack x) :
    (Value.ofFloat x).IsFloat x := by
  rw [Value.ofFloat, if_pos hx]
  exact ⟨_, rfl, h.toFloat?⟩

theorem Value.writable_ofFloat (x : Float) : (Value.ofFloat x).Writable := by
  unfold Value.ofFloat
  split
  · exact .number (wellFormed_ofFloat x)
  · exact .null

end Json

open Json

/-! ## The parts of settings -/

/-- An envelope whose bounds read back. -/
def Envelope.ReadsBack (e : Envelope) : Prop :=
  Json.ReadsBack e.minX ∧ Json.ReadsBack e.maxX ∧ Json.ReadsBack e.minY ∧ Json.ReadsBack e.maxY

instance (e : Envelope) : Decidable e.ReadsBack :=
  inferInstanceAs (Decidable (_ ∧ _))

theorem Envelope.written_toValue {e : Envelope} (he : e.Finite) (h : e.ReadsBack) :
    Envelope.Written e.toValue e := by
  obtain ⟨hf₁, hf₂, hf₃, hf₄⟩ := he
  obtain ⟨h₁, h₂, h₃, h₄⟩ := h
  exact ⟨_, _, _, _, Record.written_toValue _ _, Value.isFloat_ofFloat hf₁ h₁,
    Value.isFloat_ofFloat hf₂ h₂, Value.isFloat_ofFloat hf₃ h₃, Value.isFloat_ofFloat hf₄ h₄⟩

def IndexSettings.draft (s : IndexSettings) : IndexDraft :=
  ⟨some s.kind, some s.columns, some s.rows, some s.sizeTiered, some s.nodeCapacity, some s.extent⟩

def JoinSettings.draft (s : JoinSettings) : JoinDraft :=
  ⟨some s.useIndex, some s.boundary, some s.allowDuplicates, some s.indexKind, some s.buildSide,
    some s.parallel⟩

/-- Settings as a draft with nothing left out. -/
def Settings.draft (s : Settings) : SettingsDraft :=
  ⟨some s.index.draft, some s.join.draft⟩

theorem Settings.complete_draft (s : Settings) : s.draft.complete = s :=
  rfl

theorem JoinSettings.written_toValue (s : JoinSettings) : JoinDraft.Written s.toValue s.draft :=
  ⟨_, _, _, _, _, _, Record.written_toValue _ _, .some rfl, .some rfl, .some rfl, .some (.inl rfl),
    .some (.inl rfl), .some rfl⟩

theorem IndexSettings.written_toValue {s : IndexSettings} (hs : s.validate = .ok ())
    (hcap : s.nodeCapacity < Nat.pow 2 64) (h : s.extent.ReadsBack) :
    IndexDraft.Written s.toValue s.draft := by
  obtain ⟨⟨hcols, hrows, hlimit⟩, -, hext, -⟩ := of_validate hs
  have hword : bucketLimit < Nat.pow 2 64 := by decide
  have hcols' : s.columns < Nat.pow 2 64 :=
    ((Nat.le_mul_of_pos_right _ hrows).trans hlimit).trans_lt hword
  have hrows' : s.rows < Nat.pow 2 64 :=
    ((Nat.le_mul_of_pos_left _ hcols).trans hlimit).trans_lt hword
  exact ⟨_, _, _, _, _, _, Record.written_toValue _ _, .some (.inl rfl),
    .some (Value.isCount_ofNat hcols'), .some (Value.isCount_ofNat hrows'), .some rfl,
    .some (Value.isCount_ofNat hcap),
    .some (Envelope.written_toValue (Envelope.finite_of_isProper hext) h)⟩

namespace Settings

variable {s : Settings}

theorem written_toValue (hs : s.validate = .ok ()) (hcap : s.index.nodeCapacity < Nat.pow 2 64)
    (h : s.index.extent.ReadsBack) : SettingsDraft.Written s.toValue s.draft :=
  ⟨_, _, Record.written_toValue _ _, .some (IndexSettings.written_toValue hs hcap h),
    .some (JoinSettings.written_toValue s.join)⟩

/-- All settings have a text. -/
theorem writable_toValue (s : Settings) : s.toValue.Writable := by
  have hextent : s.index.extent.toValue.Writable := by
    refine Record.writable_toValue ?_
    simp only [List.forall_mem_cons, Value.writable_ofFloat, true_and]
    exact nofun
  have hcount (n : Nat) : (Value.number (.ofNat n)).Writable :=
    .number (Decimal.wellFormed_toString n)
  refine Record.writable_toValue ?_
  simp only [List.forall_mem_cons]
  refine ⟨Record.writable_toValue ?_, Record.writable_toValue ?_, nofun⟩
  · simp only [List.forall_mem_cons]
    exact ⟨.string _, hcount _, hcount _, .bool _, hcount _, hextent, nofun⟩
  · simp only [List.forall_mem_cons]
    exact ⟨.bool _, .bool _, .bool _, .string _, .string _, .bool _, nofun⟩

/-- Valid settings with a node capacity that fits a word are read from their text as they were, if
the bounds of the extent are. -/
theorem ofJson_toJson_of_valid (hs : s.validate = .ok ())
    (hcap : s.index.nodeCapacity < Nat.pow 2 64) (h : s.index.extent.ReadsBack) :
    ofJson s.toJson = .ok s := by
  have hread := ofJson_of_written (writable_toValue s).isText (written_toValue hs hcap h)
  rw [complete_draft, hs] at hread
  exact hread

/-- What is written is read as it was: valid settings, and so whatever was read from any text. -/
theorem ofJson_toJson (s : Settings) (hbounds : s.index.extent.ReadsBack) :
    (s.validate = .ok () → s.index.nodeCapacity < Nat.pow 2 64 → ofJson s.toJson = .ok s) ∧
    ∀ text, ofJson text = .ok s → ofJson s.toJson = .ok s :=
  ⟨fun hs hcap => ofJson_toJson_of_valid hs hcap hbounds, fun _ h =>
    ofJson_toJson_of_valid (valid_of_ofJson h).1 (valid_of_ofJson h).2 hbounds⟩

/-- A fine grid over a small box that is far to one side, and a node capacity as large as may be. -/
def farSettings : Settings :=
  ⟨⟨.grid, 4096, 4096, true, 18446744073709551615, ⟨-0.1, 2.5e-7, 1.25e20, 1.5e20⟩⟩,
    ⟨true, false, true, .quadtree, .left, true⟩⟩

/-- A text that leaves most to the defaults. -/
def briefText : String :=
  "\x7b\"index\":\x7b\"index_type\":\"grid\",\"node_capacity\":3\x7d\x7d"

theorem ofJson_farSettings : ofJson farSettings.toJson = .ok farSettings ∧
    ∃ s, ofJson briefText = .ok s ∧ s.index.nodeCapacity = 3 ∧ ofJson s.toJson = .ok s := by
  have hfar : farSettings.index.extent.ReadsBack := by decide +kernel
  have hvalid : farSettings.index.validate = .ok () := by decide +kernel
  have hread : (ofJson briefText).toOption.any (fun s =>
      decide (s.index.nodeCapacity = 3 ∧ s.index.extent.ReadsBack)) = true := by
    decide +kernel
  refine ⟨(ofJson_toJson farSettings hfar).1 hvalid (by decide +kernel), ?_⟩
  cases htext : ofJson briefText with
  | error e =>
    rw [htext] at hread
    cases hread
  | ok s =>
    rw [htext] at hread
    obtain ⟨hcap, hbrief⟩ := of_decide_eq_true hread
    exact ⟨s, rfl, hcap, (ofJson_toJson s hbrief).2 briefText htext⟩

end Settings

end PlanarJoin
