import PlanarJoin.Proofs.Gathering
import PlanarJoin.Proofs.Index.Candidates
import PlanarJoin.Proofs.Json.Texts
import PlanarJoin.Proofs.Settings.Records

/-!
# Settings in part

A text may give any part of the settings.  What it gives is read, in whichever order and spelling it
stands, and the rest has its defaults.  Whether an index can be laid out in this way is asked only
then: a text is unreadable for its form alone, such as a name that is not known, a field that is
given twice or an extent without one of its bounds.

## Main definitions

* `IndexDraft`, `JoinDraft`, `SettingsDraft`: settings of which each field may be left out.
* `SettingsDraft.complete`: the settings with defaults where nothing is given.
* `SettingsDraft.Written`: the values that give just the fields of a draft.
* `Settings.Refused`: the values that are refused for their names.

## Main results

* `SettingsDraft.Written.ofValue?`: a written draft is read as its completion.
* `Settings.Refused.ofValue?`: a refused value is not read.
* `Settings.ofJson_draft`: the texts of drafts, of refused values and of no value, and what is read
  from any text.
-/

namespace PlanarJoin

open Json

/-! ## Drafts -/

/-- Index settings of which each field may be left out. -/
structure IndexDraft where
  kind : Option IndexKind
  columns : Option Nat
  rows : Option Nat
  sizeTiered : Option Bool
  nodeCapacity : Option Nat
  extent : Option Envelope

/-- Join settings of which each field may be left out. -/
structure JoinDraft where
  useIndex : Option Bool
  boundary : Option Bool
  allowDuplicates : Option Bool
  indexKind : Option IndexKind
  buildSide : Option Side
  parallel : Option Bool

/-- Settings of which each part may be left out, and each field of a part. -/
structure SettingsDraft where
  index : Option IndexDraft
  join : Option JoinDraft

def IndexDraft.complete (d : IndexDraft) : IndexSettings :=
  let s := IndexSettings.default
  ⟨d.kind.getD s.kind, d.columns.getD s.columns, d.rows.getD s.rows, d.sizeTiered.getD s.sizeTiered,
    d.nodeCapacity.getD s.nodeCapacity, d.extent.getD s.extent⟩

def JoinDraft.complete (d : JoinDraft) : JoinSettings :=
  let s := JoinSettings.default
  ⟨d.useIndex.getD s.useIndex, d.boundary.getD s.boundary,
    d.allowDuplicates.getD s.allowDuplicates, d.indexKind.getD s.indexKind,
    d.buildSide.getD s.buildSide, d.parallel.getD s.parallel⟩

/-- The settings with defaults where nothing is given. -/
def SettingsDraft.complete (d : SettingsDraft) : Settings :=
  ⟨(d.index.map (·.complete)).getD .default, (d.join.map (·.complete)).getD .default⟩

/-! ## Values of fields -/

namespace Json.Value

/-- A value that is a flag. -/
def IsFlag (v : Value) (b : Bool) : Prop :=
  v = bool b

/-- A value that is a count of 64 bits, written as digits. -/
def IsCount (v : Value) (n : Nat) : Prop :=
  ∃ ds, v = number ⟨false, ⟨ds, [], none⟩⟩ ∧ Decimal.digitsValue ds = n ∧ n < Nat.pow 2 64

/-- A value that is a number, in any notation, that a float is read from. -/
def IsFloat (v : Value) (x : Float) : Prop :=
  ∃ n : Number, v = number n ∧ n.toFloat? = some x

/-- A value that names a choice: a string, or an object whose only member has the name and no
content. -/
def IsChoice {α : Type} (name : α → String) (v : Value) (a : α) : Prop :=
  v = string (some (name a)) ∨ v = object [(some (name a), null)]

theorem IsFlag.toBool? {v : Value} {b : Bool} (h : v.IsFlag b) : v.toBool? = some b := by
  rw [h]
  rfl

theorem IsCount.toNat? {v : Value} {n : Nat} (h : v.IsCount n) : v.toNat? = some n := by
  obtain ⟨ds, rfl, rfl, hn⟩ := h
  rw [Value.toNat?, Number.toNat?]
  dsimp only
  rw [decide_eq_true hn]
  rfl

theorem isCount_ofNat {n : Nat} (h : n < Nat.pow 2 64) : (number (.ofNat n)).IsCount n :=
  ⟨_, rfl, Decimal.digitsValue_toString n, h⟩

theorem IsFloat.toFloat? {v : Value} {x : Float} (h : v.IsFloat x) : v.toFloat? = some x := by
  obtain ⟨n, rfl, hn⟩ := h
  exact hn

theorem IsChoice.choice? {α : Type} {name : α → String} {choices : List α} {v : Value} {a : α}
    (hname : choice? name choices (string (some (name a))) = some a) (h : v.IsChoice name a) :
    v.choice? name choices = some a := by
  rcases h with rfl | rfl
  · exact hname
  · exact hname

section Default

variable {α β : Type} {P : Value → α → Prop} {w : Option Value} {given : Option α}

/-- What is given for a field is read, and the default is taken if nothing is. -/
theorem orDefault_map_of_rel {f : α → β} {read : Value → Option β} {default : β}
    (hread : ∀ v a, P v a → read v = some (f a)) (h : Option.Rel P w given) :
    orDefault read default w = some ((given.map f).getD default) := by
  cases h with
  | some h => exact hread _ _ h
  | none => rfl

theorem orDefault_of_rel {read : Value → Option α} {default : α}
    (hread : ∀ v a, P v a → read v = some a) (h : Option.Rel P w given) :
    orDefault read default w = some (given.getD default) := by
  rw [orDefault_map_of_rel (f := id) hread h, Option.map_id, id]

end Default

end Json.Value

/-! ## Written drafts -/

/-- The objects that give the bounds of an envelope, in any order. -/
def Envelope.Written (v : Value) (e : Envelope) : Prop :=
  ∃ a b c d, Envelope.record.Written [some a, some b, some c, some d] v ∧
    a.IsFloat e.minX ∧ b.IsFloat e.maxX ∧ c.IsFloat e.minY ∧ d.IsFloat e.maxY

/-- The objects that give just the fields of a draft, in any order. -/
def IndexDraft.Written (v : Value) (d : IndexDraft) : Prop :=
  ∃ kind columns rows sizeTiered nodeCapacity extent,
    IndexSettings.record.Written [kind, columns, rows, sizeTiered, nodeCapacity, extent] v ∧
    Option.Rel (Value.IsChoice IndexKind.name) kind d.kind ∧
    Option.Rel Value.IsCount columns d.columns ∧ Option.Rel Value.IsCount rows d.rows ∧
    Option.Rel Value.IsFlag sizeTiered d.sizeTiered ∧
    Option.Rel Value.IsCount nodeCapacity d.nodeCapacity ∧
    Option.Rel Envelope.Written extent d.extent

@[inherit_doc IndexDraft.Written]
def JoinDraft.Written (v : Value) (d : JoinDraft) : Prop :=
  ∃ useIndex boundary allowDuplicates indexKind buildSide parallel,
    JoinSettings.record.Written
      [useIndex, boundary, allowDuplicates, indexKind, buildSide, parallel] v ∧
    Option.Rel Value.IsFlag useIndex d.useIndex ∧ Option.Rel Value.IsFlag boundary d.boundary ∧
    Option.Rel Value.IsFlag allowDuplicates d.allowDuplicates ∧
    Option.Rel (Value.IsChoice IndexKind.name) indexKind d.indexKind ∧
    Option.Rel (Value.IsChoice Side.name) buildSide d.buildSide ∧
    Option.Rel Value.IsFlag parallel d.parallel

@[inherit_doc IndexDraft.Written]
def SettingsDraft.Written (v : Value) (d : SettingsDraft) : Prop :=
  ∃ index join, Settings.record.Written [index, join] v ∧
    Option.Rel IndexDraft.Written index d.index ∧ Option.Rel JoinDraft.Written join d.join

section Reading

variable {v : Value}

theorem Envelope.Written.ofValue? {e : Envelope} (h : Envelope.Written v e) :
    Envelope.ofValue? v = some e := by
  obtain ⟨a, b, c, d, hv, ha, hb, hc, hd⟩ := h
  rw [Envelope.ofValue?, hv.fields? (by decide) rfl]
  dsimp only
  rw [ha.toFloat?, hb.toFloat?, hc.toFloat?, hd.toFloat?]
  rfl

theorem IndexKind.choice?_name (k : IndexKind) :
    Value.choice? IndexKind.name IndexKind.all (.string k.name) = some k := by
  cases k <;> decide

theorem Side.choice?_name (s : Side) :
    Value.choice? Side.name Side.all (.string s.name) = some s := by
  cases s <;> decide

theorem IndexDraft.Written.ofValue? {d : IndexDraft} (h : IndexDraft.Written v d) :
    IndexSettings.ofValue? v = some d.complete := by
  obtain ⟨kind, columns, rows, sizeTiered, nodeCapacity, extent, hv, hkind, hcolumns, hrows,
    htiered, hcapacity, hextent⟩ := h
  rw [IndexSettings.ofValue?, hv.fields? (by decide) rfl]
  dsimp only
  rw [Value.orDefault_of_rel (fun _ k hk => hk.choice? k.choice?_name) hkind,
    Value.orDefault_of_rel (fun _ _ hn => hn.toNat?) hcolumns,
    Value.orDefault_of_rel (fun _ _ hn => hn.toNat?) hrows,
    Value.orDefault_of_rel (fun _ _ hb => hb.toBool?) htiered,
    Value.orDefault_of_rel (fun _ _ hn => hn.toNat?) hcapacity,
    Value.orDefault_of_rel (fun _ _ he => he.ofValue?) hextent]
  rfl

theorem JoinDraft.Written.ofValue? {d : JoinDraft} (h : JoinDraft.Written v d) :
    JoinSettings.ofValue? v = some d.complete := by
  obtain ⟨useIndex, boundary, allowDuplicates, indexKind, buildSide, parallel, hv, huse, hboundary,
    hallow, hkind, hside, hparallel⟩ := h
  rw [JoinSettings.ofValue?, hv.fields? (by decide) rfl]
  dsimp only
  rw [Value.orDefault_of_rel (fun _ _ hb => hb.toBool?) huse,
    Value.orDefault_of_rel (fun _ _ hb => hb.toBool?) hboundary,
    Value.orDefault_of_rel (fun _ _ hb => hb.toBool?) hallow,
    Value.orDefault_of_rel (fun _ k hk => hk.choice? k.choice?_name) hkind,
    Value.orDefault_of_rel (fun _ s hs => hs.choice? s.choice?_name) hside,
    Value.orDefault_of_rel (fun _ _ hb => hb.toBool?) hparallel]
  rfl

theorem SettingsDraft.Written.ofValue? {d : SettingsDraft} (h : SettingsDraft.Written v d) :
    Settings.ofValue? v = some d.complete := by
  obtain ⟨index, join, hv, hindex, hjoin⟩ := h
  rw [Settings.ofValue?, hv.fields? (by decide) rfl]
  dsimp only
  rw [Value.orDefault_map_of_rel (fun _ _ hd => hd.ofValue?) hindex,
    Value.orDefault_map_of_rel (fun _ _ hd => hd.ofValue?) hjoin]
  rfl

end Reading

/-! ## Read settings -/

section Read

variable {v : Value}

theorem Json.Number.lt_of_toNat? {n : Number} {k : Nat} (h : n.toNat? = some k) :
    k < Nat.pow 2 64 := by
  unfold Number.toNat? at h
  dsimp only at h
  split at h
  · next hn =>
    obtain rfl := Option.some.inj h
    simp only [Bool.and_eq_true, decide_eq_true_eq] at hn
    exact hn.2
  · cases h

theorem Json.Value.lt_of_toNat? {k : Nat} (h : v.toNat? = some k) : k < Nat.pow 2 64 := by
  cases v with
  | number n => exact Number.lt_of_toNat? h
  | _ => cases h

theorem IndexSettings.nodeCapacity_default_lt :
    IndexSettings.default.nodeCapacity < Nat.pow 2 64 := by
  decide

/-- The fields that index settings are read from. -/
theorem IndexSettings.fields_of_ofValue? {s : IndexSettings}
    (h : IndexSettings.ofValue? v = some s) :
    ∃ kind columns rows sizeTiered nodeCapacity extent,
      IndexSettings.record.fields? v =
        some [kind, columns, rows, sizeTiered, nodeCapacity, extent] ∧
      Value.orDefault Value.toNat? IndexSettings.default.nodeCapacity nodeCapacity =
        some s.nodeCapacity ∧
      Value.orDefault Envelope.ofValue? IndexSettings.default.extent extent = some s.extent := by
  unfold IndexSettings.ofValue? at h
  split at h
  · next kind columns rows sizeTiered nodeCapacity extent hfields =>
    simp only [bind, Option.bind_eq_some_iff, pure, Option.some_inj] at h
    obtain ⟨_, -, _, -, _, -, _, -, _, hcapacity, _, hextent, rfl⟩ := h
    exact ⟨_, _, _, _, _, _, hfields, hcapacity, hextent⟩
  · cases h

theorem IndexSettings.nodeCapacity_lt {s : IndexSettings}
    (h : IndexSettings.ofValue? v = some s) : s.nodeCapacity < Nat.pow 2 64 := by
  obtain ⟨_, _, _, _, nodeCapacity, _, -, hcapacity, -⟩ := fields_of_ofValue? h
  cases nodeCapacity with
  | none =>
    rw [← Option.some.inj hcapacity]
    exact nodeCapacity_default_lt
  | some v => exact Value.lt_of_toNat? hcapacity

/-- The parts that settings are read from. -/
theorem Settings.fields_of_ofValue? {s : Settings} (h : Settings.ofValue? v = some s) :
    ∃ index join, Settings.record.fields? v = some [index, join] ∧
      Value.orDefault IndexSettings.ofValue? .default index = some s.index ∧
      Value.orDefault JoinSettings.ofValue? .default join = some s.join := by
  unfold Settings.ofValue? at h
  split at h
  · next index join hfields =>
    simp only [bind, Option.bind_eq_some_iff, pure, Option.some_inj] at h
    obtain ⟨_, hindex, _, hjoin, rfl⟩ := h
    exact ⟨_, _, hfields, hindex, hjoin⟩
  · cases h

theorem Settings.nodeCapacity_lt {s : Settings} (h : Settings.ofValue? v = some s) :
    s.index.nodeCapacity < Nat.pow 2 64 := by
  obtain ⟨index, _, -, hindex, -⟩ := fields_of_ofValue? h
  cases index with
  | none =>
    rw [← Option.some.inj hindex]
    exact IndexSettings.nodeCapacity_default_lt
  | some v => exact IndexSettings.nodeCapacity_lt hindex

end Read

/-! ## Refused values -/

/-- The values that are refused for their names: at the top, in a part or in the extent a name is
not known or given twice, or the extent lacks a bound. -/
inductive Settings.Refused : Value → Prop
  | settings {v : Value} (h : Settings.record.Refuses v) : Refused v
  | index {v i : Value} (hi : Settings.record.Gives v "index" i)
    (h : IndexSettings.record.Refuses i) : Refused v
  | join {v j : Value} (hj : Settings.record.Gives v "join" j)
    (h : JoinSettings.record.Refuses j) : Refused v
  | extent {v i e : Value} (hi : Settings.record.Gives v "index" i)
    (he : IndexSettings.record.Gives i "extent" e)
    (h : Envelope.record.Refuses e ∨
      ∃ name ∈ Envelope.record.names, ∀ w, ¬ Envelope.record.Gives e name w) : Refused v

section Refused

variable {v w : Value}

/-- Every bound of an envelope that is read was given. -/
theorem Envelope.gives_of_ofValue? {e : Envelope} (h : Envelope.ofValue? v = some e) :
    ∀ name ∈ Envelope.record.names, ∃ w, Envelope.record.Gives v name w := by
  unfold Envelope.ofValue? at h
  split at h
  · next a b c d hfields =>
    intro name hname
    obtain ⟨i, hi, hget⟩ := List.mem_iff_getElem.mp hname
    have hi' : Envelope.record.names[i]? = some name := List.getElem?_eq_some_iff.mpr ⟨hi, hget⟩
    obtain ⟨w, hw⟩ : ∃ w, [some a, some b, some c, some d][i]? = some (some w) := by
      have : i < 4 := hi
      interval_cases i <;> exact ⟨_, rfl⟩
    exact ⟨w, (Record.gives_iff (by decide) hfields hi').mpr hw⟩
  · cases h

/-- What is given for a field with a default is read. -/
theorem Json.Record.Gives.read {r : Record} {given : List (Option Value)} {name : String}
    {i : Nat} {α : Type} {read : Value → Option α} {default a : α} {field : Option Value}
    (h : r.Gives v name w) (hnames : r.names.Nodup) (hv : r.fields? v = some given)
    (hi : r.names[i]? = some name) (hfield : given[i]? = some field)
    (ha : Value.orDefault read default field = some a) : read w = some a := by
  obtain rfl := Option.some.inj (hfield.symm.trans ((Record.gives_iff hnames hv hi).mp h))
  exact ha

/-- A refused value is not read. -/
theorem Settings.Refused.ofValue? (h : Settings.Refused v) : Settings.ofValue? v = none := by
  refine Option.eq_none_iff_forall_ne_some.mpr fun s hs => ?_
  obtain ⟨index, join, hfields, hindex, hjoin⟩ := Settings.fields_of_ofValue? hs
  have hindexed {i : Value} (hi : Settings.record.Gives v "index" i) :
      IndexSettings.ofValue? i = some s.index :=
    hi.read (i := 0) (by decide) hfields rfl rfl hindex
  cases h with
  | settings h =>
    rw [h.fields?] at hfields
    cases hfields
  | index hi h =>
    obtain ⟨_, _, _, _, _, _, hfields, -⟩ := IndexSettings.fields_of_ofValue? (hindexed hi)
    rw [h.fields?] at hfields
    cases hfields
  | join hj h =>
    have hread := hj.read (i := 1) (by decide) hfields rfl rfl hjoin
    rw [JoinSettings.ofValue?, h.fields?] at hread
    cases hread
  | extent hi he h =>
    obtain ⟨_, _, _, _, _, _, hfields, -, hextent⟩ :=
      IndexSettings.fields_of_ofValue? (hindexed hi)
    have hread := he.read (i := 5) (by decide) hfields rfl rfl hextent
    rcases h with h | ⟨name, hname, hlacks⟩
    · rw [Envelope.ofValue?, h.fields?] at hread
      cases hread
    · obtain ⟨w, hw⟩ := Envelope.gives_of_ofValue? hread name hname
      exact hlacks w hw

end Refused

/-! ## Texts -/

namespace Settings

/-- What keeps an index from being laid out is a matter of configuration. -/
theorem kind_of_validate {s : Settings} {f : Failure} (h : s.validate = .error f) :
    f.kind = .configuration := by
  have hfault : s.index.fault? = some f := by
    rw [validate, IndexSettings.validate] at h
    split at h
    · next hf =>
      obtain rfl := Except.error.inj h
      exact hf
    · cases h
  unfold IndexSettings.fault? at hfault
  split at hfault
  · cases hfault; rfl
  split at hfault
  · cases hfault; rfl
  split at hfault
  · cases hfault; rfl
  split at hfault
  · cases hfault; rfl
  · cases hfault

/-- Whatever text settings are read from, they are valid, and a node capacity fits a word. -/
theorem valid_of_ofJson {s : Settings} {text : String} (h : ofJson text = .ok s) :
    s.validate = .ok () ∧ s.index.nodeCapacity < Nat.pow 2 64 := by
  unfold ofJson at h
  split at h
  · cases h
  · next s' hread =>
    obtain ⟨v, -, hv⟩ := Option.bind_eq_some_iff.mp hread
    obtain ⟨hvalid, rfl⟩ := ok_of_map_const h
    exact ⟨hvalid, nodeCapacity_lt hv⟩

/-- A text of a draft is read as its completion, if this is valid. -/
theorem ofJson_of_written {text : String} {v : Value} {d : SettingsDraft}
    (htext : Value.IsText text v) (hwritten : SettingsDraft.Written v d) :
    ofJson text = d.complete.validate.map fun _ => d.complete := by
  rw [ofJson, Value.parse?_eq_some_iff.mpr htext, Option.bind_some, hwritten.ofValue?]

/-- A text of a draft is read as its completion if an index can be laid out in this way, and is
refused for its configuration otherwise; the texts that are refused for their names, or are no texts
of a value at all, are unreadable; and no text is read as settings that are not valid. -/
theorem ofJson_draft (text : String) :
    (∀ v d, Value.IsText text v → SettingsDraft.Written v d →
      (d.complete.validate = .ok () → ofJson text = .ok d.complete) ∧
      ∀ f, d.complete.validate = .error f →
        ofJson text = .error f ∧ f.kind = .configuration) ∧
    (∀ v, Value.IsText text v → Refused v → ∃ f, ofJson text = .error f ∧ f.kind = .encoding) ∧
    ((¬ ∃ v, Value.IsText text v) → ∃ f, ofJson text = .error f ∧ f.kind = .encoding) ∧
    ∀ s, ofJson text = .ok s → s.validate = .ok () := by
  refine ⟨?_, ?_, ?_, fun s h => (valid_of_ofJson h).1⟩
  · intro v d htext hwritten
    refine ⟨fun hvalid => ?_, fun f hf => ⟨?_, kind_of_validate hf⟩⟩
    · rw [ofJson_of_written htext hwritten, hvalid]
      rfl
    · rw [ofJson_of_written htext hwritten, hf]
      rfl
  · intro v htext hrefused
    refine ⟨.unreadableSettings, ?_, rfl⟩
    rw [ofJson, Value.parse?_eq_some_iff.mpr htext, Option.bind_some, hrefused.ofValue?]
  · intro hnone
    refine ⟨.unreadableSettings, ?_, rfl⟩
    have hparse : Value.parse? text = none :=
      Option.eq_none_iff_forall_ne_some.mpr fun v hv => hnone ⟨v, Value.parse?_eq_some_iff.mp hv⟩
    rw [ofJson, hparse, Option.bind_none]

/-- A text out of order, with odd blanks and an escape, around one more field of the index. -/
def awkwardText (field : String) : String :=
  "\t\x7b \"join\" :\x7b\"p\\u0061rallel\":true\x7d,\n\"index\": \x7b" ++ field ++
    ", \"index_type\":\"grid\"\x7d \x7d"

def awkwardValue (field : Option String × Value) : Value :=
  .object [(some "join", .object [(some "parallel", .bool true)]),
    (some "index", .object [field, (some "index_type", .string (some "grid"))])]

def awkwardDraft (capacity : Nat) : SettingsDraft :=
  ⟨some ⟨some .grid, none, none, none, some capacity, none⟩,
    some ⟨none, none, none, none, none, some true⟩⟩

theorem written_awkward {n : Nat} (h : n < Nat.pow 2 64) :
    SettingsDraft.Written (awkwardValue (some "node_capacity", .number (.ofNat n)))
      (awkwardDraft n) := by
  refine ⟨some _, some _, ⟨_, [], rfl, .swap _ _ _, nofun⟩, .some ?_, .some ?_⟩
  · exact ⟨some _, none, none, none, some _, none, ⟨_, [], rfl, .swap _ _ _, nofun⟩,
      .some (.inl rfl), .none, .none, .none, .some (Value.isCount_ofNat h), .none⟩
  · exact ⟨none, none, none, none, none, some _, ⟨_, [], rfl, .refl _, nofun⟩,
      .none, .none, .none, .none, .none, .some rfl⟩

theorem ofJson_awkward :
    ofJson (awkwardText "\"node_capacity\":3") = .ok (awkwardDraft 3).complete ∧
    ofJson (awkwardText "\"node_capacity\" : 1") = .error (.smallNodes 1) ∧
    ∃ f, ofJson (awkwardText "\"nodes\":3") = .error f ∧ f.kind = .encoding := by
  have htext {text : String} {v : Value} (h : tokenize text.toList = some v.tokens) :
      Value.IsText text v :=
    Value.parse?_eq_some_iff.mp (Value.parse?_eq_some_iff_tokenize.mpr h)
  refine ⟨?_, ?_, ?_⟩
  · have hvalid : (awkwardDraft 3).complete.index.validate = .ok () := by decide +kernel
    exact ((ofJson_draft _).1 _ _ (htext (by decide +kernel)) (written_awkward (by decide))).1
      hvalid
  · have hinvalid : (awkwardDraft 1).complete.validate = .error (.smallNodes 1) := by
      rfl
    exact (((ofJson_draft _).1 (awkwardValue (some "node_capacity", .number (.ofNat 1))) _
      (htext (by decide +kernel)) (written_awkward (by decide))).2 _ hinvalid).1
  · have hindex : Settings.record.Gives (awkwardValue (some "nodes", .number (.ofNat 3)))
        "index" (.object [(some "nodes", .number (.ofNat 3)),
          (some "index_type", .string (some "grid"))]) :=
      .member (List.mem_cons_of_mem _ List.mem_cons_self)
    have hunknown : ∀ name ∈ IndexSettings.record.names, some "nodes" ≠ some name := by
      decide
    exact (ofJson_draft _).2.1 _ (htext (by decide +kernel))
      (.index hindex ⟨_, rfl, .inl ⟨rfl, _, List.mem_cons_self, hunknown⟩⟩)

end Settings

end PlanarJoin
