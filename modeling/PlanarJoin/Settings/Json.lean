import PlanarJoin.Json.Reader
import PlanarJoin.Json.Writer
import PlanarJoin.Settings.Basic

/-!
# Settings as JSON

Settings are read strictly: a name that is not known or a field given twice is refused, and so is a
value of another type.  A record may be given by name or, in order, as a list; a field with a
default may be left out, in a list at the end only.

## Main definitions

* `Json.Record`: whether unknown names are refused, and the fields in order.
* `Json.Record.fields?`: the value of every field that is given.
* `Settings.ofJson`: reads settings and validates them.
* `Settings.toJson`: writes settings with every field.
-/

namespace PlanarJoin

namespace Json

/-- The fields of a record. -/
structure Record where
  /-- Whether a member under another name is refused, or passed over. -/
  strict : Bool
  names : List String

namespace Record

/-- The members of an object under names of the record; none if a member is not allowed. -/
def known? (r : Record) : List (Option String × Value) → Option (List (String × Value))
  | [] => some []
  | (none, _) :: _ => none
  | (some k, v) :: ms =>
    if r.names.contains k then (r.known? ms).map ((k, v) :: ·)
    else if r.strict then none
    else r.known? ms

/-- The value given for each field, in order; none if the record as a whole is refused. -/
def fields? (r : Record) : Value → Option (List (Option Value))
  | .object ms =>
    (r.known? ms).bind fun known =>
      if (known.map (·.1)).Nodup then some (r.names.map fun name => known.lookup name) else none
  | .array vs =>
    if vs.length ≤ r.names.length then
      some (vs.map some ++ List.replicate (r.names.length - vs.length) none)
    else none
  | _ => none

end Record

namespace Value

/-- A flag. -/
def toBool? : Value → Option Bool
  | bool b => some b
  | _ => none

/-- A count of 64 bits. -/
def toNat? : Value → Option Nat
  | number n => n.toNat?
  | _ => none

/-- A finite float. -/
def toFloat? : Value → Option Float
  | number n => n.toFloat?
  | _ => none

/-- The one of some choices that a value names: by a string, or by an object whose only member has
that name and no content. -/
def choice? {α : Type} (name : α → String) (choices : List α) : Value → Option α
  | string (some s) => choices.find? (name · == s)
  | object [(some s, null)] => choices.find? (name · == s)
  | _ => none

/-- A field that may be left out. -/
def orDefault {α : Type} (read : Value → Option α) (default : α) : Option Value → Option α
  | none => some default
  | some v => read v

end Value

end Json

open Json

/-! ## Reading -/

/-- The bounds of an envelope, all of which must be given; other members are passed over. -/
def Envelope.record : Record :=
  ⟨false, ["min_x", "max_x", "min_y", "max_y"]⟩

def Envelope.ofValue? (v : Value) : Option Envelope :=
  match Envelope.record.fields? v with
  | some [some a, some b, some c, some d] => do
    return ⟨← a.toFloat?, ← b.toFloat?, ← c.toFloat?, ← d.toFloat?⟩
  | _ => none

/-- The fields of index settings. -/
def IndexSettings.record : Record :=
  ⟨true, ["index_type", "x_buckets", "y_buckets", "size_tiered", "node_capacity", "extent"]⟩

def IndexSettings.ofValue? (v : Value) : Option IndexSettings :=
  match IndexSettings.record.fields? v with
  | some [kind, columns, rows, sizeTiered, nodeCapacity, extent] => do
    let d := IndexSettings.default
    return {
      kind := ← Value.orDefault (Value.choice? IndexKind.name IndexKind.all) d.kind kind
      columns := ← Value.orDefault Value.toNat? d.columns columns
      rows := ← Value.orDefault Value.toNat? d.rows rows
      sizeTiered := ← Value.orDefault Value.toBool? d.sizeTiered sizeTiered
      nodeCapacity := ← Value.orDefault Value.toNat? d.nodeCapacity nodeCapacity
      extent := ← Value.orDefault Envelope.ofValue? d.extent extent }
  | _ => none

/-- The fields of join settings. -/
def JoinSettings.record : Record :=
  ⟨true, ["use_index", "consider_boundary_intersection", "allow_duplicates", "index_type",
    "build_side", "parallel"]⟩

def JoinSettings.ofValue? (v : Value) : Option JoinSettings :=
  match JoinSettings.record.fields? v with
  | some [useIndex, boundary, allowDuplicates, indexKind, buildSide, parallel] => do
    let d := JoinSettings.default
    return {
      useIndex := ← Value.orDefault Value.toBool? d.useIndex useIndex
      boundary := ← Value.orDefault Value.toBool? d.boundary boundary
      allowDuplicates := ← Value.orDefault Value.toBool? d.allowDuplicates allowDuplicates
      indexKind := ← Value.orDefault (Value.choice? IndexKind.name IndexKind.all) d.indexKind
        indexKind
      buildSide := ← Value.orDefault (Value.choice? Side.name Side.all) d.buildSide buildSide
      parallel := ← Value.orDefault Value.toBool? d.parallel parallel }
  | _ => none

/-- The two parts of settings. -/
def Settings.record : Record :=
  ⟨true, ["index", "join"]⟩

def Settings.ofValue? (v : Value) : Option Settings :=
  match Settings.record.fields? v with
  | some [index, join] => do
    return {
      index := ← Value.orDefault IndexSettings.ofValue? .default index
      join := ← Value.orDefault JoinSettings.ofValue? .default join }
  | _ => none

/-- Reads settings from a text and validates them. -/
def Settings.ofJson (text : String) : Except Failure Settings :=
  match (Value.parse? text).bind Settings.ofValue? with
  | none => .error .unreadableSettings
  | some s => s.validate.map fun _ => s

/-! ## Writing -/

/-- An object with the names of a record. -/
def Json.Record.toValue (r : Record) (vs : List Value) : Value :=
  .object ((r.names.map some).zip vs)

/-- A float as a JSON value; one that is not finite has none of its own. -/
def Json.Value.ofFloat (x : Float) : Value :=
  if x.isFinite then .number (.ofFloat x) else .null

def Envelope.toValue (e : Envelope) : Value :=
  Envelope.record.toValue [.ofFloat e.minX, .ofFloat e.maxX, .ofFloat e.minY, .ofFloat e.maxY]

def IndexSettings.toValue (s : IndexSettings) : Value :=
  IndexSettings.record.toValue [.string s.kind.name, .number (.ofNat s.columns),
    .number (.ofNat s.rows), .bool s.sizeTiered, .number (.ofNat s.nodeCapacity), s.extent.toValue]

def JoinSettings.toValue (s : JoinSettings) : Value :=
  JoinSettings.record.toValue [.bool s.useIndex, .bool s.boundary, .bool s.allowDuplicates,
    .string s.indexKind.name, .string s.buildSide.name, .bool s.parallel]

def Settings.toValue (s : Settings) : Value :=
  Settings.record.toValue [s.index.toValue, s.join.toValue]

/-- The text of settings, with every field. -/
def Settings.toJson (s : Settings) : String :=
  s.toValue.write

end PlanarJoin
