import WireLayout.Compile
import WireLayout.Json.Basic

/-!
# Documents of schemas

How definitions, structs, options and reports are written as JSON. A member that is absent is left
out.
-/

namespace WireLayout

namespace Json

/-- An object without the members that are absent. -/
def ofPresent (members : List (String × Option Json)) : Json :=
  .obj (members.filterMap fun m => m.2.map fun j => (m.1, j))

/-- A text that may be absent. -/
def ofText (s : Option String) : Option Json := s.map .str

/-- A number that may be absent. -/
def ofNat (n : Option Nat) : Option Json := n.map fun n => .int n

/-- A list of texts. -/
def ofTexts (texts : List String) : Json := .arr (texts.map .str)

end Json

/-- The name of an integer type. -/
def IntType.toJson (t : IntType) : Json := .str t.name

/-- A member of an enum. -/
def EnumMember.toJson (m : EnumMember) : Json :=
  .ofPresent [("name", some (.str m.name)), ("value", some (.int m.value)),
    ("comment", Json.ofText m.comment)]

/-- An enum. -/
def EnumDef.toJson (d : EnumDef) : Json :=
  .ofPresent [("name", some (.str d.name)), ("primitive", some d.intType.toJson),
    ("values", some (.arr (d.members.map EnumMember.toJson))), ("comment", Json.ofText d.comment)]

/-- An alias. -/
def AliasDef.toJson (d : AliasDef) : Json :=
  let layout : List (String × Option Json) :=
    match d.layout with
    | .int t => [("layout", some (.str "int")), ("primitive", some t.toJson)]
    | .bytes size hint =>
      [("layout", some (.str "bytes")), ("size", some (.int size)),
        ("print_hint", Json.ofText hint)]
  .ofPresent (("name", some (.str d.name)) :: layout ++ [("comment", Json.ofText d.comment)])

/-- The members that say how a value lies on the wire. -/
def WireForm.members : WireForm → List (String × Json)
  | .int t => [("repr", .str "int"), ("primitive", t.toJson)]
  | .bytes len => [("repr", .str "bytes"), ("len", .int len)]

/-- The keyword of a comparison. -/
def Comparison.keyword : Comparison → String
  | .equals => "equals"
  | .notEquals => "not_equals"

/-- A condition. -/
def Condition.toJson (c : Condition) : Json :=
  .obj [("field", .str c.field), ("op", .str c.op.keyword), ("value", .int c.value),
    ("literal", .str c.literal)]

/-- The members that tell a constant's value. -/
def ConstValue.members : ConstValue → List (String × Json)
  | .int v => [("kind", .str "int"), ("value", .int v)]
  | .member name v => [("kind", .str "enum"), ("member", .str name), ("value", .int v)]

/-- The members that tell a reserved field's value. -/
def ReservedValue.members : ReservedValue → List (String × Json)
  | .int v => [("kind", .str "int"), ("value", .int v)]
  | .member name v => [("kind", .str "enum"), ("member", .str name), ("value", .int v)]
  | .sizeOf field => [("kind", .str "size_of"), ("field", .str field)]

/-- The members that tell the number of an array's elements. -/
def Count.members : Count → List (String × Json)
  | .literal n => [("kind", .str "literal"), ("count", .int n)]
  | .field name => [("kind", .str "field"), ("field", .str name)]

/-- The keyword of a role. -/
def Role.keyword : Role → String
  | .plain => "plain"
  | .const => "const"
  | .inline => "inline"
  | .reserved => "reserved"
  | .array => "array"
  | .arraySized => "array_sized"
  | .arrayFill => "array_fill"
  | .union => "union"

/-- A header. -/
def HeaderBinding.toJson (b : HeaderBinding) : Json :=
  .ofPresent [("header", some (.str b.header)), ("type_field", some (.str b.typeField)),
    ("version_field", Json.ofText b.versionField)]

/-- The members that tell a field's disposition. -/
def Disposition.members (d : Disposition) : List (String × Option Json) :=
  ("disposition", some (.str d.role.keyword)) ::
    match d with
    | .const v => v.members.map fun m => (m.1, some m.2)
    | .reserved v => v.members.map fun m => (m.1, some m.2)
    | .array count => count.members.map fun m => (m.1, some m.2)
    | .arraySized layout =>
      [("length_field", some (.str layout.lengthField)),
        ("header", some (.str layout.binding.header)),
        ("type_field", some (.str layout.binding.typeField)),
        ("version_field", Json.ofText layout.binding.versionField),
        ("align", Json.ofNat layout.align)]
    | _ => []

/-- A field. -/
def Field.toJson (f : Field) : Json :=
  .ofPresent (("name", some (.str f.name)) :: ("type", some (.str f.typeName)) ::
    f.disposition.members ++
      [("condition", f.condition.map Condition.toJson), ("comment", Json.ofText f.comment)])

/-- The keyword of a kind of group. -/
def GroupLayout.keyword : GroupLayout → String
  | .independent => "independent"
  | .union => "union"

/-- A condition group. -/
def ConditionGroup.toJson (g : ConditionGroup) : Json :=
  .obj [("condition_field", .str g.conditionField), ("members", Json.ofTexts g.members),
    ("layout", .str g.layout.keyword)]

/-- An identity. -/
def Identity.toJson (i : Identity) : Json :=
  .obj [("group", .str i.group), ("id", .obj [("name", .str i.member), ("value", .int i.value)])]

/-- The keyword of a kind of struct. -/
def StructKind.keyword : StructKind → String
  | .normal => "normal"
  | .abstract => "abstract"

/-- A struct. -/
def Struct.toJson (s : Struct) : Json :=
  .ofPresent [("name", some (.str s.name)), ("kind", some (.str s.kind.keyword)),
    ("fields", some (.arr (s.fields.map Field.toJson))),
    ("identity", s.identity.map Identity.toJson), ("version", Json.ofNat s.version),
    ("header", s.header.map HeaderBinding.toJson),
    ("length_fields", some (.obj (s.counts.map fun p => (p.1, Json.ofTexts p.2)))),
    ("groups", some (.arr (s.groups.map ConditionGroup.toJson))),
    ("comment", Json.ofText s.comment)]

/-- Options. -/
def Options.toJson (o : Options) : Json :=
  .obj [("type_const", .str o.typeConst), ("version_const", .str o.versionConst),
    ("default_header_type_field", .str o.defaultHeaderTypeField),
    ("default_header_version_field", .str o.defaultHeaderVersionField),
    ("version_family_fallback", .bool o.versionFamilyFallback), ("fail_fast", .bool o.failFast)]

/-- A listed registration. -/
def DispatchEntry.toJson (e : DispatchEntry) : Json :=
  .ofPresent [("group", some (.str e.group)), ("version", some (.int e.version)),
    ("id", some (.int e.id)), ("member", Json.ofText e.member),
    ("struct_name", some (.str e.structName))]

/-- A report about a field. -/
def FieldError.toJson (e : FieldError) : Json :=
  .obj [("struct_name", .str e.structName), ("field", (Json.ofText e.fault.field).getD .null),
    ("kind", .str e.fault.code), ("message", .str e.message)]

/-- A report about a reference between structs. -/
def DependencyError.toJson (e : DependencyError) : Json :=
  .obj [("struct_name", .str e.structName), ("field", .str e.field), ("kind", .str e.fault.code),
    ("message", .str e.message)]

end WireLayout
