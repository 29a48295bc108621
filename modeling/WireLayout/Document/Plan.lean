import WireLayout.Document.Schema

/-!
# Documents of plans

How plans are written as JSON. An operation is an object that starts with its name.
-/

namespace WireLayout

/-- The members that tell a leaf. -/
def Leaf.members (l : Leaf) : List (String × Json) :=
  ("type_name", .str l.typeName) :: l.form.members

/-- A leaf. -/
def Leaf.toJson (l : Leaf) : Json := .obj l.members

/-- An element. -/
def Element.toJson : Element → Json
  | .leaf l => .obj (("kind", .str "leaf") :: l.members)
  | .struct ty => .obj [("kind", .str "struct"), ("type_name", .str ty)]

/-- A member of a union. -/
def UnionMember.toJson (m : UnionMember) : Json :=
  .obj [("field", .str m.field), ("guard", m.guard.toJson), ("element", m.element.toJson)]

/-- The members of a union. -/
def UnionMember.listJson (ms : List UnionMember) : Json := .arr (ms.map UnionMember.toJson)

/-- An operation with its name and its present parts. -/
def opJson (name : String) (parts : List (String × Option Json)) : Json :=
  .ofPresent (("op", some (.str name)) :: parts)

/-- An operation of a size plan. -/
def SizeOp.toJson : SizeOp → Json
  | .fixed bytes => opJson "fixed" [("bytes", some (.int bytes))]
  | .nested ty => opJson "nested" [("type_name", some (.str ty))]
  | .array element => opJson "array" [("element", some element.toJson)]
  | .byteLength field => opJson "byte_length" [("length_field", some (.str field))]
  | .fill element => opJson "fill" [("element", some element.toJson)]
  | .union bytes => opJson "union" [("bytes", some (.int bytes))]

/-- An operation of an encode plan. -/
def EncodeOp.toJson : EncodeOp → Json
  | .leaf l => opJson "leaf" [("leaf", some l.toJson)]
  | .length l arrays =>
    opJson "length" [("leaf", some l.toJson), ("arrays", some (Json.ofTexts arrays))]
  | .byteLength l region align =>
    opJson "byte_length"
      [("leaf", some l.toJson), ("array", some (.str region)), ("align", Json.ofNat align)]
  | .nested ty isInline =>
    opJson "nested" [("type_name", some (.str ty)), ("inline", some (.bool isInline))]
  | .reserved l value =>
    opJson "reserved" [("leaf", some l.toJson), ("value", some (.obj value.members))]
  | .array element count =>
    opJson "array" [("element", some element.toJson), ("count", some (.obj count.members))]
  | .arraySized field align =>
    opJson "array_sized" [("length_field", some (.str field)), ("align", Json.ofNat align)]
  | .fill element => opJson "fill" [("element", some element.toJson)]
  | .union bytes members =>
    opJson "union" [("bytes", some (.int bytes)), ("members", some (UnionMember.listJson members))]

/-- An operation of a decode plan. -/
def DecodeOp.toJson : DecodeOp → Json
  | .leaf l => opJson "leaf" [("leaf", some l.toJson)]
  | .length l => opJson "length" [("leaf", some l.toJson)]
  | .nested ty isInline =>
    opJson "nested" [("type_name", some (.str ty)), ("inline", some (.bool isInline))]
  | .reserved l expect =>
    opJson "reserved" [("leaf", some l.toJson), ("expect", expect.map .int)]
  | .checkSizeOf field target =>
    opJson "check_size_of" [("reserved", some (.str field)), ("target", some (.str target))]
  | .array element count =>
    opJson "array" [("element", some element.toJson), ("count", some (.obj count.members))]
  | .arraySized layout group =>
    opJson "array_sized"
      [("length_field", some (.str layout.lengthField)),
        ("header", some (.str layout.binding.header)),
        ("type_field", some (.str layout.binding.typeField)),
        ("version_field", Json.ofText layout.binding.versionField), ("group", some (.str group)),
        ("align", Json.ofNat layout.align)]
  | .fill element => opJson "fill" [("element", some element.toJson)]
  | .union bytes => opJson "union" [("bytes", some (.int bytes))]
  | .resolveUnion members =>
    opJson "resolve_union" [("members", some (UnionMember.listJson members))]

/-- A step, given how its operation is written. -/
def Step.toJson {Op : Type} (op : Op → Json) (s : Step Op) : Json :=
  .ofPresent [("field", some (.str s.field)), ("disposition", some (.str s.role.keyword)),
    ("guard", s.guard.map Condition.toJson), ("op", some (op s.op))]

/-- An initial value. -/
def Initializer.toJson (i : Initializer) : Json :=
  .obj [("path", Json.ofTexts i.path), ("value", .int i.value)]

/-- A plan. -/
def Plan.toJson (p : Plan) : Json :=
  .ofPresent [("struct_name", some (.str p.structName)),
    ("initializers",
      if p.initializers.isEmpty then none else some (.arr (p.initializers.map Initializer.toJson))),
    ("size", some (.arr (p.size.map (Step.toJson SizeOp.toJson)))),
    ("serialize", some (.arr (p.encode.map (Step.toJson EncodeOp.toJson)))),
    ("deserialize", some (.arr (p.decode.map (Step.toJson DecodeOp.toJson))))]

end WireLayout
