import WireLayout.Declaration
import WireLayout.Json.Parser
import WireLayout.Json.Reader
import WireLayout.Options

/-!
# Schema documents

How declarations are read from JSON. A schema is a list of objects, each with a `kind`; keys that
are not known are passed over, known keys may not come twice, and several keys have a second
spelling. In place of an object may stand the list of its values in the order of its keys, the kind
first. A schema is read as a whole: a part that has no value or nests too deep refuses it, even
under a key that is passed over. Options and single fields are read key by key, and what is passed
over there needs only to be well-formed.
-/

namespace WireLayout

open Json (member? required optional withDefault text? natural? record? tagged? list?)

/-- A number or a text. -/
def Scalar.ofJson? : Json → Option Scalar
  | .int (.ofNat n) => some (.unsigned n)
  | .int n => some (.signed n)
  | .str s => some (.text s)
  | _ => none

/-- A signedness: a word, or an object whose only member has that word as its key and nothing as its
value. -/
def Signedness.ofJson? : Json → Option Signedness
  | .str word => ofWord? word
  | .obj [(word, .null)] => ofWord? word
  | .obj [(word, .obj [])] => ofWord? word
  | _ => none
where
  /-- The signedness of a word. -/
  ofWord? : String → Option Signedness
    | "signed" => some .signed
    | "unsigned" => some .unsigned
    | _ => none

/-- The documentation of a declaration. -/
def comment? (ms : List (String × Json)) : Option (Option String) := do
  optional text? (← member? ["comment", "comments"] ms)

/-- A member of an enum. -/
def MemberDecl.ofJson? (j : Json) : Option MemberDecl := do
  let ms ← record? ["name", "value", "comment"] j
  let name ← required text? (← member? ["name"] ms)
  let value ← required Scalar.ofJson? (← member? ["value"] ms)
  let comment ← comment? ms
  some { name, value, comment }

/-- An enum. -/
def EnumDecl.ofJson? (j : Json) : Option EnumDecl := do
  let ms ← record? ["name", "width", "signedness", "values", "comment"] j
  let name ← required text? (← member? ["name"] ms)
  let width ← required natural? (← member? ["width"] ms)
  let signedness ← withDefault .unsigned Signedness.ofJson? (← member? ["signedness"] ms)
  let members ← withDefault [] (list? MemberDecl.ofJson?) (← member? ["values"] ms)
  let comment ← comment? ms
  some { name, width, signedness, members, comment }

/-- An alias. -/
def AliasDecl.ofJson? (j : Json) : Option AliasDecl := do
  let ms ← record? ["name", "width", "signedness", "array_size", "print_hint", "comment"] j
  let name ← required text? (← member? ["name"] ms)
  let width ← optional natural? (← member? ["width"] ms)
  let signedness ← optional Signedness.ofJson? (← member? ["signedness"] ms)
  let arraySize ← optional natural? (← member? ["array_size", "arraySize"] ms)
  let printHint ← optional text? (← member? ["print_hint", "printHint"] ms)
  let comment ← comment? ms
  some { name, width, signedness, arraySize, printHint, comment }

/-- A field of a struct. -/
def FieldDecl.ofJson? (j : Json) : Option FieldDecl := do
  let ms ← record?
    ["name", "type", "disposition", "size", "value", "condition", "condition_operation",
      "condition_value", "header", "header_type_field", "header_version_field", "align", "version",
      "comment"] j
  let name ← optional text? (← member? ["name"] ms)
  let typeName ← optional text? (← member? ["type"] ms)
  let disposition ← optional text? (← member? ["disposition"] ms)
  let size ← optional Scalar.ofJson? (← member? ["size"] ms)
  let value ← optional Scalar.ofJson? (← member? ["value"] ms)
  let condition ← optional text? (← member? ["condition"] ms)
  let conditionOperation ←
    optional text? (← member? ["condition_operation", "conditionOperation"] ms)
  let conditionValue ← optional Scalar.ofJson? (← member? ["condition_value", "conditionValue"] ms)
  let header ← optional text? (← member? ["header"] ms)
  let headerTypeField ← optional text? (← member? ["header_type_field", "headerTypeField"] ms)
  let headerVersionField ←
    optional text? (← member? ["header_version_field", "headerVersionField"] ms)
  let align ← optional Scalar.ofJson? (← member? ["align"] ms)
  let version ← optional Scalar.ofJson? (← member? ["version"] ms)
  let comment ← comment? ms
  some
    { name, typeName, disposition, size, value, condition, conditionOperation, conditionValue
      header, headerTypeField, headerVersionField, align, version, comment }

/-- A struct. -/
def StructDecl.ofJson? (j : Json) : Option StructDecl := do
  let ms ← record? ["name", "comment", "disposition", "fields"] j
  let name ← required text? (← member? ["name"] ms)
  let comment ← comment? ms
  let disposition ← optional text? (← member? ["disposition"] ms)
  let fields ← withDefault [] (list? FieldDecl.ofJson?) (← member? ["fields"] ms)
  some { name, comment, disposition, fields }

/-- A declaration of the kind that it names. -/
def Declaration.ofJson? (j : Json) : Option Declaration := do
  let (kind, body) ← tagged? "kind" j
  match kind with
  | "enum" => (EnumDecl.ofJson? body).map .enum
  | "alias" => (AliasDecl.ofJson? body).map .alias
  | "struct" => (StructDecl.ofJson? body).map .struct
  | _ => none

/-- How deep arrays and objects may nest in a schema. -/
def maxSchemaDepth : Nat := 127

/-- The declarations of a schema text. -/
def Declaration.listOfText? (text : String) : Option (List Declaration) := do
  let j ← Json.parse? text
  if j.isReadable ∧ j.depth ≤ maxSchemaDepth then list? Declaration.ofJson? j else none

/-- The scalar that a text denotes. -/
def Scalar.ofText? (text : String) : Option Scalar := (Json.parse? text).bind Scalar.ofJson?

/-- The field that a text declares. -/
def FieldDecl.ofText? (text : String) : Option FieldDecl :=
  (Json.parse? text).bind FieldDecl.ofJson?

/-- Options, the keys left out having their defaults. -/
def Options.ofJson? (j : Json) : Option Options := do
  let ms ← record?
    ["type_const", "version_const", "default_header_type_field", "default_header_version_field",
      "version_family_fallback", "fail_fast"] j
  let usual : Options := {}
  let typeConst ← withDefault usual.typeConst text? (← member? ["type_const"] ms)
  let versionConst ← withDefault usual.versionConst text? (← member? ["version_const"] ms)
  let defaultHeaderTypeField ←
    withDefault usual.defaultHeaderTypeField text? (← member? ["default_header_type_field"] ms)
  let defaultHeaderVersionField ←
    withDefault usual.defaultHeaderVersionField text?
      (← member? ["default_header_version_field"] ms)
  let versionFamilyFallback ←
    withDefault usual.versionFamilyFallback Json.bool? (← member? ["version_family_fallback"] ms)
  let failFast ← withDefault usual.failFast Json.bool? (← member? ["fail_fast"] ms)
  some
    { typeConst, versionConst, defaultHeaderTypeField, defaultHeaderVersionField
      versionFamilyFallback, failFast }

/-- The options that a text sets. -/
def Options.ofText? (text : String) : Option Options := (Json.parse? text).bind Options.ofJson?

end WireLayout
