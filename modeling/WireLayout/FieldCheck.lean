import WireLayout.FieldFault
import WireLayout.Struct
import WireLayout.TypeTable

/-!
# Checks of fields

The rules that a declared field has to obey, one function per disposition. A check sees the type
table and the members of the struct that are known so far; it answers the checked piece or the first
rule that is violated. What depends on later members is answered in two halves: a condition is first
taken from its keys (`checkCondition`) and resolved when all members are known (`resolve`).
-/

namespace WireLayout

/-- The keyword of a field that is not plain. -/
inductive FieldKeyword where
  /-- A constant. -/
  | const
  /-- An embedded struct. -/
  | inline
  /-- A fixed value. -/
  | reserved
  /-- A counted array. -/
  | array
  /-- An array of polymorphic elements. -/
  | arraySized
  /-- An array that takes the rest of the buffer. -/
  | arrayFill
  deriving DecidableEq

/-- The keyword of an entry of a struct. -/
inductive Keyword where
  /-- A field. -/
  | field (keyword : FieldKeyword)
  /-- A discriminator: no field, but what identifies the struct. -/
  | structType
  deriving DecidableEq

/-- The disposition that a text names, blanks at its ends aside. -/
def Keyword.ofText? (text : String) : Option Keyword :=
  match Text.trim text with
  | "const" => some (.field .const)
  | "inline" => some (.field .inline)
  | "reserved" => some (.field .reserved)
  | "array" => some (.field .array)
  | "array_sized" => some (.field .arraySized)
  | "array sized" => some (.field .arraySized)
  | "array_fill" => some (.field .arrayFill)
  | "array fill" => some (.field .arrayFill)
  | "struct_type" => some .structType
  | _ => none

/-- A known member of the struct under construction. -/
structure Member where
  /-- Its name. -/
  name : String
  /-- Its type. -/
  typeName : String
  /-- Whether it is a plain field that is always present. -/
  isPlain : Bool
  deriving DecidableEq

/-- The known members of a struct, in order. -/
abbrev Members := List Member

namespace Members

/-- The member of a name. -/
def named? (members : Members) (name : String) : Option Member :=
  members.find? fun m => m.name == name

/-- Whether a name is a member's. -/
def has (members : Members) (name : String) : Bool := (members.named? name).isSome

/-- Adds a member, if its name is free. -/
def add? (members : Members) (m : Member) : Option Members :=
  if members.has m.name then none else some (members ++ [m])

end Members

/-- What a check may look at. -/
structure Scope where
  /-- The types of the schema. -/
  types : TypeTable
  /-- The members known so far. -/
  members : Members

namespace Scope

/-- The name, unless it is taken. -/
def freshName (scope : Scope) (name : String) : Except FieldFault String :=
  if scope.members.has name then .error (.nameRedefined name) else .ok name

/-- The declared name, which has to be there and not taken. -/
def requireName (scope : Scope) (d : FieldDecl) (role : String) : Except FieldFault String :=
  match d.name with
  | some name => scope.freshName name
  | none => .error (.nameMissing role)

/-- An earlier member that can hold a length: plain, always present and a number. -/
def lengthField (scope : Scope) (owner size : String) : Except FieldFault String :=
  match (scope.members.named? size).filter Member.isPlain with
  | none => .error (.lengthFieldUnknown owner size)
  | some m =>
    if scope.types.isNumber m.typeName then .ok size
    else .error (.lengthFieldNotNumber owner size m.typeName)

end Scope

/-- A condition before its field and value are looked up. -/
structure PendingCondition where
  /-- The field that is tested. -/
  field : String
  /-- How it is compared. -/
  op : Comparison
  /-- What it is compared with, as written. -/
  value : Scalar
  deriving DecidableEq

/-- What a discriminator entry says about its struct. -/
structure Discriminator where
  /-- The group and its member. -/
  identity : Identity
  /-- The version, if one is given. -/
  version : Option Nat
  /-- The header, if one is given. -/
  header : Option HeaderBinding
  deriving DecidableEq

/-- Whether a number is a power of two that 64 bits can hold. -/
def isPowerOfTwo (n : Nat) : Bool := (List.range 64).any fun k => Nat.pow 2 k == n

/-- A scalar as an alignment: a power of two. -/
def Scalar.alignment? (s : Scalar) : Option Nat :=
  ((s.integer?.bind asSize?).filter isPowerOfTwo)

namespace FieldDecl

variable (d : FieldDecl) (scope : Scope)

/-- The declared type, which has to be there; `name` is the field that the fault blames. -/
def requireType (name : Option String) : Except FieldFault String :=
  match d.typeName with
  | some ty => .ok ty
  | none => .error (.typeMissing name)

/-- The checked field of a name, type and disposition, its condition still open. -/
def toField (name typeName : String) (disposition : Disposition) : Field :=
  { name, typeName, disposition, condition := none, comment := d.comment }

/-- A plain field: a name, and a type that is known. -/
def checkPlain : Except FieldFault Field := do
  let name ← scope.requireName d "plain"
  let ty ← d.requireType (some name)
  if scope.types.isTaken ty then .ok (d.toField name ty .plain)
  else .error (.typeUnknown name ty)

/-- The value of a constant: a number that fits a numeric type, or a member of an enum. -/
def constValue (name ty : String) (raw : Scalar) : Except FieldFault ConstValue :=
  match scope.types.resolve? ty, raw.integer? with
  | none, _ => .error (.constTypeUnknown name ty)
  | some _, some v =>
    if scope.types.isNumber ty then
      match scope.types.intType? ty with
      | some t => if t.contains v then .ok (.int v) else .error (.constOutOfRange name ty v)
      | none => .error (.constOutOfRange name ty v)
    else .error (.constTypeMismatch name ty v)
  | some (.enum e), none =>
    let member := raw.word?.getD ""
    match e.valueOf? member with
    | some v => .ok (.member member v)
    | none => .error (.constMemberUnknown name ty raw.literal)
  | some _, none => .error (.constNotNumeric name raw.literal)

/-- A constant. -/
def checkConst : Except FieldFault Field := do
  let name ← scope.requireName d "const"
  let ty ← d.requireType (some name)
  match d.value with
  | none => .error (.constValueMissing name)
  | some raw =>
    let value ← constValue scope name ty raw
    .ok (d.toField name ty (.const value))

/-- An embedded struct. It goes by the name of its type unless it has one of its own. -/
def checkInline : Except FieldFault Field := do
  let ty ← d.requireType d.name
  if scope.types.isStruct ty then
    let name ← scope.freshName (d.name.getD ty)
    .ok (d.toField name ty .inline)
  else .error (.inlineTypeUnknown d.name ty)

/-- The value of a reserved field of type `ty`: a number that fits, `sizeof` and a field, or a
member of the enum. Whether the field after `sizeof` exists is checked when all members are
known. -/
def reservedValue (name ty : String) (t : IntType) (raw : Scalar) :
    Except FieldFault ReservedValue :=
  match raw.integer? with
  | some v =>
    if t.contains v then .ok (.int v) else .error (.reservedOutOfRange name ty v)
  | none =>
    match Text.words (raw.word?.getD "") with
    | ["sizeof", target] => .ok (.sizeOf target)
    | [member] =>
      match (scope.types.enum? ty).bind fun e => e.valueOf? member with
      | some v => .ok (.member member v)
      | none => .error (.reservedValueUnknown name raw.literal)
    | _ => .error (.reservedValueUnknown name raw.literal)

/-- A reserved field: an integer or enum with a fixed value. -/
def checkReserved : Except FieldFault Field := do
  let name ← scope.requireName d "reserved"
  let ty ← d.requireType (some name)
  match scope.types.intType? ty with
  | none => .error (.reservedTypeNotInteger name ty)
  | some t =>
    match d.value with
    | none => .error (.reservedValueMissing name)
    | some raw =>
      let value ← reservedValue scope name ty t raw
      .ok (d.toField name ty (.reserved value))

/-- The element count of an array: a literal length, or an earlier field that can hold one. -/
def count (name : String) (size : Scalar) : Except FieldFault Count :=
  match size.integer? with
  | some n =>
    match asSize? n with
    | some count => .ok (.literal count)
    | none => .error (.arraySizeInvalid name n)
  | none => (scope.lengthField name (size.word?.getD "")).map .field

/-- A counted array. -/
def checkArray : Except FieldFault Field := do
  let name ← scope.requireName d "array"
  let ty ← d.requireType (some name)
  if scope.types.isTaken ty then
    match d.size with
    | none => .error (.arraySizeMissing name)
    | some size =>
      let count ← count scope name size
      .ok (d.toField name ty (.array count))
  else .error (.elementTypeUnknown name ty)

/-- The alignment of an array of polymorphic elements, if one is declared. -/
def checkAlign (name : String) : Except FieldFault (Option Nat) :=
  match d.align with
  | none => .ok none
  | some raw =>
    match raw.alignment? with
    | some align => .ok (some align)
    | none => .error (.alignInvalid name raw.literal)

/-- An array of polymorphic elements. The header defaults to the type and the type to the header;
whether the header exists and has the members named is checked when all structs are known. -/
def checkArraySized : Except FieldFault Field := do
  let name ← scope.requireName d "array_sized"
  match d.header <|> d.typeName, d.headerTypeField, d.size with
  | none, _, _ => .error (.sizedHeaderMissing name)
  | some _, none, _ => .error (.sizedTypeFieldMissing name)
  | some _, some _, none => .error (.sizedLengthMissing name)
  | some header, some typeField, some size =>
    match size.word? with
    | none => .error (.sizedLengthNotField name)
    | some word =>
      let lengthField ← scope.lengthField name word
      let align ← d.checkAlign name
      let binding := { header, typeField, versionField := d.headerVersionField }
      .ok (d.toField name (d.typeName.getD header) (.arraySized { lengthField, binding, align }))

/-- An array that takes the rest of the buffer. -/
def checkArrayFill : Except FieldFault Field := do
  let name ← scope.requireName d "array_fill"
  let ty ← d.requireType (some name)
  if scope.types.isTaken ty then .ok (d.toField name ty .arrayFill)
  else .error (.fillTypeUnknown name ty)

/-- The field of a declaration with a keyword, or of a plain one. -/
def checkField : Option FieldKeyword → Except FieldFault Field
  | none => d.checkPlain scope
  | some .const => d.checkConst scope
  | some .inline => d.checkInline scope
  | some .reserved => d.checkReserved scope
  | some .array => d.checkArray scope
  | some .arraySized => d.checkArraySized scope
  | some .arrayFill => d.checkArrayFill scope

/-- The group's member that a discriminator value means: the first one with the number given, or
with the value of the member named. -/
def discriminatorMember? (group : EnumDef) (raw : Scalar) : Option String :=
  match raw.integer? with
  | some v => group.memberOf? v
  | none => raw.word?.bind fun name => (group.valueOf? name).bind group.memberOf?

/-- The version in a discriminator entry. -/
def checkVersion (ty : String) : Except FieldFault (Option Nat) :=
  match d.version with
  | none => .ok none
  | some raw =>
    match raw.integer?.bind asSize? with
    | some n => .ok (some n)
    | none => .error (.discriminatorUnknown raw.literal ty)

/-- A discriminator entry: its type is the group's enum, its value one of the members. -/
def checkDiscriminator (defaultTypeField : String) : Except FieldFault Discriminator := do
  let ty ← d.requireType d.name
  match scope.types.enum? ty with
  | none => .error (.groupNotEnum ty)
  | some group =>
    match d.value with
    | none => .error .discriminatorMissing
    | some raw =>
      match discriminatorMember? group raw with
      | none => .error (.discriminatorUnknown raw.literal ty)
      | some member =>
        match group.valueOf? member with
        | none => .error (.discriminatorUnknown raw.literal ty)
        | some value =>
          let version ← d.checkVersion ty
          let header := d.header.map fun header =>
            { header, typeField := d.headerTypeField.getD defaultTypeField
              versionField := d.headerVersionField }
          .ok { identity := { group := group.name, member, value }, version, header }

/-- The keys of a condition on the field `tested`. -/
def checkCondition (tested : String) : Except FieldFault PendingCondition :=
  match d.conditionOperation with
  | none => .error (.conditionOperatorMissing d.name)
  | some keyword =>
    match Comparison.ofKeyword? keyword with
    | none => .error (.conditionOperatorUnknown d.name keyword)
    | some op =>
      match d.conditionValue with
      | none => .error (.conditionValueMissing d.name)
      | some value => .ok { field := tested, op, value }

/-- The condition keys of a field, if it has any. -/
def checkConditionKeys : Except FieldFault (Option PendingCondition) :=
  match d.condition with
  | none => .ok none
  | some tested => (d.checkCondition tested).map some

end FieldDecl

/-- What a condition compares a field of type `ty` with: a number, or the value of a member of the
field's enum. -/
def PendingCondition.comparand? (p : PendingCondition) (types : TypeTable) (ty : String) :
    Option Int :=
  match p.value.integer? with
  | some v => some v
  | none => (types.enum? ty).bind fun e => p.value.word?.bind e.valueOf?

/-- The condition of the field `owner`, all members being known: the tested field has to be plain,
always present and an integer or enum. -/
def PendingCondition.resolve (p : PendingCondition) (scope : Scope) (owner : String) :
    Except FieldFault Condition :=
  match scope.members.named? p.field with
  | none => .error (.conditionFieldMissing owner p.field)
  | some m =>
    if m.isPlain && (scope.types.intType? m.typeName).isSome then
      match p.comparand? scope.types m.typeName with
      | some value => .ok { field := p.field, op := p.op, value, literal := p.value.literal }
      | none => .error (.conditionValueUnknown owner p.value.literal m.typeName)
    else .error (.conditionFieldUntestable owner p.field)

/-- The field whose size a reserved field holds has to exist. -/
def Scope.checkSizeOf (scope : Scope) (owner target : String) : Except FieldFault Unit :=
  if scope.members.has target then .ok () else .error (.sizeOfTargetUnknown owner target)

end WireLayout
