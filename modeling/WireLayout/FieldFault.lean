/-!
# Faults of fields

Why a declared field, or the struct around it, is refused. Every fault carries the data that its
report needs; the report consists of the field it blames, a code for the violated rule and a
sentence.
-/

namespace WireLayout

/-- Why a declared field is refused. An optional `name` is the field's name as far as it has one. -/
inductive FieldFault where
  /-- No name; `role` is the disposition that wants one. -/
  | nameMissing (role : String)
  /-- The name is an earlier field's. -/
  | nameRedefined (name : String)
  /-- No type. -/
  | typeMissing (name : Option String)
  /-- The type of a plain field is unknown. -/
  | typeUnknown (name typeName : String)
  /-- The type of a constant is unknown. -/
  | constTypeUnknown (name typeName : String)
  /-- The type of a reserved field is no integer. -/
  | reservedTypeNotInteger (name typeName : String)
  /-- The element type of an array is unknown. -/
  | elementTypeUnknown (name typeName : String)
  /-- The group of a discriminator is no enum. -/
  | groupNotEnum (typeName : String)
  /-- The element type of an array that fills the buffer is unknown. -/
  | fillTypeUnknown (name typeName : String)
  /-- The type of an inline field is no struct. -/
  | inlineTypeUnknown (name : Option String) (typeName : String)
  /-- No disposition has this keyword. -/
  | dispositionUnknown (name : Option String) (keyword : String)
  /-- A struct has two discriminators. -/
  | discriminatorRepeated
  /-- A field follows the array `fill`, which fills the buffer. -/
  | fillNotLast (name : Option String) (fill : String)
  /-- No kind of struct has this keyword. -/
  | structKindUnknown (keyword : String)
  /-- A condition without an operation. -/
  | conditionOperatorMissing (name : Option String)
  /-- No comparison has this keyword. -/
  | conditionOperatorUnknown (name : Option String) (keyword : String)
  /-- A condition without a value. -/
  | conditionValueMissing (name : Option String)
  /-- A condition tests no field of the struct. -/
  | conditionFieldMissing (owner target : String)
  /-- A condition tests a field that is no integer or not always there. -/
  | conditionFieldUntestable (owner target : String)
  /-- The value of a condition is no number and no member of the tested field's type. -/
  | conditionValueUnknown (owner literal typeName : String)
  /-- A constant without a value. -/
  | constValueMissing (name : String)
  /-- The value of a constant is outside its type. -/
  | constOutOfRange (name typeName : String) (value : Int)
  /-- A number for a constant whose type is no number. -/
  | constTypeMismatch (name typeName : String) (value : Int)
  /-- The value of an enum constant is no member. -/
  | constMemberUnknown (name typeName literal : String)
  /-- The value of a constant is no number. -/
  | constNotNumeric (name literal : String)
  /-- A reserved field without a value. -/
  | reservedValueMissing (name : String)
  /-- The value of a reserved field is outside its type. -/
  | reservedOutOfRange (name typeName : String) (value : Int)
  /-- The value of a reserved field is no number, no member and no size. -/
  | reservedValueUnknown (name literal : String)
  /-- A reserved field holds the size of a field that does not exist. -/
  | sizeOfTargetUnknown (owner target : String)
  /-- A counted array without a size. -/
  | arraySizeMissing (name : String)
  /-- A counted array whose literal size is no length. -/
  | arraySizeInvalid (name : String) (value : Int)
  /-- A size names no earlier plain field that is always there. -/
  | lengthFieldUnknown (owner size : String)
  /-- A size names a field whose type is no number. -/
  | lengthFieldNotNumber (owner size typeName : String)
  /-- An array of polymorphic elements without a header. -/
  | sizedHeaderMissing (name : String)
  /-- An array of polymorphic elements whose header has no discriminator. -/
  | sizedTypeFieldMissing (name : String)
  /-- An array of polymorphic elements without a byte length. -/
  | sizedLengthMissing (name : String)
  /-- An array of polymorphic elements whose byte length is a number and not a field. -/
  | sizedLengthNotField (name : String)
  /-- An alignment that is no power of two. -/
  | alignInvalid (name literal : String)
  /-- A discriminator without a value. -/
  | discriminatorMissing
  /-- The value or version of a discriminator that the group does not know. -/
  | discriminatorUnknown (literal typeName : String)
  deriving DecidableEq

namespace FieldFault

/-- The field that the fault blames, as far as it has a name. -/
def field : FieldFault → Option String
  | .nameMissing _ | .groupNotEnum _ | .discriminatorRepeated | .structKindUnknown _
  | .discriminatorMissing | .discriminatorUnknown .. => none
  | .typeMissing name | .inlineTypeUnknown name _ | .dispositionUnknown name _
  | .fillNotLast name _ | .conditionOperatorMissing name | .conditionOperatorUnknown name _
  | .conditionValueMissing name => name
  | .nameRedefined name | .typeUnknown name _ | .constTypeUnknown name _
  | .reservedTypeNotInteger name _ | .elementTypeUnknown name _ | .fillTypeUnknown name _
  | .conditionFieldMissing name _ | .conditionFieldUntestable name _
  | .conditionValueUnknown name _ _ | .constValueMissing name | .constOutOfRange name _ _
  | .constTypeMismatch name _ _ | .constMemberUnknown name _ _ | .constNotNumeric name _
  | .reservedValueMissing name | .reservedOutOfRange name _ _ | .reservedValueUnknown name _
  | .sizeOfTargetUnknown name _ | .arraySizeMissing name | .arraySizeInvalid name _
  | .lengthFieldUnknown name _ | .lengthFieldNotNumber name _ _ | .sizedHeaderMissing name
  | .sizedTypeFieldMissing name | .sizedLengthMissing name | .sizedLengthNotField name
  | .alignInvalid name _ => some name

/-- The code of the violated rule. -/
def code : FieldFault → String
  | .nameMissing _ => "NameMissing"
  | .nameRedefined _ => "NameRedefined"
  | .typeMissing _ => "TypeMissing"
  | .typeUnknown .. | .constTypeUnknown .. | .reservedTypeNotInteger .. | .elementTypeUnknown ..
  | .groupNotEnum _ => "TypeUnknown"
  | .fillTypeUnknown .. => "ArrayFillTypeUnknown"
  | .inlineTypeUnknown .. => "InlineTypeUnknown"
  | .dispositionUnknown .. | .discriminatorRepeated => "DispositionInvalid"
  | .fillNotLast .. => "ArrayFillNotLast"
  | .structKindUnknown _ => "StructDispositionInvalid"
  | .conditionOperatorMissing _ => "ConditionOperatorMissing"
  | .conditionOperatorUnknown .. => "ConditionOperatorUnknown"
  | .conditionValueMissing _ => "ConditionValueMissing"
  | .conditionFieldMissing .. | .conditionFieldUntestable .. => "ConditionFieldUnknown"
  | .conditionValueUnknown .. => "ConditionValueNotNumericNorEnum"
  | .constValueMissing _ => "ConstValueMissing"
  | .constOutOfRange .. | .reservedOutOfRange .. => "ValueOutOfRange"
  | .constTypeMismatch .. => "ConstValueTypeMismatch"
  | .constMemberUnknown .. | .constNotNumeric .. => "ConstValueNotNumericNorEnum"
  | .reservedValueMissing _ => "ReservedValueMissing"
  | .reservedValueUnknown .. => "ReservedValueNotNumericNorEnum"
  | .sizeOfTargetUnknown .. => "ReservedSizeOfUnknown"
  | .arraySizeMissing _ => "ArraySizeMissing"
  | .arraySizeInvalid .. | .lengthFieldUnknown .. | .sizedLengthNotField _ => "ArraySizeUnknown"
  | .lengthFieldNotNumber .. => "ArraySizeNotIntegerType"
  | .sizedHeaderMissing _ => "ArraySizedHeaderMissing"
  | .sizedTypeFieldMissing _ => "ArraySizedHeaderTypeFieldMissing"
  | .sizedLengthMissing _ => "ArraySizedSizeMissing"
  | .alignInvalid .. => "ArraySizedAlignInvalid"
  | .discriminatorMissing => "StructTypeValueMissing"
  | .discriminatorUnknown .. => "StructTypeValueUnknown"

/-- A field's name in a sentence about a field that may have none. -/
def label (name : Option String) : String := name.getD "<unnamed>"

/-- What is wrong, in words; the struct is named by the report around it. -/
def detail : FieldFault → String
  | .nameMissing role => s!"missing 'name' key for {role} field"
  | .nameRedefined name => s!"field '{name}' declared more than once"
  | .typeMissing none => "missing 'type' key for field"
  | .typeMissing (some name) => s!"missing 'type' key for field '{name}'"
  | .typeUnknown name ty => s!"type '{ty}' of field '{name}' is unknown"
  | .constTypeUnknown name ty => s!"type '{ty}' of const field '{name}' is unknown"
  | .reservedTypeNotInteger name ty =>
    s!"type '{ty}' of reserved field '{name}' is not an integer type"
  | .elementTypeUnknown name ty => s!"element type '{ty}' of array '{name}' is unknown"
  | .groupNotEnum ty => s!"struct_type group '{ty}' is not an enum"
  | .fillTypeUnknown name ty => s!"type '{ty}' of array_fill field '{name}' is unknown"
  | .inlineTypeUnknown _ ty => s!"inline type '{ty}' is not a declared struct"
  | .dispositionUnknown name keyword =>
    let owner := label name
    s!"disposition '{keyword}' unknown for field '{owner}'"
  | .discriminatorRepeated => "more than one struct_type entry"
  | .fillNotLast _ fill => s!"array_fill field '{fill}' must be the last field"
  | .structKindUnknown keyword => s!"struct disposition '{keyword}' unknown"
  | .conditionOperatorMissing name =>
    let owner := label name
    s!"condition operator not defined for conditional field '{owner}'"
  | .conditionOperatorUnknown name keyword =>
    let owner := label name
    s!"condition operator '{keyword}' not valid for field '{owner}'"
  | .conditionValueMissing name =>
    let owner := label name
    s!"condition value not defined for conditional field '{owner}'"
  | .conditionFieldMissing owner target =>
    s!"condition variable '{target}' of field '{owner}' not defined"
  | .conditionFieldUntestable owner target =>
    s!"condition variable '{target}' of field '{owner}' is not " ++
      "an unconditioned integer or enum field"
  | .conditionValueUnknown owner literal ty =>
    s!"condition value '{literal}' of field '{owner}' is neither numeric nor a member of '{ty}'"
  | .constValueMissing name => s!"'value' key missing for const field '{name}'"
  | .constOutOfRange name ty value => s!"value {value} of const field '{name}' does not fit '{ty}'"
  | .constTypeMismatch name ty value =>
    s!"value '{value}' and type '{ty}' mismatch for const field '{name}'"
  | .constMemberUnknown name ty literal =>
    s!"value '{literal}' of const field '{name}' is not numeric nor a member of '{ty}'"
  | .constNotNumeric name literal => s!"value '{literal}' of const field '{name}' is not numeric"
  | .reservedValueMissing name => s!"'value' key missing for reserved field '{name}'"
  | .reservedOutOfRange name ty value =>
    s!"value {value} of reserved field '{name}' does not fit '{ty}'"
  | .reservedValueUnknown name literal =>
    s!"value '{literal}' of reserved field '{name}' is not numeric nor enum"
  | .sizeOfTargetUnknown owner target =>
    s!"'sizeof {target}' of reserved field '{owner}' names no field"
  | .arraySizeMissing name => s!"array '{name}' missing 'size' key"
  | .arraySizeInvalid name value => s!"array '{name}' has negative size {value}"
  | .lengthFieldUnknown owner size =>
    s!"size '{size}' of '{owner}' is not an earlier unconditioned plain field"
  | .lengthFieldNotNumber owner size ty =>
    s!"size field '{size}' of '{owner}' has non-integer type '{ty}'"
  | .sizedHeaderMissing name => s!"array_sized '{name}' missing 'header' key"
  | .sizedTypeFieldMissing name => s!"array_sized '{name}' missing 'header_type_field' key"
  | .sizedLengthMissing name => s!"array_sized '{name}' missing 'size' key"
  | .sizedLengthNotField name => s!"array_sized '{name}' size must name a byte-length field"
  | .alignInvalid name literal =>
    s!"array_sized '{name}' alignment '{literal}' is not a power of two"
  | .discriminatorMissing => "struct_type missing 'value' key"
  | .discriminatorUnknown literal ty =>
    s!"struct_type value '{literal}' does not resolve in '{ty}'"

end FieldFault

/-- A fault of a field, with the struct it was found in. -/
structure FieldError where
  /-- The struct. -/
  structName : String
  /-- The fault. -/
  fault : FieldFault
  deriving DecidableEq

namespace FieldError

/-- The report's sentence. -/
def message (e : FieldError) : String := e.fault.detail ++ " in struct '" ++ e.structName ++ "'"

/-- The report on one line. -/
def display (e : FieldError) : String := e.fault.code ++ ": " ++ e.message

end FieldError

end WireLayout
