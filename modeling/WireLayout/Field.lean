/-!
# Fields

The checked fields of a struct. A field carries what its role in the layout needs and nothing else.
-/

namespace WireLayout

/-- How a condition compares. -/
inductive Comparison where
  /-- Equal. -/
  | equals
  /-- Different. -/
  | notEquals
  deriving DecidableEq

namespace Comparison

/-- The comparison of a keyword. -/
def ofKeyword? : String → Option Comparison
  | "equals" => some .equals
  | "not equals" => some .notEquals
  | "not_equals" => some .notEquals
  | _ => none

/-- Whether two integers compare so. -/
def holds : Comparison → Int → Int → Bool
  | .equals, a, b => a == b
  | .notEquals, a, b => a != b

end Comparison

/-- When a field is present: a test of an integer field of the same struct. -/
structure Condition where
  /-- The field that is tested. -/
  field : String
  /-- How it is compared. -/
  op : Comparison
  /-- What it is compared with. -/
  value : Int
  /-- What it is compared with, as written. -/
  literal : String
  deriving DecidableEq

/-- Whether the condition holds when the tested field has the given value. -/
def Condition.holds (c : Condition) (tested : Int) : Bool := c.op.holds tested c.value

/-- The value of a constant. -/
inductive ConstValue where
  /-- A number. -/
  | int (value : Int)
  /-- A member of the constant's enum. -/
  | member (name : String) (value : Int)
  deriving DecidableEq

/-- The number it stands for. -/
def ConstValue.value : ConstValue → Int
  | .int v => v
  | .member _ v => v

/-- What a reserved field has to hold. -/
inductive ReservedValue where
  /-- A number. -/
  | int (value : Int)
  /-- A member of the field's enum. -/
  | member (name : String) (value : Int)
  /-- The encoded size of another field. -/
  | sizeOf (field : String)
  deriving DecidableEq

/-- The number it stands for, unless that depends on the record. -/
def ReservedValue.fixed? : ReservedValue → Option Int
  | .int v => some v
  | .member _ v => some v
  | .sizeOf _ => none

/-- How many elements a counted array has. -/
inductive Count where
  /-- Always the same number, which is not on the wire. -/
  | literal (count : Nat)
  /-- The number that an earlier field holds. -/
  | field (name : String)
  deriving DecidableEq

/-- A header struct that tells what follows: which of its members hold the discriminator and,
perhaps, the version. -/
structure HeaderBinding where
  /-- The header struct. -/
  header : String
  /-- Its member with the discriminator. -/
  typeField : String
  /-- Its member with the version. -/
  versionField : Option String
  deriving DecidableEq

/-- An array of polymorphic elements in a region of known byte length. -/
structure SizedArray where
  /-- The earlier field with the byte length of the region. -/
  lengthField : String
  /-- The header that every element starts with. -/
  binding : HeaderBinding
  /-- The alignment of the elements, counted from the start of the region. -/
  align : Option Nat
  deriving DecidableEq

/-- The role of a field in the layout. -/
inductive Disposition where
  /-- A value, where it is declared. -/
  | plain
  /-- A constant of the schema, not on the wire. -/
  | const (value : ConstValue)
  /-- A struct embedded with its members. -/
  | inline
  /-- A value fixed by the schema, on the wire but not in records. -/
  | reserved (value : ReservedValue)
  /-- A counted array. -/
  | array (count : Count)
  /-- An array of polymorphic elements in a region of known length. -/
  | arraySized (layout : SizedArray)
  /-- An array that takes the rest of the buffer. -/
  | arrayFill
  deriving DecidableEq

/-- The role of a step in a plan: a disposition without its data, or the slot of a union. -/
inductive Role where
  /-- See `Disposition.plain`. -/
  | plain
  /-- See `Disposition.const`. -/
  | const
  /-- See `Disposition.inline`. -/
  | inline
  /-- See `Disposition.reserved`. -/
  | reserved
  /-- See `Disposition.array`. -/
  | array
  /-- See `Disposition.arraySized`. -/
  | arraySized
  /-- See `Disposition.arrayFill`. -/
  | arrayFill
  /-- The slot shared by the members of a union. -/
  | union
  deriving DecidableEq

/-- The disposition without its data. -/
def Disposition.role : Disposition → Role
  | .plain => .plain
  | .const _ => .const
  | .inline => .inline
  | .reserved _ => .reserved
  | .array _ => .array
  | .arraySized _ => .arraySized
  | .arrayFill => .arrayFill

/-- A field of a struct. -/
structure Field where
  /-- The field's name. -/
  name : String
  /-- Its type; the element type of an array. -/
  typeName : String
  /-- Its role. -/
  disposition : Disposition
  /-- When it is present; an absent field takes no bytes. -/
  condition : Option Condition
  /-- Documentation. -/
  comment : Option String
  deriving DecidableEq

namespace Field

/-- Whether this is a plain field that is always present. -/
def isPlain (f : Field) : Bool := f.disposition == .plain && f.condition.isNone

/-- Whether this is a constant. -/
def isConst (f : Field) : Bool := f.disposition.role == .const

/-- Whether the field holds its type's value by itself, and not as elements or fixed filler. -/
def isStored (f : Field) : Bool := f.disposition == .plain || f.disposition == .inline

/-- The value of a constant. -/
def constValue? (f : Field) : Option ConstValue :=
  match f.disposition with
  | .const v => some v
  | _ => none

/-- The field that counts the elements of this array. -/
def countedBy? (f : Field) : Option String :=
  match f.disposition with
  | .array (.field name) => some name
  | _ => none

/-- The layout of an array of polymorphic elements. -/
def sizedArray? (f : Field) : Option SizedArray :=
  match f.disposition with
  | .arraySized layout => some layout
  | _ => none

/-- The field whose size this reserved field holds. -/
def sizeOfTarget? (f : Field) : Option String :=
  match f.disposition with
  | .reserved (.sizeOf target) => some target
  | _ => none

end Field

end WireLayout
