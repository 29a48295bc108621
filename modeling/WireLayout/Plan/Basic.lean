import WireLayout.Struct
import WireLayout.TypeTable

/-!
# Plans

What has to be done, step by step, to measure, write and read the values of a struct. A plan names
the field, the role and the types of every step, so that nobody who follows it has to look at the
schema's rules again.
-/

namespace WireLayout

/-- A type that is no struct, with its wire form. -/
structure Leaf where
  /-- The type's name. -/
  typeName : String
  /-- How its values lie on the wire. -/
  form : WireForm
  deriving DecidableEq

/-- What an array consists of, or what fills a union's slot. -/
inductive Element where
  /-- A value that is no struct. -/
  | leaf (leaf : Leaf)
  /-- A struct, which has a plan of its own. -/
  | struct (typeName : String)
  deriving DecidableEq

/-- A member of a union. -/
structure UnionMember where
  /-- The member's name. -/
  field : String
  /-- When the slot holds it. -/
  guard : Condition
  /-- What the slot then starts with. -/
  element : Element
  deriving DecidableEq

/-- One operation for one field. -/
structure Step (Op : Type) where
  /-- The field, or the first member of a union. -/
  field : String
  /-- The role it comes from. -/
  role : Role
  /-- When it is done; always, if there is no condition. -/
  guard : Option Condition
  /-- What is done. -/
  op : Op
  deriving DecidableEq

/-- A part of the size of a value. -/
inductive SizeOp where
  /-- Always the same. -/
  | fixed (bytes : Nat)
  /-- The size of a struct. -/
  | nested (typeName : String)
  /-- The sizes of an array's elements. -/
  | array (element : Element)
  /-- What the length field of a region says. -/
  | byteLength (lengthField : String)
  /-- The sizes of the elements up to the end of the buffer. -/
  | fill (element : Element)
  /-- The slot of a union. -/
  | union (bytes : Nat)
  deriving DecidableEq

/-- A part of the writing of a value. -/
inductive EncodeOp where
  /-- A value of the record. -/
  | leaf (leaf : Leaf)
  /-- The number of elements of the arrays, which have to agree. -/
  | length (leaf : Leaf) (arrays : List String)
  /-- The byte length of the region of `array`. -/
  | byteLength (leaf : Leaf) (array : String) (align : Option Nat)
  /-- A struct. -/
  | nested (typeName : String) (isInline : Bool)
  /-- A fixed value, or a size. -/
  | reserved (leaf : Leaf) (value : ReservedValue)
  /-- The elements of a counted array. -/
  | array (element : Element) (count : Count)
  /-- The elements of a region, each followed by zeros up to the alignment. -/
  | arraySized (lengthField : String) (align : Option Nat)
  /-- The elements up to the end of the buffer. -/
  | fill (element : Element)
  /-- The first member whose condition holds, followed by zeros up to the size of the slot. -/
  | union (bytes : Nat) (members : List UnionMember)
  deriving DecidableEq

/-- A part of the reading of a value. -/
inductive DecodeOp where
  /-- A value of the record. -/
  | leaf (leaf : Leaf)
  /-- A number of elements, which the record does not hold. -/
  | length (leaf : Leaf)
  /-- A struct. -/
  | nested (typeName : String) (isInline : Bool)
  /-- A fixed value to compare with, or a size to compare later. -/
  | reserved (leaf : Leaf) (expect : Option Int)
  /-- The comparison of the size that `reserved` holds with that of `target`. -/
  | checkSizeOf (reserved target : String)
  /-- The elements of a counted array. -/
  | array (element : Element) (count : Count)
  /-- The elements of a region; the header of each tells its struct in the group. -/
  | arraySized (layout : SizedArray) (group : String)
  /-- The elements up to the end of the buffer. -/
  | fill (element : Element)
  /-- The bytes of a union's slot. -/
  | union (bytes : Nat)
  /-- The member that a union's slot holds. -/
  | resolveUnion (members : List UnionMember)
  deriving DecidableEq

/-- Whether the operation looks back at what was read before and takes nothing from the wire. -/
def DecodeOp.isDeferred : DecodeOp → Bool
  | .checkSizeOf .. => true
  | .resolveUnion _ => true
  | _ => false

/-- A value that a member takes when a record leaves it out. -/
structure Initializer where
  /-- The path to the member. -/
  path : List String
  /-- The value. -/
  value : Int
  deriving DecidableEq

/-- The plans of one struct. -/
structure Plan where
  /-- The struct. -/
  structName : String
  /-- The values of members that a record leaves out. -/
  initializers : List Initializer
  /-- How its size comes about. -/
  size : List (Step SizeOp)
  /-- How it is written, in wire order. -/
  encode : List (Step EncodeOp)
  /-- How it is read, in wire order, with the steps that look back. -/
  decode : List (Step DecodeOp)
  deriving DecidableEq

namespace Plan

/-- The fields that the size comes from. -/
def sizeFields (p : Plan) : List String := p.size.map (·.field)

/-- The fields that are written. -/
def encodeFields (p : Plan) : List String := p.encode.map (·.field)

/-- The fields that are read. -/
def decodeFields (p : Plan) : List String :=
  (p.decode.filter fun s => !s.op.isDeferred).map (·.field)

end Plan

end WireLayout
