import WireLayout.IntType
import WireLayout.Scalar

/-!
# Declarations

What a schema document declares, before anything is checked. Every key of a field is optional here:
it is for the field checks to say which omissions are errors.
-/

namespace WireLayout

/-- A declared member of an enum. -/
structure MemberDecl where
  /-- The member's name. -/
  name : String
  /-- The member's value as written. -/
  value : Scalar
  /-- Documentation. -/
  comment : Option String
  deriving DecidableEq

/-- A declared enum. -/
structure EnumDecl where
  /-- The enum's name. -/
  name : String
  /-- The byte width of its integers. -/
  width : Nat
  /-- Whether its integers are signed. -/
  signedness : Signedness
  /-- Its members in order. -/
  members : List MemberDecl
  /-- Documentation. -/
  comment : Option String
  deriving DecidableEq

/-- A declared alias: an integer, if it has a width, or a run of bytes, if it has an array size. -/
structure AliasDecl where
  /-- The alias's name. -/
  name : String
  /-- The byte width of an integer. -/
  width : Option Nat
  /-- Whether the integer is signed; it is not if nothing is said. -/
  signedness : Option Signedness
  /-- The length of a run of bytes. -/
  arraySize : Option Nat
  /-- How a printer may show the bytes. -/
  printHint : Option String
  /-- Documentation. -/
  comment : Option String
  deriving DecidableEq

/-- A declared field of a struct. -/
structure FieldDecl where
  /-- The field's name. -/
  name : Option String := none
  /-- The name of its type. -/
  typeName : Option String := none
  /-- The keyword for its role in the layout. -/
  disposition : Option String := none
  /-- The element count or byte length of a vector. -/
  size : Option Scalar := none
  /-- The value of a constant, a reservation or a discriminator. -/
  value : Option Scalar := none
  /-- The field that decides whether this one is present. -/
  condition : Option String := none
  /-- How the deciding field is compared. -/
  conditionOperation : Option String := none
  /-- What the deciding field is compared with. -/
  conditionValue : Option Scalar := none
  /-- The header struct of polymorphic elements, or of a discriminated struct. -/
  header : Option String := none
  /-- The header's member that holds the discriminator. -/
  headerTypeField : Option String := none
  /-- The header's member that holds the version. -/
  headerVersionField : Option String := none
  /-- The alignment of polymorphic elements. -/
  align : Option Scalar := none
  /-- The version of a discriminated struct. -/
  version : Option Scalar := none
  /-- Documentation. -/
  comment : Option String := none
  deriving DecidableEq

/-- A declared struct. -/
structure StructDecl where
  /-- The struct's name. -/
  name : String
  /-- Documentation. -/
  comment : Option String
  /-- The keyword for its kind. -/
  disposition : Option String
  /-- Its fields in wire order. -/
  fields : List FieldDecl
  deriving DecidableEq

/-- One declared name. -/
inductive Declaration where
  /-- An enum. -/
  | enum (decl : EnumDecl)
  /-- An alias. -/
  | alias (decl : AliasDecl)
  /-- A struct. -/
  | struct (decl : StructDecl)
  deriving DecidableEq

/-- The declared name. -/
def Declaration.name : Declaration → String
  | .enum d => d.name
  | .alias d => d.name
  | .struct d => d.name

end WireLayout
