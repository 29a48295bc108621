/-!
# Options

The conventions of a schema that its author may change, and how much is reported at once.
-/

namespace WireLayout

/-- The conventions in force. -/
structure Options where
  /-- The constant whose enum member is a struct's discriminator. -/
  typeConst : String := "TRANSACTION_TYPE"
  /-- The constant that holds a struct's version. -/
  versionConst : String := "TRANSACTION_VERSION"
  /-- The header member with the discriminator, where a `struct_type` entry names none. -/
  defaultHeaderTypeField : String := "type"
  /-- The header member with the version, where discriminators are filled in. -/
  defaultHeaderVersionField : String := "version"
  /-- Whether a struct with a version borrows the identity of its family's base. -/
  versionFamilyFallback : Bool := true
  /-- Whether the first struct with a fault ends the checks. -/
  failFast : Bool := false
  deriving DecidableEq

end WireLayout
