import WireLayout.Value

/-!
# Faults of encoding and decoding

Why a record cannot be written or a buffer cannot be read.
-/

namespace WireLayout

/-- Why encoding or decoding fails. -/
inductive CodecError where
  /-- A read past the end of the buffer. -/
  | outOfBounds (offset wanted : Nat)
  /-- Bytes are left after the message. -/
  | trailingBytes (count : Nat)
  /-- A field has no value. -/
  | missingField (structName field : String)
  /-- A value of the wrong shape. -/
  | typeMismatch (field : String) (expected found : Shape)
  /-- An integer that its type, or a length, cannot hold. -/
  | outOfRange (typeName : String) (value : Int)
  /-- A run of bytes of the wrong length. -/
  | badByteLength (field : String) (expected found : Nat)
  /-- A reserved field that does not hold its value. -/
  | reservedMismatch (field : String) (expected found : Int)
  /-- A discriminator that no struct has. -/
  | unknownDiscriminator (group : String) (version : Nat) (id : Int)
  /-- A region whose length field says something else. -/
  | byteLengthMismatch (field : String) (declared : Int) (actual : Nat)
  /-- Arrays that disagree about their number of elements. -/
  | lengthMismatch (field : String) (expected found : Nat)
  /-- An element without bytes where elements go on to the end. -/
  | noProgress (field : String)
  /-- A struct without a plan. -/
  | unknownStruct (name : String)
  /-- A group without a header. -/
  | unknownGroup (group : String)
  /-- A struct that contains itself without end. -/
  | endless (structName : String)
  deriving DecidableEq

/-- The reason in words. -/
def CodecError.message : CodecError → String
  | .outOfBounds offset wanted => s!"wanted {wanted} byte(s) at offset {offset}, input too short"
  | .trailingBytes count => s!"{count} trailing byte(s) after message"
  | .missingField owner field => s!"struct '{owner}' has no value for field '{field}'"
  | .typeMismatch field expected found =>
    let want := expected.describe
    let got := found.describe
    s!"field '{field}' expects {want}, found {got}"
  | .outOfRange ty value => s!"value {value} does not fit '{ty}'"
  | .badByteLength field expected found =>
    s!"field '{field}' expects {expected} byte(s), found {found}"
  | .reservedMismatch field expected found =>
    s!"reserved field '{field}' holds {found}, expected {expected}"
  | .unknownDiscriminator group version id =>
    s!"no struct registered for ({group}, version {version}, {id})"
  | .byteLengthMismatch field declared actual =>
    s!"array '{field}' occupies {actual} byte(s) but its length field says {declared}"
  | .lengthMismatch field expected found =>
    s!"field '{field}' has {found} element(s), expected {expected}"
  | .noProgress field => s!"element of '{field}' consumed no bytes"
  | .unknownStruct name => s!"struct '{name}' has no plan"
  | .unknownGroup group => s!"group '{group}' has no header binding"
  | .endless name => s!"struct '{name}' contains itself without end"

end WireLayout
