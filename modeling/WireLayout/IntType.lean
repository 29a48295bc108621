import WireLayout.Bytes

/-!
# Integer types

The built-in types of a schema: integers of one, two, four or eight bytes, signed in two's
complement or unsigned, little-endian on the wire.
-/

namespace WireLayout

/-- How many bytes an integer takes. -/
inductive Width where
  /-- One byte. -/
  | one
  /-- Two bytes. -/
  | two
  /-- Four bytes. -/
  | four
  /-- Eight bytes. -/
  | eight
  deriving DecidableEq

/-- The number of bytes. -/
def Width.bytes : Width → Nat
  | .one => 1
  | .two => 2
  | .four => 4
  | .eight => 8

/-- Whether an integer type has negative values. -/
inductive Signedness where
  /-- Two's complement. -/
  | signed
  /-- Natural numbers only. -/
  | unsigned
  deriving DecidableEq

/-- A built-in integer type. -/
structure IntType where
  /-- The bytes it takes. -/
  width : Width
  /-- Whether it has negative values. -/
  signedness : Signedness
  deriving DecidableEq

namespace IntType

/-- All integer types, narrowest first. -/
def all : List IntType :=
  [⟨.one, .signed⟩, ⟨.one, .unsigned⟩, ⟨.two, .signed⟩, ⟨.two, .unsigned⟩, ⟨.four, .signed⟩,
    ⟨.four, .unsigned⟩, ⟨.eight, .signed⟩, ⟨.eight, .unsigned⟩]

/-- The number of bytes it takes. -/
def bytes (t : IntType) : Nat := t.width.bytes

/-- The number of values. -/
def span (t : IntType) : Nat := Bytes.span t.bytes

/-- Half the number of values: in a signed type, so many are negative. -/
def half (t : IntType) : Nat := t.span / 2

/-- Whether it has negative values. -/
def isSigned (t : IntType) : Bool := t.signedness == .signed

/-- The name of the type in a schema. -/
def name (t : IntType) : String :=
  match t.signedness, t.width with
  | .signed, .one => "int8"
  | .signed, .two => "int16"
  | .signed, .four => "int32"
  | .signed, .eight => "int64"
  | .unsigned, .one => "uint8"
  | .unsigned, .two => "uint16"
  | .unsigned, .four => "uint32"
  | .unsigned, .eight => "uint64"

/-- The integer type of a name. -/
def ofName? (name : String) : Option IntType := all.find? fun t => t.name == name

/-- The integer type of a byte width and signedness. -/
def ofLayout? (bytes : Nat) (signedness : Signedness) : Option IntType :=
  all.find? fun t => t.bytes == bytes && t.signedness == signedness

/-- The least value. -/
def min (t : IntType) : Int :=
  match t.signedness with
  | .signed => -(t.half : Int)
  | .unsigned => 0

/-- The greatest value. -/
def max (t : IntType) : Int :=
  match t.signedness with
  | .signed => (t.half : Int) - 1
  | .unsigned => (t.span : Int) - 1

/-- Whether the type has the value. -/
def contains (t : IntType) (v : Int) : Bool := t.min ≤ v && v ≤ t.max

/-- The bytes of a value, reduced modulo the number of values. -/
def toBytes (t : IntType) (v : Int) : Bytes := Bytes.ofNat t.bytes (v % t.span).toNat

/-- The value of `t.bytes` many bytes: in a signed type, the upper half stands for the negative
values. -/
def ofBytes (t : IntType) (chunk : Bytes) : Int :=
  let n := Bytes.toNat chunk
  if t.isSigned && t.half ≤ n then (n : Int) - t.span else n

end IntType

end WireLayout
