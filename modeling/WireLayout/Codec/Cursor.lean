import WireLayout.Codec.Error
import WireLayout.Plan.Basic

/-!
# Cursors

A cursor is a place in a buffer: how many bytes are behind it and which are ahead. A read moves it
past the bytes it takes, or fails and leaves it where it is.
-/

namespace WireLayout

/-- A place in a buffer. -/
structure Cursor where
  /-- The number of bytes behind. -/
  offset : Nat
  /-- The bytes ahead. -/
  rest : Bytes

namespace Cursor

/-- The start of a buffer. -/
def start (bytes : Bytes) : Cursor := { offset := 0, rest := bytes }

/-- The number of bytes ahead. -/
def remaining (c : Cursor) : Nat := c.rest.length

/-- Takes the next `len` bytes. -/
def take (c : Cursor) (len : Nat) : Except CodecError (Bytes × Cursor) :=
  match Bytes.split? len c.rest with
  | some (front, back) => .ok (front, { offset := c.offset + len, rest := back })
  | none => .error (.outOfBounds c.offset len)

/-- Passes over the next `len` bytes. -/
def skip (c : Cursor) (len : Nat) : Except CodecError Cursor := (c.take len).map (·.2)

/-- Takes an integer. -/
def takeInt (c : Cursor) (t : IntType) : Except CodecError (Int × Cursor) :=
  (c.take t.bytes).map fun p => (t.ofBytes p.1, p.2)

/-- Passes over the next `len` bytes and gives a cursor at their start that ends with them. -/
def region (c : Cursor) (len : Nat) : Except CodecError (Cursor × Cursor) :=
  (c.take len).map fun p => (start p.1, p.2)

end Cursor

namespace IntType

/-- The bytes of a value that the type has. -/
def write (t : IntType) (v : Int) : Except CodecError Bytes :=
  if t.contains v then .ok (t.toBytes v) else .error (.outOfRange t.name v)

end IntType

namespace Leaf

/-- The bytes of a value for a field of this type. -/
def write (leaf : Leaf) (field : String) (value : Value) : Except CodecError Bytes :=
  match leaf.form, value with
  | .int t, .int v => t.write v
  | .bytes len, .bytes bytes =>
    if bytes.length = len then .ok bytes else .error (.badByteLength field len bytes.length)
  | .int _, other => .error (.typeMismatch field .int other.shape)
  | .bytes len, other => .error (.typeMismatch field (.bytesOf len) other.shape)

/-- Reads a value of this type. -/
def read (leaf : Leaf) (c : Cursor) : Except CodecError (Value × Cursor) :=
  match leaf.form with
  | .int t => (c.takeInt t).map fun p => (.int p.1, p.2)
  | .bytes len => (c.take len).map fun p => (.bytes p.1, p.2)

/-- Reads an integer of this type for a field. -/
def readInt (leaf : Leaf) (field : String) (c : Cursor) : Except CodecError (Int × Cursor) :=
  match leaf.form with
  | .int t => c.takeInt t
  | .bytes _ => .error (.typeMismatch field .int .bytes)

end Leaf

end WireLayout
