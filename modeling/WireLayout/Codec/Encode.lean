import WireLayout.Codec.Size

/-!
# Encoding

The encode plan, carried out: every step gives bytes, and a record's bytes are those of its steps
one after the other.
-/

namespace WireLayout

/-- Gives the bytes of a struct's record, under initial values for its members. -/
abbrev Encoder := String → List Initializer → Record → Except CodecError Bytes

/-- The bytes of one part after the other. -/
def joinM {α : Type} (write : α → Except CodecError Bytes) : List α → Except CodecError Bytes
  | [] => .ok []
  | a :: rest => do
    let bytes ← write a
    let more ← joinM write rest
    .ok (bytes ++ more)

/-- The bytes of an element of `field`. -/
def Element.write (encoder : Encoder) (field : String) (v : Value) :
    Element → Except CodecError Bytes
  | .leaf l => l.write field v
  | .struct ty => (asRecord field v).bind fun r => encoder ty [] r

/-- The bytes of a region of records, each followed by zeros up to the alignment. `offset` counts
from the start of the region. -/
def regionBytes (encoder : Encoder) (field : String) (align : Option Nat) (offset : Nat) :
    List Value → Except CodecError Bytes
  | [] => .ok []
  | v :: rest => do
    let r ← asRecord field v
    let bytes ← encoder r.typeName [] r
    let padded := bytes ++ Bytes.zeros (padding (offset + bytes.length) align)
    let more ← regionBytes encoder field align (offset + padded.length) rest
    .ok (padded ++ more)

namespace Frame

variable (frame : Frame)

/-- The number that a reserved field holds. -/
def reservedInt (schema : Schema) (measure : Measure) : ReservedValue → Except CodecError Int
  | .int v => .ok v
  | .member _ v => .ok v
  | .sizeOf target => (frame.fieldSize schema measure target).map Int.ofNat

/-- The number that the length field of a region holds: what the record says, else the length. -/
def byteLength (measure : Measure) (field array : String) (align : Option Nat) :
    Except CodecError Int :=
  match frame.record.get? field with
  | some v => asInt field v
  | none => do
    let items ← frame.list array
    (regionLength measure array align 0 items).map Int.ofNat

/-- The bytes of the first member of a union whose condition holds, if there is one. -/
def unionBytes (measure : Measure) (encoder : Encoder) :
    List UnionMember → Except CodecError Bytes
  | [] => .ok []
  | m :: rest => do
    let tested ← frame.intOf measure m.guard.field
    if m.guard.holds tested then
      let v ← frame.value m.field
      m.element.write encoder m.field v
    else unionBytes measure encoder rest

/-- What a step writes. -/
def opBytes (schema : Schema) (measure : Measure) (encoder : Encoder) (field : String) :
    EncodeOp → Except CodecError Bytes
  | .leaf leaf => do leaf.write field (← frame.value field)
  | .length leaf arrays => do leaf.write field (.int (← frame.liveLength arrays))
  | .byteLength leaf array align => do
    leaf.write field (.int (← frame.byteLength measure field array align))
  | .nested ty _ => do
    let r ← frame.nested field ty
    encoder ty (frame.initialInside field) r
  | .reserved leaf value => do
    leaf.write field (.int (← frame.reservedInt schema measure value))
  | .array element count => do
    let items ← frame.list field
    match count with
    | .literal expected =>
      if items.length = expected then joinM (fun v => element.write encoder field v) items
      else .error (.lengthMismatch field expected items.length)
    | .field _ => joinM (fun v => element.write encoder field v) items
  | .arraySized lengthField align => do
    let bytes ← regionBytes encoder field align 0 (← frame.list field)
    match (frame.record.get? lengthField).bind Value.int? with
    | some declared =>
      if declared = bytes.length then .ok bytes
      else .error (.byteLengthMismatch field declared bytes.length)
    | none => .ok bytes
  | .fill element => do
    joinM (fun v => element.write encoder field v) (← frame.list field)
  | .union size members => do
    let bytes ← frame.unionBytes measure encoder members
    if bytes.length ≤ size then .ok (bytes ++ Bytes.zeros (size - bytes.length))
    else .error (.lengthMismatch field size bytes.length)

/-- What a step writes, if it is done. -/
def stepBytes (schema : Schema) (measure : Measure) (encoder : Encoder) (step : Step EncodeOp) :
    Except CodecError Bytes := do
  if ← frame.holds measure step.guard then
    frame.opBytes schema measure encoder step.field step.op
  else .ok []

end Frame

namespace Codec

variable (c : Codec)

/-- The bytes of a record in which structs nest at most `depth` deep. -/
def encodeAt : Nat → Encoder
  | 0 => fun name _ _ => .error (.endless name)
  | depth + 1 => fun name initial r => do
    let frame ← c.frame name initial r
    joinM (frame.stepBytes c.schema c.measure (encodeAt depth)) frame.plan.encode

/-- The bytes of a struct's record under initial values. -/
def encoder : Encoder := fun name initial r => c.encodeAt (c.depthOf r) name initial r

/-- The bytes of a record. -/
def encode (r : Record) : Except CodecError Bytes := c.encoder r.typeName [] r

end Codec

end WireLayout
