import WireLayout.Codec.Size

/-!
# Decoding

The decode plan, carried out. Next to the record it builds, a struct that is being read keeps the
integers that later steps may ask for, and the bytes of unions whose tested field is still to come.

The recursion goes down by one for every struct that is entered. A struct that is entered twice with
the same bytes ahead is entered without end, so no reading that ends goes deeper than there are
pairs of a struct and a number of bytes ahead. The loops of arrays that go on to the end of their
bytes have as many rounds as there are bytes, since each element takes one.
-/

namespace WireLayout

/-- Reads a struct. -/
abbrev Decoder := String → Cursor → Except CodecError (Record × Cursor)

/-- A struct that is being read. -/
structure Progress where
  /-- The values read so far. -/
  record : Record
  /-- The integers that later steps may ask for. -/
  scratch : List (String × Int)
  /-- The bytes of unions. -/
  slots : List (String × Bytes)
  /-- Where to go on. -/
  cursor : Cursor

namespace Progress

/-- A struct of which nothing is read yet. Its constants are known from the start. -/
def start (s : Struct) (name : String) (cursor : Cursor) : Progress :=
  { record := Record.empty name
    scratch := s.fields.filterMap fun f => f.constValue?.map fun v => (f.name, v.value)
    slots := [], cursor }

variable (p : Progress)

/-- Keeps an integer for later steps. -/
def note (name : String) (v : Int) : Progress := { p with scratch := (name, v) :: p.scratch }

/-- Keeps a value for later steps, if it is an integer. -/
def noteValue (name : String) (v : Value) : Progress :=
  match v with
  | .int n => p.note name n
  | _ => p

/-- Sets a field of the record. -/
def store (name : String) (v : Value) : Progress := { p with record := p.record.insert name v }

/-- Goes on from a cursor. -/
def moveTo (cursor : Cursor) : Progress := { p with cursor }

/-- An integer that was read before. -/
def noted (owner name : String) : Except CodecError Int :=
  match p.scratch.lookup name with
  | some v => .ok v
  | none => .error (.missingField owner name)

/-- The bytes of a union that were read before. -/
def slot (owner name : String) : Except CodecError Bytes :=
  match p.slots.lookup name with
  | some bytes => .ok bytes
  | none => .error (.missingField owner name)

/-- Whether a step is done. -/
def holds (owner : String) (guard : Option Condition) : Except CodecError Bool :=
  match guard with
  | none => .ok true
  | some c => (p.noted owner c.field).map c.holds

end Progress

/-- Reads an element. -/
def Element.read (decoder : Decoder) (c : Cursor) : Element → Except CodecError (Value × Cursor)
  | .leaf l => l.read c
  | .struct ty => (decoder ty c).map fun p => (p.1.toValue, p.2)

/-- Reads `count` elements. -/
def readCounted (decoder : Decoder) (element : Element) :
    Nat → Cursor → Except CodecError (List Value × Cursor)
  | 0, c => .ok ([], c)
  | count + 1, c => do
    let (v, c) ← element.read decoder c
    let (vs, c) ← readCounted decoder element count c
    .ok (v :: vs, c)

/-- Repeats a read until no bytes are ahead. Every round has to take a byte, so the number of bytes
ahead is a sufficient number of rounds. -/
def readToEnd (field : String) (read : Cursor → Except CodecError (Value × Cursor)) :
    Nat → Cursor → Except CodecError (List Value × Cursor)
  | rounds, c =>
    if c.rest.isEmpty then .ok ([], c)
    else
      match rounds with
      | 0 => .error (.noProgress field)
      | rounds + 1 => do
        let (v, next) ← read c
        if next.offset = c.offset then .error (.noProgress field)
        else
          let (vs, last) ← readToEnd field read rounds next
          .ok (v :: vs, last)

namespace Codec

variable (c : Codec)

/-- The integer of a header's member in the header's record. -/
def headerInt (header : String) (r : Record) (field : String) : Except CodecError Int :=
  match (c.schema.memberPath? header field).bind fun path => (r.atPath? path).bind Value.int? with
  | some v => .ok v
  | none => .error (.missingField header field)

/-- The discriminator and version in a header's record. -/
def headerKey (b : HeaderBinding) (r : Record) : Except CodecError (Int × Option Nat) := do
  let id ← c.headerInt b.header r b.typeField
  match b.versionField with
  | none => .ok (id, none)
  | some field =>
    let version ← toLength field (← c.headerInt b.header r field)
    .ok (id, some version)

/-- Reads the header in front of some bytes, which are not taken. -/
def peekHeader (decoder : Decoder) (b : HeaderBinding) (bytes : Bytes) :
    Except CodecError (Int × Option Nat) := do
  let (r, _) ← decoder b.header (Cursor.start bytes)
  c.headerKey b r

/-- The struct of a discriminator and version; a header without a version means version 0. -/
def structOf (group : String) (key : Int × Option Nat) : Except CodecError String :=
  match c.dispatch.resolve? group (key.2.getD 0) key.1 with
  | some name => .ok name
  | none => .error (.unknownDiscriminator group (key.2.getD 0) key.1)

/-- Reads an element of a region and the bytes up to the alignment: the header in front tells its
struct. -/
def readPolymorphic (decoder : Decoder) (layout : SizedArray) (group : String) (here : Cursor) :
    Except CodecError (Value × Cursor) := do
  let key ← c.peekHeader decoder layout.binding here.rest
  let name ← c.structOf group key
  let (r, next) ← decoder name here
  let next ← next.skip (padding next.offset layout.align)
  .ok (r.toValue, next)

/-- Reads the member that a union's slot holds: the first whose condition holds, if there is one. -/
def readUnion (decoder : Decoder) (owner : String) (raw : Bytes) (p : Progress) :
    List UnionMember → Except CodecError Progress
  | [] => .ok p
  | m :: rest => do
    let tested ← p.noted owner m.guard.field
    if m.guard.holds tested then
      let (v, _) ← m.element.read decoder (Cursor.start raw)
      .ok ((p.noteValue m.field v).store m.field v)
    else readUnion decoder owner raw p rest

/-- The number of elements of a counted array. -/
def countOf (owner : String) (p : Progress) : Count → Except CodecError Nat
  | .literal count => .ok count
  | .field name => do toLength name (← p.noted owner name)

/-- A reserved field has to hold what is expected of it. -/
def checkReserved (field : String) (expected found : Int) : Except CodecError Unit :=
  if expected = found then .ok () else .error (.reservedMismatch field expected found)

/-- What a step reads. -/
def readOp (decoder : Decoder) (s : Struct) (plan : Plan) (field : String) (p : Progress) :
    DecodeOp → Except CodecError Progress
  | .leaf leaf => do
    let (v, cursor) ← leaf.read p.cursor
    .ok (((p.noteValue field v).store field v).moveTo cursor)
  | .length leaf => do
    let (n, cursor) ← leaf.readInt field p.cursor
    .ok ((p.note field n).moveTo cursor)
  | .nested ty _ => do
    let (r, cursor) ← decoder ty p.cursor
    .ok ((p.store field r.toValue).moveTo cursor)
  | .reserved leaf expect => do
    let (found, cursor) ← leaf.readInt field p.cursor
    match expect with
    | some expected => checkReserved field expected found
    | none => .ok ()
    .ok ((p.note field found).moveTo cursor)
  | .checkSizeOf reserved target => do
    let found ← p.noted s.name reserved
    let frame : Frame := { struct := s, plan, record := p.record, initial := [] }
    let size ← frame.fieldSize c.schema c.measure target
    checkReserved reserved size found
    .ok p
  | .array element count => do
    let n ← countOf s.name p count
    let (items, cursor) ← readCounted decoder element n p.cursor
    .ok ((p.store field (.list items)).moveTo cursor)
  | .arraySized layout group => do
    let declared ← p.noted s.name layout.lengthField
    let (region, cursor) ← p.cursor.region (← toLength layout.lengthField declared)
    let read := c.readPolymorphic decoder layout group
    let (items, _) ← readToEnd field read region.remaining region
    .ok ((p.store field (.list items)).moveTo cursor)
  | .fill element => do
    let (items, cursor) ← readToEnd field (fun here => element.read decoder here)
      p.cursor.remaining p.cursor
    .ok ((p.store field (.list items)).moveTo cursor)
  | .union size => do
    let (raw, cursor) ← p.cursor.take size
    .ok { p with slots := (field, raw) :: p.slots, cursor }
  | .resolveUnion members => do
    let raw ← p.slot s.name field
    readUnion decoder s.name raw p members

/-- What a step reads, if it is done. -/
def readStep (decoder : Decoder) (s : Struct) (plan : Plan) (p : Progress) (step : Step DecodeOp) :
    Except CodecError Progress := do
  if ← p.holds s.name step.guard then c.readOp decoder s plan step.field p step.op else .ok p

/-- Reads a struct in which structs nest at most `depth` deep. -/
def decodeAt : Nat → Decoder
  | 0 => fun name _ => .error (.endless name)
  | depth + 1 => fun name cursor => do
    let (s, plan) ← c.lookup name
    let p ← plan.decode.foldlM (c.readStep (decodeAt depth) s plan) (Progress.start s name cursor)
    .ok (p.record, p.cursor)

/-- How deep structs can nest in so many bytes. -/
def depthIn (bytes : Nat) : Nat := (bytes + 1) * c.schema.structs.length + 1

/-- Reads a struct. -/
def decoder : Decoder := fun name cursor => c.decodeAt (c.depthIn cursor.remaining) name cursor

/-- Reads a struct from the front of a buffer; the result says how many bytes it took. -/
def decodePrefix (name : String) (bytes : Bytes) : Except CodecError (Record × Nat) :=
  (c.decoder name (Cursor.start bytes)).map fun p => (p.1, p.2.offset)

/-- Reads a struct that takes the whole buffer. -/
def decode (name : String) (bytes : Bytes) : Except CodecError Record := do
  let (r, used) ← c.decodePrefix name bytes
  if used = bytes.length then .ok r else .error (.trailingBytes (bytes.length - used))

/-- Reads the header in front of a buffer. -/
def decodeHeader (b : HeaderBinding) (bytes : Bytes) : Except CodecError (Int × Option Nat) :=
  c.peekHeader c.decoder b bytes

/-- The struct that the header of a group in front of a buffer tells, if the group has a header and
the discriminator a struct. -/
def resolveHeader (group : String) (bytes : Bytes) : Except CodecError (Option String) :=
  match c.dispatch.header? group with
  | none => .ok none
  | some b => (c.decodeHeader b bytes).map fun key =>
    c.dispatch.resolve? group (key.2.getD 0) key.1

/-- Reads a buffer as the struct that the header of a group tells. -/
def decodeAny (group : String) (bytes : Bytes) : Except CodecError Record :=
  match c.dispatch.header? group with
  | none => .error (.unknownGroup group)
  | some b => do
    let key ← c.decodeHeader b bytes
    let name ← c.structOf group key
    c.decode name bytes

end Codec

end WireLayout
