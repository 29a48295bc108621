import WireLayout.Codec.Cursor
import WireLayout.Compile

/-!
# Frames

A frame is a record that is being measured or written, with the struct and plan it is measured or
written by and the values its members take when the record leaves them out.

What the integer of a field is, is a question that guards, lengths and sizes ask. A constant answers
itself, a counting field is the number of elements of its arrays, any other field is what the record
says, or its initial value; the length of a region that nobody states is measured.

Measuring a nested struct is a parameter here, a `Measure`.
-/

namespace WireLayout

/-- Gives the size of a struct's record, under initial values for its members. -/
abbrev Measure := String → List Initializer → Record → Except CodecError Nat

/-- A record that is being measured or written. -/
structure Frame where
  /-- The struct. -/
  struct : Struct
  /-- Its plan. -/
  plan : Plan
  /-- The record. -/
  record : Record
  /-- The initial values in force. -/
  initial : List Initializer

/-- `total + more`, if that is a length; else a fault of `field`. -/
def grow (total more : Nat) (field : String) : Except CodecError Nat :=
  if total + more < sizeLimit then .ok (total + more)
  else .error (.outOfRange field (total + more : Nat))

/-- An integer as a length; else a fault of `field`. -/
def toLength (field : String) (v : Int) : Except CodecError Nat :=
  match asSize? v with
  | some n => .ok n
  | none => .error (.outOfRange field v)

/-- The zeros that lead from an offset to the next multiple of an alignment. -/
def padding (offset : Nat) (align : Option Nat) : Nat :=
  match align with
  | none => 0
  | some a => if 1 < a then (a - offset % a) % a else 0

/-- A value that has to be a record. -/
def asRecord (field : String) (v : Value) : Except CodecError Record :=
  match v.record? with
  | some r => .ok r
  | none => .error (.typeMismatch field .record v.shape)

/-- A value that has to be an integer. -/
def asInt (field : String) (v : Value) : Except CodecError Int :=
  match v.int? with
  | some n => .ok n
  | none => .error (.typeMismatch field .int v.shape)

/-- A value that has to be a list. -/
def asList (field : String) (v : Value) : Except CodecError (List Value) :=
  match v.list? with
  | some items => .ok items
  | none => .error (.typeMismatch field .list v.shape)

namespace Initializer

/-- Whether this is for the member of a name itself. -/
def isFor (i : Initializer) (name : String) : Bool := i.path == [name]

/-- The part of this that lies inside the member of a name. -/
def inside? (i : Initializer) (name : String) : Option Initializer :=
  match i.path with
  | head :: next :: path =>
    if head == name then some { path := next :: path, value := i.value } else none
  | _ => none

end Initializer

/-- The bytes of a region of records: each takes its size and the zeros up to the alignment. `total`
counts from the start of the region. -/
def regionLength (measure : Measure) (field : String) (align : Option Nat) (total : Nat) :
    List Value → Except CodecError Nat
  | [] => .ok total
  | v :: rest => do
    let r ← asRecord field v
    let size ← measure r.typeName [] r
    let total ← grow total size field
    let total ← grow total (padding total align) field
    regionLength measure field align total rest

namespace Frame

variable (frame : Frame)

/-- The fault of a field without a value. -/
def missing (field : String) : CodecError := .missingField frame.struct.name field

/-- The initial value of a member. -/
def initial? (name : String) : Option Int :=
  (frame.initial.find? fun i => i.isFor name).map (·.value)

/-- The initial values inside a member. -/
def initialInside (field : String) : List Initializer :=
  frame.initial.filterMap fun i => i.inside? field

/-- The value of a member: what the record says, else its initial value. -/
def value (name : String) : Except CodecError Value :=
  match frame.record.get? name with
  | some v => .ok v
  | none =>
    match frame.initial? name with
    | some v => .ok (.int v)
    | none => .error (frame.missing name)

/-- The elements of an array. -/
def list (name : String) : Except CodecError (List Value) :=
  match frame.record.get? name with
  | some v => asList name v
  | none => .error (frame.missing name)

/-- The number of elements that those of the arrays have that the record holds; they have to agree.
`shared` is the number the earlier ones have. -/
def sharedLength (shared : Option Nat) : List String → Except CodecError Nat
  | [] => .ok (shared.getD 0)
  | array :: rest =>
    match frame.record.get? array with
    | none => sharedLength shared rest
    | some v =>
      match asList array v with
      | .error e => .error e
      | .ok items =>
        match shared with
        | none => sharedLength (some items.length) rest
        | some expected =>
          if expected = items.length then sharedLength (some expected) rest
          else .error (.lengthMismatch array expected items.length)

/-- The number of elements that arrays share. -/
def liveLength (arrays : List String) : Except CodecError Nat := frame.sharedLength none arrays

/-- The record of a nested struct. One that is left out is empty, if initial values reach into
it. -/
def nested (field typeName : String) : Except CodecError Record :=
  match frame.record.get? field with
  | some v => asRecord field v
  | none =>
    if (frame.initialInside field).isEmpty then .error (frame.missing field)
    else .ok (Record.empty typeName)

/-- The integer of a field. -/
def intOf (measure : Measure) (name : String) : Except CodecError Int :=
  match (frame.struct.field? name).bind Field.constValue? with
  | some v => .ok v.value
  | none =>
    if frame.struct.isCount name then
      (frame.liveLength (frame.struct.arraysCountedBy name)).map Int.ofNat
    else
      match frame.record.get? name with
      | some v => asInt name v
      | none =>
        match frame.initial? name with
        | some v => .ok v
        | none =>
          match (frame.struct.regionsMeasuredBy name).head? with
          | some (array, align) => do
            let items ← frame.list array
            (regionLength measure array align 0 items).map Int.ofNat
          | none => .error (frame.missing name)

/-- Whether a step is done. -/
def holds (measure : Measure) (guard : Option Condition) : Except CodecError Bool :=
  match guard with
  | none => .ok true
  | some c => (frame.intOf measure c.field).map c.holds

end Frame

namespace Codec

variable (c : Codec)

/-- The struct and plan of a name. -/
def lookup (name : String) : Except CodecError (Struct × Plan) :=
  match c.schema.struct? name, c.plan? name with
  | some s, some p => .ok (s, p)
  | _, _ => .error (.unknownStruct name)

/-- The frame of a record that has to be of the struct `name`. The initial values of its
surroundings come before those of its plan. -/
def frame (name : String) (initial : List Initializer) (r : Record) : Except CodecError Frame := do
  let (struct, plan) ← c.lookup name
  if r.typeName = name then
    .ok { struct, plan, record := r, initial := initial ++ plan.initializers }
  else .error (.typeMismatch name (.struct name) (.struct r.typeName))

end Codec

end WireLayout
