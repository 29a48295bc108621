import WireLayout.Codec.Frame

/-!
# Sizes of records

The size plan, carried out. The recursion follows the nesting of records; where a record leaves a
nested struct out, it follows the embedding of structs, which in a checked schema goes no deeper
than there are structs.
-/

namespace WireLayout

/-- The size of an element of the array `field`. -/
def Element.size (measure : Measure) (field : String) (v : Value) : Element → Except CodecError Nat
  | .leaf l => .ok l.form.width
  | .struct ty => (asRecord field v).bind fun r => measure ty [] r

/-- The sizes of elements, added to `total`. -/
def elementsSize (measure : Measure) (element : Element) (field : String) (total : Nat) :
    List Value → Except CodecError Nat
  | [] => .ok total
  | v :: rest => do
    let size ← element.size measure field v
    let total ← grow total size field
    elementsSize measure element field total rest

namespace Frame

variable (frame : Frame)

/-- What a step adds to the size. -/
def opSize (measure : Measure) (field : String) : SizeOp → Except CodecError Nat
  | .fixed bytes => .ok bytes
  | .union bytes => .ok bytes
  | .nested ty => do
    let r ← frame.nested field ty
    measure ty (frame.initialInside field) r
  | .array element => do elementsSize measure element field 0 (← frame.list field)
  | .fill element => do elementsSize measure element field 0 (← frame.list field)
  | .byteLength lengthField => do toLength lengthField (← frame.intOf measure lengthField)

/-- The sizes of steps, added to `total`. -/
def stepsSize (measure : Measure) (total : Nat) : List (Step SizeOp) → Except CodecError Nat
  | [] => .ok total
  | step :: rest => do
    if ← frame.holds measure step.guard then
      let size ← frame.opSize measure step.field step.op
      let total ← grow total size step.field
      stepsSize measure total rest
    else stepsSize measure total rest

/-- The size of a member of a union: that of its type, if the slot holds it, and nothing
otherwise. -/
def unionMemberSize (schema : Schema) (measure : Measure) (target : String) :
    Except CodecError Nat :=
  match frame.struct.field? target with
  | none => .ok 0
  | some f =>
    if (frame.record.get? target).isSome then do
      if ← frame.holds measure f.condition then
        match schema.fieldSize? f with
        | some size => .ok size
        | none => .error (frame.missing target)
      else .ok 0
    else .ok 0

/-- The size of one field; nothing, if it is absent. -/
def fieldSize (schema : Schema) (measure : Measure) (target : String) : Except CodecError Nat :=
  if (frame.struct.unionOf? target).isSome then frame.unionMemberSize schema measure target
  else
    match frame.plan.size.find? fun step => step.field == target with
    | none => .ok 0
    | some step => do
      if ← frame.holds measure step.guard then frame.opSize measure step.field step.op else .ok 0

end Frame

namespace Codec

variable (c : Codec)

/-- The size of a record in which structs nest at most `depth` deep. -/
def sizeAt : Nat → Measure
  | 0 => fun name _ _ => .error (.endless name)
  | depth + 1 => fun name initial r => do
    let frame ← c.frame name initial r
    frame.stepsSize (sizeAt depth) 0 frame.plan.size

/-- How deep structs nest in a record, those included that initial values bring in. -/
def depthOf (r : Record) : Nat := r.depth + c.schema.structs.length

/-- The size of a struct's record under initial values. -/
def measure : Measure := fun name initial r => c.sizeAt (c.depthOf r) name initial r

/-- The encoded size of a record. -/
def size (r : Record) : Except CodecError Nat := c.measure r.typeName [] r

end Codec

end WireLayout
