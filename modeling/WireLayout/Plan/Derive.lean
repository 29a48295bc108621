import WireLayout.Plan.Basic
import WireLayout.Schema.FixedSize
import WireLayout.Schema.Member

/-!
# Derivation of plans

The plans of a struct come from one list, its wire entries: what lies on the wire, field by field,
with the members of a union in one entry at the first of them. Each plan has one step per entry, so
that the three agree on what is on the wire.

Two checks have to wait when a struct is read: which member a union's slot holds is known only after
the tested field, and the size that a reserved field promises only after its target. They are done
right after the last field they depend on.
-/

namespace WireLayout

/-- Why a plan cannot be derived. -/
inductive DeriveError where
  /-- A field's type is no struct and has no wire form. -/
  | unknownType (structName field typeName : String)
  /-- A union has no fixed size. -/
  | unionNotFixed (structName slot : String)
  /-- The header of an array has no enum for the discriminator. -/
  | headerUnresolved (structName field header typeField : String)
  /-- There is no such struct. -/
  | unknownStruct (name : String)
  deriving DecidableEq

/-- The reason in words. -/
def DeriveError.message : DeriveError → String
  | .unknownType owner field ty =>
    s!"field '{field}' of struct '{owner}' has unresolvable type '{ty}'"
  | .unionNotFixed owner slot => s!"union slot '{slot}' of struct '{owner}' has no fixed size"
  | .headerUnresolved owner field header typeField =>
    s!"header '{header}' of '{field}' in struct '{owner}' has no enum field '{typeField}'"
  | .unknownStruct name => s!"struct '{name}' not declared"

/-- The slot that the members of a union share. -/
structure UnionSlot where
  /-- Its first member. -/
  name : String
  /-- The place of its first member. -/
  position : Nat
  /-- The field that the members' conditions test. -/
  conditionField : String
  /-- Its size. -/
  bytes : Nat
  /-- Its members in order. -/
  members : List UnionMember
  deriving DecidableEq

/-- What an entry is on the wire. -/
inductive WireShape where
  /-- A value that is no struct. -/
  | leaf (leaf : Leaf)
  /-- A struct. -/
  | nested (typeName : String) (isInline : Bool)
  /-- A fixed value. -/
  | reserved (leaf : Leaf) (value : ReservedValue)
  /-- A counted array. -/
  | array (element : Element) (count : Count)
  /-- A region of polymorphic elements of a group. -/
  | arraySized (layout : SizedArray) (group : String)
  /-- An array up to the end of the buffer. -/
  | fill (element : Element)
  /-- The slot of a union. -/
  | union (slot : UnionSlot)
  deriving DecidableEq

/-- An entry of a struct's layout. -/
structure WireEntry where
  /-- The field, or the first member of a union. -/
  field : String
  /-- Its role. -/
  role : Role
  /-- When it is there. -/
  guard : Option Condition
  /-- What it is. -/
  shape : WireShape
  deriving DecidableEq

namespace Schema

variable (schema : Schema)

/-- The element that a field's type makes. -/
def element (owner : String) (f : Field) : Except DeriveError Element :=
  match schema.types.form? f.typeName with
  | some form => .ok (.leaf { typeName := f.typeName, form })
  | none =>
    if schema.hasStruct f.typeName then .ok (.struct f.typeName)
    else .error (.unknownType owner f.name f.typeName)

/-- A field as a member of a union; only fields with a condition are. -/
def unionMember? (s : Struct) (name : String) : Option (Except DeriveError UnionMember) :=
  (s.field? name).bind fun f => f.condition.map fun guard =>
    (schema.element s.name f).map fun element => { field := name, guard, element }

/-- The slot of a union that starts with the member `first`. -/
def unionSlot (s : Struct) (g : ConditionGroup) (first : String) : Except DeriveError UnionSlot :=
  match schema.unionSize? s g with
  | none => .error (.unionNotFixed s.name first)
  | some bytes => do
    let members ← (g.members.filterMap (schema.unionMember? s)).mapM id
    .ok { name := first, position := (s.position? first).getD 0
          conditionField := g.conditionField, bytes, members }

/-- The slots of a struct's unions, in the order of the unions. -/
def unionSlots (s : Struct) : Except DeriveError (List UnionSlot) :=
  (s.unions.filterMap fun g => g.members.head?.map (schema.unionSlot s g)).mapM id

/-- The group of an array's elements: the enum of its header's discriminator. -/
def arrayGroup (s : Struct) (f : Field) (b : HeaderBinding) : Except DeriveError String :=
  match (schema.member? b.header b.typeField).filter fun m => schema.types.isEnum m.typeName with
  | some m => .ok m.typeName
  | none => .error (.headerUnresolved s.name f.name b.header b.typeField)

/-- What a field is on the wire; nothing, if it is a constant. -/
def shape? (s : Struct) (f : Field) : Except DeriveError (Option WireShape) :=
  match f.disposition with
  | .const _ => .ok none
  | .plain | .inline => (schema.element s.name f).map fun
    | .leaf leaf => some (.leaf leaf)
    | .struct ty => some (.nested ty (f.disposition == .inline))
  | .reserved value => (schema.element s.name f).bind fun
    | .leaf leaf => .ok (some (.reserved leaf value))
    | .struct ty => .error (.unknownType s.name f.name ty)
  | .array count => (schema.element s.name f).map fun e => some (.array e count)
  | .arraySized layout =>
    (schema.arrayGroup s f layout.binding).map fun group => some (.arraySized layout group)
  | .arrayFill => (schema.element s.name f).map fun e => some (.fill e)

/-- The entry of a slot. -/
def slotEntry (slot : UnionSlot) : WireEntry :=
  { field := slot.name, role := .union, guard := none, shape := .union slot }

/-- The entry that the field at a place has, if it has one: a member of a union has the slot's entry
if it is the first, and none otherwise. -/
def wireEntry? (s : Struct) (slots : List UnionSlot) (position : Nat) (f : Field) :
    Except DeriveError (Option WireEntry) :=
  if (s.unionOf? f.name).isSome then
    .ok ((slots.find? fun slot => slot.position == position).map slotEntry)
  else
    (schema.shape? s f).map fun shape => shape.map fun shape =>
      { field := f.name, role := f.disposition.role, guard := f.condition, shape }

/-- The entries of a struct, one place for every field. -/
def wireEntries (s : Struct) (slots : List UnionSlot) :
    Except DeriveError (List (Option WireEntry)) :=
  s.fields.zipIdx.mapM fun p => schema.wireEntry? s slots p.2 p.1

end Schema

/-- A step of an entry. -/
def WireEntry.step {Op : Type} (e : WireEntry) (op : Op) : Step Op :=
  { field := e.field, role := e.role, guard := e.guard, op }

/-- How an entry counts for the size. -/
def WireEntry.sizeOp (e : WireEntry) : SizeOp :=
  match e.shape with
  | .leaf leaf => .fixed leaf.form.width
  | .nested ty _ => .nested ty
  | .reserved leaf _ => .fixed leaf.form.width
  | .array element _ => .array element
  | .arraySized layout _ => .byteLength layout.lengthField
  | .fill element => .fill element
  | .union slot => .union slot.bytes

/-- How an entry is written. A value is computed, not taken from the record, where it counts
elements or may measure a region; of several regions the last one counts. -/
def WireEntry.encodeOp (s : Struct) (e : WireEntry) : EncodeOp :=
  match e.shape with
  | .leaf leaf =>
    if s.isCount e.field then .length leaf (s.arraysCountedBy e.field)
    else
      match (s.regionsMeasuredBy e.field).getLast? with
      | some (array, align) => .byteLength leaf array align
      | none => .leaf leaf
  | .nested ty isInline => .nested ty isInline
  | .reserved leaf value => .reserved leaf value
  | .array element count => .array element count
  | .arraySized layout _ => .arraySized layout.lengthField layout.align
  | .fill element => .fill element
  | .union slot => .union slot.bytes slot.members

/-- How an entry is read. -/
def WireEntry.decodeOp (s : Struct) (e : WireEntry) : DecodeOp :=
  match e.shape with
  | .leaf leaf => if s.isCount e.field then .length leaf else .leaf leaf
  | .nested ty isInline => .nested ty isInline
  | .reserved leaf value => .reserved leaf value.fixed?
  | .array element count => .array element count
  | .arraySized layout group => .arraySized layout group
  | .fill element => .fill element
  | .union slot => .union slot.bytes

namespace Struct

variable (s : Struct) (slots : List UnionSlot)

/-- The place after which a slot's member is known. -/
def slotReady (slot : UnionSlot) : Nat :=
  match s.position? slot.conditionField with
  | some p => max p slot.position
  | none => slot.position

/-- The place after which a field is there, or `default` if there is no such field. -/
def targetReady (target : String) (default : Nat) : Nat :=
  match slots.find? fun slot => slot.members.any fun m => m.field == target with
  | some slot => s.slotReady slot
  | none => (s.position? target).getD default

/-- The steps that find out which member a slot holds, each with its place. -/
def resolveSteps : List (Nat × Step DecodeOp) :=
  slots.map fun slot =>
    (s.slotReady slot,
      { field := slot.name, role := .union, guard := none, op := .resolveUnion slot.members })

/-- The steps that compare promised sizes, each with its place. -/
def sizeOfSteps : List (Nat × Step DecodeOp) :=
  s.fields.zipIdx.filterMap fun (f, position) =>
    f.sizeOfTarget?.map fun target =>
      (max position (s.targetReady slots target position),
        { field := f.name, role := .reserved, guard := f.condition
          op := .checkSizeOf f.name target })

/-- The steps that look back after the field at a place. -/
def deferredAt (position : Nat) : List (Step DecodeOp) :=
  ((s.resolveSteps slots ++ s.sizeOfSteps slots).filter fun p => p.1 == position).map (·.2)

/-- The steps that read a struct: at every place its entry, then what looks back from there. -/
def decodeSteps (entries : List (Option WireEntry)) : List (Step DecodeOp) :=
  entries.zipIdx.flatMap fun (entry, position) =>
    (entry.map fun e => e.step (e.decodeOp s)).toList ++ s.deferredAt slots position

end Struct

/-- The plans of a struct. -/
def Schema.planOf (schema : Schema) (s : Struct) (initializers : List Initializer) :
    Except DeriveError Plan := do
  let slots ← schema.unionSlots s
  let entries ← schema.wireEntries s slots
  let present := entries.filterMap id
  .ok { structName := s.name, initializers
        size := present.map fun e => e.step e.sizeOp
        encode := present.map fun e => e.step (e.encodeOp s)
        decode := s.decodeSteps slots entries }

/-- The plans of the struct of a name. -/
def Schema.derive (schema : Schema) (name : String) (initializers : List Initializer) :
    Except DeriveError Plan :=
  match schema.struct? name with
  | some s => schema.planOf s initializers
  | none => .error (.unknownStruct name)

end WireLayout
