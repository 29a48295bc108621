import WireLayout.Schema.Basic

/-!
# Fixed sizes

The encoded size of a type, where it is the same for all values. A struct has one if all its fields
have: an array needs a literal count, a conditioned field has to share the slot of a union, and no
struct may contain itself. Sizes that no buffer can have do not count.

The recursion descends at most as many structs as the schema has; a longer descent passes through
one struct twice, and such a struct has no fixed size.
-/

namespace WireLayout

/-- The sum, if a buffer can have that size. -/
def addSize? (a b : Nat) : Option Nat := if a + b < sizeLimit then some (a + b) else none

/-- The product, if a buffer can have that size. -/
def mulSize? (a b : Nat) : Option Nat := if a * b < sizeLimit then some (a * b) else none

/-- The sum of `total` and the sizes of the parts, if all of them have one. -/
def sumSizes? {α : Type} (size : α → Option Nat) (total : Nat) : List α → Option Nat
  | [] => some total
  | part :: rest =>
    match (size part).bind (addSize? total) with
    | some total => sumSizes? size total rest
    | none => none

/-- The size of a field, its condition aside, where `sizeOf` gives the sizes of types. -/
def Field.sizeWith? (sizeOf : String → Option Nat) (f : Field) : Option Nat :=
  match f.disposition with
  | .const _ => some 0
  | .plain | .inline | .reserved _ => sizeOf f.typeName
  | .array (.literal count) => (sizeOf f.typeName).bind fun each => mulSize? each count
  | .array (.field _) | .arraySized _ | .arrayFill => none

namespace Struct

/-- The size of the largest member of a union. -/
def unionSizeWith? (sizeOf : String → Option Nat) (s : Struct) (g : ConditionGroup) : Option Nat :=
  g.members.foldlM (fun widest name => do
    let f ← s.field? name
    let size ← f.sizeWith? sizeOf
    pure (max widest size)) 0

/-- The size of a field that no union holds. -/
def memberSizeWith? (sizeOf : String → Option Nat) (f : Field) : Option Nat :=
  if f.condition.isSome then none else f.sizeWith? sizeOf

/-- The fields that take bytes of their own: no constants and no members of a union. -/
def separateFields (s : Struct) : List Field :=
  s.fields.filter fun f => !f.isConst && (s.unionOf? f.name).isNone

/-- The size of a struct: its unions' slots and its other fields. -/
def sizeWith? (sizeOf : String → Option Nat) (s : Struct) : Option Nat :=
  (sumSizes? (s.unionSizeWith? sizeOf) 0 s.unions).bind fun slots =>
    sumSizes? (memberSizeWith? sizeOf) slots s.separateFields

end Struct

namespace Schema

variable (schema : Schema)

/-- The size of a type whose structs nest at most `depth` deep. -/
def fixedSizeAt? : Nat → String → Option Nat
  | depth, ty =>
    match schema.types.form? ty with
    | some form => some form.width
    | none =>
      match depth with
      | 0 => none
      | depth + 1 => (schema.struct? ty).bind fun s => s.sizeWith? (fixedSizeAt? depth)

/-- The encoded size of a type, if all its values have the same. -/
def fixedSize? (ty : String) : Option Nat := schema.fixedSizeAt? schema.structs.length ty

/-- The encoded size of a field, its condition aside, if it is always the same. -/
def fieldSize? (f : Field) : Option Nat := f.sizeWith? schema.fixedSize?

/-- The size of the slot that a union's members share. -/
def unionSize? (s : Struct) (g : ConditionGroup) : Option Nat :=
  s.unionSizeWith? schema.fixedSize? g

end Schema

end WireLayout
