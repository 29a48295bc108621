import WireLayout.Schema.Basic

/-!
# Members through inline fields

The members of a struct are its own fields and, through inline fields, the members of the structs
embedded in it. A member is reached by the path of field names that leads to it; own fields come
first, then the inline fields in order.
-/

namespace WireLayout.Schema

variable (schema : Schema)

/-- The path to a member, not passing through a struct of `seen`; at most `depth` structs deep. -/
def memberPathFrom? (field : String) : Nat → List String → String → Option (List String)
  | 0, _, _ => none
  | depth + 1, seen, name =>
    (schema.struct? name).bind fun s =>
      if (s.field? field).isSome then some [field]
      else if seen.contains name then none
      else
        (s.fields.filter fun f => f.disposition == .inline).findSome? fun f =>
          (memberPathFrom? field depth (name :: seen) f.typeName).map (f.name :: ·)

/-- The path to the member `field` of a struct. -/
def memberPath? (name field : String) : Option (List String) :=
  schema.memberPathFrom? field (schema.structs.length + 1) [] name

/-- The field that a path leads to. -/
def fieldAt? (s : Struct) : List String → Option Field
  | [] => none
  | [last] => s.field? last
  | hop :: path => ((s.field? hop).bind fun f => schema.struct? f.typeName).bind (fieldAt? · path)

/-- The member `field` of a struct. -/
def member? (name field : String) : Option Field :=
  (schema.memberPath? name field).bind fun path =>
    (schema.struct? name).bind fun s => schema.fieldAt? s path

end WireLayout.Schema
