import WireLayout.Json.Basic
import WireLayout.Text.Hex
import WireLayout.Value

/-!
# Documents of values

How values are written as JSON: bytes as hexadecimal text, a record as an object that starts with
the name of its struct.
-/

namespace WireLayout

namespace Value

mutual

/-- A value. -/
def toJson : Value → Json
  | .int v => .int v
  | .bytes b => .str (Text.hexEncode b)
  | .list items => .arr (itemsJson items)
  | .record typeName fields => .obj (("$type", .str typeName) :: fieldsJson fields)

/-- The elements of a list. -/
def itemsJson : List Value → List Json
  | [] => []
  | v :: vs => toJson v :: itemsJson vs

/-- The fields of a record. -/
def fieldsJson : List (String × Value) → List (String × Json)
  | [] => []
  | (k, v) :: rest => (k, toJson v) :: fieldsJson rest

end

end Value

/-- A record. -/
def Record.toJson (r : Record) : Json := r.toValue.toJson

end WireLayout
