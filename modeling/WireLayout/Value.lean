import WireLayout.Bytes
import WireLayout.Ordered

/-!
# Values and records

What is encoded and decoded: integers, runs of bytes, lists, and records of named values. The fields
of a record are ordered by name, each name once.
-/

namespace WireLayout

/-- A value of a field. -/
inductive Value where
  /-- An integer. -/
  | int (value : Int)
  /-- A run of bytes. -/
  | bytes (value : Bytes)
  /-- The elements of an array. -/
  | list (items : List Value)
  /-- A struct's value: the struct's name and the values of its fields. -/
  | record (typeName : String) (fields : List (String × Value))

/-- The value of a struct. -/
structure Record where
  /-- The struct. -/
  typeName : String
  /-- The values of its fields, ordered by name. -/
  fields : List (String × Value)

/-- The shape of a value, for saying what was expected and what was found. -/
inductive Shape where
  /-- An integer. -/
  | int
  /-- A run of bytes. -/
  | bytes
  /-- A run of so many bytes. -/
  | bytesOf (len : Nat)
  /-- A list. -/
  | list
  /-- A record. -/
  | record
  /-- A record of a struct. -/
  | struct (name : String)
  deriving DecidableEq

/-- The shape in words. -/
def Shape.describe : Shape → String
  | .int => "int"
  | .bytes => "bytes"
  | .bytesOf len => s!"{len} bytes"
  | .list => "list"
  | .record => "record"
  | .struct name => name

namespace Value

/-- The shape of the value. -/
def shape : Value → Shape
  | .int _ => .int
  | .bytes _ => .bytes
  | .list _ => .list
  | .record .. => .record

/-- The integer that the value is. -/
def int? : Value → Option Int
  | .int v => some v
  | _ => none

/-- The elements of a list. -/
def list? : Value → Option (List Value)
  | .list items => some items
  | _ => none

/-- The record that the value is. -/
def record? : Value → Option Record
  | .record typeName fields => some { typeName, fields }
  | _ => none

mutual

/-- How deep records nest in the value. -/
def depth : Value → Nat
  | .int _ => 0
  | .bytes _ => 0
  | .list items => itemsDepth items
  | .record _ fields => fieldsDepth fields + 1

/-- How deep records nest in the elements of a list. -/
def itemsDepth : List Value → Nat
  | [] => 0
  | v :: vs => max (depth v) (itemsDepth vs)

/-- How deep records nest in the fields of a record. -/
def fieldsDepth : List (String × Value) → Nat
  | [] => 0
  | (_, v) :: rest => max (depth v) (fieldsDepth rest)

end

mutual

/-- Whether two values are the same. -/
def same : Value → Value → Bool
  | .int a, .int b => a == b
  | .bytes a, .bytes b => a == b
  | .list a, .list b => sameItems a b
  | .record s a, .record t b => s == t && sameFields a b
  | _, _ => false

/-- Whether two lists have the same elements. -/
def sameItems : List Value → List Value → Bool
  | [], [] => true
  | a :: as, b :: bs => same a b && sameItems as bs
  | _, _ => false

/-- Whether two records have the same fields. -/
def sameFields : List (String × Value) → List (String × Value) → Bool
  | [], [] => true
  | (k, a) :: as, (l, b) :: bs => k == l && same a b && sameFields as bs
  | _, _ => false

end

end Value

namespace Record

/-- The record without fields. -/
def empty (typeName : String) : Record := { typeName, fields := [] }

/-- The record as a value. -/
def toValue (r : Record) : Value := .record r.typeName r.fields

/-- The value of a field. -/
def get? (r : Record) (name : String) : Option Value := r.fields.lookup name

/-- The record with a field set. -/
def insert (r : Record) (name : String) (value : Value) : Record :=
  { r with fields := Ordered.insert Ordered.byName name value r.fields }

/-- The value at the end of a path through nested records. -/
def atPath? (r : Record) : List String → Option Value
  | [] => none
  | [last] => r.get? last
  | hop :: path => ((r.get? hop).bind Value.record?).bind (atPath? · path)

/-- How deep records nest in the record, itself included. -/
def depth (r : Record) : Nat := r.toValue.depth

/-- Whether two records are the same. -/
def same (a b : Record) : Bool := a.toValue.same b.toValue

end Record

end WireLayout
