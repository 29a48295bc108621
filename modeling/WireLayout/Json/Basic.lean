/-!
# JSON documents

The values that a JSON text denotes, as far as schema documents need them: numbers are integers or
nothing more than "some other number", and the members of an object keep their order and
repetitions.
-/

namespace WireLayout

/-- A JSON value. -/
inductive Json where
  /-- `null`. -/
  | null
  /-- `true` or `false`. -/
  | bool (value : Bool)
  /-- A number written as an integer. -/
  | int (value : Int)
  /-- A number with a fraction or an exponent, minus zero, or an integer that no 64-bit type
  holds. -/
  | real
  /-- A text. -/
  | str (value : String)
  /-- A list of values. -/
  | arr (items : List Json)
  /-- An object: its members as written. -/
  | obj (members : List (String × Json))
  /-- Well-formed text without a value: a number that overflows, a string or an object key with an
  unpaired surrogate. -/
  | unreadable

namespace Json

mutual

/-- Whether every part of the document has a value. -/
def isReadable : Json → Bool
  | .arr items => allReadable items
  | .obj members => membersReadable members
  | .unreadable => false
  | _ => true

/-- `isReadable` of every item. -/
def allReadable : List Json → Bool
  | [] => true
  | j :: js => isReadable j && allReadable js

/-- `isReadable` of every member's value. -/
def membersReadable : List (String × Json) → Bool
  | [] => true
  | (_, j) :: ms => isReadable j && membersReadable ms

end

mutual

/-- How deep arrays and objects nest in the document. -/
def depth : Json → Nat
  | .arr items => itemsDepth items + 1
  | .obj members => membersDepth members + 1
  | _ => 0

/-- The greatest `depth` of the items. -/
def itemsDepth : List Json → Nat
  | [] => 0
  | j :: js => max (depth j) (itemsDepth js)

/-- The greatest `depth` of the members' values. -/
def membersDepth : List (String × Json) → Nat
  | [] => 0
  | (_, j) :: ms => max (depth j) (membersDepth ms)

end

end Json

end WireLayout
