import WireLayout.Json.Basic

/-!
# Taking documents apart

Readers of the parts of a document. A reader answers `none` when the document does not have the form
it wants; which part was wrong is not told.
-/

namespace WireLayout.Json

/-- The one member that goes by one of the spellings, if there is any; none of several may be kept,
so a second one refuses the object. -/
def member? (spellings : List String) (members : List (String × Json)) : Option (Option Json) :=
  match members.filter fun m => spellings.contains m.1 with
  | [] => some none
  | [m] => some (some m.2)
  | _ => none

/-- A member that has to be there. -/
def required (read : Json → Option α) : Option Json → Option α
  | some j => read j
  | none => none

/-- A member that may be left out or null. -/
def optional (read : Json → Option α) : Option Json → Option (Option α)
  | none => some none
  | some .null => some none
  | some j => (read j).map some

/-- A member that may be left out, but not null. -/
def withDefault (value : α) (read : Json → Option α) : Option Json → Option α
  | none => some value
  | some j => read j

/-- A text. -/
def text? : Json → Option String
  | .str s => some s
  | _ => none

/-- A truth value. -/
def bool? : Json → Option Bool
  | .bool b => some b
  | _ => none

/-- A non-negative integer. -/
def natural? : Json → Option Nat
  | .int (.ofNat n) => some n
  | _ => none

/-- An object's members. -/
def object? : Json → Option (List (String × Json))
  | .obj members => some members
  | _ => none

/-- The members of a record with the given keys: those of an object, or the values of a list, which
go by the keys in turn. A list may end early, but has no value without a key. -/
def record? (keys : List String) : Json → Option (List (String × Json))
  | .obj members => some members
  | .arr items => if items.length ≤ keys.length then some (keys.zip items) else none
  | _ => none

/-- A record together with the word that tells its kind: the member of the given key, or the first
value of a list. -/
def tagged? (key : String) : Json → Option (String × Json)
  | .obj members => do
    let kind ← required text? (← member? [key] members)
    some (kind, .obj members)
  | .arr (.str kind :: items) => some (kind, .arr items)
  | _ => none

/-- A list whose items all have one form. -/
def list? (read : Json → Option α) : Json → Option (List α)
  | .arr items => items.mapM read
  | _ => none

end WireLayout.Json
