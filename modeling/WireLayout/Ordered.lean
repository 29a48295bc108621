/-!
# Ordered association lists

Finite maps as lists of pairs with strictly increasing keys. The order is given as a Boolean test,
so that the same functions serve maps by name and by composite keys.
-/

namespace WireLayout.Ordered

variable {κ α : Type}

/-- The map with `key` set to `value`. -/
def insert (lt : κ → κ → Bool) (key : κ) (value : α) : List (κ × α) → List (κ × α)
  | [] => [(key, value)]
  | (k, v) :: rest =>
    if lt key k then (key, value) :: (k, v) :: rest
    else if lt k key then (k, v) :: insert lt key value rest
    else (key, value) :: rest

/-- The map of the given pairs; a later pair replaces an earlier one of the same key. -/
def ofList (lt : κ → κ → Bool) (pairs : List (κ × α)) : List (κ × α) :=
  pairs.foldl (fun m p => insert lt p.1 p.2 m) []

/-- Names are ordered by their code points. -/
def byName (a b : String) : Bool := a < b

end WireLayout.Ordered
