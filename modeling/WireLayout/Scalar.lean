import WireLayout.Text.Numeral

/-!
# Scalars

A schema writes sizes, values and versions as a number or as text. The text may itself be a numeral;
only text that is none counts as a word.
-/

namespace WireLayout

/-- A number or a text, as written in a schema. -/
inductive Scalar where
  /-- A non-negative number. -/
  | unsigned (value : Nat)
  /-- A negative number. -/
  | signed (value : Int)
  /-- A word, an expression or a numeral in quotes. -/
  | text (value : String)
  deriving DecidableEq

namespace Scalar

/-- The integer that the scalar denotes, if it denotes one. -/
def integer? : Scalar → Option Int
  | .unsigned n => some n
  | .signed n => some n
  | .text s => Text.integer? s

/-- The scalar as a word: its text between blanks, unless that is a numeral. -/
def word? : Scalar → Option String
  | .text s => if (Text.integer? s).isNone then some (Text.trim s) else none
  | _ => none

/-- The scalar as it was written. -/
def literal : Scalar → String
  | .unsigned n => toString n
  | .signed n => toString n
  | .text s => s

end Scalar

end WireLayout
