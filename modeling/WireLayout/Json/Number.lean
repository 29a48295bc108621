import WireLayout.Json.Basic
import WireLayout.Text.Numeral

/-!
# The numbers of JSON text

A number is a sign, digits, perhaps a fraction and perhaps an exponent. An integer that a 64-bit
type holds is kept; of every other number it matters only whether it stays in the range of a double.

That is decided as binary arithmetic does it, and not on the exact value: the leading digits that
fit 64 bits form a mantissa, the other digits count only as a shift of the point, the mantissa and
the power of ten are each rounded to a double, and so is their product. Three roundings may carry a
number over the limit whose exact value lies just below it (`1.7976931348623158e308`), or keep one
that lies just above (`1.79769313486231582e308`).
-/

namespace WireLayout.Json

/-- A number as written. -/
structure Number where
  /-- Whether a minus sign stands in front. -/
  negative : Bool
  /-- The digits before the point. -/
  whole : List Char
  /-- The digits after the point, if there is one. -/
  fraction : Option (List Char)
  /-- The exponent, if there is one. -/
  exponent : Option Int

/-- The size of a number in decimal floating point: `mantissa * 10 ^ exponent`. -/
structure Magnitude where
  /-- The leading digits. -/
  mantissa : Nat
  /-- How far the point stands to the right of them. -/
  exponent : Int

/-- How many mantissas there are: they have 64 bits. -/
def mantissaCount : Nat := Nat.pow 2 64

/-- Appends digits to a mantissa up to the first one that it has no room for. The result pairs the
mantissa with the digits left over. -/
def appendDigits (mantissa : Nat) : List Char → Nat × List Char
  | [] => (mantissa, [])
  | c :: cs =>
    match Text.decimalDigit? c with
    | some d =>
      if mantissa * 10 + d < mantissaCount then appendDigits (mantissa * 10 + d) cs
      else (mantissa, c :: cs)
    | none => (mantissa, c :: cs)

/-- How many significant bits a double has. -/
def doublePrecision : Nat := 53

/-- The least power of two above all doubles. -/
def doubleBound : Nat := Nat.pow 2 1024

/-- The greatest power of ten that a double holds, as an exponent. -/
def maxTenExponent : Int := 308

/-- Rounds to the nearest number of `doublePrecision` significant bits, a tie to the even one. Up to
`doubleBound` these are the doubles among the natural numbers. -/
def roundToDouble (n : Nat) : Nat :=
  let unit := Nat.pow 2 (n.log2 + 1 - doublePrecision)
  let quotient := n / unit
  let twice := 2 * (n % unit)
  if unit < twice ∨ twice = unit ∧ quotient % 2 = 1 then (quotient + 1) * unit else quotient * unit

/-- Whether a magnitude leaves the range of a double. A negative exponent keeps it in range, since
the mantissa is far below the limit and is only divided. No power beyond the doubles is computed. -/
def Magnitude.overflows (size : Magnitude) : Bool :=
  if size.mantissa = 0 ∨ size.exponent < 0 then false
  else if maxTenExponent < size.exponent then true
  else
    let scale := roundToDouble (Nat.pow 10 size.exponent.toNat)
    doubleBound ≤ roundToDouble (roundToDouble size.mantissa * scale)

namespace Number

/-- The size of a number. A digit before the point that the mantissa has no room for moves the point
one place to the right, a digit after the point that it takes moves it one place to the left. -/
def magnitude (n : Number) : Magnitude :=
  let fraction := n.fraction.getD []
  let (leading, wholeLeft) := appendDigits 0 n.whole
  let (mantissa, fractionLeft) := appendDigits leading fraction
  let taken : Int := fraction.length - fractionLeft.length
  ⟨mantissa, n.exponent.getD 0 + wholeLeft.length - taken⟩

/-- The integer that a number without fraction and exponent denotes, if an unsigned 64-bit type
holds it or, after a minus sign, a signed one. Minus zero is no integer. -/
def integer? (n : Number) : Option Int :=
  match n.fraction, n.exponent, Text.decimal? n.whole with
  | none, none, some m =>
    if n.negative then if 0 < m ∧ m ≤ Nat.pow 2 63 then some (-(m : Int)) else none
    else if m < Nat.pow 2 64 then some m else none
  | _, _, _ => none

/-- The value that a number denotes. -/
def toJson (n : Number) : Json :=
  match n.integer? with
  | some i => .int i
  | none => if n.magnitude.overflows then .unreadable else .real

end Number

/-- Splits off the digits in front. -/
def digits (cs : List Char) : List Char × List Char := cs.span Char.isDigit

/-- The integer part of a number: a zero, or digits that do not start with one. -/
def integerPart? (cs : List Char) : Option (List Char × List Char) :=
  match digits cs with
  | ([], _) => none
  | ('0' :: _ :: _, _) => none
  | found => some found

/-- The fraction of a number, if one starts here: its digits. -/
def fraction? : List Char → Option (Option (List Char) × List Char)
  | '.' :: cs =>
    match digits cs with
    | ([], _) => none
    | (ds, rest) => some (some ds, rest)
  | cs => some (none, cs)

/-- The exponent digits after the optional sign. -/
def exponentDigits? (negative : Bool) (cs : List Char) : Option (Option Int × List Char) :=
  match digits cs with
  | ([], _) => none
  | (ds, rest) => (Text.decimal? ds).map fun n => (some (if negative then -(n : Int) else n), rest)

/-- The exponent of a number, if one starts here. -/
def exponent? : List Char → Option (Option Int × List Char)
  | 'e' :: cs => signed cs
  | 'E' :: cs => signed cs
  | cs => some (none, cs)
where
  /-- An optional sign and digits. -/
  signed : List Char → Option (Option Int × List Char)
    | '-' :: cs => exponentDigits? true cs
    | '+' :: cs => exponentDigits? false cs
    | cs => exponentDigits? false cs

/-- Reads a number after its sign, if it has one. -/
def unsignedNumber? (negative : Bool) (cs : List Char) : Option (Number × List Char) := do
  let (whole, cs) ← integerPart? cs
  let (fraction, cs) ← fraction? cs
  let (exponent, cs) ← exponent? cs
  some (⟨negative, whole, fraction, exponent⟩, cs)

/-- Reads a number: what it is, and what follows it. -/
def number? : List Char → Option (Number × List Char)
  | '-' :: cs => unsignedNumber? true cs
  | cs => unsignedNumber? false cs

end WireLayout.Json
