import WireLayout.Text.Blank

/-!
# Integer numerals

The integers that a schema may write as text. A numeral is either an optional minus sign and decimal
digits, or `0x` (either case) followed by an optional sign and hexadecimal digits; digits are ASCII.
It has to lie in the range of a signed 128-bit integer. Blanks around it are ignored.
-/

namespace WireLayout.Text

/-- The value of one hexadecimal digit of either case. -/
def hexDigit? (c : Char) : Option Nat :=
  if '0' ≤ c ∧ c ≤ '9' then some (c.toNat - '0'.toNat)
  else if 'a' ≤ c ∧ c ≤ 'f' then some (c.toNat - 'a'.toNat + 10)
  else if 'A' ≤ c ∧ c ≤ 'F' then some (c.toNat - 'A'.toNat + 10)
  else none

/-- The value of one decimal digit. -/
def decimalDigit? (c : Char) : Option Nat :=
  if '0' ≤ c ∧ c ≤ '9' then some (c.toNat - '0'.toNat) else none

/-- The number that digits in the given base continue from `acc`; `none` at a foreign character. -/
def digitsFrom (base : Nat) (digit? : Char → Option Nat) (acc : Nat) : List Char → Option Nat
  | [] => some acc
  | c :: cs =>
    match digit? c with
    | some d => digitsFrom base digit? (acc * base + d) cs
    | none => none

/-- The number that one or more decimal digits denote. -/
def decimal? (cs : List Char) : Option Nat :=
  if cs.isEmpty then none else digitsFrom 10 decimalDigit? 0 cs

/-- The number that one or more hexadecimal digits denote. -/
def hexadecimal? (cs : List Char) : Option Nat :=
  if cs.isEmpty then none else digitsFrom 16 hexDigit? 0 cs

/-- How many negative integers a numeral may denote. -/
def integerHalf : Nat := Nat.pow 2 127

/-- The least integer that a numeral may denote. -/
def minInteger : Int := -(integerHalf : Int)

/-- The greatest integer that a numeral may denote. -/
def maxInteger : Int := (integerHalf : Int) - 1

/-- Keeps an integer that a numeral may denote. -/
def inRange? (n : Int) : Option Int :=
  if minInteger ≤ n ∧ n ≤ maxInteger then some n else none

/-- The hexadecimal part after `0x`: an optional sign and digits. -/
def signedHexadecimal? : List Char → Option Int
  | '-' :: cs => (hexadecimal? cs).map fun n => -(n : Int)
  | '+' :: cs => (hexadecimal? cs).map Int.ofNat
  | cs => (hexadecimal? cs).map Int.ofNat

/-- The integer a numeral denotes, its range aside. -/
def numeral? : List Char → Option Int
  | '0' :: 'x' :: cs => signedHexadecimal? cs
  | '0' :: 'X' :: cs => signedHexadecimal? cs
  | '-' :: cs => (decimal? cs).map fun n => -(n : Int)
  | cs => (decimal? cs).map Int.ofNat

/-- The integer that a text denotes, if it is a numeral once its outer blanks are dropped. -/
def integer? (s : String) : Option Int := (numeral? (trimChars s.toList)).bind inRange?

end WireLayout.Text
