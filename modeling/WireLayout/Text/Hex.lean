import WireLayout.Text.Numeral

/-!
# Hexadecimal text of bytes

Two digits a byte, the high digit first. Writing uses lower case, reading takes either case.
-/

namespace WireLayout.Text

/-- The lower-case digit of a number below sixteen. -/
def hexChar (n : Nat) : Char :=
  if n < 10 then Char.ofNat ('0'.toNat + n) else Char.ofNat ('a'.toNat + (n - 10))

/-- The digits of a run of bytes. -/
def hexChars : List UInt8 → List Char
  | [] => []
  | b :: bs => hexChar (b.toNat / 16) :: hexChar (b.toNat % 16) :: hexChars bs

/-- The text of a run of bytes. -/
def hexEncode (bytes : List UInt8) : String := String.ofList (hexChars bytes)

/-- The bytes that pairs of digits denote; a lone last digit or a foreign character is refused. -/
def hexBytes? : List Char → Option (List UInt8)
  | [] => some []
  | [_] => none
  | h :: l :: cs =>
    match hexDigit? h, hexDigit? l, hexBytes? cs with
    | some a, some b, some bytes => some (UInt8.ofNat (16 * a + b) :: bytes)
    | _, _, _ => none

/-- The bytes that a hexadecimal text denotes. -/
def hexDecode? (s : String) : Option (List UInt8) := hexBytes? s.toList

end WireLayout.Text
