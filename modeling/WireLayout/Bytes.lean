/-!
# Bytes

Runs of bytes and the little-endian reading of them as natural numbers.
-/

namespace WireLayout

/-- A run of bytes. -/
abbrev Bytes := List UInt8

namespace Bytes

/-- The low `width` bytes of a number, least significant first. -/
def ofNat : Nat → Nat → Bytes
  | 0, _ => []
  | width + 1, n => UInt8.ofNat n :: ofNat width (n / 256)

/-- The number that bytes denote, least significant first. -/
def toNat : Bytes → Nat
  | [] => 0
  | b :: bs => b.toNat + 256 * toNat bs

/-- The first `len` bytes and those after them, if there are so many. -/
def split? : Nat → Bytes → Option (Bytes × Bytes)
  | 0, bs => some ([], bs)
  | _ + 1, [] => none
  | len + 1, b :: bs =>
    match split? len bs with
    | some (front, back) => some (b :: front, back)
    | none => none

/-- How many runs of so many bytes there are. -/
def span (width : Nat) : Nat := Nat.pow 256 width

/-- A run of zero bytes. -/
def zeros (count : Nat) : Bytes := List.replicate count 0

end Bytes

/-- One more than the greatest length a buffer can have: lengths and sizes are 64-bit numbers. -/
def sizeLimit : Nat := Nat.pow 2 64

/-- An integer as a length, if it is one. -/
def asSize? (v : Int) : Option Nat := if 0 ≤ v ∧ v < sizeLimit then some v.toNat else none

end WireLayout
