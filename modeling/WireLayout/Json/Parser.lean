import WireLayout.Json.Number
import WireLayout.Text.Numeral

/-!
# Reading JSON text

A strict reader of RFC 8259: no comments, no trailing commas, no leading zeros, nothing but blanks
after the value. The recursion into arrays and objects and the loops over their items spend a budget
of the text's length, which they cannot exhaust because every level and every item takes a
character. So arrays and objects may nest to any depth.
-/

namespace WireLayout.Json

/-- The four blanks of JSON. -/
def isSpace (c : Char) : Bool := c == ' ' || c == '\n' || c == '\t' || c == '\r'

/-- Drops the blanks in front. -/
def skipSpace (cs : List Char) : List Char := cs.dropWhile isSpace

/-- The value of four hexadecimal digits. -/
def hex4? (a b c d : Char) : Option Nat :=
  match Text.hexDigit? a, Text.hexDigit? b, Text.hexDigit? c, Text.hexDigit? d with
  | some w, some x, some y, some z => some (((w * 16 + x) * 16 + y) * 16 + z)
  | _, _, _, _ => none

/-- The character that a one-letter escape denotes. -/
def shortEscape? : Char → Option Char
  | '"' => some '"'
  | '\\' => some '\\'
  | '/' => some '/'
  | 'b' => some '\x08'
  | 'f' => some '\x0c'
  | 'n' => some '\n'
  | 'r' => some '\r'
  | 't' => some '\t'
  | _ => none

/-- Whether a code unit is the first half of a surrogate pair. -/
def isHighSurrogate (n : Nat) : Bool := 0xD800 ≤ n && n ≤ 0xDBFF

/-- Whether a code unit is the second half of a surrogate pair. -/
def isLowSurrogate (n : Nat) : Bool := 0xDC00 ≤ n && n ≤ 0xDFFF

/-- The code point of a surrogate pair. -/
def pairCodePoint (high low : Nat) : Nat := 0x10000 + (high - 0xD800) * 0x400 + (low - 0xDC00)

/-- What a string holds so far once its next part is no second half of a pair: nothing, if a first
half is waiting for one. -/
def settled (acc : Option (List Char)) (high : Option Nat) : Option (List Char) :=
  if high.isSome then none else acc

/-- Reads a string after its opening quote. `acc` holds the characters so far, last first, or `none`
once an unpaired surrogate was met; `high` is the first half of a pair that was just read. The
result pairs the text, if there is one, with what follows the closing quote. -/
def stringTail (acc : Option (List Char)) (high : Option Nat) :
    List Char → Option (Option String × List Char)
  | [] => none
  | '"' :: cs => some ((settled acc high).map fun chars => String.ofList chars.reverse, cs)
  | '\\' :: 'u' :: a :: b :: c :: d :: cs =>
    match hex4? a b c d with
    | none => none
    | some n =>
      if isHighSurrogate n then stringTail (settled acc high) (some n) cs
      else if isLowSurrogate n then
        stringTail (high.bind fun h => acc.map (Char.ofNat (pairCodePoint h n) :: ·)) none cs
      else stringTail ((settled acc high).map (Char.ofNat n :: ·)) none cs
  | '\\' :: e :: cs =>
    match shortEscape? e with
    | some c => stringTail ((settled acc high).map (c :: ·)) none cs
    | none => none
  | c :: cs => if c.toNat < 0x20 then none else stringTail ((settled acc high).map (c :: ·)) none cs

/-- Reads the items of an array from the first one to the closing bracket. -/
def items (value? : List Char → Option (Json × List Char)) :
    Nat → List Char → Option (List Json × List Char)
  | 0, _ => none
  | budget + 1, cs =>
    match value? (skipSpace cs) with
    | none => none
    | some (j, cs) =>
      match skipSpace cs with
      | ']' :: cs => some ([j], cs)
      | ',' :: cs =>
        match items value? budget cs with
        | some (js, cs) => some (j :: js, cs)
        | none => none
      | _ => none

/-- Reads the members of an object from the first one to the closing brace. A key without a value is
kept as `none`. -/
def members (value? : List Char → Option (Json × List Char)) :
    Nat → List Char → Option (List (Option String × Json) × List Char)
  | 0, _ => none
  | budget + 1, cs =>
    match skipSpace cs with
    | '"' :: cs =>
      match stringTail (some []) none cs with
      | none => none
      | some (key, cs) =>
        match skipSpace cs with
        | ':' :: cs =>
          match value? (skipSpace cs) with
          | none => none
          | some (j, cs) =>
            match skipSpace cs with
            | '\x7d' :: cs => some ([(key, j)], cs)
            | ',' :: cs =>
              match members value? budget cs with
              | some (ms, cs) => some ((key, j) :: ms, cs)
              | none => none
            | _ => none
        | _ => none
    | _ => none

/-- An object of the members read: it has no value if one of its keys has none. -/
def ofMembers (ms : List (Option String × Json)) : Json :=
  match ms.mapM fun m => m.1.map fun key => (key, m.2) with
  | some members => .obj members
  | none => .unreadable

/-- Reads one value that starts at the first character. -/
def value? : Nat → List Char → Option (Json × List Char)
  | budget, cs =>
    match cs with
    | 'n' :: 'u' :: 'l' :: 'l' :: cs => some (.null, cs)
    | 't' :: 'r' :: 'u' :: 'e' :: cs => some (.bool true, cs)
    | 'f' :: 'a' :: 'l' :: 's' :: 'e' :: cs => some (.bool false, cs)
    | '"' :: cs =>
      match stringTail (some []) none cs with
      | some (some s, cs) => some (.str s, cs)
      | some (none, cs) => some (.unreadable, cs)
      | none => none
    | '[' :: cs =>
      match budget with
      | 0 => none
      | budget + 1 =>
        match skipSpace cs with
        | ']' :: cs => some (.arr [], cs)
        | _ =>
          match items (value? budget) budget cs with
          | some (js, cs) => some (.arr js, cs)
          | none => none
    | '\x7b' :: cs =>
      match budget with
      | 0 => none
      | budget + 1 =>
        match skipSpace cs with
        | '\x7d' :: cs => some (.obj [], cs)
        | _ =>
          match members (value? budget) budget cs with
          | some (ms, cs) => some (ofMembers ms, cs)
          | none => none
    | cs => (number? cs).map fun (n, rest) => (n.toJson, rest)

/-- The value that a JSON text denotes; `none` if the text is no JSON. -/
def parse? (text : String) : Option Json :=
  let cs := text.toList
  match value? cs.length (skipSpace cs) with
  | some (j, rest) => if (skipSpace rest).isEmpty then some j else none
  | none => none

end WireLayout.Json
