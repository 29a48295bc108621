import WireLayout.Json.Basic
import WireLayout.Text.Hex

/-!
# Writing JSON text

Two layouts of a document: on one line without blanks, and over lines with an indent of two blanks a
level. Strings escape quotes, backslashes and the characters below U+0020, and nothing else.
-/

namespace WireLayout.Json

/-- The text of one character inside a string. -/
def escapeChar (c : Char) : List Char :=
  match c with
  | '"' => ['\\', '"']
  | '\\' => ['\\', '\\']
  | '\n' => ['\\', 'n']
  | '\r' => ['\\', 'r']
  | '\t' => ['\\', 't']
  | '\x08' => ['\\', 'b']
  | '\x0c' => ['\\', 'f']
  | c =>
    if c.toNat < 0x20 then
      ['\\', 'u', '0', '0', Text.hexChar (c.toNat / 16), Text.hexChar (c.toNat % 16)]
    else [c]

/-- A string in quotes. -/
def quote (s : String) : String := "\"" ++ String.ofList (s.toList.flatMap escapeChar) ++ "\""

/-- The text of a value that holds no others. -/
def scalarText : Json → String
  | .bool true => "true"
  | .bool false => "false"
  | .int n => toString n
  | .str s => quote s
  | _ => "null"

mutual

/-- The pieces of the document on one line. -/
def compactPieces : Json → List String
  | .arr js => "[" :: compactItems js ++ ["]"]
  | .obj ms => "\x7b" :: compactMembers ms ++ ["\x7d"]
  | j => [scalarText j]

/-- The pieces of an array's items, with commas between them. -/
def compactItems : List Json → List String
  | [] => []
  | [j] => compactPieces j
  | j :: js => compactPieces j ++ "," :: compactItems js

/-- The pieces of an object's members, with commas between them. -/
def compactMembers : List (String × Json) → List String
  | [] => []
  | [(k, j)] => quote k :: ":" :: compactPieces j
  | (k, j) :: ms => quote k :: ":" :: compactPieces j ++ "," :: compactMembers ms

end

/-- The document on one line. -/
def compact (j : Json) : String := String.join (compactPieces j)

/-- A line break and the indent of the given level. -/
def newline (level : Nat) : String := "\n" ++ String.ofList (List.replicate (2 * level) ' ')

mutual

/-- The pieces of the document over lines, its closing bracket at the given level. -/
def prettyPieces (level : Nat) : Json → List String
  | .arr [] => ["[]"]
  | .arr js => "[" :: prettyItems (level + 1) js ++ [newline level, "]"]
  | .obj [] => ["\x7b\x7d"]
  | .obj ms => "\x7b" :: prettyMembers (level + 1) ms ++ [newline level, "\x7d"]
  | j => [scalarText j]

/-- The pieces of an array's items, each on lines of its own. -/
def prettyItems (level : Nat) : List Json → List String
  | [] => []
  | [j] => newline level :: prettyPieces level j
  | j :: js => newline level :: prettyPieces level j ++ "," :: prettyItems level js

/-- The pieces of an object's members, each on lines of its own. -/
def prettyMembers (level : Nat) : List (String × Json) → List String
  | [] => []
  | [(k, j)] => newline level :: quote k :: ": " :: prettyPieces level j
  | (k, j) :: ms =>
    newline level :: quote k :: ": " :: prettyPieces level j ++ "," :: prettyMembers level ms

end

/-- The document over lines. -/
def pretty (j : Json) : String := String.join (prettyPieces 0 j)

end WireLayout.Json
