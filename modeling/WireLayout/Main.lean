import WireLayout.Blake3
import WireLayout.Command

/-!
# The command-line program

Connects commands with files, standard input and the hash function.
-/

namespace WireLayout.Program

/-- The bytes that an action reads, or nothing if it fails. -/
def readBytes (action : IO ByteArray) : IO (Option ByteArray) :=
  try some <$> action catch _ => pure none

/-- Files and standard input. -/
def systemSource : Command.Source IO :=
  { file := fun path => readBytes (IO.FS.readBinFile path)
    input := readBytes do (← IO.getStdin).readBinToEnd }

/-- The digits of the hash of a text. -/
def fingerprint (text : String) : String := Text.hexEncode (Blake3.hash text.toUTF8.toList)

/-- Prints an outcome, reports its error, and gives its code. -/
def finish (outcome : Command.Outcome) : IO UInt32 := do
  IO.print outcome.output
  if outcome.code = Command.misuse then IO.eprintln Command.usage
  match outcome.error with
  | some e => IO.eprintln s!"Error: {e}"
  | none => pure ()
  return UInt32.ofNat outcome.code

/-- Runs the command that arguments mean. -/
def run (args : List String) : IO UInt32 := do
  finish (← Command.run systemSource fingerprint args)

end WireLayout.Program

/-- The program. -/
def main (args : List String) : IO UInt32 := WireLayout.Program.run args
