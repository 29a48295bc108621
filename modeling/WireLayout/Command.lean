import WireLayout.Codec.Decode
import WireLayout.Document.Declaration
import WireLayout.Document.Plan
import WireLayout.Document.Value
import WireLayout.Json.Printer

/-!
# Commands

The command line: what its arguments mean and what a command answers. Reading files and standard
input is a parameter, so that a command is a function of what it reads.
-/

namespace WireLayout

/-- What a buffer is decoded as. -/
inductive Target where
  /-- A struct. -/
  | struct (name : String)
  /-- The struct that the header of a group tells. -/
  | group (name : String)
  deriving DecidableEq

/-- Where a buffer comes from. -/
inductive BufferSource where
  /-- Hexadecimal digits. -/
  | hex (digits : String)
  /-- A file. -/
  | file (path : String)
  deriving DecidableEq

/-- What a command does with a schema. -/
inductive Action where
  /-- Lists everything that is wrong with it. -/
  | check
  /-- Prints the plans, or that of one struct. -/
  | plan (structName : Option String)
  /-- Prints the registered structs. -/
  | factory
  /-- Decodes a buffer. -/
  | decode (target : Target) (source : BufferSource)
  deriving DecidableEq

/-- A command. -/
structure Command where
  /-- The file with the options. -/
  config : Option String
  /-- The file with the schema, or `-` for standard input. -/
  schema : String
  /-- What is done. -/
  action : Action
  deriving DecidableEq

namespace Command

/-! ## Arguments -/

/-- The names of actions. -/
inductive ActionName where
  /-- See `Action.check`. -/
  | check
  /-- See `Action.plan`. -/
  | plan
  /-- See `Action.factory`. -/
  | factory
  /-- See `Action.decode`. -/
  | decode
  deriving DecidableEq

/-- The action of a word. -/
def ActionName.ofWord? : String → Option ActionName
  | "check" => some .check
  | "plan" => some .plan
  | "factory" => some .factory
  | "decode" => some .decode
  | _ => none

/-- The flags of an action that take a value, and whether the value is a path, which may not be
empty. -/
def ActionName.flags : ActionName → List (String × Bool)
  | .plan => [("config", true), ("struct", false)]
  | .decode => [("config", true), ("type", false), ("group", false), ("hex", false), ("raw", true)]
  | _ => [("config", true)]

/-- The arguments of one level: values given to flags, and words. -/
structure Arguments where
  /-- The values of flags. -/
  flags : List (String × String) := []
  /-- The words, in order. -/
  words : List String := []

namespace Arguments

/-- Gives a flag its value: the flag has to be known and may not have one yet, and a path may not be
empty. -/
def set? (known : List (String × Bool)) (a : Arguments) (flag value : String) : Option Arguments :=
  match known.lookup flag with
  | none => none
  | some isPath =>
    if (a.flags.lookup flag).isSome || (isPath && value.isEmpty) then none
    else some { a with flags := (flag, value) :: a.flags }

/-- Adds a word. -/
def push (a : Arguments) (w : String) : Arguments := { a with words := a.words ++ [w] }

/-- The value of a flag. -/
def value? (a : Arguments) (flag : String) : Option String := a.flags.lookup flag

end Arguments

/-- What one argument is by itself. -/
inductive Token where
  /-- A word, or the value of a flag. -/
  | word (text : String)
  /-- `--`: words only from here on. -/
  | rest
  /-- A flag that only asks for more messages. -/
  | verbose
  /-- A flag whose value follows. -/
  | flag (name : String)
  /-- A flag with its value. -/
  | assigned (name value : String)
  /-- A flag that no action knows. -/
  | unknown
  deriving DecidableEq

/-- A lone hyphen is a word; other arguments with a hyphen in front are flags. -/
def Token.ofArgument (arg : String) : Token :=
  match arg.toList with
  | ['-', '-'] => .rest
  | '-' :: '-' :: name =>
    if name = "verbose".toList then .verbose
    else
      match name.span (· != '=') with
      | (name, []) => .flag (String.ofList name)
      | (name, _ :: value) => .assigned (String.ofList name) (String.ofList value)
  | '-' :: c :: more => if (c :: more).all (· == 'v') then .verbose else .unknown
  | _ => .word arg

/-- Reads the arguments of one level. At the level above the actions (`nested` is false) the first
word ends the level; the result pairs it with what follows. -/
def readArguments (known : List (String × Bool)) (nested : Bool) (a : Arguments) :
    List String → Option (Arguments × List String)
  | [] => some (a, [])
  | [arg] =>
    match Token.ofArgument arg with
    | .word w => some (a.push w, [])
    | .rest => if nested then some (a, []) else none
    | .verbose => some (a, [])
    | .assigned name value => (a.set? known name value).map (·, [])
    | .flag _ | .unknown => none
  | arg :: next :: args =>
    match Token.ofArgument arg with
    | .word w =>
      if nested then readArguments known nested (a.push w) (next :: args)
      else some (a.push w, next :: args)
    | .rest => if nested then some ({ a with words := a.words ++ next :: args }, []) else none
    | .verbose => readArguments known nested a (next :: args)
    | .assigned name value =>
      match a.set? known name value with
      | some a => readArguments known nested a (next :: args)
      | none => none
    | .flag name =>
      match Token.ofArgument next with
      | .word value =>
        match a.set? known name value with
        | some a => readArguments known nested a args
        | none => none
      | _ => none
    | .unknown => none

/-- The action of a name with its arguments: a decoding needs exactly one target and one source. -/
def action? (name : ActionName) (a : Arguments) : Option Action :=
  match name with
  | .check => some .check
  | .plan => some (.plan (a.value? "struct"))
  | .factory => some .factory
  | .decode => do
    let target ← match a.value? "type", a.value? "group" with
      | some name, none => some (Target.struct name)
      | none, some name => some (Target.group name)
      | _, _ => none
    let source ← match a.value? "hex", a.value? "raw" with
      | some digits, none => some (BufferSource.hex digits)
      | none, some path => some (BufferSource.file path)
      | _, _ => none
    some (.decode target source)

/-- The command that arguments mean. A configuration named after the action wins over one named
before it. -/
def ofArguments? (args : List String) : Option Command := do
  let (outer, rest) ← readArguments [("config", true)] false {} args
  match outer.words with
  | [word] =>
    let name ← ActionName.ofWord? word
    let (inner, _) ← readArguments name.flags true {} rest
    match inner.words with
    | [schema] =>
      let action ← action? name inner
      some { config := inner.value? "config" <|> outer.value? "config", schema, action }
    | _ => none
  | _ => none

/-! ## Answers -/

/-- The exit code for arguments that mean no command. -/
def misuse : Nat := 2

/-- How a command is written. -/
def usage : String :=
  "usage: [--config FILE] [-v] check SCHEMA\n" ++
  "       [--config FILE] [-v] plan SCHEMA [--struct NAME]\n" ++
  "       [--config FILE] [-v] factory SCHEMA\n" ++
  "       [--config FILE] [-v] decode SCHEMA (--type NAME | --group NAME)\n" ++
  "                                          (--hex DIGITS | --raw FILE)"

/-- What a command may read. -/
structure Source (m : Type → Type) where
  /-- The bytes of a file, if it can be read. -/
  file : String → m (Option ByteArray)
  /-- The bytes of standard input, if it can be read. -/
  input : m (Option ByteArray)

/-- What a command answers. -/
structure Outcome where
  /-- The exit code. -/
  code : Nat
  /-- What it prints. -/
  output : String := ""
  /-- What it reports as an error. -/
  error : Option String := none
  deriving DecidableEq

/-- An answer that is a document. -/
def printed (code : Nat) (j : Json) : Outcome := { code, output := j.pretty ++ "\n" }

/-- An answer that is an error. -/
def failed (error : String) : Outcome := { code := 1, error := some error }

/-- The text that bytes encode in UTF-8. -/
def textOf (bytes : Option ByteArray) : Option String := bytes.bind String.fromUTF8?

/-- The buffer that digits denote: blanks around and between them do not matter, and `0x` may stand
in front. -/
def bufferOfDigits? (digits : String) : Option Bytes :=
  let cs := Text.trimChars digits.toList
  let cs := match cs with
    | '0' :: 'x' :: cs => cs
    | '0' :: 'X' :: cs => cs
    | cs => cs
  Text.hexBytes? (cs.filter fun c => !Text.isBlank c)

/-- The report of a check. -/
def checkReport (diagnostics : List String) (ok : Bool) : Outcome :=
  printed (if ok then 0 else 1)
    (.obj [("ok", .bool ok), ("diagnostics", Json.ofTexts diagnostics)])

/-- The error text of a rejected schema. -/
def rejection (e : CompileError) : String :=
  e.message ++ ":\n  " ++ String.intercalate "\n  " e.diagnostics

/-- Plans, with the options and a fingerprint of the schema they come from. -/
def planReport (options : Options) (fingerprint : String) (plans : List Plan) : Outcome :=
  printed 0 (.obj [("schema_blake3", .str fingerprint), ("options", options.toJson),
    ("plans", .arr (plans.map Plan.toJson))])

/-- The answer of a decoding. -/
def decodeReport (codec : Codec) (target : Target) (buffer : Bytes) : Outcome :=
  match target with
  | .struct name =>
    match codec.decode name buffer with
    | .ok r => printed 0 r.toJson
    | .error _ => failed s!"failed to decode as '{name}'"
  | .group name =>
    match codec.decodeAny name buffer with
    | .ok r => printed 0 r.toJson
    | .error _ => failed s!"failed to decode from group '{name}'"

variable {m : Type → Type} [Monad m]

/-- The options of a command, or the error. -/
def options (source : Source m) (path : Option String) : m (Except String Options) :=
  match path with
  | none => pure (.ok {})
  | some path => do
    match textOf (← source.file path) with
    | none => pure (.error s!"failed to read config {path}")
    | some text =>
      match Options.ofText? text with
      | some options => pure (.ok options)
      | none => pure (.error s!"invalid config {path}")

/-- The schema text of a command, or the error. -/
def schemaText (source : Source m) (path : String) : m (Except String String) := do
  if path = "-" then
    match textOf (← source.input) with
    | some text => pure (.ok text)
    | none => pure (.error "failed to read schema from stdin")
  else
    match textOf (← source.file path) with
    | some text => pure (.ok text)
    | none => pure (.error s!"failed to read schema {path}")

/-- The buffer of a decoding, or the error. -/
def buffer (source : Source m) : BufferSource → m (Except String Bytes)
  | .hex digits =>
    match bufferOfDigits? digits with
    | some bytes => pure (.ok bytes)
    | none => pure (.error "--hex is not valid hex")
  | .file path => do
    match ← source.file path with
    | some bytes => pure (.ok bytes.toList)
    | none => pure (.error s!"failed to read buffer {path}")

/-- The answer of an action on a schema that was read. -/
def act (source : Source m) (fingerprint : String → String) (options : Options) (text : String)
    (decls : List Declaration) : Action → m Outcome
  | .check =>
    match compile options decls with
    | .ok _ => pure (checkReport [] true)
    | .error e => pure (checkReport e.diagnostics false)
  | .plan structName =>
    match compile options decls with
    | .error e => pure (failed (rejection e))
    | .ok codec =>
      match structName with
      | none => pure (planReport options (fingerprint text) codec.plans)
      | some name =>
        match codec.plan? name with
        | some p => pure (planReport options (fingerprint text) [p])
        | none => pure (failed s!"struct '{name}' not declared")
  | .factory =>
    match compile options decls with
    | .error e => pure (failed (rejection e))
    | .ok codec => pure (printed 0 (.arr (codec.dispatch.entries.map DispatchEntry.toJson)))
  | .decode target bytes =>
    match compile options decls with
    | .error e => pure (failed (rejection e))
    | .ok codec => do
      match ← buffer source bytes with
      | .error e => pure (failed e)
      | .ok bytes => pure (decodeReport codec target bytes)

/-- The answer of a command: the options are read first, then the schema, then the buffer. -/
def answer (source : Source m) (fingerprint : String → String) (c : Command) : m Outcome := do
  match ← options source c.config with
  | .error e => pure (failed e)
  | .ok options =>
    match ← schemaText source c.schema with
    | .error e => pure (failed e)
    | .ok text =>
      match Declaration.listOfText? text with
      | none => pure (failed "schema is not a valid node list")
      | some decls => act source fingerprint options text decls c.action

/-- The answer to arguments, or that they are misused. -/
def run (source : Source m) (fingerprint : String → String) (args : List String) : m Outcome :=
  match ofArguments? args with
  | some c => c.answer source fingerprint
  | none => pure { code := misuse }

end Command

end WireLayout
