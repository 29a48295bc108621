import WireLayout.Declaration
import WireLayout.Ordered

/-!
# The type table

What every type name of a schema means. A name has one meaning: an enum, an alias and a struct may
not share it, and none of them may take the name of a built-in integer.
-/

namespace WireLayout

/-- A member of an enum. -/
structure EnumMember where
  /-- The member's name. -/
  name : String
  /-- The member's value. -/
  value : Int
  /-- Documentation. -/
  comment : Option String
  deriving DecidableEq

/-- An enum: an integer type with names for some of its values. -/
structure EnumDef where
  /-- The enum's name. -/
  name : String
  /-- The integers it is made of. -/
  intType : IntType
  /-- Its members in order. -/
  members : List EnumMember
  /-- Documentation. -/
  comment : Option String
  deriving DecidableEq

/-- The value of the member of the given name. -/
def EnumDef.valueOf? (d : EnumDef) (member : String) : Option Int :=
  (d.members.find? fun m => m.name == member).map (·.value)

/-- The name of the first member with the given value. -/
def EnumDef.memberOf? (d : EnumDef) (value : Int) : Option String :=
  (d.members.find? fun m => m.value == value).map (·.name)

/-- What an alias stands for. -/
inductive AliasLayout where
  /-- An integer. -/
  | int (intType : IntType)
  /-- A run of bytes, with a hint how to print it. -/
  | bytes (size : Nat) (printHint : Option String)
  deriving DecidableEq

/-- An alias. -/
structure AliasDef where
  /-- The alias's name. -/
  name : String
  /-- What it stands for. -/
  layout : AliasLayout
  /-- Documentation. -/
  comment : Option String
  deriving DecidableEq

/-- How a value that is no struct lies on the wire. -/
inductive WireForm where
  /-- A little-endian integer. -/
  | int (intType : IntType)
  /-- A run of bytes of fixed length. -/
  | bytes (len : Nat)
  deriving DecidableEq

/-- The number of bytes it takes. -/
def WireForm.width : WireForm → Nat
  | .int t => t.bytes
  | .bytes len => len

/-- The wire form of an alias. -/
def AliasLayout.form : AliasLayout → WireForm
  | .int t => .int t
  | .bytes size _ => .bytes size

/-- A definition under a name. -/
inductive TypeDef where
  /-- An enum. -/
  | enum (d : EnumDef)
  /-- An alias. -/
  | alias (d : AliasDef)
  /-- A struct; its fields are built later. -/
  | struct (name : String)
  deriving DecidableEq

/-- The defined name. -/
def TypeDef.name : TypeDef → String
  | .enum d => d.name
  | .alias d => d.name
  | .struct name => name

/-- Why a definition is refused. -/
inductive DefinitionError where
  /-- The name is taken. -/
  | duplicateDefinition (name : String)
  /-- An enum has two members of one name. -/
  | duplicateMember (enumName member : String)
  /-- A member's value is outside the enum's integers. -/
  | memberOutOfRange (enumName member : String) (value : Int)
  /-- A member's value is no integer; `literal` is the value as written. -/
  | memberNotInteger (enumName member literal : String)
  /-- No integer type has the width. -/
  | invalidWidth (name : String) (width : Nat)
  /-- An alias has both a width and an array size, or neither. -/
  | invalidAliasLayout (name : String)
  deriving DecidableEq

/-- The reason in words. -/
def DefinitionError.message : DefinitionError → String
  | .duplicateDefinition name => s!"duplicate definition of `{name}`"
  | .duplicateMember enumName member => s!"enum `{enumName}` declares member `{member}` twice"
  | .memberOutOfRange enumName member value =>
    s!"enum `{enumName}` member `{member}` value {value} does not fit its width"
  | .memberNotInteger enumName member literal =>
    s!"enum `{enumName}` member `{member}` has non-integer value `{literal}`"
  | .invalidWidth name width => s!"`{name}` has invalid integer width {width}"
  | .invalidAliasLayout name =>
    s!"alias `{name}` must declare exactly one of `width` or `array_size`"

/-- The first fault of an enum's members: a name that occurred before, then a value out of range. -/
def EnumDef.firstFault? (enumName : String) (intType : IntType) (seen : List String) :
    List EnumMember → Option DefinitionError
  | [] => none
  | m :: rest =>
    if seen.contains m.name then some (.duplicateMember enumName m.name)
    else if intType.contains m.value then firstFault? enumName intType (m.name :: seen) rest
    else some (.memberOutOfRange enumName m.name m.value)

/-- The first fault of a definition, the name aside. -/
def TypeDef.fault? : TypeDef → Option DefinitionError
  | .enum d => EnumDef.firstFault? d.name d.intType [] d.members
  | _ => none

/-- What a type name means. -/
inductive TypeMeaning where
  /-- A built-in integer. -/
  | builtin (intType : IntType)
  /-- An enum. -/
  | enum (d : EnumDef)
  /-- An alias. -/
  | alias (d : AliasDef)
  /-- A struct. -/
  | struct
  deriving DecidableEq

/-- The meaning that a definition gives to its name. -/
def TypeDef.meaning : TypeDef → TypeMeaning
  | .enum d => .enum d
  | .alias d => .alias d
  | .struct _ => .struct

/-- The definitions of a schema, in the order they were made. -/
structure TypeTable where
  /-- The definitions. -/
  defs : List TypeDef := []

namespace TypeTable

/-- The definition of a name. -/
def find? (types : TypeTable) (name : String) : Option TypeDef :=
  types.defs.find? fun d => d.name == name

/-- What a name means; built-in integers come first. -/
def resolve? (types : TypeTable) (name : String) : Option TypeMeaning :=
  match IntType.ofName? name with
  | some t => some (.builtin t)
  | none => (types.find? name).map TypeDef.meaning

/-- Whether a name has a meaning. -/
def isTaken (types : TypeTable) (name : String) : Bool := (types.resolve? name).isSome

/-- Adds a definition, if its name is free and it has no fault. -/
def register (types : TypeTable) (d : TypeDef) : Except DefinitionError TypeTable :=
  if types.isTaken d.name then .error (.duplicateDefinition d.name)
  else
    match d.fault? with
    | some e => .error e
    | none => .ok { defs := types.defs ++ [d] }

/-- The enum of a name. -/
def enum? (types : TypeTable) (name : String) : Option EnumDef :=
  match types.find? name with
  | some (.enum d) => some d
  | _ => none

/-- Whether a name is a struct's. -/
def isStruct (types : TypeTable) (name : String) : Bool :=
  match types.find? name with
  | some (.struct _) => true
  | _ => false

/-- How values of a type that is no struct lie on the wire. -/
def form? (types : TypeTable) (name : String) : Option WireForm :=
  match types.resolve? name with
  | some (.builtin t) => some (.int t)
  | some (.enum d) => some (.int d.intType)
  | some (.alias d) => some d.layout.form
  | _ => none

/-- The integer type behind a built-in, an enum or an integer alias. -/
def intType? (types : TypeTable) (name : String) : Option IntType :=
  match types.form? name with
  | some (.int t) => some t
  | _ => none

/-- Whether a type can hold a length: a built-in integer or an integer alias, but no enum. -/
def isNumber (types : TypeTable) (name : String) : Bool :=
  match types.resolve? name with
  | some (.builtin _) => true
  | some (.alias d) => match d.layout with
    | .int _ => true
    | .bytes .. => false
  | _ => false

/-- Whether a type is an enum. -/
def isEnum (types : TypeTable) (name : String) : Bool :=
  match types.resolve? name with
  | some (.enum _) => true
  | _ => false

/-- The enums, ordered by name. -/
def enums (types : TypeTable) : List EnumDef :=
  (Ordered.ofList Ordered.byName (types.defs.filterMap fun
    | .enum d => some (d.name, d)
    | _ => none)).map (·.2)

/-- The aliases, ordered by name. -/
def aliases (types : TypeTable) : List AliasDef :=
  (Ordered.ofList Ordered.byName (types.defs.filterMap fun
    | .alias d => some (d.name, d)
    | _ => none)).map (·.2)

end TypeTable

/-! ## Definitions from declarations -/

/-- A member with its value read. -/
def MemberDecl.define (enumName : String) (m : MemberDecl) : Except DefinitionError EnumMember :=
  match m.value.integer? with
  | some value => .ok { name := m.name, value, comment := m.comment }
  | none => .error (.memberNotInteger enumName m.name m.value.literal)

/-- The enum that a declaration defines. -/
def EnumDecl.define (d : EnumDecl) : Except DefinitionError EnumDef :=
  match IntType.ofLayout? d.width d.signedness with
  | none => .error (.invalidWidth d.name d.width)
  | some intType => do
    let members ← d.members.mapM (MemberDecl.define d.name)
    .ok { name := d.name, intType, members, comment := d.comment }

/-- The alias that a declaration defines. -/
def AliasDecl.define (d : AliasDecl) : Except DefinitionError AliasDef :=
  match d.width, d.arraySize with
  | some width, none =>
    match IntType.ofLayout? width (d.signedness.getD .unsigned) with
    | some t => .ok { name := d.name, layout := .int t, comment := d.comment }
    | none => .error (.invalidWidth d.name width)
  | none, some size =>
    .ok { name := d.name, layout := .bytes size d.printHint, comment := d.comment }
  | _, _ => .error (.invalidAliasLayout d.name)

/-- The definition that a declaration makes. -/
def Declaration.define : Declaration → Except DefinitionError TypeDef
  | .enum d => d.define.map .enum
  | .alias d => d.define.map .alias
  | .struct d => .ok (.struct d.name)

/-- Makes the definitions of all declarations. A refused one is skipped and its name stays free, so
that every fault is found; the faults come with the table of what was accepted. -/
def TypeTable.declareFrom (types : TypeTable) : List Declaration → List DefinitionError × TypeTable
  | [] => ([], types)
  | d :: rest =>
    match d.define.bind types.register with
    | .ok types => types.declareFrom rest
    | .error e =>
      let (errors, types) := types.declareFrom rest
      (e :: errors, types)

/-- The type table of a schema, or everything that is wrong with its definitions. -/
def TypeTable.declare (decls : List Declaration) : Except (List DefinitionError) TypeTable :=
  match TypeTable.declareFrom {} decls with
  | ([], types) => .ok types
  | (errors, _) => .error errors

end WireLayout
