import WireLayout.Schema.FixedSize
import WireLayout.Schema.Member

/-!
# Dependencies between structs

The rules that a schema has to obey as a whole: headers exist and have the members that are read
from them, the members of a union have fixed sizes, and no struct embeds itself. A plain or inline
field embeds its struct; the elements of arrays do not count.
-/

namespace WireLayout

/-- Why a reference between structs does not hold. -/
inductive DependencyFault where
  /-- The header is no struct. -/
  | headerNotDeclared (header : String)
  /-- The header has no such member for the discriminator. -/
  | typeFieldNotDeclared (header typeField : String)
  /-- The header's discriminator is no enum. -/
  | typeFieldNotEnum (header typeField typeName : String)
  /-- The header has no such member for the version. -/
  | versionFieldNotDeclared (header versionField : String)
  /-- A member of a union has no fixed size, or is no plain or inline field. -/
  | unionMemberNotFixed
  /-- The struct embeds itself; `chain` leads from the field's type back to it. -/
  | recursiveLayout (chain : List String)
  deriving DecidableEq

/-- A fault with the place of the reference. -/
structure DependencyError where
  /-- The struct that holds the reference. -/
  structName : String
  /-- Its field, or `struct_type` for its discriminator entry. -/
  field : String
  /-- The fault. -/
  fault : DependencyFault
  deriving DecidableEq

namespace DependencyFault

/-- The code of the violated rule. -/
def code : DependencyFault → String
  | .headerNotDeclared _ => "HeaderNotDeclared"
  | .typeFieldNotDeclared .. => "TypeFieldNotDeclared"
  | .typeFieldNotEnum .. => "TypeFieldNotEnum"
  | .versionFieldNotDeclared .. => "VersionFieldNotDeclared"
  | .unionMemberNotFixed => "UnionMemberNotFixedSize"
  | .recursiveLayout _ => "RecursiveLayout"

end DependencyFault

namespace DependencyError

/-- A sentence about a header, with the place that refers to it. -/
def withReference (owner field sentence : String) : String :=
  s!"{sentence} (referenced by '{field}' in struct '{owner}')"

/-- The report's sentence. -/
def message (e : DependencyError) : String :=
  let owner := e.structName
  let field := e.field
  match e.fault with
  | .headerNotDeclared header => withReference owner field s!"header '{header}' not declared"
  | .typeFieldNotDeclared header member =>
    withReference owner field s!"field '{member}' not declared in header '{header}'"
  | .typeFieldNotEnum header member ty =>
    withReference owner field
      s!"field '{member}' in header '{header}' has type '{ty}', not an enum"
  | .versionFieldNotDeclared header member =>
    withReference owner field s!"field '{member}' not declared in header '{header}'"
  | .unionMemberNotFixed =>
    s!"union member '{field}' in struct '{owner}' must be a fixed-size plain or inline field"
  | .recursiveLayout chain =>
    let path := String.intercalate " -> " (owner :: chain)
    s!"struct '{owner}' contains itself through '{field}' ({path})"

/-- The report on one line. -/
def display (e : DependencyError) : String := e.fault.code ++ ": " ++ e.message

end DependencyError

namespace Schema

variable (schema : Schema)

/-! ## Headers -/

/-- What is wrong with a header reference, if anything is. -/
def headerFault? (b : HeaderBinding) : Option DependencyFault :=
  if schema.hasStruct b.header then
    match schema.member? b.header b.typeField with
    | none => some (.typeFieldNotDeclared b.header b.typeField)
    | some f =>
      if schema.types.isEnum f.typeName then
        match b.versionField with
        | none => none
        | some version =>
          if (schema.member? b.header version).isSome then none
          else some (.versionFieldNotDeclared b.header version)
      else some (.typeFieldNotEnum b.header b.typeField f.typeName)
  else some (.headerNotDeclared b.header)

/-- The faults of a struct's header references. -/
def headerErrors (s : Struct) : List DependencyError :=
  s.headerReferences.filterMap fun r =>
    (schema.headerFault? r.2).map fun fault => { structName := s.name, field := r.1, fault }

/-! ## Unions -/

/-- Whether a field may be a member of a union. -/
def fitsUnion (f : Field) : Bool := f.isStored && (schema.fieldSize? f).isSome

/-- The faults of a struct's unions. -/
def unionErrors (s : Struct) : List DependencyError :=
  (s.unions.flatMap ConditionGroup.members).filterMap fun name =>
    (s.field? name).bind fun f =>
      if schema.fitsUnion f then none
      else some { structName := s.name, field := name, fault := .unionMemberNotFixed }

/-! ## Embedding -/

/-- Whether a field embeds a struct. -/
def embeds (f : Field) : Bool := f.isStored && schema.hasStruct f.typeName

/-- The fields of a struct that embed structs. -/
def embedded (s : Struct) : List Field := s.fields.filter schema.embeds

/-- The first of the fields from whose type a search finds a chain, with the chain. The search takes
the structs already seen and adds to them. -/
def firstChain (search : List String → String → Option (List String) × List String) :
    List Field → List String → Option (Field × List String) × List String
  | [], seen => (none, seen)
  | f :: rest, seen =>
    match search seen f.typeName with
    | (some chain, seen) => (some (f, chain), seen)
    | (none, seen) => firstChain search rest seen

/-- Searches a chain of embedded structs from `name` to `target`, depth first and through no struct
twice. At most `depth` structs are entered, which suffices when it is the number of structs not
seen. -/
def chainTo (target : String) :
    Nat → List String → String → Option (List String) × List String
  | depth, seen, name =>
    if name = target then (some [name], seen)
    else if seen.contains name then (none, seen)
    else
      match depth with
      | 0 => (none, seen)
      | depth + 1 =>
        match schema.struct? name with
        | none => (none, name :: seen)
        | some s =>
          let (found, seen) := firstChain (chainTo target depth) (schema.embedded s) (name :: seen)
          (found.map fun p => name :: p.2, seen)

/-- The fault of a struct that embeds itself, at the first field that leads back to it. -/
def recursionError? (s : Struct) : Option DependencyError :=
  let search := schema.chainTo s.name schema.structs.length
  (firstChain search (schema.embedded s) []).1.map fun p =>
    { structName := s.name, field := p.1.name, fault := .recursiveLayout p.2 }

/-- Everything that is wrong between the structs of a schema. -/
def dependencyErrors : List DependencyError :=
  schema.structs.flatMap fun s =>
    schema.headerErrors s ++ schema.unionErrors s ++ (schema.recursionError? s).toList

end Schema

end WireLayout
