import WireLayout.Schema.Member

/-!
# Dispatch

Which struct a discriminator stands for. A struct that has an identity is registered under its
group, version and discriminator; no two may share these. A header is bound to a group by the first
struct or array that names one for it, structs coming first.
-/

namespace WireLayout

/-- A struct registered in its group. -/
structure Registration where
  /-- The group and discriminator. -/
  identity : Identity
  /-- The version; 0 if the struct has none. -/
  version : Nat
  /-- The struct. -/
  structName : String
  deriving DecidableEq

namespace Registration

/-- Whether this is the registration of a discriminator. -/
def isAt (r : Registration) (group : String) (version : Nat) (id : Int) : Bool :=
  r.identity.group == group && r.version == version && r.identity.value == id

/-- The order of groups, versions and discriminators. -/
def before (a b : String × Nat × Int) : Bool :=
  a.1 < b.1 || (a.1 == b.1 && (a.2.1 < b.2.1 || (a.2.1 == b.2.1 && a.2.2 < b.2.2)))

end Registration

/-- A registration for listing. -/
structure DispatchEntry where
  /-- The group. -/
  group : String
  /-- The version. -/
  version : Nat
  /-- The discriminator. -/
  id : Int
  /-- The discriminator's name. -/
  member : Option String
  /-- The struct. -/
  structName : String
  deriving DecidableEq

/-- Two structs claim one group, version and discriminator. -/
structure DispatchError where
  /-- The group. -/
  group : String
  /-- The version. -/
  version : Nat
  /-- The discriminator. -/
  id : Int
  /-- The struct that was registered. -/
  holder : String
  /-- The struct that was refused. -/
  duplicate : String
  deriving DecidableEq

/-- The clash in words. -/
def DispatchError.message (e : DispatchError) : String :=
  let group := e.group
  let version := e.version
  let id := e.id
  let holder := e.holder
  let duplicate := e.duplicate
  s!"duplicate discriminator ({group}, version {version}, {id}): '{holder}' and '{duplicate}'"

/-- The registered structs of a schema and the headers of its groups. -/
structure Dispatch where
  /-- The registrations in the order of the structs. -/
  registrations : List Registration
  /-- Groups with their headers; the first binding of a group counts. -/
  bindings : List (String × HeaderBinding)

namespace Dispatch

variable (dispatch : Dispatch)

/-- The struct of a discriminator. -/
def resolve? (group : String) (version : Nat) (id : Int) : Option String :=
  (dispatch.registrations.find? fun r => r.isAt group version id).map (·.structName)

/-- The identity that a struct is registered under. -/
def identity? (structName : String) : Option Identity :=
  (dispatch.registrations.find? fun r => r.structName == structName).map (·.identity)

/-- The header of a group. -/
def header? (group : String) : Option HeaderBinding := dispatch.bindings.lookup group

/-- Whether a struct is registered in a group. -/
def hasGroup (group : String) : Bool :=
  dispatch.registrations.any fun r => r.identity.group == group

/-- The name of a discriminator: the one that its last registration gave. -/
def memberOf? (group : String) (id : Int) : Option String :=
  (dispatch.registrations.reverse.find? fun r =>
    r.identity.group == group && r.identity.value == id).map (·.identity.member)

/-- A registration as it is listed. -/
def entry (r : Registration) : DispatchEntry :=
  { group := r.identity.group, version := r.version, id := r.identity.value
    member := dispatch.memberOf? r.identity.group r.identity.value, structName := r.structName }

/-- All registrations, ordered by group, version and discriminator. -/
def entries : List DispatchEntry :=
  (Ordered.ofList Registration.before (dispatch.registrations.map fun r =>
    ((r.identity.group, r.version, r.identity.value), dispatch.entry r))).map (·.2)

end Dispatch

namespace Schema

variable (schema : Schema) (options : Options)

/-- The name without the digits at its end. -/
def familyBase (name : String) : String :=
  String.ofList (name.toList.reverse.dropWhile Char.isDigit).reverse

/-- The identity of the base of a version family: a struct named like this one without the digits at
its end, of which there has to be one. -/
def familyIdentity? (name : String) : Option Identity :=
  if familyBase name = name then none
  else (schema.struct? (familyBase name)).bind (·.identity)

/-- The identity that a struct is registered under: its own, or that of its version family. Abstract
structs have none. -/
def effectiveIdentity? (s : Struct) : Option Identity :=
  match s.kind with
  | .abstract => none
  | .normal =>
    match s.identity with
    | some identity => some identity
    | none =>
      if s.version.isSome && options.versionFamilyFallback then schema.familyIdentity? s.name
      else none

/-- The registration of a struct that has an identity. -/
def registration? (s : Struct) : Option Registration :=
  (schema.effectiveIdentity? options s).map fun identity =>
    { identity, version := s.version.getD 0, structName := s.name }

/-- The headers that registered structs declare for their groups. -/
def structBindings : List (String × HeaderBinding) :=
  schema.structs.filterMap fun s =>
    (schema.effectiveIdentity? options s).bind fun identity =>
      s.header.map fun b => (identity.group, b)

/-- The headers of arrays of polymorphic elements, each for the type of its discriminator. -/
def arrayBindings : List (String × HeaderBinding) :=
  schema.structs.flatMap fun s => s.fields.filterMap fun f =>
    f.sizedArray?.bind fun layout =>
      (schema.member? layout.binding.header layout.binding.typeField).map fun m =>
        (m.typeName, layout.binding)

end Schema

/-- Adds a registration, unless its group, version and discriminator are taken. -/
def Registration.addTo (r : Registration) (taken : List Registration) :
    Except DispatchError (List Registration) :=
  match taken.find? fun t => t.isAt r.identity.group r.version r.identity.value with
  | some holder =>
    .error { group := r.identity.group, version := r.version, id := r.identity.value
             holder := holder.structName, duplicate := r.structName }
  | none => .ok (taken ++ [r])

/-- The dispatch of a schema, or the first clash. -/
def Schema.dispatch (schema : Schema) (options : Options) : Except DispatchError Dispatch := do
  let wanted := schema.structs.filterMap (schema.registration? options)
  let registrations ← wanted.foldlM (fun taken r => r.addTo taken) []
  .ok { registrations, bindings := schema.structBindings options ++ schema.arrayBindings }

end WireLayout
