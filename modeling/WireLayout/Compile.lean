import WireLayout.Dispatch
import WireLayout.Plan.Derive
import WireLayout.Schema.Dependency

/-!
# Compiling schemas

From declarations to a codec: a checked schema, its dispatch and a plan for every struct. The checks
run in stages, and the first stage that finds a fault reports all that it found.
-/

namespace WireLayout

/-- Everything that encoding and decoding need. -/
structure Codec where
  /-- The checked schema. -/
  schema : Schema
  /-- Which struct a discriminator stands for. -/
  dispatch : Dispatch
  /-- The plans of the structs. -/
  plans : List Plan

/-- The plan of a struct. -/
def Codec.plan? (c : Codec) (name : String) : Option Plan :=
  c.plans.find? fun p => p.structName == name

/-- The plans, ordered by the structs' names. -/
def Codec.plansByName (c : Codec) : List Plan :=
  (Ordered.ofList Ordered.byName (c.plans.map fun p => (p.structName, p))).map (·.2)

/-- The stage that found faults, with the faults. -/
inductive CompileError where
  /-- The definitions of names. -/
  | definitions (errors : List DefinitionError)
  /-- The fields of structs. -/
  | fields (errors : List FieldError)
  /-- The references between structs. -/
  | dependencies (errors : List DependencyError)
  /-- The discriminators. -/
  | dispatch (error : DispatchError)
  /-- The plans. -/
  | derivation (error : DeriveError)
  deriving DecidableEq

namespace CompileError

/-- What was found, in one line. -/
def message : CompileError → String
  | .definitions errors => s!"{errors.length} type registry error(s)"
  | .fields errors => s!"{errors.length} field error(s)"
  | .dependencies errors => s!"{errors.length} dependency error(s)"
  | .dispatch e => e.message
  | .derivation e => e.message

/-- All that was found, one line for each fault. -/
def diagnostics : CompileError → List String
  | .definitions errors => errors.map DefinitionError.message
  | .fields errors => errors.map FieldError.display
  | .dependencies errors => errors.map DependencyError.display
  | .dispatch e => [e.message]
  | .derivation e => [e.message]

end CompileError

/-- The schema of declarations, the references between its structs not yet checked. -/
def Schema.ofDeclarations (options : Options) (decls : List Declaration) :
    Except CompileError Schema := do
  let types ← (TypeTable.declare decls).mapError .definitions
  (Schema.build types options decls).mapError .fields

/-- The header that tells a struct from the others of its group: the one that it declares, else the
group's, else the struct itself with the conventional members. -/
def Schema.ownBinding (dispatch : Dispatch) (options : Options) (s : Struct) (group : String) :
    HeaderBinding :=
  (s.header <|> dispatch.header? group).getD
    { header := s.name, typeField := options.defaultHeaderTypeField
      versionField := some options.defaultHeaderVersionField }

/-- The discriminator that a record of `s` takes when it leaves out the header's member for it. -/
def Schema.typeInitializer? (schema : Schema) (s : Struct) (identity : Identity)
    (b : HeaderBinding) : Option Initializer :=
  (schema.memberPath? s.name b.typeField).bind fun path =>
    (schema.member? s.name b.typeField).bind fun f =>
      if f.typeName == identity.group && schema.types.isEnum f.typeName then
        some { path, value := identity.value }
      else none

/-- The version that a record of `s` takes when it leaves out the header's member for it. -/
def Schema.versionInitializer? (schema : Schema) (s : Struct) (b : HeaderBinding) :
    Option Initializer :=
  s.version.bind fun version => b.versionField.bind fun field =>
    (schema.member? s.name field).bind fun f =>
      if f.isPlain && schema.types.isNumber f.typeName then
        (schema.memberPath? s.name field).map fun path => { path, value := version }
      else none

/-- The members of a registered struct that may be left out of its records. -/
def Schema.initializers (schema : Schema) (dispatch : Dispatch) (options : Options) (s : Struct) :
    List Initializer :=
  match dispatch.identity? s.name with
  | none => []
  | some identity =>
    let b := Schema.ownBinding dispatch options s identity.group
    (schema.typeInitializer? s identity b).toList ++ (schema.versionInitializer? s b).toList

/-- The codec of a schema, or the first stage that finds a fault. -/
def compile (options : Options) (decls : List Declaration) : Except CompileError Codec := do
  let schema ← Schema.ofDeclarations options decls
  let errors := schema.dependencyErrors
  if errors.isEmpty then
    let dispatch ← (schema.dispatch options).mapError .dispatch
    let plans ← (schema.structs.mapM fun s =>
      schema.planOf s (schema.initializers dispatch options s)).mapError .derivation
    .ok { schema, dispatch, plans }
  else .error (.dependencies errors)

end WireLayout
