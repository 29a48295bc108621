import WireLayout.FieldCheck
import WireLayout.Options

/-!
# Building structs

A declared struct becomes a struct field by field; the first fault ends it. Conditions and the
targets of `sizeof` may name later fields, so they are looked up after the last field.
-/

namespace WireLayout

/-- A checked field whose condition is still open. -/
structure Draft where
  /-- The field, without its condition. -/
  field : Field
  /-- The condition to resolve. -/
  pending : Option PendingCondition
  deriving DecidableEq

/-- The draft as a member of its struct. -/
def Draft.member (d : Draft) : Member :=
  { name := d.field.name, typeName := d.field.typeName
    isPlain := d.field.disposition == .plain && d.pending.isNone }

/-- A struct whose fields are being read. -/
structure Drafts where
  /-- The fields so far. -/
  fields : List Draft := []
  /-- The discriminator entry, once it was met. -/
  discriminator : Option Discriminator := none

namespace Drafts

variable (drafts : Drafts)

/-- The members so far. -/
def members : Members := drafts.fields.map Draft.member

/-- The array that takes the rest of the buffer, once it was met. -/
def fill? : Option String :=
  (drafts.fields.find? fun d => d.field.disposition == .arrayFill).map (·.field.name)

/-- What the next check may look at. -/
def scope (types : TypeTable) : Scope := { types, members := drafts.members }

/-- Takes in a discriminator entry, of which a struct has at most one. -/
def addDiscriminator (types : TypeTable) (options : Options) (d : FieldDecl) :
    Except FieldFault Drafts := do
  if drafts.discriminator.isSome then .error .discriminatorRepeated
  else
    let entry ← d.checkDiscriminator (drafts.scope types) options.defaultHeaderTypeField
    .ok { drafts with discriminator := some entry }

/-- Takes in a field, which may not follow an array that takes the rest of the buffer. -/
def addField (types : TypeTable) (keyword : Option FieldKeyword) (d : FieldDecl) :
    Except FieldFault Drafts :=
  match drafts.fill? with
  | some fill => .error (.fillNotLast d.name fill)
  | none => do
    let field ← d.checkField (drafts.scope types) keyword
    let pending ← d.checkConditionKeys
    .ok { drafts with fields := drafts.fields ++ [{ field, pending }] }

/-- Takes in the next declared entry. -/
def add (types : TypeTable) (options : Options) (d : FieldDecl) : Except FieldFault Drafts :=
  match d.disposition with
  | none => drafts.addField types none d
  | some text =>
    match Keyword.ofText? text with
    | none => .error (.dispositionUnknown d.name text)
    | some .structType => drafts.addDiscriminator types options d
    | some (.field keyword) => drafts.addField types (some keyword) d

end Drafts

/-- The field of a draft, its condition resolved. -/
def Draft.resolve (scope : Scope) (d : Draft) : Except FieldFault Field :=
  match d.pending with
  | none => .ok d.field
  | some p => (p.resolve scope d.field.name).map fun c => { d.field with condition := some c }

/-- Every field that holds a size has to name an existing field. -/
def Scope.checkSizeOfTargets (scope : Scope) (fields : List Field) : Except FieldFault Unit :=
  fields.forM fun f =>
    match f.sizeOfTarget? with
    | some target => scope.checkSizeOf f.name target
    | none => .ok ()

/-- The identity that a constant of the conventional name gives, if it is an enum member. -/
def conventionalIdentity (fields : List Field) (typeConst : String) : Option Identity :=
  (fields.find? fun f => f.isConst && f.name == typeConst).bind fun f =>
    match f.constValue? with
    | some (.member member value) => some { group := f.typeName, member, value }
    | _ => none

/-- The version that a constant of the conventional name gives, if it is one. -/
def conventionalVersion (fields : List Field) (versionConst : String) : Option Nat :=
  (fields.find? fun f => f.isConst && f.name == versionConst).bind fun f =>
    f.constValue?.bind fun v => asSize? v.value

/-- The kind of struct that a keyword names. -/
def StructDecl.kind (d : StructDecl) : Except FieldFault StructKind :=
  match d.disposition with
  | none => .ok .normal
  | some "abstract" => .ok .abstract
  | some keyword => .error (.structKindUnknown keyword)

/-- The struct of finished fields. A discriminator entry wins over the conventional constants,
except that it may leave the version to them. -/
def StructDecl.assemble (d : StructDecl) (options : Options) (kind : StructKind)
    (fields : List Field) (discriminator : Option Discriminator) : Struct :=
  let version := conventionalVersion fields options.versionConst
  match discriminator with
  | some entry =>
    { name := d.name, kind, fields, identity := some entry.identity
      version := entry.version <|> version, header := entry.header, comment := d.comment }
  | none =>
    { name := d.name, kind, fields, identity := conventionalIdentity fields options.typeConst
      version, header := none, comment := d.comment }

/-- The struct that a declaration builds, or the first rule that it violates. -/
def StructDecl.check (d : StructDecl) (types : TypeTable) (options : Options) :
    Except FieldFault Struct := do
  let kind ← d.kind
  let drafts ← d.fields.foldlM (fun drafts f => drafts.add types options f) ({} : Drafts)
  let scope := drafts.scope types
  let fields ← drafts.fields.mapM (Draft.resolve scope)
  scope.checkSizeOfTargets fields
  .ok (d.assemble options kind fields drafts.discriminator)

/-- The struct that a declaration builds, or what is wrong with it. -/
def StructDecl.build (d : StructDecl) (types : TypeTable) (options : Options) :
    Except FieldError Struct :=
  (d.check types options).mapError fun fault => { structName := d.name, fault }

/-- Builds all structs; the faulty ones are skipped, or end the run if the first fault has to. -/
def buildStructs (types : TypeTable) (options : Options) :
    List StructDecl → List FieldError × List Struct
  | [] => ([], [])
  | d :: rest =>
    match d.build types options with
    | .ok s =>
      let (errors, structs) := buildStructs types options rest
      (errors, s :: structs)
    | .error e =>
      if options.failFast then ([e], [])
      else
        let (errors, structs) := buildStructs types options rest
        (e :: errors, structs)

end WireLayout
