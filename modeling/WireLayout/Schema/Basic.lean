import WireLayout.StructBuild

/-!
# Schemas

The checked structs of a schema over its type table, and how a schema comes from its declarations:
first every name is defined, so that structs may be used before they are declared, then every struct
is built.
-/

namespace WireLayout

/-- A checked schema. -/
structure Schema where
  /-- What the type names mean. -/
  types : TypeTable
  /-- The structs in the order of their declarations. -/
  structs : List Struct

namespace Schema

/-- The struct of a name. -/
def struct? (schema : Schema) (name : String) : Option Struct :=
  schema.structs.find? fun s => s.name == name

/-- Whether a name is a struct's. -/
def hasStruct (schema : Schema) (name : String) : Bool := (schema.struct? name).isSome

/-- The struct declarations among the declarations. -/
def structDecls (decls : List Declaration) : List StructDecl :=
  decls.filterMap fun
    | .struct d => some d
    | _ => none

/-- The schema of declarations whose names are defined in `types`, or what is wrong with its
structs. -/
def build (types : TypeTable) (options : Options) (decls : List Declaration) :
    Except (List FieldError) Schema :=
  match buildStructs types options (structDecls decls) with
  | ([], structs) => .ok { types, structs }
  | (errors, _) => .error errors

end Schema

end WireLayout
