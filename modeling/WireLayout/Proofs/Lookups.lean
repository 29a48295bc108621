import WireLayout.Compile

/-!
# Schemas with the same look-ups

The checks of fields, the references between structs and the plans ask a schema for the definition or
the struct of a name, and for the number of its structs, but never for the order in which these stand.
Two schemas in which every name is found alike pass the same checks and have the same plans.
-/

namespace WireLayout

/-- Whether every name has the same definition in both tables. -/
def TypeTable.Alike (types types' : TypeTable) : Prop :=
  ∀ name, types.find? name = types'.find? name

/-! ## Types -/

namespace TypeTable.Alike

variable {types types' : TypeTable}

theorem resolve? (h : types.Alike types') : types.resolve? = types'.resolve? := by
  funext name
  unfold TypeTable.resolve?
  rw [h name]

theorem isTaken (h : types.Alike types') : types.isTaken = types'.isTaken := by
  funext name
  unfold TypeTable.isTaken
  rw [h.resolve?]

theorem enum? (h : types.Alike types') : types.enum? = types'.enum? := by
  funext name
  unfold TypeTable.enum?
  rw [h name]

theorem isStruct (h : types.Alike types') : types.isStruct = types'.isStruct := by
  funext name
  unfold TypeTable.isStruct
  rw [h name]

theorem form? (h : types.Alike types') : types.form? = types'.form? := by
  funext name
  unfold TypeTable.form?
  rw [h.resolve?]

theorem intType? (h : types.Alike types') : types.intType? = types'.intType? := by
  funext name
  unfold TypeTable.intType?
  rw [h.form?]

theorem isNumber (h : types.Alike types') : types.isNumber = types'.isNumber := by
  funext name
  unfold TypeTable.isNumber
  rw [h.resolve?]

theorem isEnum (h : types.Alike types') : types.isEnum = types'.isEnum := by
  funext name
  unfold TypeTable.isEnum
  rw [h.resolve?]

end TypeTable.Alike

/-! ## Checks of fields -/

section Checks

variable {types types' : TypeTable}

theorem Scope.lengthField_congr (h : types.Alike types') (members : Members)
    (owner size : String) :
    Scope.lengthField ⟨types, members⟩ owner size =
      Scope.lengthField ⟨types', members⟩ owner size := by
  simp only [Scope.lengthField, h.isNumber]

namespace FieldDecl

variable (d : FieldDecl) (members : Members)

theorem constValue_congr (h : types.Alike types') (name ty : String) (raw : Scalar) :
    constValue ⟨types, members⟩ name ty raw = constValue ⟨types', members⟩ name ty raw := by
  simp only [constValue, h.resolve?, h.isNumber, h.intType?]

theorem reservedValue_congr (h : types.Alike types') (name ty : String) (t : IntType)
    (raw : Scalar) :
    reservedValue ⟨types, members⟩ name ty t raw =
      reservedValue ⟨types', members⟩ name ty t raw := by
  simp only [reservedValue, h.enum?]

theorem count_congr (h : types.Alike types') (name : String) (size : Scalar) :
    count ⟨types, members⟩ name size = count ⟨types', members⟩ name size := by
  simp only [count, Scope.lengthField_congr h members]

theorem checkField_congr (h : types.Alike types') (keyword : Option FieldKeyword) :
    d.checkField ⟨types, members⟩ keyword = d.checkField ⟨types', members⟩ keyword := by
  -- whether a name may be taken does not depend on the types
  have hname : ∀ role, Scope.requireName ⟨types, members⟩ d role =
      Scope.requireName ⟨types', members⟩ d role := fun _ => rfl
  rcases keyword with _ | _ | _ | _ | _ | _ | _
  · simp only [checkField, checkPlain, hname, h.isTaken]
  · simp only [checkField, checkConst, hname, constValue_congr members h]
  · simp only [checkField, checkInline, h.isStruct]
    rfl
  · simp only [checkField, checkReserved, hname, h.intType?, reservedValue_congr members h]
  · simp only [checkField, checkArray, hname, h.isTaken, count_congr members h]
  · simp only [checkField, checkArraySized, hname, Scope.lengthField_congr h members]
  · simp only [checkField, checkArrayFill, hname, h.isTaken]

theorem checkDiscriminator_congr (h : types.Alike types') (defaultTypeField : String) :
    d.checkDiscriminator ⟨types, members⟩ defaultTypeField =
      d.checkDiscriminator ⟨types', members⟩ defaultTypeField := by
  simp only [checkDiscriminator, h.enum?]

end FieldDecl

theorem Drafts.add_congr (h : types.Alike types') (options : Options) (drafts : Drafts)
    (d : FieldDecl) : drafts.add types options d = drafts.add types' options d := by
  simp only [Drafts.add, Drafts.addField, Drafts.addDiscriminator, Drafts.scope,
    FieldDecl.checkField_congr d _ h, FieldDecl.checkDiscriminator_congr d _ h]

theorem Draft.resolve_congr (h : types.Alike types') (members : Members) (d : Draft) :
    d.resolve ⟨types, members⟩ = d.resolve ⟨types', members⟩ := by
  simp only [Draft.resolve, PendingCondition.resolve, PendingCondition.comparand?, h.intType?,
    h.enum?]

/-- A declared struct is checked alike. -/
theorem StructDecl.check_congr (h : types.Alike types') (options : Options) (d : StructDecl) :
    d.check types options = d.check types' options := by
  have hresolve : ∀ members, Draft.resolve ⟨types, members⟩ = Draft.resolve ⟨types', members⟩ :=
    fun members => funext (Draft.resolve_congr h members)
  simp only [StructDecl.check, Drafts.add_congr h, Drafts.scope, hresolve]
  rfl

end Checks

/-! ## References between structs -/

/-- Whether every name is found alike in both schemas, and both have so many structs. -/
structure Schema.SameLookups (schema schema' : Schema) : Prop where
  types : schema.types.Alike schema'.types
  struct? : schema.struct? = schema'.struct?
  length : schema.structs.length = schema'.structs.length

namespace Schema.SameLookups

variable {schema schema' : Schema}

theorem hasStruct (h : schema.SameLookups schema') : schema.hasStruct = schema'.hasStruct := by
  funext name
  unfold Schema.hasStruct
  rw [h.struct?]

theorem memberPathFrom? (h : schema.SameLookups schema') (field : String) (depth : Nat) :
    schema.memberPathFrom? field depth = schema'.memberPathFrom? field depth := by
  induction depth with
  | zero => rfl
  | succ depth ih =>
    funext seen name
    simp only [Schema.memberPathFrom?, h.struct?, ih]

theorem memberPath? (h : schema.SameLookups schema') : schema.memberPath? = schema'.memberPath? := by
  funext name field
  unfold Schema.memberPath?
  rw [h.length, h.memberPathFrom?]

theorem fieldAt? (h : schema.SameLookups schema') (s : Struct) (path : List String) :
    schema.fieldAt? s path = schema'.fieldAt? s path := by
  induction path generalizing s with
  | nil => rfl
  | cons hop path ih =>
    cases path with
    | nil => rfl
    | cons next path => simp only [Schema.fieldAt?, h.struct?, ih]

theorem member? (h : schema.SameLookups schema') : schema.member? = schema'.member? := by
  funext name field
  simp only [Schema.member?, h.memberPath?, h.struct?, h.fieldAt?]

theorem fixedSizeAt? (h : schema.SameLookups schema') (depth : Nat) :
    schema.fixedSizeAt? depth = schema'.fixedSizeAt? depth := by
  induction depth with
  | zero => funext ty; simp only [Schema.fixedSizeAt?, h.types.form?]
  | succ depth ih => funext ty; simp only [Schema.fixedSizeAt?, h.types.form?, h.struct?, ih]

theorem fixedSize? (h : schema.SameLookups schema') : schema.fixedSize? = schema'.fixedSize? := by
  funext ty
  unfold Schema.fixedSize?
  rw [h.length, h.fixedSizeAt?]

theorem fieldSize? (h : schema.SameLookups schema') : schema.fieldSize? = schema'.fieldSize? := by
  funext f
  unfold Schema.fieldSize?
  rw [h.fixedSize?]

theorem headerErrors (h : schema.SameLookups schema') : schema.headerErrors = schema'.headerErrors := by
  funext s
  simp only [Schema.headerErrors, Schema.headerFault?, h.hasStruct, h.member?, h.types.isEnum]

theorem unionErrors (h : schema.SameLookups schema') : schema.unionErrors = schema'.unionErrors := by
  have hfits : schema.fitsUnion = schema'.fitsUnion := by
    funext f
    unfold Schema.fitsUnion
    rw [h.fieldSize?]
  funext s
  unfold Schema.unionErrors
  rw [hfits]

theorem embedded (h : schema.SameLookups schema') : schema.embedded = schema'.embedded := by
  funext s
  have hembeds : schema.embeds = schema'.embeds := by
    funext f
    unfold Schema.embeds
    rw [h.hasStruct]
  unfold Schema.embedded
  rw [hembeds]

theorem chainTo (h : schema.SameLookups schema') (target : String) (depth : Nat) :
    schema.chainTo target depth = schema'.chainTo target depth := by
  induction depth with
  | zero => funext seen name; simp only [Schema.chainTo]
  | succ depth ih =>
    funext seen name
    simp only [Schema.chainTo, h.struct?, h.embedded, ih]

theorem recursionError? (h : schema.SameLookups schema') :
    schema.recursionError? = schema'.recursionError? := by
  funext s
  simp only [Schema.recursionError?, h.length, h.chainTo, h.embedded]

/-! ## Plans -/

theorem element (h : schema.SameLookups schema') : schema.element = schema'.element := by
  funext owner f
  simp only [Schema.element, h.types.form?, h.hasStruct]

theorem unionSlots (h : schema.SameLookups schema') : schema.unionSlots = schema'.unionSlots := by
  funext s
  have hmember : schema.unionMember? = schema'.unionMember? := by
    funext s name
    simp only [Schema.unionMember?, h.element]
  have hslot : schema.unionSlot = schema'.unionSlot := by
    funext s g first
    simp only [Schema.unionSlot, Schema.unionSize?, h.fixedSize?, hmember]
  simp only [Schema.unionSlots, hslot]

theorem wireEntries (h : schema.SameLookups schema') : schema.wireEntries = schema'.wireEntries := by
  funext s slots
  have hshape : schema.shape? = schema'.shape? := by
    funext s f
    simp only [Schema.shape?, Schema.arrayGroup, h.element, h.member?, h.types.isEnum]
  simp only [Schema.wireEntries, Schema.wireEntry?, hshape]

theorem planOf (h : schema.SameLookups schema') : schema.planOf = schema'.planOf := by
  funext s initializers
  simp only [Schema.planOf, h.unionSlots, h.wireEntries]

/-! ## Registrations -/

theorem registration? (h : schema.SameLookups schema') :
    schema.registration? = schema'.registration? := by
  funext options s
  simp only [Schema.registration?, Schema.effectiveIdentity?, Schema.familyIdentity?, h.struct?]

end Schema.SameLookups

end WireLayout
