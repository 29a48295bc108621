import WireLayout.Compile
import WireLayout.Value
import WireLayout.Proofs.Checked
import WireLayout.Proofs.Groups

/-!
# What the stages of a compilation establish

The stages look at different things: the definitions of names, the fields of each struct, the
references between structs. A schema that passed them is *linked*: its structs are well-formed, every
type that a field may have is a value's form or a struct, headers have the members that are read from
them, and the members of a union have fixed sizes.
-/

namespace WireLayout

/-- What is known of a schema that passed the checks of its fields. -/
structure Schema.Built (schema : Schema) : Prop where
  wellFormed : ∀ s ∈ schema.structs, s.WellFormed schema.types
  known : ∀ ty, schema.types.isTaken ty = true →
    schema.types.form? ty = none → schema.hasStruct ty = true

/-- What is known of a schema that also passed the checks of its references. -/
structure Schema.Linked (schema : Schema) : Prop extends schema.Built where
  headers : ∀ s ∈ schema.structs, schema.headerErrors s = []
  unions : ∀ s ∈ schema.structs, schema.unionErrors s = []

/-! ## Definitions -/

namespace TypeTable

/-- Every definition in the table was declared. -/
theorem declared_of_declareFrom {decls : List Declaration} {types : TypeTable} {d : TypeDef}
    (hd : d ∈ (types.declareFrom decls).2.defs) :
    d ∈ types.defs ∨ ∃ decl ∈ decls, decl.define = .ok d := by
  induction decls generalizing types with
  | nil => exact Or.inl hd
  | cons decl rest ih =>
    unfold declareFrom at hd
    cases hreg : decl.define.bind types.register with
    | error e =>
      simp only [hreg] at hd
      rcases ih hd with h | ⟨decl', hmem, hdef⟩
      · exact Or.inl h
      · exact Or.inr ⟨decl', List.mem_cons_of_mem _ hmem, hdef⟩
    | ok types' =>
      simp only [hreg] at hd
      obtain ⟨def', hdef', hreg⟩ := bind_eq_ok'.mp hreg
      rcases ih hd with h | ⟨decl', hmem, hdef⟩
      · unfold register at hreg
        split at hreg
        · cases hreg
        · split at hreg
          · cases hreg
          · cases hreg
            rcases List.mem_append.mp h with h | h
            · exact Or.inl h
            · rw [List.mem_singleton.mp h]
              exact Or.inr ⟨decl, by simp, hdef'⟩
      · exact Or.inr ⟨decl', List.mem_cons_of_mem _ hmem, hdef⟩

/-- A struct's name in the table is that of a declared struct. -/
theorem structDecl_of_declare {decls : List Declaration} {types : TypeTable} {name : String}
    (h : declare decls = .ok types) (hd : TypeDef.struct name ∈ types.defs) :
    ∃ d ∈ Schema.structDecls decls, d.name = name := by
  have htypes : types = (declareFrom {} decls).2 := by
    unfold declare at h
    split at h
    · rename_i types' heq
      rw [heq]
      exact (Except.ok.inj h).symm
    · cases h
  rw [htypes] at hd
  rcases declared_of_declareFrom hd with hd | ⟨decl, hmem, hdef⟩
  · cases hd
  · unfold Declaration.define at hdef
    split at hdef
    · obtain ⟨e, -, he⟩ := map_eq_ok.mp hdef
      cases he
    · obtain ⟨a, -, ha⟩ := map_eq_ok.mp hdef
      cases ha
    · rename_i d
      cases hdef
      exact ⟨d, List.mem_filterMap.mpr ⟨_, hmem, rfl⟩, rfl⟩

/-- A name with a meaning and no form is a struct's. -/
theorem struct_of_form?_eq_none {types : TypeTable} {ty : String} (h : types.isTaken ty = true)
    (hform : types.form? ty = none) : TypeDef.struct ty ∈ types.defs := by
  unfold isTaken at h
  unfold form? at hform
  unfold resolve? at h hform
  split at h
  · rename_i t ht
    simp [ht] at hform
  · rename_i ht
    simp only [ht] at hform
    cases hfind : types.find? ty with
    | none => simp [hfind] at h
    | some d =>
      have hname : d.name = ty := by simpa using List.find?_some hfind
      simp only [hfind, Option.map_some] at hform
      rcases d with d | d | name
      · simp [TypeDef.meaning] at hform
      · simp [TypeDef.meaning] at hform
      · obtain rfl : name = ty := hname
        exact List.mem_of_find?_eq_some hfind

/-- A struct's name has a meaning. -/
theorem isTaken_of_isStruct {types : TypeTable} {ty : String} (h : types.isStruct ty = true) :
    types.isTaken ty = true := by
  unfold isStruct at h
  unfold isTaken resolve?
  split
  · rfl
  · split at h
    · rename_i heq
      rw [heq]
      rfl
    · cases h

/-- The form of an integer type. -/
theorem form?_of_intType? {types : TypeTable} {ty : String} {t : IntType}
    (h : types.intType? ty = some t) : types.form? ty = some (.int t) := by
  unfold intType? at h
  split at h
  · rename_i t' ht
    rw [ht, Option.some.inj h]
  · cases h

end TypeTable

/-! ## Structs -/

/-- Whether no struct goes by the name of a type that has a form. -/
def Schema.Apart (schema : Schema) : Prop :=
  ∀ name s, schema.struct? name = some s → schema.types.form? name = none

/-- A declaration builds the struct of its name. -/
theorem StructDecl.name_of_check {d : StructDecl} {types : TypeTable} {options : Options}
    {s : Struct} (h : d.check types options = .ok s) : s.name = d.name := by
  simp only [StructDecl.check, bind_eq_ok] at h
  obtain ⟨kind, -, drafts, -, fields, -, -, -, h⟩ := h
  cases h
  unfold StructDecl.assemble
  split <;> rfl

/-- When no struct has a fault, every declaration has its struct. -/
theorem forall₂_of_buildStructs {types : TypeTable} {options : Options} {decls : List StructDecl}
    {structs : List Struct} (h : buildStructs types options decls = ([], structs)) :
    List.Forall₂ (fun d s => d.check types options = .ok s) decls structs := by
  induction decls generalizing structs with
  | nil =>
    cases h
    exact .nil
  | cons d rest ih =>
    unfold buildStructs at h
    cases hb : d.build types options with
    | error e =>
      simp only [hb] at h
      split at h <;> cases h
    | ok s =>
      simp only [hb] at h
      obtain ⟨herrors, rfl⟩ := Prod.mk.inj h
      exact .cons (mapError_eq_ok.mp hb) (ih (Prod.ext herrors rfl))

namespace Schema

variable {options : Options} {decls : List Declaration} {schema : Schema}

/-- What is found under a name is a struct of that name. -/
theorem mem_of_struct? {schema : Schema} {name : String} {s : Struct}
    (h : schema.struct? name = some s) : s ∈ schema.structs ∧ s.name = name :=
  ⟨List.mem_of_find?_eq_some h, by simpa using List.find?_some h⟩

theorem built_of_ofDeclarations (h : ofDeclarations options decls = .ok schema) :
    schema.Built := by
  simp only [ofDeclarations, bind_eq_ok, mapError_eq_ok] at h
  obtain ⟨types, htypes, h⟩ := h
  unfold build at h
  split at h
  · rename_i structs hstructs
    cases h
    have hall := forall₂_of_buildStructs hstructs
    constructor
    · intro s hs
      obtain ⟨d, -, hd⟩ := forall₂_mem_right hall hs
      exact StructDecl.wellFormed_of_check hd
    · intro ty hty hform
      obtain ⟨d, hd, rfl⟩ :=
        TypeTable.structDecl_of_declare htypes (TypeTable.struct_of_form?_eq_none hty hform)
      obtain ⟨s, hs, hcheck⟩ := forall₂_mem_left hall hd
      unfold hasStruct struct?
      rw [List.find?_isSome]
      exact ⟨s, hs, by simpa using StructDecl.name_of_check hcheck⟩
  · cases h

theorem linked_of_dependencyErrors (h : schema.Built) (hdep : schema.dependencyErrors = []) :
    schema.Linked := by
  have hnil : ∀ s ∈ schema.structs, schema.headerErrors s ++ schema.unionErrors s ++
      (schema.recursionError? s).toList = [] := by
    intro s hs
    exact List.flatMap_eq_nil_iff.mp hdep s hs
  refine { toBuilt := h, headers := ?_, unions := ?_ }
  · intro s hs
    exact (List.append_eq_nil_iff.mp (List.append_eq_nil_iff.mp (hnil s hs)).1).1
  · intro s hs
    exact (List.append_eq_nil_iff.mp (List.append_eq_nil_iff.mp (hnil s hs)).1).2

/-- A header that a struct refers to has an enum for the discriminator, and a member for the version
if there is to be one. -/
theorem Linked.members_of_reference (h : schema.Linked) {s : Struct} (hs : s ∈ schema.structs)
    {ref : String × HeaderBinding} (href : ref ∈ s.headerReferences) :
    (∃ m, schema.member? ref.2.header ref.2.typeField = some m ∧
        schema.types.isEnum m.typeName = true) ∧
      ∀ field, ref.2.versionField = some field → ∃ m, schema.member? ref.2.header field = some m := by
  have hfault := List.filterMap_eq_nil_iff.mp (h.headers s hs) _ href
  simp only [Option.map_eq_none_iff] at hfault
  unfold headerFault? at hfault
  split at hfault
  · split at hfault
    · cases hfault
    · rename_i m hm
      split at hfault
      · rename_i henum
        refine ⟨⟨m, hm, henum⟩, fun field hfield => ?_⟩
        simp only [hfield] at hfault
        split at hfault
        · rename_i hversion
          exact Option.isSome_iff_exists.mp hversion
        · cases hfault
      · cases hfault
  · cases hfault

/-- The header of an array of polymorphic elements has an enum for the discriminator. -/
theorem Linked.member?_of_sizedArray (h : schema.Linked) {s : Struct} (hs : s ∈ schema.structs)
    {f : Field} (hf : f ∈ s.fields) {layout : SizedArray} (hl : f.sizedArray? = some layout) :
    ∃ m, schema.member? layout.binding.header layout.binding.typeField = some m ∧
      schema.types.isEnum m.typeName = true := by
  have hmem : (f.name, layout.binding) ∈ s.headerReferences := by
    unfold Struct.headerReferences
    exact List.mem_append_left _ (List.mem_filterMap.mpr ⟨f, hf, by simp [hl]⟩)
  exact (h.members_of_reference hs hmem).1

/-- The members of a union have fixed sizes and are values of their own. -/
theorem Linked.fitsUnion (h : schema.Linked) {s : Struct} (hs : s ∈ schema.structs)
    {g : ConditionGroup} (hg : g ∈ s.unions) {name : String} (hname : name ∈ g.members) :
    ∃ f ∈ s.fields, s.field? name = some f ∧ schema.fitsUnion f = true ∧
      ∃ c, f.condition = some c ∧ c.field = g.conditionField := by
  obtain ⟨f, hf, -, rfl, c, hc, htest⟩ :=
    Struct.field_of_mem_members (Struct.mem_unions.mp hg).1 hname
  have hfield := Struct.field?_of_mem (h.wellFormed s hs).names hf
  have hmem : f.name ∈ s.unions.flatMap ConditionGroup.members :=
    List.mem_flatMap.mpr ⟨g, hg, hname⟩
  have hnone := List.filterMap_eq_nil_iff.mp (h.unions s hs) _ hmem
  rw [hfield, Option.bind_some] at hnone
  refine ⟨f, hf, hfield, ?_, c, hc, htest⟩
  by_contra hfit
  rw [if_neg hfit] at hnone
  cases hnone

end Schema

/-- The stages of a compilation that succeeded, and what each of them gave. -/
theorem compile_eq_ok {options : Options} {decls : List Declaration} {c : Codec} :
    compile options decls = .ok c ↔
      Schema.ofDeclarations options decls = .ok c.schema ∧ c.schema.dependencyErrors = [] ∧
        c.schema.dispatch options = .ok c.dispatch ∧
        List.Forall₂ (fun s p =>
          c.schema.planOf s (c.schema.initializers c.dispatch options s) = .ok p)
          c.schema.structs c.plans := by
  unfold compile
  rw [bind_eq_ok]
  constructor
  · rintro ⟨schema, hschema, h⟩
    simp only [List.isEmpty_iff] at h
    split at h
    · rename_i hdep
      simp only [bind_eq_ok, mapError_eq_ok] at h
      obtain ⟨dispatch, hdispatch, plans, hplans, h⟩ := h
      cases h
      exact ⟨hschema, hdep, hdispatch, mapM_eq_ok.mp hplans⟩
    · cases h
  · rintro ⟨hschema, hdep, hdispatch, hplans⟩
    refine ⟨c.schema, hschema, ?_⟩
    simp only [hdep, List.isEmpty_nil, if_true, bind_eq_ok, mapError_eq_ok]
    exact ⟨c.dispatch, hdispatch, c.plans, mapM_eq_ok.mpr hplans, rfl⟩

/-- The schema of a codec is linked. -/
theorem linked_of_compile {options : Options} {decls : List Declaration} {c : Codec}
    (h : compile options decls = .ok c) : c.schema.Linked := by
  obtain ⟨hschema, hdep, -, -⟩ := compile_eq_ok.mp h
  exact Schema.linked_of_dependencyErrors (Schema.built_of_ofDeclarations hschema) hdep

/-! ## A sample schema -/

/-- A batch of transfers: a counted array, a region of aligned elements that a header tells apart, a
size that is reserved, and a union whose tested field comes last. -/
def sampleDeclarations : List Declaration :=
  [ .enum { name := "Kind", width := 2, signedness := .unsigned, comment := none
            members := [{ name := "transfer", value := .unsigned 1, comment := none }] },
    .struct { name := "Header", comment := none, disposition := some "abstract"
              fields := [{ name := some "kind", typeName := some "Kind" }] },
    .struct { name := "Transfer", comment := none, disposition := none
              fields :=
                [ { name := some "TRANSACTION_TYPE", typeName := some "Kind"
                    disposition := some "const", value := some (.text "transfer") },
                  { typeName := some "Header", disposition := some "inline" },
                  { name := some "amount", typeName := some "uint64" } ] },
    .struct { name := "Batch", comment := none, disposition := none
              fields :=
                [ { name := some "count", typeName := some "uint8" },
                  { name := some "ids", typeName := some "uint16", disposition := some "array"
                    size := some (.text "count") },
                  { name := some "length", typeName := some "uint32" },
                  { name := some "transfers", disposition := some "array_sized"
                    header := some "Header", headerTypeField := some "kind"
                    size := some (.text "length"), align := some (.unsigned 8) },
                  { name := some "idsSize", typeName := some "uint16"
                    disposition := some "reserved", value := some (.text "sizeof ids") },
                  { name := some "fee", typeName := some "uint32", condition := some "mode"
                    conditionOperation := some "equals", conditionValue := some (.unsigned 0) },
                  { name := some "memo", typeName := some "uint8", condition := some "mode"
                    conditionOperation := some "equals", conditionValue := some (.unsigned 1) },
                  { name := some "mode", typeName := some "uint8" } ] } ]

theorem eq_ok_of_toOption {ε α : Type} {x : Except ε α} {a : α} (h : x.toOption = some a) :
    x = .ok a := by
  cases x with
  | error e => cases h
  | ok a' => exact congrArg Except.ok (Option.some.inj h)

/-- What holds of the result of a computation. -/
theorem exists_ok_of_toOption {ε α : Type} {x : Except ε α} {p : α → Prop}
    (h : ∃ a ∈ x.toOption, p a) : ∃ a, x = .ok a ∧ p a := by
  obtain ⟨a, ha, hp⟩ := h
  exact ⟨a, eq_ok_of_toOption ha, hp⟩

/-- The codec of declarations that compile. -/
def codecOf (decls : List Declaration) : Codec :=
  (compile {} decls).toOption.getD
    { schema := { types := {}, structs := [] }, plans := []
      dispatch := { registrations := [], bindings := [] } }

theorem compile_codecOf {decls : List Declaration}
    (h : (compile {} decls).toOption.isSome = true) : compile {} decls = .ok (codecOf decls) := by
  obtain ⟨c, hc⟩ := Option.isSome_iff_exists.mp h
  have heq : codecOf decls = c := by unfold codecOf; rw [hc, Option.getD_some]
  rw [heq]
  exact eq_ok_of_toOption hc

/-- The codec of the sample. -/
def sampleCodec : Codec := codecOf sampleDeclarations

theorem compile_sample : compile {} sampleDeclarations = .ok sampleCodec :=
  compile_codecOf (by decide +kernel)

/-- A batch of two ids and one transfer; its union holds a memo. -/
def sampleRecord : Record :=
  { typeName := "Batch"
    fields :=
      [ ("ids", .list [.int 5, .int 6]), ("length", .int 16), ("memo", .int 7), ("mode", .int 1),
        ("transfers", .list [.record "Transfer"
          [("Header", .record "Header" [("kind", .int 1)]), ("amount", .int 3)]]) ] }

/-- The bytes of this batch. -/
def sampleBytes : Bytes :=
  [ 2, 5, 0, 6, 0, 16, 0, 0, 0, 1, 0, 3, 0, 0, 0, 0, 0, 0, 0, 0, 0, 0, 0, 0, 0, 4, 0, 7, 0, 0, 0, 1]

end WireLayout
