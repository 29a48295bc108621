import WireLayout.Proofs.Invariants

/-!
# Registries

A type table lists definitions in the order they were made. The same can be kept in three maps, one
for each kind of definition, that are changed in place: a call asks whether the name is free, then
looks at the definition, and only then puts it into the map of its kind. Where it fails, the maps are
what they were. So a registry takes what the table takes that has the same definitions, and tells the
same of every name.
-/

namespace WireLayout

/-! ## What definitions tell -/

/-- What can be asked of definitions. -/
structure Answers where
  /-- What a name means. -/
  resolve? : String → Option TypeMeaning
  /-- How values of a type that is no struct lie on the wire. -/
  form? : String → Option WireForm
  /-- The integer type behind a type. -/
  intType? : String → Option IntType
  /-- Whether a type can hold a length. -/
  isNumber : String → Bool
  /-- The enum of a name. -/
  enum? : String → Option EnumDef
  /-- Whether a name is a struct's. -/
  isStruct : String → Bool
  /-- The enums, ordered by name. -/
  enums : List EnumDef
  /-- The aliases, ordered by name. -/
  aliases : List AliasDef

/-- What a type table tells. -/
def TypeTable.answers (types : TypeTable) : Answers :=
  { resolve? := types.resolve?, form? := types.form?, intType? := types.intType?
    isNumber := types.isNumber, enum? := types.enum?, isStruct := types.isStruct
    enums := types.enums, aliases := types.aliases }

/-- Definitions in one map for each kind. -/
structure Registry where
  /-- The enums by name. -/
  enumMap : List (String × EnumDef) := []
  /-- The aliases by name. -/
  aliasMap : List (String × AliasDef) := []
  /-- The names of structs. -/
  structNames : List String := []

namespace Registry

/-- The enum of a name. -/
def enum? (r : Registry) (name : String) : Option EnumDef := r.enumMap.lookup name

/-- Whether a name is a struct's. -/
def isStruct (r : Registry) (name : String) : Bool := r.structNames.contains name

/-- What a name means; built-in integers come first, then enums, aliases and structs. -/
def resolve? (r : Registry) (name : String) : Option TypeMeaning :=
  match IntType.ofName? name with
  | some t => some (.builtin t)
  | none =>
    match r.enum? name with
    | some d => some (.enum d)
    | none =>
      match r.aliasMap.lookup name with
      | some d => some (.alias d)
      | none => if r.isStruct name then some .struct else none

/-- How values of a type that is no struct lie on the wire. -/
def form? (r : Registry) (name : String) : Option WireForm :=
  match r.resolve? name with
  | some (.builtin t) => some (.int t)
  | some (.enum d) => some (.int d.intType)
  | some (.alias d) => some d.layout.form
  | _ => none

/-- The integer type behind a built-in, an enum or an integer alias. -/
def intType? (r : Registry) (name : String) : Option IntType :=
  match r.form? name with
  | some (.int t) => some t
  | _ => none

/-- Whether a type can hold a length: a built-in integer or an integer alias, but no enum. -/
def isNumber (r : Registry) (name : String) : Bool :=
  match r.resolve? name with
  | some (.builtin _) => true
  | some (.alias d) => match d.layout with
    | .int _ => true
    | .bytes .. => false
  | _ => false

/-- What a registry tells. -/
def answers (r : Registry) : Answers :=
  { resolve? := r.resolve?, form? := r.form?, intType? := r.intType?, isNumber := r.isNumber
    enum? := r.enum?, isStruct := r.isStruct, enums := r.enumMap.map (·.2)
    aliases := r.aliasMap.map (·.2) }

/-! ## Calls -/

/-- What works on a registry in place. An error leaves the registry as it is where it is raised. -/
abbrev Action := ExceptT DefinitionError (StateM Registry)

/-- Whether a name may not be given. -/
def isClaimed (r : Registry) (name : String) : Bool :=
  (IntType.ofName? name).isSome || (r.enumMap.lookup name).isSome ||
    (r.aliasMap.lookup name).isSome || r.structNames.contains name

/-- Claims a name, which may not be built in or in one of the maps. -/
def claim (name : String) : Action Unit := do
  if (← get).isClaimed name then throw (.duplicateDefinition name)

/-- Looks at the members of an enum. -/
def checkMembers (d : EnumDef) : Action Unit :=
  match EnumDef.firstFault? d.name d.intType [] d.members with
  | some fault => throw fault
  | none => pure ()

/-- Adds an enum. -/
def registerEnum (d : EnumDef) : Action Unit := do
  claim d.name
  checkMembers d
  modify fun r => { r with enumMap := Ordered.insert Ordered.byName d.name d r.enumMap }

/-- Adds an alias. -/
def registerAlias (d : AliasDef) : Action Unit := do
  claim d.name
  modify fun r => { r with aliasMap := Ordered.insert Ordered.byName d.name d r.aliasMap }

/-- Adds a struct's name. -/
def registerStruct (name : String) : Action Unit := do
  claim name
  modify fun r => { r with structNames := r.structNames ++ [name] }

/-- Adds a definition. -/
def define : TypeDef → Action Unit
  | .enum d => registerEnum d
  | .alias d => registerAlias d
  | .struct name => registerStruct name

/-- Adds the definition that a declaration makes. -/
def declare (decl : Declaration) : Action Unit :=
  match decl.define with
  | .ok d => define d
  | .error e => throw e

/-- Whether a definition is added, and the registry after the call. -/
def register (r : Registry) (d : TypeDef) : Except DefinitionError Unit × Registry :=
  (define d).run.run r

/-- Adds the definitions of all declarations, and goes on after one that is refused. -/
def declareFrom (r : Registry) : List Declaration → List DefinitionError × Registry
  | [] => ([], r)
  | decl :: rest =>
    match (declare decl).run.run r with
    | (.ok (), r) => r.declareFrom rest
    | (.error e, r) =>
      let (errors, r) := r.declareFrom rest
      (e :: errors, r)

/-- Why a definition is not added. -/
def refusal? (r : Registry) (d : TypeDef) : Option DefinitionError :=
  if r.isClaimed d.name then some (.duplicateDefinition d.name) else d.fault?

/-- The registry with a definition put into the map of its kind. -/
def add (r : Registry) : TypeDef → Registry
  | .enum d => { r with enumMap := Ordered.insert Ordered.byName d.name d r.enumMap }
  | .alias d => { r with aliasMap := Ordered.insert Ordered.byName d.name d r.aliasMap }
  | .struct name => { r with structNames := r.structNames ++ [name] }

/-! ## What a call does -/

theorem run_bind (x : Action Unit) (f : Unit → Action Unit) (r : Registry) :
    (x >>= f).run.run r = match x.run.run r with
      | (.ok (), r') => (f ()).run.run r'
      | (.error e, r') => (.error e, r') := by
  rw [ExceptT.run_bind, StateT.run_bind]
  rcases x.run.run r with ⟨e | u, r'⟩
  · rfl
  · rfl

theorem run_claim (r : Registry) (name : String) : (claim name).run.run r =
    if r.isClaimed name then (.error (.duplicateDefinition name), r) else (.ok (), r) := by
  have hrun : (claim name).run.run r = (if r.isClaimed name then
      throw (.duplicateDefinition name) else pure () : Action Unit).run.run r := rfl
  rw [hrun]
  split <;> rfl

theorem run_checkMembers (r : Registry) (d : EnumDef) : (checkMembers d).run.run r =
    match EnumDef.firstFault? d.name d.intType [] d.members with
    | some fault => (.error fault, r)
    | none => (.ok (), r) := by
  unfold checkMembers
  split <;> rfl

/-- All that a call does: it puts the definition into the map of its kind, or it fails and leaves the
maps as they are. -/
theorem register_eq (r : Registry) (d : TypeDef) : r.register d =
    match r.refusal? d with
    | none => (.ok (), r.add d)
    | some e => (.error e, r) := by
  unfold register refusal?
  cases d with
  | enum d =>
    rw [define, registerEnum, run_bind, run_claim, TypeDef.name]
    cases r.isClaimed d.name with
    | true => rfl
    | false =>
      simp only [Bool.false_eq_true, if_false, run_bind, run_checkMembers, TypeDef.fault?]
      cases EnumDef.firstFault? d.name d.intType [] d.members <;> rfl
  | «alias» d =>
    rw [define, registerAlias, run_bind, run_claim, TypeDef.name]
    cases r.isClaimed d.name <;> rfl
  | struct name =>
    rw [define, registerStruct, run_bind, run_claim, TypeDef.name]
    cases r.isClaimed name <;> rfl

theorem run_declare (r : Registry) (decl : Declaration) : (declare decl).run.run r =
    match decl.define with
    | .ok d => r.register d
    | .error e => (.error e, r) := by
  unfold declare
  cases decl.define <;> rfl

theorem isClaimed_eq (r : Registry) (name : String) :
    r.isClaimed name = (r.resolve? name).isSome := by
  unfold isClaimed resolve? enum? isStruct
  cases IntType.ofName? name with
  | some t => rfl
  | none =>
    cases r.enumMap.lookup name with
    | some d => rfl
    | none =>
      cases r.aliasMap.lookup name with
      | some d => rfl
      | none => cases r.structNames.contains name <;> rfl

end Registry

/-! ## Tables as registries -/

namespace TypeDef

/-- What a definition adds to the map of enums. -/
def enumEntry? : TypeDef → Option (String × EnumDef)
  | .enum d => some (d.name, d)
  | _ => none

/-- What a definition adds to the map of aliases. -/
def aliasEntry? : TypeDef → Option (String × AliasDef)
  | .alias d => some (d.name, d)
  | _ => none

/-- What a definition adds to the names of structs. -/
def structName? : TypeDef → Option String
  | .struct name => some name
  | _ => none

theorem fst_of_enumEntry? : ∀ d p, enumEntry? d = some p → p.1 = d.name := by
  rintro (d | d | d) p h <;> cases h
  rfl

theorem fst_of_aliasEntry? : ∀ d p, aliasEntry? d = some p → p.1 = d.name := by
  rintro (d | d | d) p h <;> cases h
  rfl

end TypeDef

namespace TypeTable

/-- The registry of a table's definitions. -/
def registry (types : TypeTable) : Registry :=
  { enumMap := Ordered.ofList Ordered.byName (types.defs.filterMap TypeDef.enumEntry?)
    aliasMap := Ordered.ofList Ordered.byName (types.defs.filterMap TypeDef.aliasEntry?)
    structNames := types.defs.filterMap TypeDef.structName? }

variable {types : TypeTable} {d : TypeDef}

theorem registry_concat (types : TypeTable) (d : TypeDef) :
    registry { defs := types.defs ++ [d] } = types.registry.add d := by
  unfold registry
  cases d with
  | enum d => simp [TypeDef.enumEntry?, TypeDef.aliasEntry?, TypeDef.structName?, Registry.add,
      List.filterMap_cons, Ordered.ofList_concat]
  | «alias» d => simp [TypeDef.enumEntry?, TypeDef.aliasEntry?, TypeDef.structName?, Registry.add,
      List.filterMap_cons, Ordered.ofList_concat]
  | struct name => simp [TypeDef.enumEntry?, TypeDef.aliasEntry?, TypeDef.structName?, Registry.add,
      List.filterMap_cons]

theorem Populated.nodup (h : types.Populated) : (types.defs.map TypeDef.name).Nodup := by
  induction h with
  | empty => exact List.nodup_nil
  | register _ hreg ih =>
    obtain ⟨-, hfree, rfl⟩ := register_eq_ok.mp hreg
    rw [List.map_append, List.nodup_append]
    refine ⟨ih, List.nodup_singleton _, ?_⟩
    rintro name hname _ hd rfl
    rw [List.mem_singleton.mp hd] at hname
    exact hfree hname

theorem Populated.find?_eq_some (h : types.Populated) {name : String} :
    types.find? name = some d ↔ d ∈ types.defs ∧ d.name = name :=
  find?_eq_some_of_nodup h.nodup

section Listed

variable {α : Type} {pick : TypeDef → Option (String × α)}

/-- Definitions of a kind that are listed by name are those of the table. -/
theorem Populated.mem_ofList (h : types.Populated) (hpick : ∀ d p, pick d = some p → p.1 = d.name)
    {p : String × α} : p ∈ Ordered.ofList Ordered.byName (types.defs.filterMap pick) ↔
      ∃ d ∈ types.defs, pick d = some p := by
  have hone : ∀ p ∈ types.defs.filterMap pick, ∀ q ∈ types.defs.filterMap pick,
      p.1 = q.1 → p = q := by
    intro p hp q hq hkey
    obtain ⟨d, hd, hdp⟩ := List.mem_filterMap.mp hp
    obtain ⟨e, he, heq⟩ := List.mem_filterMap.mp hq
    rw [hpick d p hdp, hpick e q heq] at hkey
    obtain rfl := List.inj_on_of_nodup_map h.nodup hd he hkey
    exact Option.some.inj (hdp.symm.trans heq)
  rw [Ordered.mem_ofList Ordered.strict_byName hone, List.mem_filterMap]

theorem Populated.mem_listed (h : types.Populated) (hpick : ∀ d p, pick d = some p → p.1 = d.name)
    {a : α} : a ∈ (Ordered.ofList Ordered.byName (types.defs.filterMap pick)).map (·.2) ↔
      ∃ d ∈ types.defs, pick d = some (d.name, a) := by
  simp only [List.mem_map, h.mem_ofList hpick]
  constructor
  · rintro ⟨p, ⟨d, hd, hdp⟩, rfl⟩
    refine ⟨d, hd, ?_⟩
    rw [hdp, ← hpick d p hdp]
  · rintro ⟨d, hd, hda⟩
    exact ⟨_, ⟨d, hd, hda⟩, rfl⟩

/-- Where they are listed, a name has the definition that the table has under it. -/
theorem Populated.lookup_ofList (h : types.Populated)
    (hpick : ∀ d p, pick d = some p → p.1 = d.name) (name : String) :
    (Ordered.ofList Ordered.byName (types.defs.filterMap pick)).lookup name =
      (types.find? name).bind fun d => (pick d).map (·.2) := by
  ext a
  rw [(Ordered.sortedBy_ofList Ordered.strict_byName _).lookup_eq_some Ordered.strict_byName,
    h.mem_ofList hpick]
  simp only [Option.bind_eq_some_iff, h.find?_eq_some, Option.map_eq_some_iff]
  constructor
  · rintro ⟨d, hd, hp⟩
    exact ⟨d, ⟨hd, (hpick d _ hp).symm⟩, _, hp, rfl⟩
  · rintro ⟨d, ⟨hd, rfl⟩, p, hp, rfl⟩
    exact ⟨d, hd, by rw [hp, ← hpick d p hp]⟩

end Listed

theorem Populated.enum?_registry (h : types.Populated) (name : String) :
    types.registry.enum? name = types.enum? name := by
  unfold Registry.enum? enum? registry
  rw [h.lookup_ofList TypeDef.fst_of_enumEntry?]
  rcases types.find? name with _ | (d | d | d) <;> rfl

theorem Populated.lookup_aliasMap (h : types.Populated) (name : String) :
    types.registry.aliasMap.lookup name = (types.find? name).bind fun
      | .alias d => some d
      | _ => none := by
  unfold registry
  rw [h.lookup_ofList TypeDef.fst_of_aliasEntry?]
  rcases types.find? name with _ | (d | d | d) <;> rfl

theorem Populated.isStruct_registry (h : types.Populated) (name : String) :
    types.registry.isStruct name = types.isStruct name := by
  unfold Registry.isStruct isStruct registry
  rw [Bool.eq_iff_iff, List.contains_iff_mem, List.mem_filterMap]
  constructor
  · rintro ⟨d | d | d, hd, hpick⟩ <;> cases hpick
    have hfind : types.find? name = some (.struct name) := h.find?_eq_some.mpr ⟨hd, rfl⟩
    rw [hfind]
  · intro hstruct
    split at hstruct
    · rename_i name' hfind
      obtain ⟨hd, rfl⟩ := h.find?_eq_some.mp hfind
      exact ⟨_, hd, rfl⟩
    · cases hstruct

theorem Populated.resolve?_registry (h : types.Populated) (name : String) :
    types.registry.resolve? name = types.resolve? name := by
  unfold Registry.resolve? resolve?
  rw [h.enum?_registry, h.lookup_aliasMap, h.isStruct_registry]
  unfold enum? isStruct
  cases IntType.ofName? name with
  | some t => rfl
  | none => rcases types.find? name with _ | (d | d | d) <;> rfl

/-- A registry tells the same as the table. -/
theorem Populated.answers_registry (h : types.Populated) :
    types.registry.answers = types.answers := by
  have hresolve : types.registry.resolve? = types.resolve? := funext h.resolve?_registry
  have hform : types.registry.form? = types.form? := by
    funext name
    unfold Registry.form? form?
    exact hresolve ▸ rfl
  have hint : types.registry.intType? = types.intType? := by
    funext name
    unfold Registry.intType? intType?
    exact hform ▸ rfl
  have hnumber : types.registry.isNumber = types.isNumber := by
    funext name
    unfold Registry.isNumber isNumber
    exact hresolve ▸ rfl
  unfold Registry.answers answers
  rw [hresolve, hform, hint, hnumber, funext h.enum?_registry, funext h.isStruct_registry]
  rfl

/-- A call does to a registry what it does to the table. -/
theorem Populated.register_registry (h : types.Populated) (d : TypeDef) :
    types.registry.register d = match types.register d with
      | .ok types' => (.ok (), types'.registry)
      | .error e => (.error e, types.registry) := by
  rw [Registry.register_eq]
  unfold Registry.refusal? TypeTable.register
  rw [Registry.isClaimed_eq, h.resolve?_registry]
  unfold isTaken
  by_cases htaken : (types.resolve? d.name).isSome
  · rw [if_pos htaken, if_pos htaken]
  · rw [if_neg htaken, if_neg htaken]
    cases d.fault? with
    | some e => rfl
    | none => exact congrArg _ (registry_concat types d).symm

theorem Populated.run_declare_registry (h : types.Populated) (decl : Declaration) :
    (Registry.declare decl).run.run types.registry =
      match decl.define.bind types.register with
      | .ok types' => (.ok (), types'.registry)
      | .error e => (.error e, types.registry) := by
  rw [Registry.run_declare]
  cases decl.define with
  | error e => rfl
  | ok d => exact h.register_registry d

/-- So do the declarations of a schema. -/
theorem Populated.declareFrom_registry (h : types.Populated) (decls : List Declaration) :
    types.registry.declareFrom decls =
      ((types.declareFrom decls).1, (types.declareFrom decls).2.registry) := by
  induction decls generalizing types with
  | nil => rfl
  | cons decl rest ih =>
    unfold Registry.declareFrom TypeTable.declareFrom
    rw [h.run_declare_registry]
    cases hnext : decl.define.bind types.register with
    | error e => simp only [ih h]
    | ok types' =>
      obtain ⟨d, -, hreg⟩ := bind_eq_ok'.mp hnext
      exact ih (h.register hreg)

end TypeTable

end WireLayout
