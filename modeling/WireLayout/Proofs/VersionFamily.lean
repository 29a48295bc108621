import WireLayout.Proofs.Invariants
import WireLayout.Proofs.LeadingDeclaration
import WireLayout.Proofs.LeadingSchema
import WireLayout.Proofs.Registrations
import WireLayout.Proofs.Wire

/-!
# The identity that a version family shares

A struct with a version and no identity is registered under that of its family's base: the struct that
is named like it without the digits at the end. Declaring the base's constant for it, too, changes
nothing but where the identity is found.
-/

namespace WireLayout

namespace Schema

/-! ## Discriminators -/

theorem not_inFamily_of_inFamily {base name other : String} (h : InFamily base name) :
    ¬ InFamily name other := by
  obtain ⟨digits, hne, hdigits, hname, -⟩ := h
  rintro ⟨-, -, -, -, hlast⟩
  have hdigit := hlast (digits.getLast hne) (by
    rw [hname, List.getLast?_append, List.getLast?_eq_some_getLast hne]
    rfl)
  rw [hdigits _ (List.getLast_mem hne)] at hdigit
  cases hdigit

/-- Whether the structs of a name are registered, if they are, under an identity that they do not
declare, and are no base of others. -/
structure Borrows (schema : Schema) (options : Options) (name : String) (identity : Identity) :
    Prop where
  effective : ∀ s ∈ schema.structs, s.name = name → s.kind = .normal →
    schema.effectiveIdentity? options s = some identity
  noBase : ∀ other, ¬ InFamily name other

namespace Borrows

variable {schema : Schema} {options : Options} {name : String} {identity : Identity} {k : Field}
  (h : schema.Borrows options name identity)

include h

theorem familyIdentity?_behind (other : String) :
    (schema.behind name k (some identity)).familyIdentity? other = schema.familyIdentity? other := by
  unfold familyIdentity?
  split
  · rfl
  · rename_i hne
    have hbase : familyBase other ≠ name := fun heq => h.noBase other (inFamily_iff.mpr ⟨heq, hne⟩)
    rw [Spares.struct?_behind]
    cases hs : schema.struct? (familyBase other) with
    | none => rfl
    | some s =>
      have hname : s.name ≠ name := (mem_of_struct? hs).2 ▸ hbase
      unfold Struct.behindAt
      rw [Option.map_some, if_neg hname]

theorem effectiveIdentity?_behind {s : Struct} (hs : s ∈ schema.structs) :
    (schema.behind name k (some identity)).effectiveIdentity? options
        (s.behindAt name k (some identity)) = schema.effectiveIdentity? options s := by
  unfold Struct.behindAt
  split
  · rename_i hname
    cases hkind : s.kind with
    | abstract =>
      unfold effectiveIdentity?
      simp only [Struct.behind, hkind]
    | normal =>
      rw [h.effective s hs hname hkind]
      unfold effectiveIdentity?
      simp only [Struct.behind, hkind]
  · unfold effectiveIdentity?
    rw [h.familyIdentity?_behind]

theorem registration?_behind {s : Struct} (hs : s ∈ schema.structs) :
    (schema.behind name k (some identity)).registration? options
        (s.behindAt name k (some identity)) = schema.registration? options s := by
  unfold registration?
  rw [h.effectiveIdentity?_behind hs, Struct.version_behindAt, Struct.name_behindAt]

theorem structBindings_behind :
    (schema.behind name k (some identity)).structBindings options = schema.structBindings options := by
  unfold structBindings
  rw [show (schema.behind name k (some identity)).structs =
    schema.structs.map (Struct.behindAt name k (some identity)) from rfl, List.filterMap_map]
  refine List.filterMap_congr fun s hs => ?_
  rw [Function.comp_apply, h.effectiveIdentity?_behind hs, Struct.header_behindAt]

end Borrows

theorem Spares.arrayBindings_behind {schema : Schema} {name : String} {k : Field}
    {identity : Option Identity} (h : schema.Spares name k) :
    (schema.behind name k identity).arrayBindings = schema.arrayBindings := by
  have hmembers : ∀ s ∈ schema.structs, (s.fields.filterMap fun f => f.sizedArray?.bind fun layout =>
        ((schema.behind name k identity).member? layout.binding.header
          layout.binding.typeField).map fun m => (m.typeName, layout.binding)) =
      s.fields.filterMap fun f => f.sizedArray?.bind fun layout =>
        (schema.member? layout.binding.header layout.binding.typeField).map fun m =>
          (m.typeName, layout.binding) := by
    intro s hs
    refine List.filterMap_congr fun f hf => ?_
    cases hlayout : f.sizedArray? with
    | none => rfl
    | some layout =>
      have hmem : (f.name, layout.binding) ∈ s.headerReferences :=
        List.mem_append_left _ (List.mem_filterMap.mpr ⟨f, hf, by simp [hlayout]⟩)
      rw [Option.bind_some, Option.bind_some, h.member?_behind _ (h.headers s hs _ hmem).1]
  unfold arrayBindings
  rw [show (schema.behind name k identity).structs =
    schema.structs.map (Struct.behindAt name k identity) from rfl, List.flatMap_map]
  refine List.flatMap_congr fun s hs => ?_
  refine Eq.trans ?_ (hmembers s hs)
  rcases h.behindAt_cases identity hs with heq | ⟨hspares, heq⟩
  · rw [heq]
  · rw [heq]
    refine List.filterMap_cons_none ?_
    rw [Field.sizedArray?_of_isConst hspares.isConst]
    rfl

theorem dispatch_behind {schema : Schema} {options : Options} {name : String} {k : Field}
    {identity : Identity} (h : schema.Spares name k) (hborrows : schema.Borrows options name identity) :
    (schema.behind name k (some identity)).dispatch options = schema.dispatch options := by
  have hwanted : (schema.behind name k (some identity)).structs.filterMap
        ((schema.behind name k (some identity)).registration? options) =
      schema.structs.filterMap (schema.registration? options) := by
    rw [show (schema.behind name k (some identity)).structs =
      schema.structs.map (Struct.behindAt name k (some identity)) from rfl, List.filterMap_map]
    exact List.filterMap_congr fun s hs => hborrows.registration?_behind hs
  unfold dispatch
  rw [hwanted, hborrows.structBindings_behind, h.arrayBindings_behind]

/-- A header that is bound to a group is one that a struct refers to. -/
theorem exists_reference_of_bindings {schema : Schema} {options : Options} {dispatch : Dispatch}
    (hd : schema.dispatch options = .ok dispatch) {p : String × HeaderBinding}
    (hp : p ∈ dispatch.bindings) :
    ∃ s ∈ schema.structs, ∃ r ∈ s.headerReferences, r.2 = p.2 := by
  obtain ⟨-, rfl⟩ := dispatch_eq_ok.mp hd
  rcases List.mem_append.mp hp with hp | hp
  · obtain ⟨s, hs, hp⟩ := List.mem_filterMap.mp hp
    obtain ⟨i, -, hp⟩ := Option.bind_eq_some_iff.mp hp
    obtain ⟨b, hb, rfl⟩ := Option.map_eq_some_iff.mp hp
    exact ⟨s, hs, ("struct_type", b), List.mem_append_right _ (by simp [hb]), rfl⟩
  · obtain ⟨s, hs, hp⟩ := List.mem_flatMap.mp hp
    obtain ⟨f, hf, hp⟩ := List.mem_filterMap.mp hp
    obtain ⟨layout, hlayout, hp⟩ := Option.bind_eq_some_iff.mp hp
    obtain ⟨m, -, rfl⟩ := Option.map_eq_some_iff.mp hp
    exact ⟨s, hs, (f.name, layout.binding),
      List.mem_append_left _ (List.mem_filterMap.mpr ⟨f, hf, by simp [hlayout]⟩), rfl⟩

namespace Spares

variable {schema : Schema} {options : Options} {name : String} {k : Field}
  {identity : Option Identity} (h : schema.Spares name k) {dispatch : Dispatch}
  (hd : schema.dispatch options = .ok dispatch) (htype : options.defaultHeaderTypeField ≠ k.name)
  (hversion : options.defaultHeaderVersionField ≠ k.name)

include h hd htype hversion

/-- No header that tells a struct from the others of its group has the constant as a member. -/
theorem ownBinding_ne {s : Struct} (hs : s ∈ schema.structs) (group : String) :
    (ownBinding dispatch options s group).typeField ≠ k.name ∧
      (ownBinding dispatch options s group).versionField ≠ some k.name := by
  unfold ownBinding
  cases hheader : s.header with
  | some b =>
    exact h.headers s hs ("struct_type", b) (List.mem_append_right _ (by simp [hheader]))
  | none =>
    cases hb : dispatch.header? group with
    | none => exact ⟨htype, fun heq => hversion (Option.some.inj heq)⟩
    | some b =>
      obtain ⟨before, after, hbindings, -⟩ := List.lookup_eq_some_iff.mp hb
      have hmem : (group, b) ∈ dispatch.bindings := by simp [hbindings]
      obtain ⟨t, ht, r, hr, rfl⟩ := exists_reference_of_bindings hd hmem
      exact h.headers t ht r hr

theorem initializers_behind {s : Struct} (hs : s ∈ schema.structs) :
    (schema.behind name k identity).initializers dispatch options (s.behindAt name k identity) =
      schema.initializers dispatch options s := by
  unfold initializers
  rw [Struct.name_behindAt]
  cases dispatch.identity? s.name with
  | none => rfl
  | some i =>
    have hbinding : ownBinding dispatch options (s.behindAt name k identity) i.group =
        ownBinding dispatch options s i.group := by
      unfold ownBinding
      rw [Struct.header_behindAt, Struct.name_behindAt]
    obtain ⟨hne, hne'⟩ := h.ownBinding_ne hd htype hversion hs i.group
    dsimp only
    rw [hbinding]
    generalize ownBinding dispatch options s i.group = b at hne hne'
    congr 2
    · unfold typeInitializer?
      rw [Struct.name_behindAt, h.memberPath?_behind s.name hne, h.member?_behind s.name hne]
      rfl
    · unfold versionInitializer?
      rw [Struct.name_behindAt, Struct.version_behindAt]
      cases hfield : b.versionField with
      | none => rfl
      | some field =>
        have hfieldne : field ≠ k.name := fun heq => hne' (hfield.trans (congrArg some heq))
        simp only [Option.bind_some, h.memberPath?_behind s.name hfieldne,
          h.member?_behind s.name hfieldne]
        rfl

end Spares

end Schema

/-! ## Declarations -/

namespace Schema

variable {options : Options} {schema : Schema} {front back : List Declaration} {d : StructDecl}

theorem exists_struct_of_declared {decls : List Declaration}
    (h : ofDeclarations options decls = .ok schema) (hd : .struct d ∈ decls) :
    ∃ s, schema.struct? d.name = some s ∧ d.check schema.types options = .ok s := by
  have hnames := nodup_of_ofDeclarations h
  simp only [ofDeclarations, bind_eq_ok, mapError_eq_ok] at h
  obtain ⟨types, -, hbuild⟩ := h
  obtain ⟨rfl, hstructs⟩ := build_eq_ok.mp hbuild
  obtain ⟨s, hs, hcheck⟩ :=
    forall₂_mem_left hstructs (List.mem_filterMap.mpr ⟨.struct d, hd, rfl⟩)
  exact ⟨s, (struct?_eq_some hnames).mpr ⟨hs, StructDecl.name_of_check hcheck⟩, hcheck⟩

theorem populated_of_ofDeclarations {decls : List Declaration}
    (h : ofDeclarations options decls = .ok schema) : schema.types.Populated := by
  simp only [ofDeclarations, bind_eq_ok, mapError_eq_ok] at h
  obtain ⟨types, htypes, hbuild⟩ := h
  obtain ⟨rfl, -⟩ := build_eq_ok.mp hbuild
  exact TypeTable.populated_of_declare htypes

theorem behind_append {types : TypeTable} {structs structs' : List Struct} {s : Struct}
    (hnames : ((structs ++ s :: structs').map Struct.name).Nodup) (k : Field)
    (identity : Option Identity) :
    behind { types, structs := structs ++ s :: structs' } s.name k identity =
      { types, structs := structs ++ s.behind k identity :: structs' } := by
  have hstay : ∀ l : List Struct, (∀ t ∈ l, t.name ≠ s.name) →
      l.map (Struct.behindAt s.name k identity) = l := by
    intro l hl
    refine (List.map_congr_left fun t ht => ?_).trans (List.map_id l)
    unfold Struct.behindAt
    rw [if_neg (hl t ht), id]
  rw [List.map_append, List.map_cons, List.nodup_middle, List.nodup_cons, List.mem_append] at hnames
  have hfront := hstay structs fun t ht heq =>
    hnames.1 (Or.inl (heq ▸ List.mem_map_of_mem ht))
  have hback := hstay structs' fun t ht heq =>
    hnames.1 (Or.inr (heq ▸ List.mem_map_of_mem ht))
  unfold behind
  rw [List.map_append, List.map_cons, hfront, hback, Struct.behindAt, if_pos rfl]

/-- A struct that is declared with a constant before its fields gets it, and all others stay. -/
theorem ofDeclarations_behind
    (h : ofDeclarations options (front ++ .struct d :: back) = .ok schema) {first : FieldDecl}
    {k : Field} {identity : Option Identity}
    (hd : ∀ s, d.check schema.types options = .ok s →
      (d.behind first).check schema.types options = .ok (s.behind k identity)) :
    ofDeclarations options (front ++ .struct (d.behind first) :: back) =
      .ok (schema.behind d.name k identity) := by
  have hnames := nodup_of_ofDeclarations h
  simp only [ofDeclarations, bind_eq_ok, mapError_eq_ok] at h ⊢
  obtain ⟨types, htypes, hbuild⟩ := h
  obtain ⟨rfl, hstructs⟩ := build_eq_ok.mp hbuild
  refine ⟨schema.types, ?_, build_eq_ok.mpr ⟨rfl, ?_⟩⟩
  · -- the names are the same
    obtain ⟨hdefs, hadmits, hnodup⟩ := TypeTable.declare_eq_ok.mp htypes
    obtain ⟨defs, t, defs', heq, hfront, ht, hback⟩ := forall₂_split hdefs
    refine TypeTable.declare_eq_ok.mpr ⟨?_, hadmits, hnodup⟩
    rw [heq]
    exact List.rel_append hfront (.cons ht hback)
  · have hdecls : ∀ d : StructDecl, structDecls (front ++ .struct d :: back) =
        structDecls front ++ d :: structDecls back := by
      intro d
      unfold structDecls
      rw [List.filterMap_append]
      rfl
    rw [hdecls] at hstructs ⊢
    obtain ⟨structs, s, structs', heq, hfront, hs, hback⟩ := forall₂_split hstructs
    have hbehind : (schema.behind d.name k identity).structs =
        structs ++ s.behind k identity :: structs' := by
      rw [heq] at hnames
      have hschema : schema = { types := schema.types, structs := structs ++ s :: structs' } := by
        rw [← heq]
      rw [hschema, ← StructDecl.name_of_check hs, behind_append hnames]
    rw [hbehind]
    exact List.rel_append hfront (.cons (hd s hs) hback)

/-- Whether a declared struct leaves its identity to its version family: it has a version, but no
identity of its own, and is named like `base` with digits at the end, which has its identity from the
constant `k`. No header has a member of the constant's name. -/
structure LeavesIdentity (schema : Schema) (options : Options) (base d : StructDecl) (k : FieldDecl) :
    Prop where
  fallback : options.versionFamilyFallback = true
  inFamily : InFamily base.name d.name
  baseEntries : ∀ f ∈ base.fields, f.keyword? ≠ some .structType
  constant : k ∈ base.fields
  keyword : k.keyword? = some (.field .const)
  named : k.name = some options.typeConst
  identified : ∃ s ∈ schema.struct? base.name, s.identity.isSome = true
  entries : ∀ f ∈ d.fields, f.keyword? ≠ some .structType
  undeclared : ∀ s ∈ schema.struct? d.name, ∀ f ∈ s.fields, f.name ≠ options.typeConst
  versioned : ∃ s ∈ schema.struct? d.name, ∃ f ∈ s.fields,
    f.isConst = true ∧ f.name = options.versionConst
  apart : options.typeConst ≠ options.versionConst
  headers : ∀ s ∈ schema.structs, ∀ r ∈ s.headerReferences,
    r.2.typeField ≠ options.typeConst ∧ r.2.versionField ≠ some options.typeConst
  defaults : options.defaultHeaderTypeField ≠ options.typeConst ∧
    options.defaultHeaderVersionField ≠ options.typeConst

/-- Whether the constants that are versions of a declared struct are none below zero, which do not
count; abstract structs are not registered under a version. -/
def VersionCounts (schema : Schema) (options : Options) (d : StructDecl) : Prop :=
  ∀ s ∈ schema.struct? d.name, ∀ f ∈ s.fields, f.name = options.versionConst →
    ∀ value ∈ f.constValue?, 0 ≤ value.value ∨ s.kind = .abstract

namespace LeavesIdentity

variable {decls : List Declaration} {base : StructDecl} {k : FieldDecl} {s : Struct}

theorem version_isSome (h : schema.LeavesIdentity options base d k)
    (hdecls : ofDeclarations options decls = .ok schema) (hversion : schema.VersionCounts options d)
    (hs : schema.struct? d.name = some s) (hcheck : d.check schema.types options = .ok s)
    (hkind : s.kind = .normal) : s.version.isSome = true := by
  obtain ⟨s', hs', f, hf, hconst, hname⟩ := h.versioned
  obtain rfl : s' = s := Option.some.inj (hs'.symm.trans hs)
  obtain ⟨value, hvalue⟩ := Field.disposition_of_isConst hconst
  have hgiven : f.constValue? = some value := by simp [Field.constValue?, hvalue]
  have hnonneg : 0 ≤ value.value := by
    rcases hversion s' hs f hf hname value hgiven with hle | habstract
    · exact hle
    · rw [hkind] at habstract
      cases habstract
  have hlt : value.value < sizeLimit := by
    have htypes := populated_of_ofDeclarations hdecls
    obtain ⟨t, -, hcontains⟩ :=
      (StructDecl.fits_of_check hcheck f hf).hasInt_of_const htypes hvalue
    exact t.lt_sizeLimit_of_contains hcontains
  rw [(StructDecl.conventional_of_check hcheck h.entries).2]
  unfold conventionalVersion
  rw [find?_of_isConst (StructDecl.wellFormed_of_check hcheck).names hf hconst hname,
    Option.bind_some, hgiven, Option.bind_some]
  unfold asSize?
  rw [if_pos ⟨hnonneg, hlt⟩]
  rfl

theorem borrows (h : schema.LeavesIdentity options base d k)
    (hdecls : ofDeclarations options decls = .ok schema) (hversion : schema.VersionCounts options d)
    (hs : schema.struct? d.name = some s) (hcheck : d.check schema.types options = .ok s)
    {b : Struct} (hb : schema.struct? base.name = some b) {identity : Identity}
    (hidentity : b.identity = some identity) : schema.Borrows options d.name identity := by
  have hnames := nodup_of_ofDeclarations hdecls
  refine ⟨?_, fun other => not_inFamily_of_inFamily h.inFamily⟩
  intro t ht hname hkind
  obtain rfl : t = s :=
    Option.some.inj (((struct?_eq_some hnames).mpr ⟨ht, hname⟩).symm.trans hs)
  have hnone : t.identity = none := by
    rw [(StructDecl.conventional_of_check hcheck h.entries).1]
    unfold conventionalIdentity
    rw [List.find?_eq_none.mpr fun f hf => by simp [h.undeclared t hs f hf]]
    rfl
  obtain ⟨hbmem, hbname⟩ := mem_of_struct? hb
  refine (effectiveIdentity?_eq_some hnames).mpr (.family hkind hnone ?_ h.fallback hbmem ?_ hidentity)
  · exact h.version_isSome hdecls hversion hs hcheck hkind
  · rw [hbname, hname]
    exact h.inFamily

theorem spares (h : schema.LeavesIdentity options base d k) {c : Codec}
    (hcompile : compile options decls = .ok c) (hschema : c.schema = schema)
    (hs : schema.struct? d.name = some s) {b : Struct}
    (hcheck : base.check schema.types options = .ok b) {identity : Identity}
    (hidentity : b.identity = some identity) {f : Field} (hconst : f.isConst = true)
    (hname : f.name = options.typeConst) (hty : f.typeName = identity.group) :
    schema.Spares d.name f := by
  subst hschema
  obtain ⟨hdecls, -, -, -⟩ := compile_eq_ok.mp hcompile
  constructor
  case spares =>
    intro t ht htname
    have hfound := (struct?_eq_some (nodup_of_ofDeclarations hdecls)).mpr ⟨ht, htname⟩
    exact ⟨hconst, fun g hg => hname ▸ h.undeclared t hfound g hg⟩
  case untyped =>
    obtain ⟨t, ht, -⟩ := (populated_of_ofDeclarations hdecls).hasInt_of_hasMember
      (StructDecl.hasMember_of_check hcheck hidentity)
    cases hstruct : c.schema.struct? f.typeName with
    | none => rfl
    | some u =>
      have hform := form?_of_struct? hcompile hstruct
      rw [hty, TypeTable.form?_of_intType? ht] at hform
      cases hform
  case headers =>
    rw [hname]
    exact h.headers

end LeavesIdentity

end Schema

/-- **A version family shares its identity as if it were declared.** A struct that leaves its identity
to its family may as well declare the base's constant, which then needs no condition: the schema
compiles, too, the same structs stand for the same discriminators under the same headers, and all
structs have the same plans with the same initial values. -/
theorem compile_explicit_identity {options : Options} {front back : List Declaration}
    {base d : StructDecl} {k : FieldDecl} {c : Codec}
    (h : compile options (front ++ .struct d :: back) = .ok c)
    (hbase : .struct base ∈ front ++ .struct d :: back)
    (hleaves : c.schema.LeavesIdentity options base d k)
    (hversion : c.schema.VersionCounts options d) :
    ∃ c', compile options (front ++ .struct (d.behind k.unconditional) :: back) = .ok c' ∧
      c'.dispatch = c.dispatch ∧ c'.plans = c.plans := by
  obtain ⟨hdecls, hdep, hdispatch, hplans⟩ := compile_eq_ok.mp h
  obtain ⟨b, hb, hbcheck⟩ := Schema.exists_struct_of_declared hdecls hbase
  obtain ⟨s, hs, hcheck⟩ :=
    Schema.exists_struct_of_declared hdecls (List.mem_append_right front List.mem_cons_self)
  obtain ⟨b', hb', hidentified⟩ := hleaves.identified
  obtain rfl : b' = b := Option.some.inj (hb'.symm.trans hb)
  obtain ⟨identity, hidentity⟩ := Option.isSome_iff_exists.mp hidentified
  obtain ⟨f, hconst, hname, hty, hgives, hadd⟩ := StructDecl.exists_constant_of_check hbcheck
    hleaves.baseEntries hleaves.constant hleaves.keyword hleaves.named hidentity
  have hspares := hleaves.spares h rfl hs hbcheck hidentity hconst hname hty
  have hborrows := hleaves.borrows hdecls hversion hs hcheck hb hidentity
  -- the declarations with the constant build the schema with the constant
  have hdecls' : Schema.ofDeclarations options
        (front ++ .struct (d.behind k.unconditional) :: back) =
      .ok (c.schema.behind d.name f (some identity)) := by
    refine Schema.ofDeclarations_behind hdecls fun t ht => ?_
    obtain rfl : t = s := Except.ok.inj (ht.symm.trans hcheck)
    obtain ⟨hmem, htname⟩ := Schema.mem_of_struct? hs
    rw [← hgives t.fields]
    exact StructDecl.check_behind ht hleaves.entries hadd (hspares.spares t hmem htname)
      (hname ▸ hleaves.apart)
  refine ⟨{ schema := c.schema.behind d.name f (some identity), dispatch := c.dispatch
            plans := c.plans }, compile_eq_ok.mpr ⟨hdecls', ?_, ?_, ?_⟩, rfl, rfl⟩
  · rw [hspares.dependencyErrors_behind]
    exact hdep
  · rw [Schema.dispatch_behind hspares hborrows]
    exact hdispatch
  · refine mapM_eq_ok.mp ?_
    change (c.schema.structs.map (Struct.behindAt d.name f (some identity))).mapM _ = _
    rw [List.mapM_map, ← mapM_eq_ok.mpr hplans]
    refine mapM_congr_left fun t ht => ?_
    rw [Function.comp_apply, hspares.initializers_behind hdispatch (hname ▸ hleaves.defaults.1)
      (hname ▸ hleaves.defaults.2) ht, hspares.planOf_behind ht]

/-- The constant that tells transfers from other messages. -/
def transferType : FieldDecl :=
  { name := some "TRANSACTION_TYPE", typeName := some "Kind", disposition := some "const"
    value := some (.text "transfer") }

/-- The base of a version family. -/
def transferBase : StructDecl :=
  { name := "Transfer", comment := none, disposition := none
    fields :=
      [ transferType,
        { name := some "TRANSACTION_VERSION", typeName := some "int8", disposition := some "const"
          value := some (.unsigned 1) },
        { typeName := some "Header", disposition := some "inline" } ] }

/-- A struct of this family with a version and a union. -/
def transferOfVersion (version : Scalar) : StructDecl :=
  { name := "Transfer2", comment := none, disposition := none
    fields :=
      [ { name := some "TRANSACTION_VERSION", typeName := some "int8", disposition := some "const"
          value := some version },
        { typeName := some "Header", disposition := some "inline" },
        { name := some "fee", typeName := some "uint32", condition := some "mode"
          conditionOperation := some "equals", conditionValue := some (.unsigned 0) },
        { name := some "mode", typeName := some "uint8" } ] }

/-- What the declarations of the family start with. -/
def transferFront : List Declaration :=
  [ .enum { name := "Kind", width := 2, signedness := .unsigned, comment := none
            members := [{ name := "transfer", value := .unsigned 1, comment := none }] },
    .struct { name := "Header", comment := none, disposition := some "abstract"
              fields := [ { name := some "type", typeName := some "Kind" },
                          { name := some "version", typeName := some "uint8" } ] },
    .struct transferBase ]

/-- The family with the struct of a version. -/
def transferDeclarations (version : Scalar) : List Declaration :=
  transferFront ++ .struct (transferOfVersion version) :: []

theorem leavesIdentity_transfer {version : Scalar}
    (h : version = .unsigned 2 ∨ version = .signed (-1)) :
    (codecOf (transferDeclarations version)).schema.LeavesIdentity {} transferBase
      (transferOfVersion version) transferType := by
  rcases h with rfl | rfl
  all_goals
    constructor
    case inFamily => exact Schema.inFamily_iff.mpr (by decide +kernel)
    all_goals decide +kernel

/-- The second version may declare that it is a transfer. -/
theorem compile_explicit_identity_transfer :
    compile {} (transferDeclarations (.unsigned 2)) =
        .ok (codecOf (transferDeclarations (.unsigned 2))) ∧
      ∃ c', compile {} (transferFront ++
            .struct ((transferOfVersion (.unsigned 2)).behind transferType.unconditional) :: []) =
          .ok c' ∧
        c'.dispatch = (codecOf (transferDeclarations (.unsigned 2))).dispatch ∧
        c'.plans = (codecOf (transferDeclarations (.unsigned 2))).plans := by
  have h : compile {} (transferDeclarations (.unsigned 2)) =
      .ok (codecOf (transferDeclarations (.unsigned 2))) := compile_codecOf (by decide +kernel)
  have hversion : (codecOf (transferDeclarations (.unsigned 2))).schema.VersionCounts {}
      (transferOfVersion (.unsigned 2)) := by
    unfold Schema.VersionCounts
    decide +kernel
  exact ⟨h, compile_explicit_identity h (by simp [transferFront])
    (leavesIdentity_transfer (Or.inl rfl)) hversion⟩

/-- A version below zero does not count: the struct is not registered until it declares its identity. -/
theorem not_explicit_identity_of_negative_version :
    ∃ c, compile {} (transferDeclarations (.signed (-1))) = .ok c ∧
      c.schema.LeavesIdentity {} transferBase (transferOfVersion (.signed (-1))) transferType ∧
      ∃ c', compile {} (transferFront ++ .struct ((transferOfVersion (.signed (-1))).behind
            transferType.unconditional) :: []) = .ok c' ∧
        c.dispatch.resolve? "Kind" 0 1 = none ∧
        c'.dispatch.resolve? "Kind" 0 1 = some "Transfer2" := by
  refine ⟨codecOf (transferDeclarations (.signed (-1))), compile_codecOf (by decide +kernel),
    leavesIdentity_transfer (Or.inr rfl), ?_⟩
  obtain ⟨c', hc', hsome⟩ : ∃ c', compile {} (transferFront ++ .struct
        ((transferOfVersion (.signed (-1))).behind transferType.unconditional) :: []) = .ok c' ∧
      c'.dispatch.resolve? "Kind" 0 1 = some "Transfer2" := exists_ok_of_toOption (by decide +kernel)
  exact ⟨c', hc', by decide +kernel, hsome⟩

end WireLayout
