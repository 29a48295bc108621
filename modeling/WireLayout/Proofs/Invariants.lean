import WireLayout.Proofs.DeclarationOrder
import WireLayout.Proofs.FixedValues
import WireLayout.Proofs.Groups
import WireLayout.Proofs.OrderedMaps

/-!
# What holds of every struct

A struct that is built has the properties that all later phases rely on: names are unique, lengths stand
in earlier number fields, conditions test fields that can be tested, fixed values fit their types, and
the conditioned fields fall into groups. They hold whatever definitions were made before.
-/

namespace WireLayout

/-! ## Tables of definitions -/

/-- The tables that definitions lead to, made one after the other. -/
inductive TypeTable.Populated : TypeTable → Prop where
  /-- No definition was made. -/
  | empty : Populated {}
  /-- One more is made. -/
  | register {types types' : TypeTable} {d : TypeDef} : Populated types →
      types.register d = .ok types' → Populated types'

namespace TypeTable

variable {types : TypeTable} {name : String}

theorem Populated.admits (h : types.Populated) : ∀ d ∈ types.defs, Admits d := by
  induction h with
  | empty => simp
  | register _ hreg ih =>
    obtain ⟨hadmits, -, rfl⟩ := register_eq_ok.mp hreg
    intro d hd
    rcases List.mem_append.mp hd with hd | hd
    · exact ih d hd
    · rw [List.mem_singleton.mp hd]
      exact hadmits

theorem Populated.declareFrom (h : types.Populated) (decls : List Declaration) :
    (types.declareFrom decls).2.Populated := by
  induction decls generalizing types with
  | nil => exact h
  | cons decl rest ih =>
    unfold TypeTable.declareFrom
    split
    · rename_i next hnext
      obtain ⟨d, -, hreg⟩ := bind_eq_ok'.mp hnext
      exact ih (h.register hreg)
    · exact ih h

/-- The definitions of a schema are made one after the other. -/
theorem populated_of_declare {decls : List Declaration} (h : declare decls = .ok types) :
    types.Populated := by
  have hall := Populated.empty.declareFrom decls
  unfold declare at h
  split at h
  · rename_i types' heq
    cases h
    rwa [heq] at hall
  · cases h

/-- An enum is without faults if its members have different names, none of which was seen before, and
values of its integers. -/
theorem firstFault?_eq_none {enumName : String} {t : IntType} {seen : List String}
    {members : List EnumMember} :
    EnumDef.firstFault? enumName t seen members = none ↔
      (members.map (·.name)).Nodup ∧ (∀ m ∈ members, m.name ∉ seen) ∧
        ∀ m ∈ members, t.contains m.value = true := by
  induction members generalizing seen with
  | nil => simp [EnumDef.firstFault?]
  | cons m rest ih =>
    unfold EnumDef.firstFault?
    by_cases hseen : m.name ∈ seen
    · simp [hseen]
    by_cases hcontains : t.contains m.value = true
    · rw [if_neg (by simpa using hseen), if_pos hcontains, ih]
      simp only [List.map_cons, List.nodup_cons, List.mem_cons, not_or, forall_eq_or_imp]
      constructor
      · rintro ⟨hnodup, hnew, hfit⟩
        refine ⟨⟨fun hmem => ?_, hnodup⟩, ⟨hseen, fun m' hm' => (hnew m' hm').2⟩, hcontains, hfit⟩
        obtain ⟨m', hm', hname⟩ := List.mem_map.mp hmem
        exact (hnew m' hm').1 hname
      · rintro ⟨⟨hfirst, hnodup⟩, ⟨-, hnew⟩, -, hfit⟩
        refine ⟨hnodup, fun m' hm' => ⟨fun hname => ?_, hnew m' hm'⟩, hfit⟩
        exact hfirst (List.mem_map.mpr ⟨m', hm', hname⟩)
    · rw [if_neg (by simpa using hseen), if_neg hcontains]
      simp [hcontains]

/-- The value of an enum's member is one of the integers of the enum. -/
theorem Populated.hasInt_of_hasMember (h : types.Populated) {member : String} {v : Int}
    (hv : types.HasMember name member v) : types.HasInt name v := by
  obtain ⟨e, he, hvalue⟩ := hv
  obtain ⟨hmem, rfl, hfind⟩ := mem_of_enum? he
  obtain ⟨hname, hfault⟩ := h.admits _ hmem
  have hname : IntType.ofName? e.name = none := hname
  obtain ⟨m, hm, rfl⟩ := Option.map_eq_some_iff.mp hvalue
  refine ⟨e.intType, ?_, (firstFault?_eq_none.mp hfault).2.2 m (List.mem_of_find?_eq_some hm)⟩
  simp only [intType?, form?, resolve?, hname, hfind, Option.map_some, TypeDef.meaning]

theorem isNumber_or_isEnum {t : IntType} (h : types.intType? name = some t) :
    types.isNumber name = true ∨ types.isEnum name = true := by
  unfold intType? form? at h
  unfold isNumber isEnum
  cases hmeaning : types.resolve? name with
  | none => simp [hmeaning] at h
  | some meaning =>
    cases meaning with
    | builtin t => exact Or.inl rfl
    | enum e => exact Or.inr rfl
    | struct => simp [hmeaning] at h
    | «alias» d =>
      cases hlayout : d.layout with
      | int t => exact Or.inl (by simp [hlayout])
      | bytes size hint => simp [hmeaning, hlayout, AliasLayout.form] at h

end TypeTable

theorem Field.Fits.hasInt_of_const {types : TypeTable} (htypes : types.Populated) {f : Field}
    (h : f.Fits types) {v : ConstValue} (hd : f.disposition = .const v) :
    types.HasInt f.typeName v.value := by
  unfold Field.Fits at h
  rw [hd] at h
  cases v with
  | int v => exact h
  | member name v => exact htypes.hasInt_of_hasMember h

theorem Field.Fits.hasInt_of_reserved {types : TypeTable} (htypes : types.Populated) {f : Field}
    (h : f.Fits types) {v : ReservedValue} (hd : f.disposition = .reserved v) {n : Int}
    (hfixed : v.fixed? = some n) : types.HasInt f.typeName n := by
  unfold Field.Fits at h
  rw [hd] at h
  cases v with
  | int v => cases hfixed; exact h
  | member name v => cases hfixed; exact htypes.hasInt_of_hasMember h
  | sizeOf target => cases hfixed

/-! ## Structs -/

namespace Struct

variable (s : Struct)

/-- Whether the field at a place has a name. -/
def NamedAt (i : Nat) (name : String) : Prop := ∃ f, s.fields[i]? = some f ∧ f.name = name

/-- Whether a field on the wire has a condition that tests another. -/
def Tests (name tested : String) : Prop :=
  ∃ f ∈ s.fields, f.isConst = false ∧ f.name = name ∧ ∃ c, f.condition = some c ∧ c.field = tested

/-- Whether a field is a counted array whose length another one holds. -/
def CountedBy (name length : String) : Prop :=
  ∃ f ∈ s.fields, f.name = name ∧ f.disposition = .array (.field length)

/-- The properties of a struct that was built. -/
structure Lawful (types : TypeTable) : Prop where
  /-- Field names are unique. -/
  names : (s.fields.map (·.name)).Nodup
  /-- A counted array and a region of elements have their length in an earlier field, which is plain,
  always present and a number. -/
  lengths : ∀ (i : Nat) (f : Field), s.fields[i]? = some f → ∀ length,
    (f.disposition = .array (.field length) ∨
      ∃ layout, f.disposition = .arraySized layout ∧ layout.lengthField = length) →
    ∃ (j : Nat) (g : Field), j < i ∧ s.fields[j]? = some g ∧ g.name = length ∧
      g.disposition = .plain ∧ g.condition = none ∧ types.isNumber g.typeName = true
  /-- The lengths of counted arrays are mapped each once, in the order of their names. -/
  countNames : (s.counts.map (·.1)).Pairwise (· < ·)
  /-- A length is mapped to the arrays that it counts, in the order of the fields. -/
  counts : ∀ length arrays, (length, arrays) ∈ s.counts → arrays ≠ [] ∧
    arrays.Sublist (s.fields.map (·.name)) ∧ ∀ name, name ∈ arrays ↔ s.CountedBy name length
  /-- The length of every counted array is mapped. -/
  counted : ∀ name length, s.CountedBy name length → ∃ arrays, (length, arrays) ∈ s.counts
  /-- An array that takes the rest of the buffer is the last field. -/
  fill : ∀ (i : Nat) (f : Field), s.fields[i]? = some f → f.disposition = .arrayFill →
    i + 1 = s.fields.length
  /-- There is only one. -/
  oneFill : ∀ (i j : Nat) (f g : Field), s.fields[i]? = some f → f.disposition = .arrayFill →
    s.fields[j]? = some g → g.disposition = .arrayFill → i = j
  /-- A condition tests a field that is plain, always present and an integer or an enum. -/
  conditions : ∀ f ∈ s.fields, ∀ c, f.condition = some c → ∃ g ∈ s.fields, g.name = c.field ∧
    g.disposition = .plain ∧ g.condition = none ∧
      (types.isNumber g.typeName = true ∨ types.isEnum g.typeName = true)
  /-- A promised size is that of a field. -/
  targets : ∀ f ∈ s.fields, ∀ target, f.disposition = .reserved (.sizeOf target) →
    ∃ g ∈ s.fields, g.name = target
  /-- A constant has a value of its type. -/
  consts : ∀ f ∈ s.fields, ∀ v, f.disposition = .const v → types.HasInt f.typeName v.value
  /-- A reserved field has a value of its type, if the schema fixes it. -/
  reservations : ∀ f ∈ s.fields, ∀ v n, f.disposition = .reserved v → v.fixed? = some n →
    types.HasInt f.typeName n
  /-- A group has members, in the order of the fields: those whose conditions test its field. -/
  members : ∀ g ∈ s.groups, g.members ≠ [] ∧ g.members.Sublist (s.fields.map (·.name)) ∧
    ∀ name, name ∈ g.members ↔ s.Tests name g.conditionField
  /-- Every conditioned field on the wire is in a group. -/
  grouped : ∀ name tested, s.Tests name tested → ∃ g ∈ s.groups, g.conditionField = tested
  /-- No two groups test the same field. -/
  groupFields : (s.groups.map (·.conditionField)).Nodup
  /-- The groups come in the order of their first members. -/
  groupOrder : s.groups.Pairwise fun g h => ∀ (first first' : String) (i j : Nat),
    g.members.head? = some first → h.members.head? = some first' → s.NamedAt i first →
      s.NamedAt j first' → i < j
  /-- A group is a union if the field that it tests comes after its first member. -/
  layouts : ∀ g ∈ s.groups, ∀ (first : String) (i j : Nat), g.members.head? = some first →
    s.NamedAt i first → s.NamedAt j g.conditionField → (g.layout = .union ↔ i < j)
  /-- The members of a group that is no union come after the field that it tests. -/
  independent : ∀ g ∈ s.groups, g.layout = .independent → ∀ name ∈ g.members, ∀ i j : Nat,
    s.NamedAt i name → s.NamedAt j g.conditionField → j < i

variable {s} {types : TypeTable}

theorem namedAt_iff {i : Nat} {name : String} :
    s.NamedAt i name ↔ (s.fields.map (·.name))[i]? = some name := by
  rw [List.getElem?_map, Option.map_eq_some_iff]
  rfl

theorem position?_of_namedAt (hs : (s.fields.map (·.name)).Nodup) {i : Nat} {name : String}
    (h : s.NamedAt i name) : s.position? name = some i := by
  obtain ⟨f, hf, rfl⟩ := h
  exact position?_of_getElem? hs hf

theorem countedBy_iff {name length : String} :
    s.CountedBy name length ↔ name ∈ s.arraysCountedBy length := by
  unfold arraysCountedBy CountedBy
  simp only [List.mem_map, List.mem_filter, beq_iff_eq]
  constructor
  · rintro ⟨f, hf, hname, hd⟩
    exact ⟨f, ⟨hf, by unfold Field.countedBy?; rw [hd]⟩, hname⟩
  · rintro ⟨f, ⟨hf, hby⟩, hname⟩
    exact ⟨f, hf, hname, Field.disposition_of_countedBy? hby⟩

theorem mem_counts {length : String} {arrays : List String} :
    (length, arrays) ∈ s.counts ↔
      arrays = s.arraysCountedBy length ∧ ∃ name, s.CountedBy name length := by
  unfold counts
  rw [Ordered.mem_ofList Ordered.strict_byName]
  · simp only [List.mem_map, List.mem_filterMap, Prod.mk.injEq]
    constructor
    · rintro ⟨_, ⟨f, hf, hby⟩, rfl, rfl⟩
      exact ⟨rfl, f.name, f, hf, rfl, Field.disposition_of_countedBy? hby⟩
    · rintro ⟨rfl, name, f, hf, -, hd⟩
      exact ⟨length, ⟨f, hf, by unfold Field.countedBy?; rw [hd]⟩, rfl, rfl⟩
  · intro p hp q hq heq
    obtain ⟨name, -, rfl⟩ := List.mem_map.mp hp
    obtain ⟨name', -, rfl⟩ := List.mem_map.mp hq
    obtain rfl : name = name' := heq
    rfl

theorem mem_members_iff {g : ConditionGroup} (hg : g ∈ s.groups) {name : String} :
    name ∈ g.members ↔ s.Tests name g.conditionField := by
  rw [eq_groupOf_of_mem hg]
  exact mem_members_groupOf.trans mem_conditioned

/-- The layout of a group follows from the places of its first member and of the field it tests. -/
theorem layout_of_mem (hs : (s.fields.map (·.name)).Nodup) {g : ConditionGroup} (hg : g ∈ s.groups)
    {first : String} {i j : Nat} (hfirst : g.members.head? = some first) (hi : s.NamedAt i first)
    (hj : s.NamedAt j g.conditionField) : g.layout = if i < j then .union else .independent := by
  rw [eq_groupOf_of_mem hg] at hfirst ⊢
  obtain ⟨rest, hmembers⟩ := List.head?_eq_some_iff.mp hfirst
  unfold groupOf at hmembers ⊢
  dsimp only at hmembers ⊢
  rw [hmembers]
  simp only [groupLayout, position?_of_namedAt hs hi, position?_of_namedAt hs hj]

theorem WellFormed.tested_of_condition (hs : s.WellFormed types) {f : Field} (hf : f ∈ s.fields)
    {c : Condition} (hc : f.condition = some c) :
    ∃ g ∈ s.fields, g.name = c.field ∧ g.disposition = .plain ∧ g.condition = none ∧
      (types.isNumber g.typeName = true ∨ types.isEnum g.typeName = true) := by
  obtain ⟨g, hg, hname, ht⟩ := hs.tested f hf c hc
  obtain ⟨t, hint⟩ := ht.2
  exact ⟨g, hg, hname, ht.plain.1, ht.plain.2, TypeTable.isNumber_or_isEnum hint⟩

/-- A member of a group is another field than the one that the group tests. -/
theorem WellFormed.ne_of_mem_members (hs : s.WellFormed types) {g : ConditionGroup}
    (hg : g ∈ s.groups) {name : String} (hname : name ∈ g.members) : name ≠ g.conditionField := by
  rintro rfl
  obtain ⟨f, hf, -, hfname, c, hc, htest⟩ := (mem_members_iff hg).mp hname
  obtain ⟨t, ht, htname, -, htc, -⟩ := hs.tested_of_condition hf hc
  -- the field would be present always and on a condition
  have hsame : f = t := List.inj_on_of_nodup_map hs.names hf ht
    (by rw [hfname, htname, htest])
  rw [hsame, htc] at hc
  cases hc

/-- The members of a group that is no union come after the field that it tests. -/
theorem WellFormed.before_of_independent (hs : s.WellFormed types) {g : ConditionGroup}
    (hg : g ∈ s.groups) (hlayout : g.layout = .independent) {name : String}
    (hname : name ∈ g.members) {i j : Nat} (hi : s.NamedAt i name)
    (hj : s.NamedAt j g.conditionField) : j < i := by
  have hfirst := List.head?_eq_some_head (members_ne_nil hg)
  generalize g.members.head _ = first at hfirst
  obtain ⟨rest, hmembers⟩ := List.head?_eq_some_iff.mp hfirst
  have hsub : (first :: rest).Sublist (s.fields.map (·.name)) := by
    rw [← hmembers, eq_groupOf_of_mem hg]
    exact s.members_sublist _
  obtain ⟨k, hk⟩ := List.mem_iff_getElem?.mp (hsub.subset (by simp : first ∈ first :: rest))
  -- the member is not before the first one, and that is not before the tested field
  have hle : k ≤ i := index_le_of_sublist hsub (hmembers ▸ hname) hs.names hk (namedAt_iff.mp hi)
  have hge : ¬ k < j := by
    intro hlt
    have hunion := layout_of_mem hs.names hg hfirst (namedAt_iff.mpr hk) hj
    rw [hlayout, if_pos hlt] at hunion
    cases hunion
  have hne : i ≠ j := by
    rintro rfl
    refine hs.ne_of_mem_members hg hname (Option.some.inj ?_)
    rw [← namedAt_iff.mp hi, namedAt_iff.mp hj]
  omega

end Struct

namespace StructDecl

variable {d : StructDecl} {types : TypeTable} {options : Options} {s : Struct}

/-- A promised size is that of a field. -/
theorem target_of_check (h : d.check types options = .ok s) {f : Field} (hf : f ∈ s.fields)
    {target : String} (htarget : f.sizeOfTarget? = some target) :
    ∃ g ∈ s.fields, g.name = target := by
  simp only [StructDecl.check, bind_eq_ok] at h
  obtain ⟨kind, -, drafts, -, fields, hfields, u, htargets, h⟩ := h
  have hs : s.fields = fields := by
    cases h
    unfold StructDecl.assemble
    split <;> rfl
  rw [hs] at hf ⊢
  have hcheck := forM_eq_ok.mp htargets f hf
  simp only [htarget, Scope.checkSizeOf] at hcheck
  split at hcheck
  case isFalse => cases hcheck
  rename_i hhas
  obtain ⟨m, hm⟩ := Option.isSome_iff_exists.mp hhas
  have hname : m.name = target := by simpa using List.find?_some hm
  obtain ⟨draft, hdraft, rfl⟩ := List.mem_map.mp (List.mem_of_find?_eq_some hm)
  obtain ⟨g, hg, hR⟩ := forall₂_mem_left (mapM_eq_ok.mp hfields) hdraft
  obtain ⟨c, rfl, -⟩ := Draft.field_of_resolve hR
  exact ⟨_, hg, hname⟩

end StructDecl

/-- **What holds of every struct.** Whatever definitions were made, a struct that is built has unique
names, lengths in earlier number fields, conditions that can be tested, promised sizes of its own fields
and fixed values of their types; and its conditioned fields fall into groups. -/
theorem lawful_of_build {types : TypeTable} (htypes : types.Populated) {options : Options}
    {d : StructDecl} {s : Struct} (h : d.build types options = .ok s) : s.Lawful types := by
  have hcheck : d.check types options = .ok s := mapError_eq_ok.mp h
  have hs := StructDecl.wellFormed_of_check hcheck
  have hfits := StructDecl.fits_of_check hcheck
  constructor
  case names => exact hs.names
  case lengths =>
    intro i f hf length hd
    have hlength : f.lengthName? = some length := by
      unfold Field.lengthName?
      rcases hd with hd | ⟨layout, hd, rfl⟩ <;> rw [hd]
    obtain ⟨j, g, hlt, hg, hname, hplain, hnum⟩ := hs.counted i f hf length hlength
    obtain ⟨hd, hc⟩ := Field.isPlain_eq_true.mp hplain
    exact ⟨j, g, hlt, hg, hname, hd, hc, hnum⟩
  case countNames =>
    rw [List.pairwise_map]
    exact (Ordered.sortedBy_ofList Ordered.strict_byName _).imp of_decide_eq_true
  case counts =>
    intro length arrays hmem
    obtain ⟨rfl, name, hcounted⟩ := Struct.mem_counts.mp hmem
    refine ⟨List.ne_nil_of_mem (Struct.countedBy_iff.mp hcounted), List.filter_sublist.map _, ?_⟩
    exact fun name => Struct.countedBy_iff.symm
  case counted =>
    intro name length hcounted
    exact ⟨_, Struct.mem_counts.mpr ⟨rfl, name, hcounted⟩⟩
  case fill => exact hs.fill
  case oneFill =>
    intro i j f g hf hd hg hd'
    have := hs.fill i f hf hd
    have := hs.fill j g hg hd'
    omega
  case conditions => exact fun f hf c hc => hs.tested_of_condition hf hc
  case targets =>
    intro f hf target hd
    exact StructDecl.target_of_check hcheck hf (by unfold Field.sizeOfTarget?; rw [hd])
  case consts => exact fun f hf v hd => (hfits f hf).hasInt_of_const htypes hd
  case reservations =>
    exact fun f hf v n hd hfixed => (hfits f hf).hasInt_of_reserved htypes hd hfixed
  case members =>
    intro g hg
    refine ⟨Struct.members_ne_nil hg, ?_, fun name => Struct.mem_members_iff hg⟩
    rw [Struct.eq_groupOf_of_mem hg]
    exact s.members_sublist _
  case grouped =>
    intro name tested htests
    exact ⟨s.groupOf tested,
      Struct.mem_groups.mpr ⟨name, tested, Struct.mem_conditioned.mpr htests, rfl⟩, rfl⟩
  case groupFields => exact s.nodup_groups
  case groupOrder =>
    refine (Struct.pairwise_groups hs.names).imp ?_
    intro g g' hbefore first first' i j hfirst hfirst' hi hj
    exact hbefore first first' hfirst hfirst' i j (Struct.namedAt_iff.mp hi)
      (Struct.namedAt_iff.mp hj)
  case layouts =>
    intro g hg first i j hfirst hi hj
    rw [Struct.layout_of_mem hs.names hg hfirst hi hj]
    split <;> simp_all
  case independent =>
    intro g hg hlayout name hname i j hi hj
    exact hs.before_of_independent hg hlayout hname hi hj

/-- The batch of the sample, whose one group is a union. -/
theorem lawful_of_build_batch :
    sampleCodec.schema.types.Populated ∧
      ∃ d s, StructDecl.build d sampleCodec.schema.types {} = .ok s ∧ s.name = "Batch" ∧
        s.unions.length = 1 ∧ s.Lawful sampleCodec.schema.types := by
  obtain ⟨hschema, -⟩ := compile_eq_ok.mp compile_sample
  simp only [Schema.ofDeclarations, bind_eq_ok, mapError_eq_ok] at hschema
  obtain ⟨types, htypes, hbuild⟩ := hschema
  obtain ⟨rfl, hstructs⟩ := Schema.build_eq_ok.mp hbuild
  have hpopulated := TypeTable.populated_of_declare htypes
  obtain ⟨s, hs, hname, hunions⟩ :
      ∃ s ∈ sampleCodec.schema.structs, s.name = "Batch" ∧ s.unions.length = 1 := by
    decide +kernel
  obtain ⟨d, -, hcheck⟩ := forall₂_mem_right hstructs hs
  have hbuilt : d.build sampleCodec.schema.types {} = .ok s := mapError_eq_ok.mpr hcheck
  exact ⟨hpopulated, d, s, hbuilt, hname, hunions, lawful_of_build hpopulated hbuilt⟩

end WireLayout
