import WireLayout.Proofs.ReadableHeaders
import WireLayout.Proofs.VersionFamily

/-!
# The headers of groups

A group's header is to carry the group's discriminator. An array of polymorphic elements binds its
header to the type that the discriminator has there, so it does. A registered struct binds its header to
its own group, whatever type the discriminator has in that header: it is an enum, but nothing makes it
the group.
-/

namespace WireLayout

namespace Schema

variable (schema : Schema) (options : Options)

/-- The type of the discriminator in a header. -/
def discriminatorType? (b : HeaderBinding) : Option String :=
  (schema.member? b.header b.typeField).map (·.typeName)

/-- Whether the structs that are registered in a group name headers only that have its type as that of
their discriminators. -/
def NamesOwn (group : String) : Prop :=
  ∀ s ∈ schema.structs, ∀ i ∈ schema.effectiveIdentity? options s, i.group = group →
    ∀ b ∈ s.header, schema.discriminatorType? b = some group

instance (group : String) : Decidable (schema.NamesOwn options group) :=
  inferInstanceAs (Decidable (∀ s ∈ schema.structs, ∀ i ∈ schema.effectiveIdentity? options s,
    i.group = group → ∀ b ∈ s.header, schema.discriminatorType? b = some group))

variable {schema options}

theorem discriminatorType?_of_arrayBindings {p : String × HeaderBinding}
    (hp : p ∈ schema.arrayBindings) : schema.discriminatorType? p.2 = some p.1 := by
  obtain ⟨s, -, hp⟩ := List.mem_flatMap.mp hp
  obtain ⟨f, -, hp⟩ := List.mem_filterMap.mp hp
  obtain ⟨layout, -, hp⟩ := Option.bind_eq_some_iff.mp hp
  obtain ⟨m, hm, rfl⟩ := Option.map_eq_some_iff.mp hp
  exact Option.map_eq_some_iff.mpr ⟨m, hm, rfl⟩

theorem discriminatorType?_of_structBindings {p : String × HeaderBinding}
    (hp : p ∈ schema.structBindings options) (hown : schema.NamesOwn options p.1) :
    schema.discriminatorType? p.2 = some p.1 := by
  obtain ⟨s, hs, hp⟩ := List.mem_filterMap.mp hp
  obtain ⟨i, hi, hp⟩ := Option.bind_eq_some_iff.mp hp
  obtain ⟨b, hb, rfl⟩ := Option.map_eq_some_iff.mp hp
  exact hown s hs i hi rfl b hb

end Schema

theorem Dispatch.mem_of_header? {dispatch : Dispatch} {group : String} {b : HeaderBinding}
    (h : dispatch.header? group = some b) : (group, b) ∈ dispatch.bindings := by
  obtain ⟨front, back, hsplit, -⟩ := List.lookup_eq_some_iff.mp h
  rw [hsplit]
  exact List.mem_append_right _ List.mem_cons_self

theorem Schema.discriminatorType?_of_header? {schema : Schema} {options : Options}
    {dispatch : Dispatch} (hd : schema.dispatch options = .ok dispatch) {group : String}
    {b : HeaderBinding} (h : dispatch.header? group = some b) (hown : schema.NamesOwn options group) :
    schema.discriminatorType? b = some group := by
  have hp := Dispatch.mem_of_header? h
  obtain ⟨-, rfl⟩ := dispatch_eq_ok.mp hd
  rcases List.mem_append.mp hp with hp | hp
  · exact discriminatorType?_of_structBindings hp hown
  · exact discriminatorType?_of_arrayBindings hp

namespace Codec

variable {c : Codec}

theorem HeaderOutcome.discriminates {b : HeaderBinding} {r : Record} {key : Int × Option Nat}
    (h : c.HeaderOutcome b r (.ok key)) : c.Discriminates b r key.1 := by
  cases h with
  | unversioned _ hid => exact hid
  | versioned _ hid _ => exact hid

/-- What a header gives that a struct refers to is an integer of its discriminator's enum. -/
theorem Sound.contains_of_decodeHeader (hc : c.Sound) {s : Struct} (hs : s ∈ c.schema.structs)
    {ref : String × HeaderBinding} (href : ref ∈ s.headerReferences) {bytes : Bytes}
    {key : Int × Option Nat} (h : c.decodeHeader ref.2 bytes = .ok key) :
    ∃ m t, c.schema.member? ref.2.header ref.2.typeField = some m ∧
      c.schema.types.isEnum m.typeName = true ∧ c.schema.types.intType? m.typeName = some t ∧
        t.contains key.1 = true := by
  obtain ⟨⟨r, last⟩, hread, hkey⟩ := bind_eq_ok.mp h
  have houtcome := hc.headerOutcome hs href ⟨_, _, _, hread⟩
  have hkey : c.headerKey ref.2 r = .ok key := hkey
  rw [hkey] at houtcome
  exact houtcome.discriminates.2

end Codec

/-- **A group's header carries the group's discriminator** where every struct that is registered in the
group and names a header names one with a discriminator of that type: the group is the enum that the
discriminator is declared with, and what is read for it is one of the integers of that enum. -/
theorem header_carries_group {options : Options} {decls : List Declaration} {c : Codec}
    (hcompile : compile options decls = .ok c) {group : String} {b : HeaderBinding}
    (hown : c.schema.NamesOwn options group) (h : c.dispatch.header? group = some b) :
    c.schema.discriminatorType? b = some group ∧ c.schema.types.isEnum group = true ∧
      ∃ t, c.schema.types.intType? group = some t ∧ ∀ bytes key,
        c.decodeHeader b bytes = .ok key → t.contains key.1 = true := by
  obtain ⟨-, -, hdispatch, -⟩ := compile_eq_ok.mp hcompile
  have hc := sound_of_compile hcompile
  have htype := Schema.discriminatorType?_of_header? hdispatch h hown
  obtain ⟨s, hs, ref, href, rfl⟩ :=
    Schema.exists_reference_of_bindings hdispatch (Dispatch.mem_of_header? h)
  obtain ⟨m, hm, rfl⟩ := Option.map_eq_some_iff.mp htype
  obtain ⟨⟨m', hm', henum⟩, -⟩ := hc.linked.members_of_reference hs href
  obtain rfl : m = m' := Option.some.inj (hm.symm.trans hm')
  obtain ⟨t, ht⟩ := TypeTable.intType_of_isEnum henum
  refine ⟨htype, henum, t, ht, fun bytes key hkey => ?_⟩
  obtain ⟨m', t', hm', -, ht', hcontains⟩ := hc.contains_of_decodeHeader hs href hkey
  obtain rfl : m = m' := Option.some.inj (hm.symm.trans hm')
  obtain rfl : t = t' := Option.some.inj (ht.symm.trans ht')
  exact hcontains

/-- Pings and pongs, which begin with a note of their kind. -/
def noteDeclarations : List Declaration :=
  [ .enum { name := "Kind", width := 1, signedness := .unsigned, comment := none
            members := [ { name := "ping", value := .unsigned 1, comment := none },
                         { name := "pong", value := .unsigned 2, comment := none } ] },
    .struct { name := "Note", comment := none, disposition := some "abstract"
              fields := [{ name := some "kind", typeName := some "Kind" }] },
    .struct { name := "Ping", comment := none, disposition := none
              fields :=
                [ { typeName := some "Kind", disposition := some "struct_type"
                    value := some (.text "ping"), header := some "Note"
                    headerTypeField := some "kind" },
                  { typeName := some "Note", disposition := some "inline" } ] },
    .struct { name := "Pong", comment := none, disposition := none
              fields :=
                [ { typeName := some "Kind", disposition := some "struct_type"
                    value := some (.text "pong") },
                  { typeName := some "Note", disposition := some "inline" } ] } ]

/-- The header that pings name is one with a kind, and what is read in front of a pong is a kind. -/
theorem header_carries_group_kind :
    let c := codecOf noteDeclarations
    let note : HeaderBinding := { header := "Note", typeField := "kind", versionField := none }
    compile {} noteDeclarations = .ok c ∧ c.schema.NamesOwn {} "Kind" ∧
      c.dispatch.header? "Kind" = some note ∧ c.decodeHeader note [2] = .ok (2, none) ∧
      c.schema.discriminatorType? note = some "Kind" ∧ ∃ t, c.schema.types.intType? "Kind" = some t ∧
        t.contains 2 = true := by
  intro c note
  have hcompile : compile {} noteDeclarations = .ok c := compile_codecOf (by decide +kernel)
  have hown : c.schema.NamesOwn {} "Kind" := by decide +kernel
  have hheader : c.dispatch.header? "Kind" = some note := by decide +kernel
  have hread : c.decodeHeader note [2] = .ok (2, none) := by decide +kernel
  obtain ⟨htype, -, t, ht, hcontains⟩ := header_carries_group hcompile hown hheader
  exact ⟨hcompile, hown, hheader, hread, htype, t, ht, hcontains _ _ hread⟩

/-- Pings of one kind, whose header has a discriminator of another. -/
def crossedDeclarations : List Declaration :=
  [ .enum { name := "Kind", width := 1, signedness := .unsigned, comment := none
            members := [{ name := "ping", value := .unsigned 1, comment := none }] },
    .enum { name := "Code", width := 2, signedness := .unsigned, comment := none
            members := [{ name := "pong", value := .unsigned 1, comment := none }] },
    .struct { name := "Note", comment := none, disposition := some "abstract"
              fields := [{ name := some "code", typeName := some "Code" }] },
    .struct { name := "Ping", comment := none, disposition := none
              fields :=
                [ { typeName := some "Kind", disposition := some "struct_type"
                    value := some (.text "ping"), header := some "Note"
                    headerTypeField := some "code" } ] } ]

/-- The header that pings name is bound to their kind, and the discriminator in it is a code: what is
read for the kind is no integer of a kind. -/
theorem header_of_other_enum :
    let c := codecOf crossedDeclarations
    let note : HeaderBinding := { header := "Note", typeField := "code", versionField := none }
    compile {} crossedDeclarations = .ok c ∧ c.dispatch.header? "Kind" = some note ∧
      c.schema.discriminatorType? note = some "Code" ∧
      (∃ t, c.schema.types.intType? "Kind" = some t ∧ t.contains 500 = false) ∧
      c.decodeHeader note [244, 1] = .ok (500, none) ∧
      c.decodeAny "Kind" [244, 1] = .error (.unknownDiscriminator "Kind" 0 500) := by
  intro c note
  have hheader : c.dispatch.header? "Kind" = some note := by decide +kernel
  have hread : c.decodeHeader note [244, 1] = .ok (500, none) := by decide +kernel
  have hstruct : c.structOf "Kind" (500, none) = .error (.unknownDiscriminator "Kind" 0 500) := by
    decide +kernel
  refine ⟨compile_codecOf (by decide +kernel), hheader, by decide +kernel, ?_, hread, ?_⟩
  · exact ⟨⟨.one, .unsigned⟩, by decide +kernel, by decide +kernel⟩
  · unfold Codec.decodeAny
    simp only [hheader, hread, hstruct, ok_bind, error_bind]

end WireLayout
