import WireLayout.Proofs.DeclarationOrder
import WireLayout.Proofs.HeldValues

/-!
# Headers that can be read

Whether a header has the members that are read from it is checked when the schema is compiled, and
whether a record of the header holds integers for them shows when a buffer is read. Where the record
was read, there are no other reasons to fail: the path to a member is known, an integer that is there
is one of the member's type, and a version that is not negative is a length. A plain member that is
always there is never missing.
-/

namespace WireLayout

/-- A value of an integer type is a length unless it is negative. -/
theorem IntType.toLength_cases {t : IntType} {v : Int} (h : t.contains v = true) (field : String) :
    (∃ n : Nat, v = n ∧ toLength field v = .ok n) ∨
      v < 0 ∧ toLength field v = .error (.outOfRange field v) := by
  rcases Int.lt_or_le v 0 with hneg | hpos
  · have hnone : asSize? v = none := if_neg (by omega)
    refine Or.inr ⟨hneg, ?_⟩
    unfold toLength
    rw [hnone]
  · obtain ⟨n, rfl⟩ := Int.eq_ofNat_of_zero_le hpos
    have hlt := t.lt_sizeLimit_of_contains h
    exact Or.inl ⟨n, rfl, toLength_eq_ok.mpr ⟨rfl, by omega⟩⟩

namespace Codec

/-- The integer that a record holds for a member of its struct. -/
def memberInt? (c : Codec) (name field : String) (r : Record) : Option Int :=
  (c.schema.memberPath? name field).bind fun path => (r.atPath? path).bind Value.int?

variable {c : Codec}

theorem headerInt_eq_ok {header field : String} {r : Record} {n : Int} :
    c.headerInt header r field = .ok n ↔ c.memberInt? header field r = some n := by
  unfold headerInt memberInt?
  split
  · rename_i v hv
    rw [hv, Except.ok.injEq, Option.some.injEq]
  · rename_i hnone
    rw [hnone]
    simp

theorem headerInt_of_none {header field : String} {r : Record}
    (h : c.memberInt? header field r = none) :
    c.headerInt header r field = .error (.missingField header field) := by
  unfold memberInt? at h
  unfold headerInt
  rw [h]

theorem memberInt?_eq_some {name field : String} {r : Record} {n : Int} :
    c.memberInt? name field r = some n ↔
      ∃ path, c.schema.memberPath? name field = some path ∧ r.atPath? path = some (.int n) := by
  unfold memberInt?
  simp only [Option.bind_eq_some_iff]
  constructor
  · rintro ⟨path, hpath, v, hv, hint⟩
    cases v with
    | int k =>
      cases hint
      exact ⟨path, hpath, hv⟩
    | _ => cases hint
  · rintro ⟨path, hpath, hv⟩
    exact ⟨path, hpath, _, hv, rfl⟩

theorem Sound.holdsFor_of_memberInt? (hc : c.Sound) {name field : String} {r : Record}
    (hr : c.IsRead name r) {m : Field} (hm : c.schema.member? name field = some m) {n : Int}
    (hn : c.memberInt? name field r = some n) : c.HoldsFor m (.int n) := by
  obtain ⟨path, hpath, hv⟩ := memberInt?_eq_some.mp hn
  obtain ⟨path', hpath', hm⟩ := Option.bind_eq_some_iff.mp hm
  obtain rfl := Option.some.inj (hpath.symm.trans hpath')
  obtain ⟨s, hs, hm⟩ := Option.bind_eq_some_iff.mp hm
  exact hc.holdsFor_of_atPath? hs hr hm hv

theorem Sound.exists_memberInt?_of_keepsInt (hc : c.Sound) (hapart : c.schema.Apart)
    {name field : String} {r : Record} (hr : c.IsRead name r)
    (hkeeps : c.schema.keepsInt name field = true) : ∃ n, c.memberInt? name field r = some n := by
  obtain ⟨path, hpath, s, hs, hkeeps⟩ : ∃ path, c.schema.memberPath? name field = some path ∧
      ∃ s, c.schema.struct? name = some s ∧ c.schema.keepsIntAt s path = true := by
    simpa [Schema.keepsInt, Option.any_eq_true] using hkeeps
  obtain ⟨n, hn⟩ := hc.exists_atPath?_of_keepsIntAt hapart hs hr hkeeps
  exact ⟨n, memberInt?_eq_some.mpr ⟨path, hpath, hn⟩⟩

/-- Whether a header's record holds a discriminator, which is an integer of the enum that the member
for it has as its type. -/
def Discriminates (c : Codec) (b : HeaderBinding) (r : Record) (id : Int) : Prop :=
  c.memberInt? b.header b.typeField r = some id ∧ ∃ m t,
    c.schema.member? b.header b.typeField = some m ∧ c.schema.types.isEnum m.typeName = true ∧
      c.schema.types.intType? m.typeName = some t ∧ t.contains id = true

/-- What comes of a header whose record was read. -/
inductive HeaderOutcome (c : Codec) (b : HeaderBinding) (r : Record) :
    Except CodecError (Int × Option Nat) → Prop
  /-- Its discriminator, where it has no version. -/
  | unversioned {id : Int} : b.versionField = none → c.Discriminates b r id →
      HeaderOutcome c b r (.ok (id, none))
  /-- Its discriminator and version. -/
  | versioned {field : String} {id : Int} {version : Nat} : b.versionField = some field →
      c.Discriminates b r id → c.memberInt? b.header field r = some (version : Int) →
      HeaderOutcome c b r (.ok (id, some version))
  /-- A version that is negative. -/
  | negative {field : String} {id version : Int} : b.versionField = some field →
      c.Discriminates b r id → c.memberInt? b.header field r = some version → version < 0 →
      HeaderOutcome c b r (.error (.outOfRange field version))
  /-- No integer for one of the two. -/
  | missing {field : String} : field = b.typeField ∨ b.versionField = some field →
      c.memberInt? b.header field r = none →
      HeaderOutcome c b r (.error (.missingField b.header field))

theorem Sound.headerOutcome (hc : c.Sound) {s : Struct} (hs : s ∈ c.schema.structs)
    {ref : String × HeaderBinding} (href : ref ∈ s.headerReferences) {r : Record}
    (hr : c.IsRead ref.2.header r) : c.HeaderOutcome ref.2 r (c.headerKey ref.2 r) := by
  obtain ⟨⟨m, hm, henum⟩, hversions⟩ := hc.linked.members_of_reference hs href
  obtain ⟨place, b⟩ := ref
  unfold headerKey
  cases hid : c.memberInt? b.header b.typeField r with
  | none =>
    rw [headerInt_of_none hid]
    exact .missing (Or.inl rfl) hid
  | some id =>
    obtain ⟨-, t, ht, hcontains⟩ := (hc.holdsFor_of_memberInt? hr hm hid).intType
    have hdiscriminates : c.Discriminates b r id := ⟨hid, m, t, hm, henum, ht, hcontains⟩
    rw [headerInt_eq_ok.mpr hid, ok_bind]
    cases hfield : b.versionField with
    | none => exact .unversioned hfield hdiscriminates
    | some field =>
      cases hversion : c.memberInt? b.header field r with
      | none =>
        simp only [headerInt_of_none hversion]
        exact .missing (Or.inr hfield) hversion
      | some version =>
        simp only [headerInt_eq_ok.mpr hversion, ok_bind]
        obtain ⟨m', hm'⟩ := hversions field hfield
        obtain ⟨-, t', -, hcontains'⟩ := (hc.holdsFor_of_memberInt? hr hm' hversion).intType
        rcases IntType.toLength_cases hcontains' field with ⟨n, rfl, hn⟩ | ⟨hneg, hn⟩
        · rw [hn]
          exact .versioned hfield hdiscriminates hversion
        · rw [hn]
          exact .negative hfield hdiscriminates hversion hneg

/-- A header's record gives no missing field if both members are always integers. -/
theorem HeaderOutcome.ne_missingField (hc : c.Sound) (hapart : c.schema.Apart)
    {b : HeaderBinding} {r : Record} (hr : c.IsRead b.header r)
    (hkeeps : ∀ field, field = b.typeField ∨ b.versionField = some field →
      c.schema.keepsInt b.header field = true)
    {x : Except CodecError (Int × Option Nat)} (h : c.HeaderOutcome b r x) (owner field : String) :
    x ≠ .error (.missingField owner field) := by
  rintro rfl
  cases h with
  | missing hfield hnone =>
    obtain ⟨n, hn⟩ := hc.exists_memberInt?_of_keepsInt hapart hr (hkeeps _ hfield)
    rw [hnone] at hn
    cases hn

theorem decodeHeader_of_decodePrefix {b : HeaderBinding} {bytes : Bytes} {r : Record} {used : Nat}
    (h : c.decodePrefix b.header bytes = .ok (r, used)) :
    c.IsRead b.header r ∧ c.decodeHeader b bytes = c.headerKey b r := by
  obtain ⟨⟨r', last⟩, hread, hpair⟩ := map_eq_ok.mp h
  cases hpair
  refine ⟨⟨_, _, _, hread⟩, ?_⟩
  unfold decodeHeader peekHeader
  rw [hread]
  rfl

end Codec

/-- **Headers give what their records hold.** Where the record of a header was read that a struct
refers to, the discriminator in it is one of the integers of an enum, and the header gives it, with the
version if there is to be one; it fails if the version is negative, or if the record holds no integer
for one of the two. That does not happen where both are plain integers that are always there and count
nothing. -/
theorem decodeHeader_outcome {options : Options} {decls : List Declaration} {c : Codec}
    (hcompile : compile options decls = .ok c) {s : Struct} (hs : s ∈ c.schema.structs)
    {ref : String × HeaderBinding} (href : ref ∈ s.headerReferences) {bytes : Bytes} {r : Record}
    {used : Nat} (h : c.decodePrefix ref.2.header bytes = .ok (r, used)) :
    c.HeaderOutcome ref.2 r (c.decodeHeader ref.2 bytes) ∧
      ((∀ field, field = ref.2.typeField ∨ ref.2.versionField = some field →
          c.schema.keepsInt ref.2.header field = true) →
        ∀ owner field, c.decodeHeader ref.2 bytes ≠ .error (.missingField owner field)) := by
  have hc := sound_of_compile hcompile
  obtain ⟨hr, hkey⟩ := Codec.decodeHeader_of_decodePrefix h
  have houtcome := hc.headerOutcome hs href hr
  rw [hkey]
  refine ⟨houtcome, fun hkeeps => ?_⟩
  exact houtcome.ne_missingField hc (Schema.apart_of_compile hcompile) hr hkeeps

/-- Notes in an envelope, which has its kind in an inline stamp, and a version that may be negative. -/
def envelopeDeclarations : List Declaration :=
  [ .enum { name := "Kind", width := 1, signedness := .unsigned, comment := none
            members := [{ name := "note", value := .unsigned 1, comment := none }] },
    .struct { name := "Stamp", comment := none, disposition := some "abstract"
              fields := [{ name := some "kind", typeName := some "Kind" }] },
    .struct { name := "Envelope", comment := none, disposition := some "abstract"
              fields :=
                [ { typeName := some "Stamp", disposition := some "inline" },
                  { name := some "version", typeName := some "int8" } ] },
    .struct { name := "Note", comment := none, disposition := none
              fields :=
                [ { typeName := some "Kind", disposition := some "struct_type"
                    value := some (.text "note"), version := some (.unsigned 2)
                    header := some "Envelope", headerTypeField := some "kind"
                    headerVersionField := some "version" },
                  { typeName := some "Envelope", disposition := some "inline" } ] } ]

/-- The header of notes. -/
def envelope : HeaderBinding :=
  { header := "Envelope", typeField := "kind", versionField := some "version" }

/-- An envelope gives its kind and version, or a version that is negative, and misses nothing. -/
theorem decodeHeader_outcome_envelope :
    let c := codecOf envelopeDeclarations
    compile {} envelopeDeclarations = .ok c ∧
      (∃ s ∈ c.schema.structs, ("struct_type", envelope) ∈ s.headerReferences) ∧
      (∀ field, field = "kind" ∨ some "version" = some field →
        c.schema.keepsInt "Envelope" field = true) ∧
      c.decodeHeader envelope [1, 2] = .ok (1, some 2) ∧
      c.decodeHeader envelope [1, 254] = .error (.outOfRange "version" (-2)) ∧
      ∀ bytes ∈ [([1, 2] : Bytes), [1, 254]], ∃ r, c.decodePrefix "Envelope" bytes = .ok (r, 2) ∧
        c.HeaderOutcome envelope r (c.decodeHeader envelope bytes) ∧
        ∀ owner field, c.decodeHeader envelope bytes ≠ .error (.missingField owner field) := by
  intro c
  have hcompile : compile {} envelopeDeclarations = .ok c := compile_codecOf (by decide +kernel)
  have href : ∃ s ∈ c.schema.structs, ("struct_type", envelope) ∈ s.headerReferences := by
    decide +kernel
  have hkeeps : ∀ field, field = "kind" ∨ some "version" = some field →
      c.schema.keepsInt "Envelope" field = true := by
    rintro field (rfl | hfield)
    · decide +kernel
    · obtain rfl := Option.some.inj hfield
      decide +kernel
  have hread : ∀ bytes ∈ [([1, 2] : Bytes), [1, 254]],
      ∃ q ∈ (c.decodePrefix "Envelope" bytes).toOption, q.2 = 2 := by decide +kernel
  refine ⟨hcompile, href, hkeeps, by decide +kernel, by decide +kernel, fun bytes hbytes => ?_⟩
  obtain ⟨s, hs, href⟩ := href
  obtain ⟨⟨r, used⟩, hr, hused⟩ := hread bytes hbytes
  obtain rfl : used = 2 := hused
  have hr := eq_ok_of_toOption hr
  obtain ⟨houtcome, hmissing⟩ := decodeHeader_outcome hcompile hs href hr
  exact ⟨r, hr, houtcome, hmissing hkeeps⟩

/-- A box whose items have a kind only if they are tagged. -/
def taggedDeclarations : List Declaration :=
  [ .enum { name := "Kind", width := 1, signedness := .unsigned, comment := none
            members := [{ name := "note", value := .unsigned 1, comment := none }] },
    .struct { name := "Label", comment := none, disposition := some "abstract"
              fields :=
                [ { name := some "tagged", typeName := some "uint8" },
                  { name := some "kind", typeName := some "Kind", condition := some "tagged"
                    conditionOperation := some "equals", conditionValue := some (.unsigned 1) } ] },
    .struct { name := "Box", comment := none, disposition := none
              fields :=
                [ { name := some "length", typeName := some "uint8" },
                  { name := some "items", disposition := some "array_sized"
                    header := some "Label", headerTypeField := some "kind"
                    size := some (.text "length") } ] } ]

/-- The label of an item without a tag is read, and as a header it misses the kind. -/
theorem label_without_kind :
    let c := codecOf taggedDeclarations
    let label : HeaderBinding := { header := "Label", typeField := "kind", versionField := none }
    compile {} taggedDeclarations = .ok c ∧
      (∃ s ∈ c.schema.structs, ("items", label) ∈ s.headerReferences) ∧
      (∃ q, c.decodePrefix "Label" [0] = .ok q ∧ q.2 = 1) ∧
      c.decodeHeader label [0] = .error (.missingField "Label" "kind") :=
  ⟨compile_codecOf (by decide +kernel), by decide +kernel,
    exists_ok_of_toOption (by decide +kernel), by decide +kernel⟩

end WireLayout
