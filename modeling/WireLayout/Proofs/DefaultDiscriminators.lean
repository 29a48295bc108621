import WireLayout.Proofs.LookingBack
import WireLayout.Proofs.Registrations
import WireLayout.Proofs.Writing

/-!
# Default discriminators

A registered struct that starts with the header of its group need not be told its discriminator and
version: where a record leaves them out, the header gets those that the struct is registered under. So
whoever reads the header finds the struct again.

The header is a struct of values only. Such a struct is read back from whatever it is written as, with
the values that it was written with, and nothing else is needed for it: no number is counted, no length
is measured and nothing is looked back at.
-/

namespace WireLayout

/-! ## Structs of values only -/

/-- Whether a struct has only values that are always there. -/
def Schema.IsFlat (schema : Schema) (s : Struct) : Prop :=
  ∀ f ∈ s.fields, f.isPlain = true ∧ (schema.types.form? f.typeName).isSome = true

instance (schema : Schema) (s : Struct) : Decidable (schema.IsFlat s) :=
  inferInstanceAs (Decidable
    (∀ f ∈ s.fields, f.isPlain = true ∧ (schema.types.form? f.typeName).isSome = true))

/-- Whether an entry is a value that is always there. -/
def WireEntry.IsValue (s : Struct) (e : WireEntry) : Prop :=
  e.guard = none ∧ ∃ leaf, e.encodeOp s = .leaf leaf ∧ e.decodeOp s = .leaf leaf

namespace Schema.IsFlat

variable {schema : Schema} {s : Struct} (hflat : schema.IsFlat s)

include hflat

theorem disposition {f : Field} (hf : f ∈ s.fields) :
    f.disposition = .plain ∧ f.condition = none := Field.isPlain_eq_true.mp (hflat f hf).1

theorem isCount (name : String) : s.isCount name = false := by
  rw [Bool.eq_false_iff]
  intro hcount
  obtain ⟨f, hf, hby⟩ := Struct.isCount_eq_true.mp hcount
  have hd := Field.disposition_of_countedBy? hby
  rw [(hflat.disposition hf).1] at hd
  cases hd

theorem regionsMeasuredBy (name : String) : s.regionsMeasuredBy name = [] := by
  rw [List.eq_nil_iff_forall_not_mem]
  intro p hp
  obtain ⟨f, hf, layout, hlayout, -⟩ := Struct.mem_regionsMeasuredBy.mp hp
  have hd := Field.disposition_of_sizedArray? hlayout
  rw [(hflat.disposition hf).1] at hd
  cases hd

theorem unions : s.unions = [] := by
  rw [List.eq_nil_iff_forall_not_mem]
  intro g hg
  obtain ⟨hgroup, -⟩ := Struct.mem_unions.mp hg
  have hfirst := List.head?_eq_some_head (Struct.members_ne_nil hgroup)
  obtain ⟨f, hf, -, -, c, hc, -⟩ :=
    Struct.field_of_mem_members hgroup (List.mem_of_mem_head? hfirst)
  rw [(hflat.disposition hf).2] at hc
  cases hc

end Schema.IsFlat

namespace Schema.Planned

variable {schema : Schema} {s : Struct} {plan : Plan} {slots : List UnionSlot}
  {entries : List (Option WireEntry)} (hp : schema.Planned s plan slots entries)
  (hs : s.WellFormed schema.types) (hflat : schema.IsFlat s)

include hp hflat

theorem isValue_of_mem {e : WireEntry} (he : e ∈ entries.filterMap id) : e.IsValue s := by
  obtain ⟨i, f, hi, -, hentry⟩ := hp.place_of_mem he
  have hf := List.mem_of_getElem? hi
  obtain ⟨hd, hcondition⟩ := hflat.disposition hf
  cases hentry with
  | slot hslot hpos hname =>
    obtain ⟨g, hg, -⟩ := hp.union_of_slot hslot
    rw [hflat.unions] at hg
    cases hg
  | own hconst hunion hshape =>
    cases hshape with
    | @leaf leaf hstored hform =>
      refine ⟨hcondition, leaf, ?_, ?_⟩
      · simp only [WireEntry.encodeOp, hflat.isCount, hflat.regionsMeasuredBy]
        rfl
      · simp only [WireEntry.decodeOp, hflat.isCount]
        rfl
    | nested hstored hform hstruct =>
      have hvalue := (hflat f hf).2
      rw [hform] at hvalue
      cases hvalue
    | reserved hd' _ => rw [hd] at hd'; cases hd'
    | array hd' _ => rw [hd] at hd'; cases hd'
    | arraySized hd' _ => rw [hd] at hd'; cases hd'
    | fill hd' _ => rw [hd] at hd'; cases hd'

/-- Nothing is looked back at. -/
theorem decode_of_isFlat :
    plan.decode = (entries.filterMap id).map fun e => e.step (e.decodeOp s) := by
  rw [← hp.takingSteps]
  unfold Plan.takingSteps
  rw [eq_comm, List.filter_eq_self]
  intro step hstep
  cases hdeferred : step.op.isDeferred with
  | false => rfl
  | true =>
    rcases hp.resolves_or_compares hstep hdeferred with ⟨g, hg, -⟩ | ⟨f, hf, target, htarget, -⟩
    · rw [hflat.unions] at hg
      cases hg
    · have hd := Field.disposition_of_sizeOfTarget? htarget
      rw [(hflat.disposition hf).1] at hd
      cases hd

include hs

/-- Every field is on the wire. -/
theorem fields_of_isFlat : (entries.filterMap id).map (·.field) = s.fields.map (·.name) := by
  have hall : s.wireFields = s.fields := by
    unfold Struct.wireFields
    rw [List.filter_eq_self]
    intro f hf
    obtain ⟨hd, hcondition⟩ := hflat.disposition hf
    rw [Struct.unionOf?_of_unconditioned hs.names hf hcondition]
    simp [Field.isConst, hd, Disposition.role]
  rw [← hall, hp.map_field hs]

end Schema.Planned

/-- Values that were written one after the other are read back. -/
theorem readSteps_of_values (c : Codec) (d : Decoder) {s : Struct} (plan : Plan) {frame : Frame}
    {schema : Schema} {measure : Measure} {encoder : Encoder} {es : List WireEntry}
    (hvalues : ∀ e ∈ es, e.IsValue s) {bytes : Bytes}
    (h : joinM (frame.stepBytes schema measure encoder) (es.map fun e => e.step (e.encodeOp s)) =
      .ok bytes) {p : Progress} {next : Cursor} (hreads : p.cursor.Reads bytes next) :
    ∃ p', (es.map fun e => e.step (e.decodeOp s)).foldlM (c.readStep d s plan) p = .ok p' ∧
      p'.cursor = next ∧ ∀ name,
        (name ∈ es.map (·.field) → ∃ v leaf part, frame.value name = .ok v ∧
          Leaf.write leaf name v = .ok part ∧ p'.record.get? name = some v) ∧
        (name ∉ es.map (·.field) → p'.record.get? name = p.record.get? name) := by
  induction es generalizing p bytes with
  | nil =>
    cases h
    refine ⟨p, rfl, hreads.eq_of_nil.symm, fun name => ⟨fun hmem => ?_, fun _ => rfl⟩⟩
    cases hmem
  | cons e es ih =>
    obtain ⟨hguard, leaf, hwrite, hread⟩ := hvalues e (by simp)
    simp only [List.map_cons, joinM, bind_eq_ok] at h
    obtain ⟨part, hpart, more, hmore, h⟩ := h
    cases h
    obtain ⟨mid, hfirst, hlast⟩ := hreads.split
    -- the value of the first entry, written and read
    have hpart' : (frame.value e.field).bind (leaf.write e.field) = .ok part := by
      have hstep : frame.stepBytes schema measure encoder (e.step (e.encodeOp s)) =
          (frame.value e.field).bind (leaf.write e.field) := by
        unfold Frame.stepBytes WireEntry.step
        simp only [hguard, hwrite, Frame.holds, ok_bind, if_true, Frame.opBytes]
        rfl
      rw [← hstep]
      exact hpart
    obtain ⟨v, hv, hwritten⟩ := bind_eq_ok'.mp hpart'
    let q : Progress := ((p.noteValue e.field v).store e.field v).moveTo mid
    have hq : c.readStep d s plan p (e.step (e.decodeOp s)) = .ok q := by
      unfold Codec.readStep WireEntry.step
      simp only [hguard, hread, Progress.holds, ok_bind, if_true, Codec.readOp,
        Leaf.read_of_write hwritten hfirst]
      rfl
    have hrecord : q.record = p.record.insert e.field v := by
      simp only [q, Progress.moveTo, Progress.store, p.record_noteValue]
    obtain ⟨p', hp', hcursor, hget⟩ := ih (fun e' he' => hvalues e' (List.mem_cons_of_mem _ he'))
      hmore (p := q) hlast
    refine ⟨p', ?_, hcursor, fun name => ⟨fun hmem => ?_, fun hmem => ?_⟩⟩
    · rw [List.map_cons, List.foldlM_cons, hq]
      exact hp'
    · by_cases hlater : name ∈ es.map (·.field)
      · exact (hget name).1 hlater
      · rw [List.map_cons, List.mem_cons] at hmem
        obtain rfl : name = e.field := hmem.resolve_right hlater
        refine ⟨v, leaf, part, hv, hwritten, ?_⟩
        rw [(hget e.field).2 hlater, hrecord, Record.get?_insert_self]
    · rw [List.map_cons, List.mem_cons, not_or] at hmem
      rw [(hget name).2 hmem.2, hrecord, Record.get?_insert_of_ne _ _ hmem.1]

namespace Codec

variable {c : Codec}

/-- A struct of values only is read back with the values that it was written with, whatever follows. -/
theorem Sound.decoder_of_isFlat (hc : c.Sound) {name : String} {s : Struct}
    (hs : c.schema.struct? name = some s) (hflat : c.schema.IsFlat s) {depth : Nat}
    {initial : List Initializer} {r : Record} {bytes : Bytes}
    (h : c.encodeAt depth name initial r = .ok bytes) {cursor next : Cursor}
    (hreads : cursor.Reads bytes next) :
    ∃ frame read, c.frame name initial r = .ok frame ∧ c.decoder name cursor = .ok (read, next) ∧
      ∀ f ∈ s.fields, ∃ v leaf part, frame.value f.name = .ok v ∧
        Leaf.write leaf f.name v = .ok part ∧ read.get? f.name = some v := by
  obtain ⟨plan, -, hl⟩ := hc.lookup_of_struct? hs
  obtain ⟨-, hmem, -, -, -, slots, entries, hp⟩ := hc.planned_of_lookup hl
  have hwf := hc.linked.wellFormed s hmem
  cases depth with
  | zero => cases h
  | succ depth =>
    obtain ⟨frame, hframe, h⟩ := bind_eq_ok.mp h
    obtain ⟨s', plan', hl', -, hparts⟩ := frame_eq_ok.mp hframe
    obtain ⟨rfl, rfl⟩ := Prod.mk.inj (Except.ok.inj (hl.symm.trans hl'))
    have hencode : frame.plan.encode =
        (entries.filterMap id).map fun e => e.step (e.encodeOp s) := by
      rw [hparts]
      exact hp.encode
    rw [hencode] at h
    have hstart : (Progress.start s name cursor).cursor.Reads bytes next := hreads
    obtain ⟨p, hsteps, hnext, hget⟩ :=
      readSteps_of_values c (c.decodeAt ((cursor.remaining + 1) * c.schema.structs.length)) plan
        (fun e he => hp.isValue_of_mem hflat he) h hstart
    rw [← hp.decode_of_isFlat hflat] at hsteps
    refine ⟨frame, p.record, hframe, ?_, fun f hf => ?_⟩
    · unfold decoder depthIn
      rw [decodeAt_succ, enter, hl, ok_bind]
      simp only [hsteps, ok_bind, hnext]
    · refine (hget f.name).1 ?_
      rw [hp.fields_of_isFlat hwf hflat]
      exact List.mem_map_of_mem hf

end Codec

/-! ## Members of a header -/

namespace Schema

variable {schema : Schema} {name field : String} {s t : Struct} {f : Field}

/-- A field of its own is a member by itself. -/
theorem memberPath?_of_own (hs : schema.struct? name = some s)
    (hfield : (s.field? field).isSome = true) : schema.memberPath? name field = some [field] := by
  unfold memberPath? memberPathFrom?
  rw [hs, Option.bind_some, if_pos hfield]

/-- A field of the first inline struct is a member through it. -/
theorem memberPath?_of_inline (hs : schema.struct? name = some s) (hnot : s.field? field = none)
    (hfirst : (s.fields.find? fun f => f.disposition == .inline) = some f)
    (ht : schema.struct? f.typeName = some t) (hfield : (t.field? field).isSome = true) :
    schema.memberPath? name field = some [f.name, field] := by
  have hpos : 0 < schema.structs.length := List.length_pos_of_mem (mem_of_struct? hs).1
  obtain ⟨n, hn⟩ := Nat.exists_eq_succ_of_ne_zero (Nat.ne_of_gt hpos)
  have hinner : schema.memberPathFrom? field schema.structs.length [name] f.typeName =
      some [field] := by
    rw [hn]
    unfold memberPathFrom?
    rw [ht, Option.bind_some, if_pos hfield]
  obtain ⟨rest, hinline⟩ : ∃ rest, (s.fields.filter fun f => f.disposition == .inline) = f :: rest :=
    List.head?_eq_some_iff.mp (List.head?_filter.trans hfirst)
  unfold memberPath? memberPathFrom?
  rw [hs, Option.bind_some, hnot, hinline, List.findSome?_cons, hinner]
  rfl

/-- The member of the first inline struct is its field. -/
theorem member?_of_inline (hs : schema.struct? name = some s)
    (hnames : (s.fields.map (·.name)).Nodup) (hnot : s.field? field = none)
    (hfirst : (s.fields.find? fun f => f.disposition == .inline) = some f)
    (ht : schema.struct? f.typeName = some t) {g : Field} (hg : t.field? field = some g) :
    schema.member? name field = some g := by
  have hpath := memberPath?_of_inline hs hnot hfirst ht (by rw [hg]; rfl)
  have hf : s.field? f.name = some f := Struct.field?_of_mem hnames (List.mem_of_find?_eq_some hfirst)
  simp only [member?, hpath, hs, fieldAt?, hf, ht, hg, Option.bind_some]

end Schema

/-! ## Structs that start with the header of their group -/

/-- Whether a registered struct that has a version starts with the header of its group, a struct of
values only among which the discriminator and the version are. -/
structure Codec.Headed (c : Codec) (s : Struct) (i : Identity) (version : Nat) (b : HeaderBinding)
    (versionField : String) (f : Field) (t : Struct) : Prop where
  /-- The struct is declared and registered under an identity. -/
  declared : c.schema.struct? s.name = some s
  registered : c.dispatch.identity? s.name = some i
  version : s.version = some version
  /-- The header of the group has a member for the version. -/
  bound : c.dispatch.header? i.group = some b
  versioned : b.versionField = some versionField
  /-- The struct declares no other header. -/
  own : s.header = none ∨ s.header = some b
  /-- The first field on the wire holds this header and is always there. -/
  first : (s.fields.find? fun f => !f.isConst) = some f
  inline : f.disposition = .inline
  always : f.condition = none
  typed : f.typeName = b.header
  /-- The struct itself has neither member. -/
  typeless : s.field? b.typeField = none
  versionless : s.field? versionField = none
  /-- The header has both. -/
  header : c.schema.struct? b.header = some t
  flat : c.schema.IsFlat t
  typeMember : ∃ g ∈ t.fields, g.name = b.typeField ∧ g.typeName = i.group
  versionMember : ∃ g ∈ t.fields, g.name = versionField ∧
    c.schema.types.isNumber g.typeName = true

namespace Codec.Headed

variable {c : Codec} {s : Struct} {i : Identity} {version : Nat} {b : HeaderBinding}
  {versionField : String} {f : Field} {t : Struct} (h : c.Headed s i version b versionField f t)

include h

theorem isConst : f.isConst = false := by simp [Field.isConst, h.inline, Disposition.role]

/-- The header is the first inline field. -/
theorem firstInline : (s.fields.find? fun f => f.disposition == .inline) = some f := by
  obtain ⟨-, before, after, hfields, hconst⟩ := List.find?_eq_some_iff_append.mp h.first
  refine List.find?_eq_some_iff_append.mpr ⟨by simp [h.inline], before, after, hfields, ?_⟩
  intro g hg
  have hg := hconst g hg
  cases hd : g.disposition <;> simp_all [Field.isConst, Disposition.role]

/-- The header is the first part of the struct's layout. -/
theorem firstPart (hnames : (s.fields.map (·.name)).Nodup) : s.wireFields.head? = some f := by
  obtain ⟨-, before, after, hfields, hconst⟩ := List.find?_eq_some_iff_append.mp h.first
  have hunion := Struct.unionOf?_of_unconditioned hnames
    (List.mem_of_find?_eq_some h.first) h.always
  unfold Struct.wireFields
  rw [List.head?_filter]
  refine List.find?_eq_some_iff_append.mpr ⟨?_, before, after, hfields, ?_⟩
  · rw [h.isConst, hunion]
    rfl
  · intro g hg
    have hg : g.isConst = true := by simpa using hconst g hg
    rw [hg]
    rfl

end Codec.Headed

/-- The group of an identity that a struct is registered under is an enum. -/
theorem isEnum_of_identity? {options : Options} {decls : List Declaration} {c : Codec}
    (hcompile : compile options decls = .ok c) {name : String} {i : Identity}
    (hi : c.dispatch.identity? name = some i) : c.schema.types.isEnum i.group = true := by
  obtain ⟨hschema, -, hdispatch, -⟩ := compile_eq_ok.mp hcompile
  have hnames := Schema.nodup_of_ofDeclarations hschema
  obtain ⟨s, hs, -, hidentified⟩ := (Schema.identity?_eq_some hnames hdispatch).mp hi
  obtain ⟨e, he, -⟩ := Schema.hasMember_of_identified hschema hs hidentified
  obtain ⟨hmem, hname, -⟩ := TypeTable.mem_of_enum? he
  simp only [Schema.ofDeclarations, bind_eq_ok, mapError_eq_ok] at hschema
  obtain ⟨types, htypes, hbuild⟩ := hschema
  obtain ⟨rfl, -⟩ := Schema.build_eq_ok.mp hbuild
  have hresolve : c.schema.types.resolve? e.name = some (.enum e) :=
    TypeTable.resolve?_of_declare htypes hmem
  unfold TypeTable.isEnum
  rw [← hname, hresolve]

/-- The members that the records of a struct may leave out are those of its plan. -/
theorem initializers_of_lookup {options : Options} {decls : List Declaration} {c : Codec}
    (hcompile : compile options decls = .ok c) {name : String} {s : Struct} {plan : Plan}
    (hl : c.lookup name = .ok (s, plan)) :
    plan.initializers = c.schema.initializers c.dispatch options s := by
  obtain ⟨-, -, -, hplans⟩ := compile_eq_ok.mp hcompile
  have hall : List.Forall₂ (fun s plan => plan.structName = s.name ∧
      plan.initializers = c.schema.initializers c.dispatch options s)
      c.schema.structs c.plans := by
    refine hplans.imp fun s plan hplan => ?_
    unfold Schema.planOf at hplan
    obtain ⟨slots, -, hplan⟩ := bind_eq_ok.mp hplan
    obtain ⟨entries, -, hplan⟩ := bind_eq_ok.mp hplan
    cases hplan
    exact ⟨rfl, rfl⟩
  unfold Codec.lookup at hl
  split at hl
  · rename_i s' plan' hs hp
    cases hl
    exact (forall₂_find? hall (fun a b hab => by rw [hab.1]) hs hp).2
  · cases hl

/-- An enum is no number. -/
theorem TypeTable.isNumber_of_isEnum {types : TypeTable} {name : String}
    (h : types.isEnum name = true) : types.isNumber name = false := by
  unfold isEnum at h
  unfold isNumber
  split at h
  · rename_i e he
    rw [he]
  · cases h

/-- The integer of a header's member, where its record has one. -/
theorem Codec.headerInt_of_own {c : Codec} {name field : String} {t : Struct}
    (ht : c.schema.struct? name = some t) (hfield : (t.field? field).isSome = true) {r : Record}
    {v : Int} (hv : r.get? field = some (.int v)) : c.headerInt name r field = .ok v := by
  unfold Codec.headerInt
  rw [Schema.memberPath?_of_own ht hfield, Option.bind_some]
  simp only [Record.atPath?, hv, Option.bind_some, Value.int?]

/-- The discriminator and version of a header are its two members. -/
theorem Codec.headerKey_of_members {c : Codec} {b : HeaderBinding} {field : String} {r : Record}
    {id v : Int} {version : Nat} (hfield : b.versionField = some field)
    (hid : c.headerInt b.header r b.typeField = .ok id) (hv : c.headerInt b.header r field = .ok v)
    (hlength : toLength field v = .ok version) : c.headerKey b r = .ok (id, some version) := by
  unfold Codec.headerKey
  rw [hid, ok_bind, hfield]
  exact bind_eq_ok.mpr ⟨v, hv, bind_eq_ok.mpr ⟨version, hlength, rfl⟩⟩

section Headed

variable {options : Options} {decls : List Declaration} {c : Codec}
  (hcompile : compile options decls = .ok c) {s : Struct} {i : Identity} {version : Nat}
  {b : HeaderBinding} {versionField : String} {f : Field} {t : Struct}
  (h : c.Headed s i version b versionField f t)

include hcompile h

/-- The members that a record may leave out are the discriminator and the version in the header. -/
theorem Codec.Headed.initializers_eq : c.schema.initializers c.dispatch options s =
    [ { path := [f.name, b.typeField], value := i.value },
      { path := [f.name, versionField], value := version } ] := by
  have hc := sound_of_compile hcompile
  have hnames := (hc.linked.wellFormed s (Schema.mem_of_struct? h.declared).1).names
  have hnames' := (hc.linked.wellFormed t (Schema.mem_of_struct? h.header).1).names
  have hstruct : c.schema.struct? f.typeName = some t := h.typed ▸ h.header
  have hown : Schema.ownBinding c.dispatch options s i.group = b := by
    unfold Schema.ownBinding
    rw [h.bound]
    rcases h.own with hown | hown <;> rw [hown] <;> rfl
  -- the discriminator
  obtain ⟨g, hg, hname, hgroup⟩ := h.typeMember
  have hfield : t.field? b.typeField = some g := hname ▸ Struct.field?_of_mem hnames' hg
  have htype : c.schema.typeInitializer? s i b =
      some { path := [f.name, b.typeField], value := i.value } := by
    unfold Schema.typeInitializer?
    rw [Schema.memberPath?_of_inline h.declared h.typeless h.firstInline hstruct (by rw [hfield]; rfl),
      Schema.member?_of_inline h.declared hnames h.typeless h.firstInline hstruct hfield,
      Option.bind_some, Option.bind_some, hgroup, isEnum_of_identity? hcompile h.registered]
    simp
  -- the version
  obtain ⟨g', hg', hname', hnumber⟩ := h.versionMember
  have hfield' : t.field? versionField = some g' := hname' ▸ Struct.field?_of_mem hnames' hg'
  have hversion : c.schema.versionInitializer? s b =
      some { path := [f.name, versionField], value := version } := by
    unfold Schema.versionInitializer?
    rw [h.version, h.versioned, Option.bind_some, Option.bind_some,
      Schema.member?_of_inline h.declared hnames h.versionless h.firstInline hstruct hfield',
      Schema.memberPath?_of_inline h.declared h.versionless h.firstInline hstruct
        (by rw [hfield']; rfl), Option.bind_some, (h.flat g' hg').1, hnumber]
    rfl
  unfold Schema.initializers
  simp only [h.registered, hown, htype, hversion]
  rfl

/-- The first step of a writer writes the header. -/
theorem Codec.Headed.firstStep {plan : Plan} (hl : c.lookup s.name = .ok (s, plan)) :
    ∃ isInline more, plan.encode =
      { field := f.name, role := .inline, guard := none, op := .nested b.header isInline } ::
        more := by
  have hc := sound_of_compile hcompile
  obtain ⟨-, hmem, -, -, -, slots, entries, hp⟩ := hc.planned_of_lookup hl
  have hs := hc.linked.wellFormed s hmem
  have hf := List.mem_of_find?_eq_some h.first
  obtain ⟨k, hk⟩ := List.mem_iff_getElem?.mp hf
  have hunion := Struct.unionOf?_of_unconditioned hs.names hf h.always
  obtain ⟨shape, hshape, hentry⟩ := hp.entry_of_own hs hk h.isConst hunion
  have hnested : ∃ isInline, shape = .nested b.header isInline := by
    rcases hshape.of_isStored (by simp [Field.isStored, h.inline]) with
      ⟨l, -, hform⟩ | ⟨isInline, rfl, -⟩
    · rw [h.typed, Schema.form?_of_struct? hcompile h.header] at hform
      cases hform
    · exact ⟨isInline, by rw [h.typed]⟩
  obtain ⟨isInline, rfl⟩ := hnested
  -- the entry of the field is the first one
  obtain ⟨rest, hwire⟩ := List.head?_eq_some_iff.mp (h.firstPart hs.names)
  have hfields := hp.map_field hs
  have hnodup := hp.nodup_field hs
  cases hpresent : entries.filterMap id with
  | nil =>
    rw [hwire, hpresent] at hfields
    cases hfields
  | cons e es =>
    have hname : f.name = e.field := by
      rw [hwire, hpresent] at hfields
      exact (List.cons.inj hfields).1.symm
    have hown : { field := f.name, role := f.disposition.role, guard := f.condition
                  shape := .nested b.header isInline } ∈ entries.filterMap id :=
      List.mem_filterMap.mpr ⟨_, List.mem_of_getElem? hentry, rfl⟩
    have he : e ∈ entries.filterMap id := by
      rw [hpresent]
      exact List.mem_cons_self
    have hsame := List.inj_on_of_nodup_map hnodup he hown hname.symm
    refine ⟨isInline, es.map fun e => e.step (e.encodeOp s), ?_⟩
    rw [hp.encode, hpresent, List.map_cons, hsame, h.always, h.inline]
    rfl

/-- What a record is written as starts with the header, written with the discriminator and the version
that the struct is registered under. -/
theorem Codec.Headed.header_of_encode {r : Record} (hr : r.typeName = s.name) {bytes : Bytes}
    (hencode : c.encode r = .ok bytes) :
    ∃ depth head front back, bytes = front ++ back ∧
      (∀ v, r.get? f.name = some v → v = head.toValue) ∧
      (r.get? f.name = none → head = Record.empty b.header) ∧
      c.encodeAt depth b.header [{ path := [b.typeField], value := i.value },
        { path := [versionField], value := version }] head = .ok front := by
  have hc := sound_of_compile hcompile
  obtain ⟨plan, -, hl⟩ := hc.lookup_of_struct? h.declared
  obtain ⟨isInline, more, hplan⟩ := h.firstStep hcompile hl
  have hinside : ∀ plan' : Plan, plan'.initializers = plan.initializers →
      Frame.initialInside { struct := s, plan := plan', record := r
                            initial := [] ++ plan'.initializers } f.name =
        [{ path := [b.typeField], value := i.value }, { path := [versionField], value := version }] := by
    intro plan' hplan'
    unfold Frame.initialInside
    rw [hplan', initializers_of_lookup hcompile hl, h.initializers_eq hcompile]
    simp [Initializer.inside?]
  have hdepth : c.depthOf r = Value.fieldsDepth r.fields + c.schema.structs.length + 1 := by
    unfold Codec.depthOf
    rw [Record.depth_eq]
    omega
  unfold Codec.encode Codec.encoder at hencode
  rw [hdepth, hr] at hencode
  obtain ⟨frame, hframe, hencode⟩ := bind_eq_ok.mp hencode
  obtain ⟨s', plan', hl', -, rfl⟩ := frame_eq_ok.mp hframe
  obtain ⟨rfl, rfl⟩ := Prod.mk.inj (Except.ok.inj (hl.symm.trans hl'))
  simp only [hplan, joinM, bind_eq_ok, Frame.stepBytes, Frame.holds, ok_bind, if_true, Frame.opBytes,
    hinside plan rfl] at hencode
  obtain ⟨front, ⟨head, hhead, hfront⟩, back, -, hbytes⟩ := hencode
  cases hbytes
  refine ⟨_, head, front, back, rfl, fun v hv => ?_, fun hnone => ?_, hfront⟩
  · unfold Frame.nested at hhead
    rw [hv] at hhead
    exact asRecord_eq_ok.mp hhead
  · unfold Frame.nested at hhead
    rw [hnone, hinside plan rfl] at hhead
    cases hhead
    rfl

/-- The discriminator and the version are different members. -/
theorem Codec.Headed.typeField_ne : b.typeField ≠ versionField := by
  intro heq
  have hc := sound_of_compile hcompile
  have hnames := (hc.linked.wellFormed t (Schema.mem_of_struct? h.header).1).names
  obtain ⟨g, hg, hname, hgroup⟩ := h.typeMember
  obtain ⟨g', hg', hname', hnumber⟩ := h.versionMember
  obtain rfl := List.inj_on_of_nodup_map hnames hg hg' (hname.trans (heq.trans hname'.symm))
  have henum := isEnum_of_identity? hcompile h.registered
  rw [← hgroup] at henum
  rw [TypeTable.isNumber_of_isEnum henum] at hnumber
  cases hnumber

/-- The discriminator and the version stand for the struct. -/
theorem Codec.Headed.resolve? : c.dispatch.resolve? i.group version i.value = some s.name := by
  obtain ⟨hschema, -, hdispatch, -⟩ := compile_eq_ok.mp hcompile
  have hnames := Schema.nodup_of_ofDeclarations hschema
  obtain ⟨s', hs', hsname, hidentified⟩ :=
    (Schema.identity?_eq_some hnames hdispatch).mp h.registered
  obtain rfl := List.inj_on_of_nodup_map hnames hs' (Schema.mem_of_struct? h.declared).1 hsname
  refine (Schema.resolve?_eq_some hnames hdispatch).mpr ⟨s', hs', rfl, i, hidentified, ?_⟩
  rw [h.version, Option.getD_some]

/-- A header whose record says neither member is read back with those that it was written with. -/
theorem Codec.Headed.decodeHeader_of_encodeAt {depth : Nat} {head : Record}
    (htype : head.get? b.typeField = none) (hversion : head.get? versionField = none)
    {front : Bytes} (hfront : c.encodeAt depth b.header [{ path := [b.typeField], value := i.value },
      { path := [versionField], value := version }] head = .ok front) (back : Bytes) :
    c.decodeHeader b (front ++ back) = .ok (i.value, some version) := by
  have hc := sound_of_compile hcompile
  have hnames := (hc.linked.wellFormed t (Schema.mem_of_struct? h.header).1).names
  have hreads : (Cursor.start (front ++ back)).Reads front ⟨front.length, back⟩ :=
    Cursor.Reads.start_iff.mpr ⟨rfl, rfl⟩
  obtain ⟨frame, read, hframe, hread, hget⟩ :=
    hc.decoder_of_isFlat h.header h.flat hfront hreads
  obtain ⟨t', plan, -, -, hparts⟩ := Codec.frame_eq_ok.mp hframe
  -- a member that the record does not say was written, and read, with its initial value
  have hdefault : ∀ g ∈ t.fields, ∀ v, frame.record.get? g.name = none →
      frame.initial? g.name = some v → read.get? g.name = some (.int v) ∧
        ∃ leaf part, Leaf.write leaf g.name (.int v) = .ok part := by
    intro g hg v hnot hinitial
    obtain ⟨w, leaf, part, hw, hwrite, hreadback⟩ := hget g hg
    unfold Frame.value at hw
    rw [hnot, hinitial] at hw
    cases hw
    exact ⟨hreadback, leaf, part, hwrite⟩
  obtain ⟨g, hg, hname, -⟩ := h.typeMember
  obtain ⟨g', hg', hname', -⟩ := h.versionMember
  have hne := h.typeField_ne hcompile
  obtain ⟨hid, -⟩ := hdefault g hg i.value (by rw [hparts, hname]; exact htype)
    (by rw [hparts, hname]; simp [Frame.initial?, Initializer.isFor])
  obtain ⟨hnumber, leaf, part, hwrite⟩ := hdefault g' hg' version
    (by rw [hparts, hname']; exact hversion)
    (by rw [hparts, hname']; simp [Frame.initial?, Initializer.isFor, hne])
  obtain ⟨-, -, hlimit⟩ := Leaf.form_of_write hwrite
  have hlength : toLength versionField (version : Int) = .ok version :=
    toLength_eq_ok.mpr ⟨rfl, by exact_mod_cast hlimit⟩
  have hkey := Codec.headerKey_of_members h.versioned
    (Codec.headerInt_of_own h.header (by rw [← hname, Struct.field?_of_mem hnames hg]; rfl)
      (hname ▸ hid))
    (Codec.headerInt_of_own h.header (by rw [← hname', Struct.field?_of_mem hnames hg']; rfl)
      (hname' ▸ hnumber)) hlength
  exact bind_eq_ok.mpr ⟨_, hread, hkey⟩

end Headed

/-- **Default discriminators dispatch back.** Let a registered struct that has a version start with the
header of its group, a struct of values only with a member for each. Where a record says neither the
discriminator nor the version, or leaves the header out, the header in front of its bytes resolves to
the struct again. -/
theorem resolveHeader_of_encode {options : Options} {decls : List Declaration} {c : Codec}
    (hcompile : compile options decls = .ok c) {s : Struct} {i : Identity} {version : Nat}
    {b : HeaderBinding} {versionField : String} {f : Field} {t : Struct}
    (h : c.Headed s i version b versionField f t) {r : Record} (hr : r.typeName = s.name)
    (hvalue : r.get? f.name = none ∨ ∃ head : Record, r.get? f.name = some head.toValue ∧
      head.typeName = b.header ∧ head.get? b.typeField = none ∧ head.get? versionField = none)
    {bytes : Bytes} (hencode : c.encode r = .ok bytes) :
    c.resolveHeader i.group bytes = .ok (some s.name) := by
  obtain ⟨depth, head, front, back, rfl, hsome, hnone, hfront⟩ :=
    h.header_of_encode hcompile hr hencode
  have hsilent : head.get? b.typeField = none ∧ head.get? versionField = none := by
    rcases hvalue with hvalue | ⟨head', hvalue, -, htype, hversion⟩
    · rw [hnone hvalue]
      exact ⟨rfl, rfl⟩
    · obtain ⟨-, hfields⟩ := Value.record.inj (hsome _ hvalue)
      unfold Record.get? at htype hversion ⊢
      rw [← hfields]
      exact ⟨htype, hversion⟩
  have hheader := h.decodeHeader_of_encodeAt hcompile hsilent.1 hsilent.2 hfront back
  unfold Codec.resolveHeader
  rw [h.bound]
  dsimp only
  rw [hheader, ← h.resolve? hcompile]
  rfl

/-- Two versions of a struct that start with the header of their group; the second borrows the identity
of the first. -/
def headedDeclarations : List Declaration :=
  [ .enum { name := "Kind", width := 2, signedness := .unsigned, comment := none
            members := [{ name := "transfer", value := .unsigned 1, comment := none }] },
    .struct { name := "Header", comment := none, disposition := some "abstract"
              fields := [{ name := some "version", typeName := some "uint8" },
                { name := some "kind", typeName := some "Kind" }] },
    .struct { name := "Transfer", comment := none, disposition := none
              fields :=
                [ { name := some "TRANSACTION_TYPE", typeName := some "Kind"
                    disposition := some "const", value := some (.text "transfer") },
                  { name := some "TRANSACTION_VERSION", typeName := some "uint8"
                    disposition := some "const", value := some (.unsigned 1) },
                  { typeName := some "Header", disposition := some "inline" },
                  { name := some "amount", typeName := some "uint8" } ] },
    .struct { name := "Transfer2", comment := none, disposition := none
              fields :=
                [ { name := some "TRANSACTION_VERSION", typeName := some "uint8"
                    disposition := some "const", value := some (.unsigned 2) },
                  { typeName := some "Header", disposition := some "inline" },
                  { name := some "amount", typeName := some "uint16" } ] },
    .struct { name := "Batch", comment := none, disposition := none
              fields :=
                [ { name := some "length", typeName := some "uint32" },
                  { name := some "transfers", disposition := some "array_sized"
                    header := some "Header", headerTypeField := some "kind"
                    headerVersionField := some "version"
                    size := some (.text "length"), align := some (.unsigned 8) } ] } ]

/-- The second version of a transfer starts with the header of its group. -/
theorem headed_family : ∃ s i f t, s.name = "Transfer2" ∧ s.identity = none ∧ i.group = "Kind" ∧
    f.name = "Header" ∧ (codecOf headedDeclarations).Headed s i 2
      { header := "Header", typeField := "kind", versionField := some "version" } "version" f t := by
  have hbound : (codecOf headedDeclarations).dispatch.header? "Kind" =
      some { header := "Header", typeField := "kind", versionField := some "version" } := by
    decide +kernel
  obtain ⟨i, hregistered, hgroup⟩ :
      ∃ i ∈ (codecOf headedDeclarations).dispatch.identity? "Transfer2", i.group = "Kind" := by
    decide +kernel
  obtain ⟨s, hs, hname, hidentity, hversion, hown, htypeless, hversionless, f, hf, hfname, hinline,
      halways, htyped⟩ :
      ∃ s ∈ (codecOf headedDeclarations).schema.struct? "Transfer2", s.name = "Transfer2" ∧
        s.identity = none ∧ s.version = some 2 ∧ s.header = none ∧ s.field? "kind" = none ∧
        s.field? "version" = none ∧ ∃ f ∈ s.fields.find? fun f => !f.isConst, f.name = "Header" ∧
          f.disposition = .inline ∧ f.condition = none ∧ f.typeName = "Header" := by
    decide +kernel
  obtain ⟨t, ht, hflat, htypeMember, hversionMember⟩ :
      ∃ t ∈ (codecOf headedDeclarations).schema.struct? "Header",
        (codecOf headedDeclarations).schema.IsFlat t ∧
        (∃ g ∈ t.fields, g.name = "kind" ∧ g.typeName = "Kind") ∧
        ∃ g ∈ t.fields, g.name = "version" ∧
          (codecOf headedDeclarations).schema.types.isNumber g.typeName = true := by
    decide +kernel
  exact ⟨s, i, f, t, hname, hidentity, hgroup, hfname,
    { declared := by rw [hname]; exact hs
      registered := by rw [hname]; exact hregistered
      version := hversion
      bound := by rw [hgroup]; exact hbound
      versioned := rfl
      own := .inl hown
      first := hf
      inline := hinline
      always := halways
      typed := htyped
      typeless := htypeless
      versionless := hversionless
      header := ht
      flat := hflat
      typeMember := by rw [hgroup]; exact htypeMember
      versionMember := hversionMember }⟩

/-- A transfer that leaves its header out is found again by the header that is written for it. -/
theorem resolveHeader_of_encode_family :
    let c := codecOf headedDeclarations
    let r : Record := { typeName := "Transfer2", fields := [("amount", .int 3)] }
    compile {} headedDeclarations = .ok c ∧
      (∃ s i version b versionField f t, s.name = "Transfer2" ∧ s.identity = none ∧
        c.Headed s i version b versionField f t ∧ r.get? f.name = none) ∧
      c.encode r = .ok [2, 1, 0, 3, 0] ∧
      c.resolveHeader "Kind" [2, 1, 0, 3, 0] = .ok (some "Transfer2") := by
  intro c r
  have hcompile : compile {} headedDeclarations = .ok c := compile_codecOf (by decide +kernel)
  have hencode : c.encode r = .ok [2, 1, 0, 3, 0] := eq_ok_of_toOption (by decide +kernel)
  obtain ⟨s, i, f, t, hname, hidentity, hgroup, hfname, hheaded⟩ := headed_family
  have habsent : r.get? f.name = none := by
    rw [hfname]
    rfl
  have hresolve := resolveHeader_of_encode hcompile hheaded hname.symm (.inl habsent) hencode
  rw [hgroup, hname] at hresolve
  exact ⟨hcompile, ⟨s, i, _, _, _, f, t, hname, hidentity, hheaded, habsent⟩, hencode, hresolve⟩

end WireLayout
