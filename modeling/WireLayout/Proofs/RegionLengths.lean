import WireLayout.Proofs.Places
import WireLayout.Proofs.SizeOfEncoding

/-!
# What the length of a region says

The length of a region of elements is written before the region: it is what the record says, or the
region is measured for it. It is right where the record says it, because the region is compared with
it, and where the region is measured, because sizes are byte counts. A field that also counts the
elements of an array, or also measures another region, is written as the number of these elements or
for that region alone; the record need not say it, and then nothing is compared.
-/

namespace WireLayout

/-! ## Structs on the way -/

/-- A record that is written as a struct, under initial values for its members. -/
structure Part where
  /-- The struct. -/
  name : String
  /-- The initial values. -/
  initial : List Initializer
  /-- The record. -/
  record : Record

/-- The parts that an operation of a frame writes. -/
inductive Frame.Parts (frame : Frame) (measure : Measure) (field : String) :
    EncodeOp → Part → Prop where
  /-- A struct. -/
  | nested {ty : String} {isInline : Bool} {r : Record} : frame.nested field ty = .ok r →
      Parts frame measure field (.nested ty isInline) ⟨ty, frame.initialInside field, r⟩
  /-- The elements of a counted array. -/
  | array {ty : String} {count : Count} {items : List Value} {r : Record} :
      frame.list field = .ok items → r.toValue ∈ items →
      Parts frame measure field (.array (.struct ty) count) ⟨ty, [], r⟩
  /-- The elements up to the end of the buffer. -/
  | fill {ty : String} {items : List Value} {r : Record} :
      frame.list field = .ok items → r.toValue ∈ items →
      Parts frame measure field (.fill (.struct ty)) ⟨ty, [], r⟩
  /-- The elements of a region. -/
  | arraySized {lengthField : String} {align : Option Nat} {items : List Value} {r : Record} :
      frame.list field = .ok items → r.toValue ∈ items →
      Parts frame measure field (.arraySized lengthField align) ⟨r.typeName, [], r⟩
  /-- The first member of a union whose condition holds. -/
  | union {size : Nat} {before after : List UnionMember} {m : UnionMember} {ty : String}
      {r : Record} : (∀ x ∈ before, frame.holds measure (some x.guard) = .ok false) →
      frame.holds measure (some m.guard) = .ok true → m.element = .struct ty →
      frame.value m.field = .ok r.toValue →
      Parts frame measure field (.union size (before ++ m :: after)) ⟨ty, [], r⟩

/-- The parts that are written when a record is, each with the depth that is left for it: the record
itself, and what the steps write that are done for a part. -/
inductive Codec.Visits (c : Codec) (r : Record) : Nat → Part → Prop where
  /-- The record itself. -/
  | top : Visits c r (c.depthOf r) ⟨r.typeName, [], r⟩
  /-- A part of a part. -/
  | inside {n : Nat} {part inner : Part} {frame : Frame} {step : Step EncodeOp} :
      Visits c r (n + 1) part → c.frame part.name part.initial part.record = .ok frame →
      step ∈ frame.plan.encode → frame.holds c.measure step.guard = .ok true →
      frame.Parts c.measure step.field step.op inner → Visits c r n inner

/-- Whether the step of a field writes these bytes. -/
def Codec.Writes (c : Codec) (n : Nat) (frame : Frame) (field : String) (bytes : Bytes) : Prop :=
  ∃ step ∈ frame.plan.encode, step.field = field ∧
    frame.stepBytes c.schema c.measure (c.encodeAt n) step = .ok bytes

/-- Whether the length field of a region is written as the number of bytes that are written for the
region, the zeros up to the alignment included. -/
def Codec.Honest (c : Codec) (n : Nat) (frame : Frame) (region : String) (lengthField : String) :
    Prop :=
  ∃ (g : Field) (t : IntType) (bytes : Bytes), frame.struct.field? lengthField = some g ∧
    c.schema.types.intType? g.typeName = some t ∧ c.Writes n frame region bytes ∧
    t.contains bytes.length = true ∧ c.Writes n frame lengthField (t.toBytes bytes.length)

/-! ## Parts are written -/

section Steps

variable {frame : Frame} {measure : Measure} {encoder : Encoder}

/-- A part of an operation is written, in no more bytes than the operation gives. -/
theorem Frame.Parts.written {schema : Schema} {field : String} {op : EncodeOp} {part : Part}
    (h : frame.Parts measure field op part) {bytes : Bytes}
    (hb : frame.opBytes schema measure encoder field op = .ok bytes) :
    ∃ inner, encoder part.name part.initial part.record = .ok inner ∧
      inner.length ≤ bytes.length := by
  cases h with
  | nested hr =>
    obtain ⟨r, hr', hb⟩ := bind_eq_ok.mp hb
    rw [hr] at hr'
    cases hr'
    exact ⟨bytes, hb, Nat.le_refl _⟩
  | array hitems hmem =>
    obtain ⟨items', hitems', hjoin⟩ := joinM_of_array hb
    rw [hitems] at hitems'
    cases hitems'
    obtain ⟨inner, hinner, hle⟩ := length_le_of_joinM hjoin hmem
    exact ⟨inner, Element.write_struct.symm.trans hinner, hle⟩
  | fill hitems hmem =>
    obtain ⟨items', hitems', hb⟩ := bind_eq_ok.mp hb
    rw [hitems] at hitems'
    cases hitems'
    obtain ⟨inner, hinner, hle⟩ := length_le_of_joinM hb hmem
    exact ⟨inner, Element.write_struct.symm.trans hinner, hle⟩
  | arraySized hitems hmem =>
    obtain ⟨items', hitems', hregion, -⟩ := regionBytes_of_arraySized hb
    rw [hitems] at hitems'
    cases hitems'
    exact length_le_of_regionBytes hregion hmem
  | union hbefore hm helem hv =>
    obtain ⟨raw, hraw, -, rfl⟩ := unionBytes_of_union hb
    have hwrite := write_of_unionBytes hraw hbefore hm hv
    rw [helem, Element.write_struct] at hwrite
    rw [List.length_append]
    exact ⟨raw, hwrite, Nat.le_add_right _ _⟩

/-- A part of an operation of a frame nests less deep than the frame's record, or is empty. -/
theorem Frame.Parts.depth {field : String} {op : EncodeOp} {part : Part}
    (h : frame.Parts measure field op part) :
    part.record.depth < frame.record.depth ∨ part.record.fields = [] := by
  have helement : ∀ {items : List Value} {r : Record}, frame.list field = .ok items →
      r.toValue ∈ items → r.depth < frame.record.depth := fun hitems hmem =>
    Record.depth_lt_of_mem (Frame.list_eq_ok.mp hitems) hmem
  cases h with
  | nested hr =>
    unfold Frame.nested at hr
    split at hr
    · rename_i v hv
      obtain rfl := asRecord_eq_ok.mp hr
      exact Or.inl (Record.depth_lt_of_get? hv)
    · split at hr
      · cases hr
      · cases hr
        exact Or.inr rfl
  | array hitems hmem => exact Or.inl (helement hitems hmem)
  | fill hitems hmem => exact Or.inl (helement hitems hmem)
  | arraySized hitems hmem => exact Or.inl (helement hitems hmem)
  | @union _ _ _ m _ r _ _ _ hv =>
    unfold Frame.value at hv
    split at hv
    · rename_i v hget
      cases hv
      exact Or.inl (Record.depth_lt_of_get? hget)
    · split at hv
      · cases hv
      · cases hv

end Steps

namespace Codec

variable {c : Codec} {r : Record} {bytes : Bytes} {n : Nat} {part : Part}

/-- What is visited is written. -/
theorem Visits.written (h : c.Visits r n part) (hb : c.encode r = .ok bytes) :
    ∃ inner, c.encodeAt n part.name part.initial part.record = .ok inner ∧
      inner.length ≤ bytes.length := by
  -- on the way from the record to the part: a step of each part on it writes the next one
  induction h with
  | top => exact ⟨bytes, hb, Nat.le_refl _⟩
  | @inside n part inner frame step _ hframe hstep hholds hpart ih =>
    obtain ⟨outer, houter, hle⟩ := ih
    simp only [encodeAt, bind_eq_ok] at houter
    obtain ⟨frame', hframe', houter⟩ := houter
    rw [hframe] at hframe'
    cases hframe'
    obtain ⟨own, hown, hle'⟩ := length_le_of_joinM houter hstep
    simp only [Frame.stepBytes, hholds, ok_bind, if_true] at hown
    obtain ⟨bytes', hbytes', hle''⟩ := hpart.written hown
    exact ⟨bytes', hbytes', by omega⟩

/-- A step that writes a nested struct is that of a field. -/
theorem Sound.field_of_nested {s : Struct} {plan : Plan} (hc : c.Sound) {name : String}
    (hl : c.lookup name = .ok (s, plan)) {step : Step EncodeOp} (hstep : step ∈ plan.encode)
    {ty : String} {isInline : Bool} (hop : step.op = .nested ty isInline) :
    ∃ f, s.field? step.field = some f ∧ f.name = step.field ∧ f.typeName = ty := by
  obtain ⟨-, hmem, -, -, -, slots, entries, hp⟩ := hc.planned_of_lookup hl
  rw [hp.encode] at hstep
  obtain ⟨e, he, rfl⟩ := List.mem_map.mp hstep
  obtain ⟨i, f, hf, hentry⟩ := hp.exists_of_mem he
  have hop : e.encodeOp s = .nested ty isInline := hop
  cases hentry with
  | slot => cases hop
  | own _ _ hshape =>
    cases hshape with
    | nested _ _ _ =>
      cases hop
      refine ⟨f, ?_, rfl, rfl⟩
      exact Struct.field?_of_mem (hc.linked.wellFormed s hmem).names (List.mem_of_getElem? hf)
    | leaf _ _ =>
      simp only [WireEntry.encodeOp] at hop
      split at hop
      · cases hop
      · split at hop <;> cases hop
    | _ => cases hop

/-- What is visited is no deeper than the depth that is left, and the initial values that are in force
there spare the length fields. -/
theorem Visits.within (h : c.Visits r n part) (hc : c.Sound) (hspares : c.SparesLengths) :
    (c.depthOf part.record ≤ n ∨ part.record.fields = []) ∧
      ∀ s, c.schema.struct? part.name = some s → c.schema.SparesLengths s part.initial := by
  induction h with
  | top => exact ⟨Or.inl (Nat.le_refl _), fun _ _ i hi => by cases hi⟩
  | @inside n part inner frame step _ hframe hstep _ hpart ih =>
    obtain ⟨hdepth, hinitial⟩ := ih
    obtain ⟨s, plan, hl, -, rfl⟩ := frame_eq_ok.mp hframe
    refine ⟨?_, fun t ht => ?_⟩
    · rcases hpart.depth with hlt | hnil
      · refine Or.inl ?_
        dsimp only at hlt
        rcases hdepth with hdepth | hnil
        · unfold depthOf at hdepth ⊢
          omega
        · rw [Record.depth_eq, Record.depth_eq, hnil] at hlt
          exact absurd hlt (by simp [Value.fieldsDepth])
      · exact Or.inr hnil
    · have hall := hc.spares_of_lookup hspares hl hinitial
      cases hop : step.op with
      | nested ty isInline =>
        rw [hop] at hpart
        obtain ⟨f, hf, hfname, rfl⟩ := hc.field_of_nested hl hstep hop
        cases hpart with
        | nested _ =>
          rw [← hfname] at hf ⊢
          exact hall.inside hf ht
      | _ =>
        rw [hop] at hpart
        cases hpart <;> exact fun i hi => by cases hi

end Codec

/-! ## Lengths -/

section Lengths

variable {c : Codec} {n : Nat} {frame : Frame} {slots : List UnionSlot}
  {entries : List (Option WireEntry)} {f : Field} {layout : SizedArray}

/-- The entry of a place is written by a step. -/
theorem Schema.Planned.mem_encode {schema : Schema} {s : Struct} {plan : Plan}
    (hp : schema.Planned s plan slots entries) {i : Nat} {e : WireEntry}
    (he : entries[i]? = some (some e)) : e.step (e.encodeOp s) ∈ plan.encode := by
  rw [hp.encode]
  exact List.mem_map.mpr ⟨e, List.mem_filterMap.mpr ⟨_, List.mem_of_getElem? he, rfl⟩, rfl⟩

/-- A region is written by the step of its field, where the condition of the field holds. -/
theorem Schema.Planned.region_written (hc : c.Sound) (hmem : frame.struct ∈ c.schema.structs)
    (hp : c.schema.Planned frame.struct frame.plan slots entries)
    (hwritten : ∀ step ∈ frame.plan.encode, ∃ bytes, frame.stepBytes c.schema c.measure
      (c.encodeAt n) step = .ok bytes)
    (hf : f ∈ frame.struct.fields) (hl : f.sizedArray? = some layout)
    (hholds : frame.holds c.measure f.condition = .ok true) :
    ∃ region, c.Writes n frame f.name region ∧ frame.opBytes c.schema c.measure (c.encodeAt n) f.name
      (.arraySized layout.lengthField layout.align) = .ok region := by
  have hs := hc.linked.wellFormed _ hmem
  have hd := Field.disposition_of_sizedArray? hl
  have hunion := hp.unionOf?_of_not_stored hs hf (by simp [Field.isStored, hd])
  obtain ⟨i, hi⟩ := List.mem_iff_getElem?.mp hf
  obtain ⟨shape, hshape, hentry⟩ :=
    hp.entry_of_own hs hi (by simp [Field.isConst, hd, Disposition.role]) hunion
  have hstep := hp.mem_encode hentry
  obtain ⟨region, hregion⟩ := hwritten _ hstep
  refine ⟨region, ⟨_, hstep, rfl, hregion⟩, ?_⟩
  have hop := hregion
  simp only [Frame.stepBytes, WireEntry.step, hholds, ok_bind, if_true] at hop
  cases hshape with
  | arraySized hd' _ =>
    rw [hd] at hd'
    cases hd'
    exact hop
  | leaf hstored _ => simp [Field.isStored, hd] at hstored
  | nested hstored _ _ => simp [Field.isStored, hd] at hstored
  | reserved hd' _ => rw [hd] at hd'; cases hd'
  | array hd' _ => rw [hd] at hd'; cases hd'
  | fill hd' _ => rw [hd] at hd'; cases hd'

/-- The length field of a region, if it counts no elements, is written as the byte length of the last
region that it measures. -/
theorem Schema.Planned.length_written (hc : c.Sound) (hmem : frame.struct ∈ c.schema.structs)
    (hp : c.schema.Planned frame.struct frame.plan slots entries)
    (hwritten : ∀ step ∈ frame.plan.encode, ∃ bytes, frame.stepBytes c.schema c.measure
      (c.encodeAt n) step = .ok bytes)
    (hf : f ∈ frame.struct.fields) (hl : f.sizedArray? = some layout)
    (hcount : frame.struct.isCount layout.lengthField = false) :
    ∃ (g : Field) (t : IntType) (array : String) (align : Option Nat) (k : Int),
      frame.struct.field? layout.lengthField = some g ∧
      c.schema.types.intType? g.typeName = some t ∧
      (frame.struct.regionsMeasuredBy layout.lengthField).getLast? = some (array, align) ∧
      frame.byteLength c.measure layout.lengthField array align = .ok k ∧
      t.contains k = true ∧ c.Writes n frame layout.lengthField (t.toBytes k) := by
  have hs := hc.linked.wellFormed _ hmem
  obtain ⟨i, hi⟩ := List.mem_iff_getElem?.mp hf
  obtain ⟨j, g, -, hg, hname, hplain, hnum⟩ :=
    hs.counted i f hi _ (Field.lengthName?_of_sizedArray? hl)
  have hgmem := List.mem_of_getElem? hg
  obtain ⟨hd, hcond⟩ := Field.isPlain_eq_true.mp hplain
  obtain ⟨t, ht⟩ := TypeTable.intType_of_isNumber hnum
  have hform := TypeTable.form?_of_intType? ht
  obtain ⟨shape, hshape, hentry⟩ := hp.entry_of_own hs hg
    (by simp [Field.isConst, hd, Disposition.role])
    (Struct.unionOf?_of_unconditioned hs.names hgmem hcond)
  have hstep := hp.mem_encode hentry
  obtain ⟨bytes, hbytes⟩ := hwritten _ hstep
  have hne : frame.struct.regionsMeasuredBy layout.lengthField ≠ [] :=
    List.ne_nil_of_mem (Struct.mem_regionsMeasuredBy.mpr ⟨f, hf, layout, hl, rfl, rfl⟩)
  obtain ⟨⟨array, align⟩, hlast⟩ : ∃ p, _ = some p := ⟨_, List.getLast?_eq_some_getLast hne⟩
  rcases hshape.of_isStored (by simp [Field.isStored, hd]) with ⟨leaf, rfl, hleaf⟩ | ⟨_, -, hnone⟩
  · have hint : leaf.form = .int t := (Option.some.inj (hform.symm.trans hleaf)).symm
    have hop := hbytes
    simp only [Frame.stepBytes, WireEntry.step, WireEntry.encodeOp, hcond, hname, hcount, hlast,
      Frame.holds, ok_bind, if_true, Bool.false_eq_true, if_false, Frame.opBytes, bind_eq_ok]
      at hop
    obtain ⟨k, hk, hop⟩ := hop
    unfold Leaf.write at hop
    rw [hint] at hop
    obtain ⟨hcontains, rfl⟩ := t.write_eq_ok.mp hop
    refine ⟨g, t, array, align, k, hname ▸ Struct.field?_of_mem hs.names hgmem, ht, hlast, hk,
      hcontains, ?_⟩
    exact ⟨_, hstep, hname, hbytes⟩
  · rw [hform] at hnone
    cases hnone

/-- A region is only written if its length is what the record says, where the record says it. -/
theorem Frame.length_of_stored {schema : Schema} {measure : Measure} {encoder : Encoder}
    {field lengthField array : String} {align align' : Option Nat} {region : Bytes}
    (hb : frame.opBytes schema measure encoder field (.arraySized lengthField align) = .ok region)
    (hstored : (frame.record.get? lengthField).isSome = true) {k : Int}
    (hk : frame.byteLength measure lengthField array align' = .ok k) : k = region.length := by
  obtain ⟨v, hv⟩ := Option.isSome_iff_exists.mp hstored
  simp only [Frame.byteLength, hv] at hk
  obtain rfl := asInt_eq_ok.mp hk
  obtain ⟨items, -, -, hsaid⟩ := regionBytes_of_arraySized hb
  exact hsaid _ hv

/-- A length that is measured for a region is the length of the region. -/
theorem Codec.Framed.length_of_measured (h : c.Framed n frame) {field lengthField : String}
    {align : Option Nat} {region : Bytes}
    (hb : frame.opBytes c.schema c.measure (c.encodeAt n) field (.arraySized lengthField align) =
      .ok region)
    (hlt : region.length < sizeLimit) (hstored : (frame.record.get? lengthField).isSome = false)
    {k : Int} (hk : frame.byteLength c.measure lengthField field align = .ok k) :
    k = region.length := by
  have hnone : frame.record.get? lengthField = none := by simpa using hstored
  simp only [Frame.byteLength, hnone, bind_eq_ok] at hk
  obtain ⟨items, hitems, hbytes, -⟩ := Frame.regionBytes_of_arraySized hb
  obtain ⟨items', hitems', hk⟩ := hk
  rw [hitems] at hitems'
  cases hitems'
  obtain ⟨m, hm, rfl⟩ := map_eq_ok.mp hk
  have hget := Frame.list_eq_ok.mp hitems
  have hsize := regionLength_below (h.agrees _ items hget) _ _ _ m hm
  rw [Codec.regionLength_of_regionBytes (h.elements _ items hget) hbytes (by omega),
    Nat.zero_add] at hsize
  rw [Except.ok.inj hsize]
  rfl

end Lengths

/-- **The lengths of regions.** In every struct that is written, the length field of a region that is
there is written as the number of bytes of the region, if the record says the length and the field
counts no elements, or if no length field of the schema has another use or an initial value. -/
theorem region_length_of_encode {options : Options} {decls : List Declaration} {c : Codec}
    (hcompile : compile options decls = .ok c) {r : Record} {bytes : Bytes}
    (hb : c.encode r = .ok bytes) {n : Nat} {part : Part} (hvisit : c.Visits r (n + 1) part)
    {frame : Frame} (hframe : c.frame part.name part.initial part.record = .ok frame)
    {f : Field} (hf : f ∈ frame.struct.fields) {layout : SizedArray}
    (hl : f.sizedArray? = some layout) (hholds : frame.holds c.measure f.condition = .ok true)
    (hsaid : frame.struct.isCount layout.lengthField = false ∧
        (frame.record.get? layout.lengthField).isSome = true ∨
      c.schema.LengthsOwned ∧ c.SparesLengths ∧ bytes.length < sizeLimit) :
    c.Honest n frame f.name layout.lengthField := by
  have hc := sound_of_compile hcompile
  obtain ⟨inner, hinner, hle⟩ := hvisit.written hb
  simp only [Codec.encodeAt, bind_eq_ok] at hinner
  obtain ⟨frame', hframe', hinner⟩ := hinner
  rw [hframe] at hframe'
  cases hframe'
  have hwritten : ∀ step ∈ frame.plan.encode, ∃ bytes, frame.stepBytes c.schema c.measure
      (c.encodeAt n) step = .ok bytes := fun step hstep => exists_of_joinM hinner hstep
  obtain ⟨s, plan, hlookup, -, heq⟩ := Codec.frame_eq_ok.mp hframe
  obtain ⟨-, hmem, -, -, -, slots, entries, hp⟩ := hc.planned_of_lookup hlookup
  replace hmem : frame.struct ∈ c.schema.structs := heq ▸ hmem
  replace hp : c.schema.Planned frame.struct frame.plan slots entries := heq ▸ hp
  obtain ⟨region, hregion, hop⟩ := hp.region_written hc hmem hwritten hf hl hholds
  have hcount : frame.struct.isCount layout.lengthField = false :=
    hsaid.elim And.left fun h => (h.1.regions hmem hf hl).1
  obtain ⟨g, t, array, align, k, hg, ht, hlast, hk, hcontains, hlength⟩ :=
    hp.length_written hc hmem hwritten hf hl hcount
  suffices hsame : k = region.length by
    subst hsame
    exact ⟨g, t, region, hg, ht, hregion, hcontains, hlength⟩
  cases hstored : (frame.record.get? layout.lengthField).isSome with
  | true => exact Frame.length_of_stored hop hstored hk
  | false =>
    -- a length that the record does not say is measured for the last region: the only one
    obtain ⟨howned, hspares, hlt⟩ := hsaid.resolve_left fun h => by rw [hstored] at h; cases h.2
    obtain ⟨hdepth, hinitial⟩ := hvisit.within hc hspares
    have hframed := hc.framed_of_frame hspares (Codec.measures hc howned hspares n) hinitial hdepth
      hframe
    rw [(howned.regions hmem hf hl).2.2] at hlast
    cases hlast
    obtain ⟨step, hstep, -, hbytes⟩ := hregion
    obtain ⟨own, hown, hle'⟩ := length_le_of_joinM hinner hstep
    rw [hbytes] at hown
    cases hown
    exact hframed.length_of_measured hop (by omega) hstored hk

/-- The length of the batch's region of transfers is written as the number of its bytes. -/
theorem region_length_of_encode_batch :
    compile {} sampleDeclarations = .ok sampleCodec ∧
    sampleCodec.encode sampleRecord = .ok sampleBytes ∧
    sampleCodec.Visits sampleRecord (5 + 1) ⟨"Batch", [], sampleRecord⟩ ∧
    ∃ frame, sampleCodec.frame "Batch" [] sampleRecord = .ok frame ∧
      ∃ f ∈ frame.struct.fields, ∃ layout, f.sizedArray? = some layout ∧
        frame.holds sampleCodec.measure f.condition = .ok true ∧
        frame.struct.isCount layout.lengthField = false ∧
        (frame.record.get? layout.lengthField).isSome = true ∧
        sampleCodec.Honest 5 frame f.name layout.lengthField := by
  have hb : sampleCodec.encode sampleRecord = .ok sampleBytes :=
    eq_ok_of_toOption (by decide +kernel)
  have hdepth : sampleCodec.depthOf sampleRecord = 5 + 1 := by decide +kernel
  have hvisit : sampleCodec.Visits sampleRecord (5 + 1) ⟨"Batch", [], sampleRecord⟩ := hdepth ▸ .top
  obtain ⟨frame, hframe, f, hf, layout, hl, hholds, hcount, hstored⟩ :
      ∃ frame, sampleCodec.frame "Batch" [] sampleRecord = .ok frame ∧
        ∃ f ∈ frame.struct.fields, ∃ layout ∈ f.sizedArray?,
          (frame.holds sampleCodec.measure f.condition).toOption = some true ∧
          frame.struct.isCount layout.lengthField = false ∧
          (frame.record.get? layout.lengthField).isSome = true :=
    exists_ok_of_toOption (by decide +kernel)
  have hholds := eq_ok_of_toOption hholds
  exact ⟨compile_sample, hb, hvisit, frame, hframe, f, hf, layout, hl, hholds, hcount, hstored,
    region_length_of_encode compile_sample hb hvisit hframe hf hl hholds (Or.inl ⟨hcount, hstored⟩)⟩

/-! ## A length that also counts -/

/-- A ledger: one field says how many ids there are and how long the region of entries is. -/
def ledgerDeclarations : List Declaration :=
  [ .enum { name := "Kind", width := 1, signedness := .unsigned, comment := none
            members := [{ name := "transfer", value := .unsigned 1, comment := none }] },
    .struct { name := "Header", comment := none, disposition := some "abstract"
              fields := [{ name := some "kind", typeName := some "Kind" }] },
    .struct { name := "Ledger", comment := none, disposition := none
              fields :=
                [ { name := some "length", typeName := some "uint8" },
                  { name := some "ids", typeName := some "uint8", disposition := some "array"
                    size := some (.text "length") },
                  { name := some "entries", disposition := some "array_sized"
                    header := some "Header", headerTypeField := some "kind"
                    size := some (.text "length") } ] } ]

/-- The codec of the ledger. -/
def ledgerCodec : Codec := codecOf ledgerDeclarations

theorem compile_ledger : compile {} ledgerDeclarations = .ok ledgerCodec :=
  compile_codecOf (by decide +kernel)

/-- A ledger of two ids without entries. -/
def ledgerRecord : Record :=
  { typeName := "Ledger", fields := [("entries", .list []), ("ids", .list [.int 1, .int 2])] }

/-- The region of the ledger has no bytes, and its length field is written as 2. -/
theorem ledger_length_counts :
    compile {} ledgerDeclarations = .ok ledgerCodec ∧
    ledgerCodec.encode ledgerRecord = .ok [2, 1, 2] ∧
    ledgerCodec.Visits ledgerRecord (2 + 1) ⟨"Ledger", [], ledgerRecord⟩ ∧
    ∃ frame, ledgerCodec.frame "Ledger" [] ledgerRecord = .ok frame ∧
      ∃ f ∈ frame.struct.fields, ∃ layout, f.sizedArray? = some layout ∧
        frame.holds ledgerCodec.measure f.condition = .ok true ∧
        ¬ ledgerCodec.Honest 2 frame f.name layout.lengthField := by
  have hb : ledgerCodec.encode ledgerRecord = .ok [2, 1, 2] :=
    eq_ok_of_toOption (by decide +kernel)
  have hdepth : ledgerCodec.depthOf ledgerRecord = 2 + 1 := by decide +kernel
  obtain ⟨frame, hframe, f, hf, layout, hl, hholds, hregion, hlength, htype⟩ :
      ∃ frame, ledgerCodec.frame "Ledger" [] ledgerRecord = .ok frame ∧
        ∃ f ∈ frame.struct.fields, ∃ layout ∈ f.sizedArray?,
          (frame.holds ledgerCodec.measure f.condition).toOption = some true ∧
          (∀ step ∈ frame.plan.encode, step.field = f.name →
            (frame.stepBytes ledgerCodec.schema ledgerCodec.measure (ledgerCodec.encodeAt 2)
              step).toOption = some []) ∧
          (∀ step ∈ frame.plan.encode, step.field = layout.lengthField →
            (frame.stepBytes ledgerCodec.schema ledgerCodec.measure (ledgerCodec.encodeAt 2)
              step).toOption = some [2]) ∧
          ∀ g ∈ frame.struct.field? layout.lengthField,
            ∀ t ∈ ledgerCodec.schema.types.intType? g.typeName, t.toBytes 0 ≠ [2] :=
    exists_ok_of_toOption (by decide +kernel)
  refine ⟨compile_ledger, hb, hdepth ▸ .top, frame, hframe, f, hf, layout, hl,
    eq_ok_of_toOption hholds, ?_⟩
  rintro ⟨g, t, bytes, hg, ht, ⟨step, hstep, hfield, hbytes⟩, -, ⟨step', hstep', hfield', hbytes'⟩⟩
  obtain rfl : bytes = [] := by
    have := hregion step hstep hfield
    rw [hbytes] at this
    exact Option.some.inj this
  have hwritten := hlength step' hstep' hfield'
  rw [hbytes'] at hwritten
  exact htype g hg t ht (Option.some.inj hwritten)

end WireLayout
