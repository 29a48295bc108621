import WireLayout.Proofs.Readback

/-!
# Reading what was written

A canonical record that was written is read back from its bytes, by induction on how deep structs nest
in it. An array that goes on to the end of the buffer is read back if nothing comes behind it and none
of its elements is empty, so only the outermost struct may have one.
-/

namespace WireLayout

/-! ## What reading back asks for -/

/-- Whether the presence of a field whose size is promised does not depend on a number of elements. -/
def Schema.TargetsUncounted (schema : Schema) : Prop :=
  ∀ s ∈ schema.structs, ∀ f ∈ s.fields, ∀ target ∈ f.sizeOfTarget?, ∀ g ∈ s.fields,
    g.name = target → ∀ cond ∈ g.condition, s.isCount cond.field = false

instance (schema : Schema) : Decidable schema.TargetsUncounted :=
  inferInstanceAs (Decidable (∀ s ∈ schema.structs, ∀ f ∈ s.fields, ∀ target ∈ f.sizeOfTarget?,
    ∀ g ∈ s.fields, g.name = target → ∀ cond ∈ g.condition, s.isCount cond.field = false))

theorem Schema.TargetsUncounted.promisesSettled {schema : Schema} (h : schema.TargetsUncounted)
    (hlengths : schema.LengthsUncounted) : schema.PromisesSettled :=
  fun s hs f hf target htarget g hg hname =>
    ⟨h s hs f hf target htarget g hg hname, hlengths s hs g hg⟩

/-- Whether an array goes on to the end of the buffer in the record's own struct at most, to which none
of its fields leads back, and whether the elements of this array take a byte each. -/
structure Codec.FillsLast (c : Codec) (r : Record) : Prop where
  /-- No struct that the fields lead to has such an array. -/
  parts : ∀ name, Relation.TransGen c.Refers r.typeName name → ¬ c.schema.DeclaresFill name
  /-- The elements are not empty. -/
  elements : ∀ s, c.schema.struct? r.typeName = some s → ∀ f ∈ s.fields, f.disposition = .arrayFill →
    ∀ element, c.schema.ElementOf f.typeName element → ∀ items, r.get? f.name = some (.list items) →
      ∀ v ∈ items, ∃ bytes, element.write c.encoder f.name v = .ok bytes ∧ bytes ≠ []

/-- A schema without arrays that go on to the end of the buffer has none at all. -/
theorem Codec.fillsLast_of_no_fill {c : Codec}
    (h : ∀ s ∈ c.schema.structs, ∀ f ∈ s.fields, f.disposition ≠ .arrayFill) (r : Record) :
    c.FillsLast r where
  parts := by
    rintro name - ⟨s, hs, f, hf, hd⟩
    exact h s (List.mem_of_find?_eq_some hs) f hf hd
  elements := fun s hs f hf hd => absurd hd (h s (List.mem_of_find?_eq_some hs) f hf)

namespace Codec

variable {c : Codec} {m : Nat} {r : Record}

/-- An element is written in the same bytes within any depth that suffices. -/
theorem write_unique {field : String} {v : Value} {element : Element} {bytes bytes' : Bytes}
    (h : element.write c.encoder field v = .ok bytes)
    (h' : element.write (c.encodeAt m) field v = .ok bytes') : bytes = bytes' := by
  cases element with
  | leaf l => exact Except.ok.inj (h.symm.trans h')
  | struct ty =>
    obtain ⟨x, hx, h⟩ := bind_eq_ok'.mp h
    obtain ⟨x', hx', h'⟩ := bind_eq_ok'.mp h'
    obtain rfl := asRecord_eq_ok.mp hx
    rw [hx] at hx'
    cases hx'
    exact c.encodeAt_unique h h'

section Induction

variable (hc : c.Sound) (hlengths : c.schema.LengthsUncounted)
  (hsettled : c.schema.PromisesSettled)

include hc hlengths hsettled

/-- A record that was written is read back, once the smaller ones are. -/
theorem Sound.decoder_of_encodeAt (he : c.Rereads (c.encodeAt m)) (hproper : c.Proper r)
    (hparts : ∀ name, c.Refers r.typeName name → c.FillFree name) {name : String}
    {initial : List Initializer} {bytes : Bytes} (h : c.encodeAt (m + 1) name initial r = .ok bytes)
    {cursor last : Cursor} (hreads : cursor.Reads bytes last)
    (hfill : ∀ s, c.schema.struct? r.typeName = some s → ∀ f ∈ s.fields,
      f.disposition = .arrayFill → last.rest = [] ∧ ∀ element,
        c.schema.ElementOf f.typeName element → ∀ items, r.get? f.name = some (.list items) →
          ∀ v ∈ items, element.write (c.encodeAt m) f.name v ≠ .ok []) :
    c.decoder name cursor = .ok (r, last) := by
  obtain ⟨frame, hframe, hbytes⟩ := bind_eq_ok.mp h
  obtain ⟨s, plan, hl, rfl, rfl⟩ := frame_eq_ok.mp hframe
  obtain ⟨hstruct, -, -, -, -, slots, entries, hp⟩ := hc.planned_of_lookup hl
  dsimp only at hbytes
  rw [hp.encode, joinM_map] at hbytes
  obtain ⟨cur, rfl, rfl, hskip, hentry⟩ := cursors_of_joinM hbytes hreads
  have hwritten : c.Written s plan r (initial ++ plan.initializers) slots entries m cur :=
    { sound := hc, lookup := hl, planned := hp, proper := hproper, rereads := he, parts := hparts
      fill := hfill s hstruct, entry := hentry, skip := hskip }
  exact hwritten.decoder_eq hlengths hsettled

/-- Records that were written are read back, however deep structs nest in them. -/
theorem Sound.rereads_encodeAt (m : Nat) : c.Rereads (c.encodeAt m) := by
  induction m with
  | zero =>
    intro name initial r bytes _ _ h
    cases h
  | succ m ih =>
    intro name initial r bytes hproper hfree h cursor last hreads
    obtain ⟨frame, hframe, -⟩ := bind_eq_ok.mp h
    obtain ⟨s, plan, -, rfl, -⟩ := frame_eq_ok.mp hframe
    refine hc.decoder_of_encodeAt hlengths hsettled ih hproper (fun name => hfree.of_refers) h hreads
      ?_
    intro s hs f hf hd
    exact absurd ⟨s, hs, f, hf, hd⟩ (hfree r.typeName .refl)

end Induction

end Codec

/-- **Reading what was written.** A canonical record of a compiled schema is read back from the bytes
that it was written in. -/
theorem decode_of_encode {options : Options} {decls : List Declaration} {c : Codec}
    (hcompile : compile options decls = .ok c) (hlengths : c.schema.LengthsUncounted)
    (htargets : c.schema.TargetsUncounted) {r : Record} (hcanonical : c.Canonical r)
    (hdispatched : c.Dispatched r) (hfill : c.FillsLast r) {bytes : Bytes}
    (h : c.encode r = .ok bytes) : c.decode r.typeName bytes = .ok r := by
  have hc := sound_of_compile hcompile
  have hsettled := htargets.promisesSettled hlengths
  have hparts : ∀ name, c.Refers r.typeName name → c.FillFree name := fun name hname other hother =>
    hfill.parts other (Relation.TransGen.head' hname hother)
  have hreads : (Cursor.start bytes).Reads bytes { offset := bytes.length, rest := [] } :=
    ⟨(List.append_nil bytes).symm, (Nat.zero_add _).symm⟩
  have hread : c.decoder r.typeName (Cursor.start bytes) =
      .ok (r, { offset := bytes.length, rest := [] }) := by
    unfold Codec.encode Codec.encoder at h
    cases hdepth : c.depthOf r with
    | zero =>
      rw [hdepth] at h
      cases h
    | succ m =>
      rw [hdepth] at h
      refine hc.decoder_of_encodeAt hlengths hsettled (hc.rereads_encodeAt hlengths hsettled m)
        ⟨hcanonical, hdispatched⟩ hparts h hreads ?_
      intro s hs f hf hd
      refine ⟨rfl, fun element helement items hget v hv hnil => ?_⟩
      obtain ⟨front, hfront, hne⟩ := hfill.elements s hs f hf hd element helement items hget v hv
      exact hne (Codec.write_unique hfront hnil)
  simp only [Codec.decode, Codec.decodePrefix, hread, ok_map, ok_bind, if_true]

/-- A log: its entries go on to the end of the buffer. -/
def logDeclarations : List Declaration :=
  [ .struct { name := "Log", comment := none, disposition := none
              fields :=
                [ { name := some "level", typeName := some "uint8" },
                  { name := some "entries", typeName := some "uint16"
                    disposition := some "array_fill" } ] } ]

/-- A log with two entries. -/
def logRecord : Record :=
  { typeName := "Log", fields := [("entries", .list [.int 1, .int 2]), ("level", .int 9)] }

theorem fillsLast_log : (codecOf logDeclarations).FillsLast logRecord := by
  have hflat : ∀ s ∈ (codecOf logDeclarations).schema.structs, ∀ f ∈ s.fields,
      f.sizedArray? = none ∧ (codecOf logDeclarations).schema.struct? f.typeName = none := by
    decide +kernel
  have hentries : ∀ s ∈ (codecOf logDeclarations).schema.structs, ∀ f ∈ s.fields,
      f.disposition = .arrayFill → f.name = "entries" ∧
        (codecOf logDeclarations).schema.types.form? f.typeName =
          some (.int { width := .two, signedness := .unsigned }) := by
    decide +kernel
  constructor
  case parts =>
    intro name hname
    obtain ⟨owner, -, s, hs, f, hf, hrefers⟩ := Relation.TransGen.tail'_iff.mp hname
    obtain ⟨hsized, hnone⟩ := hflat s (List.mem_of_find?_eq_some hs) f hf
    rintro ⟨s', hs', -⟩
    obtain rfl := hrefers.eq_typeName hsized
    rw [hnone] at hs'
    cases hs'
  case elements =>
    intro s hs f hf hd element helement items hget v hv
    obtain ⟨hname, hform⟩ := hentries s (List.mem_of_find?_eq_some hs) f hf hd
    cases helement with
    | struct hnone _ =>
      rw [hform] at hnone
      cases hnone
    | @leaf l hl =>
      rw [hform] at hl
      rw [hname] at hget
      cases hget
      have hwrite : ∀ n, l.write f.name (.int n) =
          IntType.write { width := .two, signedness := .unsigned } n := by
        intro n
        unfold Leaf.write
        rw [← Option.some.inj hl]
      rcases List.mem_pair.mp hv with rfl | rfl
      · exact ⟨[1, 0], (hwrite 1).trans (by decide +kernel), by simp⟩
      · exact ⟨[2, 0], (hwrite 2).trans (by decide +kernel), by simp⟩

/-- The batch and the log are read back from their bytes. -/
theorem decode_of_encode_batch :
    (sampleCodec.encode sampleRecord = .ok sampleBytes ∧
      sampleCodec.decode "Batch" sampleBytes = .ok sampleRecord) ∧
    (codecOf logDeclarations).encode logRecord = .ok [9, 1, 0, 2, 0] ∧
      (codecOf logDeclarations).decode "Log" [9, 1, 0, 2, 0] = .ok logRecord := by
  constructor
  · have hcanonical : ∀ x ∈ sampleRecord.records sampleRecord.depth,
        sampleCodec.CanonicalHere x := by decide +kernel
    have hdispatched : ∀ x ∈ sampleRecord.records sampleRecord.depth,
        sampleCodec.DispatchedHere x := by decide +kernel
    have hb : sampleCodec.encode sampleRecord = .ok sampleBytes :=
      eq_ok_of_toOption (by decide +kernel)
    refine ⟨hb, ?_⟩
    exact decode_of_encode compile_sample (by decide +kernel) (by decide +kernel)
      (fun x hx => hcanonical x (Record.mem_records_of_within hx (Nat.le_refl _)))
      (fun x hx => hdispatched x (Record.mem_records_of_within hx (Nat.le_refl _)))
      (Codec.fillsLast_of_no_fill (by decide +kernel) sampleRecord) hb
  · have hcompile : compile {} logDeclarations = .ok (codecOf logDeclarations) :=
      compile_codecOf (by decide +kernel)
    have hcanonical : ∀ x ∈ logRecord.records logRecord.depth,
        (codecOf logDeclarations).CanonicalHere x := by decide +kernel
    have hdispatched : ∀ x ∈ logRecord.records logRecord.depth,
        (codecOf logDeclarations).DispatchedHere x := by decide +kernel
    have hb : (codecOf logDeclarations).encode logRecord = .ok [9, 1, 0, 2, 0] :=
      eq_ok_of_toOption (by decide +kernel)
    refine ⟨hb, ?_⟩
    exact decode_of_encode hcompile (by decide +kernel) (by decide +kernel)
      (fun x hx => hcanonical x (Record.mem_records_of_within hx (Nat.le_refl _)))
      (fun x hx => hdispatched x (Record.mem_records_of_within hx (Nat.le_refl _)))
      fillsLast_log hb

end WireLayout
