import WireLayout.Proofs.Batches
import WireLayout.Proofs.DeclarationOrder
import WireLayout.Proofs.Nesting
import WireLayout.Proofs.SizeOfDecoded

/-!
# Regions, element by element

A region is cut into its elements without gap or overlap: each starts where the one before it and its
bytes up to the alignment end, the first at the start of the region and the last ending with it. Which
struct an element is of is told by the header in front of it, and nothing beyond the region is looked
at.
-/

namespace WireLayout

/-! ## Alignments -/

theorem pos_of_isPowerOfTwo {n : Nat} (h : isPowerOfTwo n = true) : 0 < n := by
  obtain ⟨k, -, hk⟩ := List.any_eq_true.mp h
  have hpow : Nat.pow 2 k = n := by simpa using hk
  rw [← hpow]
  exact Nat.pow_pos (by decide)

/-- The bytes that a reader passes over lead to the next multiple of a positive alignment. -/
theorem fills_padding {align : Option Nat} (h : ∀ a, align = some a → 0 < a) (offset : Nat) :
    Fills align offset (padding offset align) := by
  cases align with
  | none => rfl
  | some a =>
    have ha := h a rfl
    have hmod := Nat.mod_lt offset ha
    have hdiv := Nat.div_add_mod offset a
    unfold Fills padding
    dsimp only
    split
    case isFalse hone =>
      obtain rfl : a = 1 := by omega
      exact ⟨Nat.one_dvd _, Nat.one_pos⟩
    refine ⟨?_, Nat.mod_lt _ ha⟩
    by_cases hzero : offset % a = 0
    · rw [hzero, Nat.sub_zero, Nat.mod_self, Nat.add_zero]
      exact Nat.dvd_of_mod_eq_zero hzero
    · rw [Nat.mod_eq_of_lt (by omega)]
      refine ⟨offset / a + 1, ?_⟩
      rw [Nat.mul_add, Nat.mul_one]
      omega

/-- A declared alignment is positive. -/
theorem FieldDecl.align_pos_of_checkField {d : FieldDecl} {scope : Scope}
    {keyword : Option FieldKeyword} {f : Field} (h : d.checkField scope keyword = .ok f)
    {layout : SizedArray} (hlayout : f.sizedArray? = some layout) {a : Nat}
    (ha : layout.align = some a) : 0 < a := by
  have hd := Field.disposition_of_sizedArray? hlayout
  match keyword with
  | none =>
    simp only [checkField, checkPlain, bind_eq_ok] at h
    obtain ⟨name, -, ty, -, h⟩ := h
    split at h <;> cases h
    cases hd
  | some .const =>
    simp only [checkField, checkConst, bind_eq_ok] at h
    obtain ⟨name, -, ty, -, h⟩ := h
    split at h
    · cases h
    · obtain ⟨value, -, h⟩ := bind_eq_ok.mp h
      cases h
      cases hd
  | some .inline =>
    simp only [checkField, checkInline, bind_eq_ok] at h
    obtain ⟨ty, -, h⟩ := h
    split at h
    · obtain ⟨name, -, h⟩ := bind_eq_ok.mp h
      cases h
      cases hd
    · cases h
  | some .reserved =>
    simp only [checkField, checkReserved, bind_eq_ok] at h
    obtain ⟨name, -, ty, -, h⟩ := h
    split at h
    · cases h
    · split at h
      · cases h
      · obtain ⟨value, -, h⟩ := bind_eq_ok.mp h
        cases h
        cases hd
  | some .array =>
    simp only [checkField, checkArray, bind_eq_ok] at h
    obtain ⟨name, -, ty, -, h⟩ := h
    split at h
    · split at h
      · cases h
      · obtain ⟨count, -, h⟩ := bind_eq_ok.mp h
        cases h
        cases hd
    · cases h
  | some .arraySized =>
    simp only [checkField, checkArraySized, bind_eq_ok] at h
    obtain ⟨name, -, h⟩ := h
    split at h
    · cases h
    · cases h
    · cases h
    · split at h
      · cases h
      · obtain ⟨lengthField, -, h⟩ := bind_eq_ok.mp h
        obtain ⟨align, halign, h⟩ := bind_eq_ok.mp h
        cases h
        cases hd
        obtain rfl : align = some a := ha
        unfold checkAlign at halign
        split at halign
        · cases halign
        · split at halign
          · rename_i n hn
            cases halign
            exact pos_of_isPowerOfTwo (Option.filter_eq_some_iff.mp hn).2
          · cases halign
  | some .arrayFill =>
    simp only [checkField, checkArrayFill, bind_eq_ok] at h
    obtain ⟨name, -, ty, -, h⟩ := h
    split at h <;> cases h
    cases hd

/-- The only draft that an entry adds is one of a field that was checked. -/
theorem Drafts.mem_of_add {types : TypeTable} {options : Options} {drafts drafts' : Drafts}
    {d : FieldDecl} (h : drafts.add types options d = .ok drafts') {draft : Draft}
    (hdraft : draft ∈ drafts'.fields) : draft ∈ drafts.fields ∨
      ∃ keyword, d.checkField (drafts.scope types) keyword = .ok draft.field := by
  rcases Drafts.add_eq_ok.mp h with ⟨keyword, -, hadd⟩ | ⟨-, hadd⟩
  · obtain ⟨-, f, pending, hf, -, rfl⟩ := Drafts.addField_eq_ok.mp hadd
    rcases List.mem_append.mp hdraft with hold | hnew
    · exact Or.inl hold
    · rw [List.mem_singleton.mp hnew]
      exact Or.inr ⟨keyword, hf⟩
  · obtain ⟨-, entry, -, rfl⟩ := Drafts.addDiscriminator_eq_ok.mp hadd
    exact Or.inl hdraft

/-- Every field of a struct that was built passed a check, before its condition was looked up. -/
theorem StructDecl.exists_checkField {d : StructDecl} {types : TypeTable} {options : Options}
    {s : Struct} (h : d.check types options = .ok s) {f : Field} (hf : f ∈ s.fields) :
    ∃ (decl : FieldDecl) (scope : Scope) (keyword : Option FieldKeyword) (g : Field),
      decl.checkField scope keyword = .ok g ∧ f.disposition = g.disposition := by
  simp only [StructDecl.check, bind_eq_ok] at h
  obtain ⟨kind, -, drafts, hdrafts, fields, hfields, -, -, h⟩ := h
  have hs : s.fields = fields := by
    cases h
    unfold StructDecl.assemble
    split <;> rfl
  obtain ⟨draft, hdraft, hresolve⟩ := forall₂_mem_right (mapM_eq_ok.mp hfields) (hs ▸ hf)
  obtain ⟨c, rfl, -⟩ := Draft.field_of_resolve hresolve
  have hchecked : ∀ e ∈ drafts.fields, ∃ (decl : FieldDecl) (scope : Scope)
      (keyword : Option FieldKeyword), decl.checkField scope keyword = .ok e.field := by
    refine foldlM_invariant (fun drafts : Drafts => ∀ e ∈ drafts.fields,
      ∃ (decl : FieldDecl) (scope : Scope) (keyword : Option FieldKeyword),
        decl.checkField scope keyword = .ok e.field) ?_ (by simp) hdrafts
    intro decl _ before after hbefore hadd e he
    rcases Drafts.mem_of_add hadd he with hold | ⟨keyword, hnew⟩
    · exact hbefore e hold
    · exact ⟨decl, _, keyword, hnew⟩
  obtain ⟨decl, scope, keyword, hcheck⟩ := hchecked draft hdraft
  exact ⟨decl, scope, keyword, draft.field, hcheck, rfl⟩

/-- The alignments of a compiled schema are positive. -/
theorem align_pos_of_compile {options : Options} {decls : List Declaration} {c : Codec}
    (hcompile : compile options decls = .ok c) {s : Struct} (hs : s ∈ c.schema.structs) {f : Field}
    (hf : f ∈ s.fields) {layout : SizedArray} (hlayout : f.sizedArray? = some layout) {a : Nat}
    (ha : layout.align = some a) : 0 < a := by
  obtain ⟨d, hd⟩ := Schema.exists_check_of_compile hcompile hs
  obtain ⟨decl, scope, keyword, g, hcheck, hdisp⟩ := StructDecl.exists_checkField hd hf
  have hlayout' : g.sizedArray? = some layout := by
    unfold Field.sizedArray? at hlayout ⊢
    rwa [← hdisp]
  exact FieldDecl.align_pos_of_checkField hcheck hlayout' ha

/-! ## Places in a region -/

/-- Whether a cursor is a place in a region: what is ahead of it is the rest of the region. -/
def Cursor.Within (here : Cursor) (region : Bytes) : Prop :=
  ∃ behind, region = behind ++ here.rest ∧ behind.length = here.offset

namespace Cursor.Within

variable {here next : Cursor} {region used : Bytes}

theorem start (region : Bytes) : (Cursor.start region).Within region := ⟨[], rfl, rfl⟩

/-- Reading goes from a place in a region to another one. -/
theorem reads (h : here.Within region) (hreads : here.Reads used next) : next.Within region := by
  obtain ⟨behind, hregion, hoffset⟩ := h
  refine ⟨behind ++ used, ?_, ?_⟩
  · rw [hregion, hreads.rest, List.append_assoc]
  · rw [List.length_append, hoffset, hreads.offset]

/-- A place in a region is told by its offset. -/
theorem eq (h : here.Within region) : here = ⟨here.offset, region.drop here.offset⟩ := by
  obtain ⟨behind, rfl, hoffset⟩ := h
  rw [← hoffset, List.drop_left, hoffset]

/-- The place where nothing is ahead is the end. -/
theorem offset_of_nil (h : here.Within region) (hend : here.rest = []) :
    here.offset = region.length := by
  obtain ⟨behind, rfl, hoffset⟩ := h
  rw [hend, List.append_nil, hoffset]

end Cursor.Within

/-! ## Rounds -/

section Rounds

variable {read : Cursor → Except CodecError (Value × Cursor)}

/-- A loop that succeeds goes through rounds, and nothing is left. -/
theorem rounds_of_readToEnd {field : String} {rounds : Nat} {cursor last : Cursor}
    {items : List Value} (h : readToEnd field read rounds cursor = .ok (items, last)) :
    Rounds read cursor items last ∧ last.rest = [] := by
  induction rounds generalizing cursor items with
  | zero =>
    unfold readToEnd at h
    split at h
    · rename_i hempty
      cases h
      exact ⟨.start _, List.isEmpty_iff.mp hempty⟩
    · cases h
  | succ rounds ih =>
    unfold readToEnd at h
    split at h
    · rename_i hempty
      cases h
      exact ⟨.start _, List.isEmpty_iff.mp hempty⟩
    rename_i hmore
    obtain ⟨⟨v, next⟩, hv, h⟩ := bind_eq_ok.mp h
    dsimp only at h
    split at h
    · cases h
    rename_i hmoved
    obtain ⟨⟨vs, last'⟩, hvs, h⟩ := bind_eq_ok.mp h
    cases h
    obtain ⟨hrest, hend⟩ := ih hvs
    exact ⟨.round (fun hnil => hmore (List.isEmpty_iff.mpr hnil)) hv hmoved hrest, hend⟩

/-- The places that the rounds of a loop start at, and the one where the last of them ends. -/
theorem Rounds.places {cursor last : Cursor} {items : List Value}
    (h : Rounds read cursor items last) : ∃ at' : Nat → Cursor, at' 0 = cursor ∧
      at' items.length = last ∧ ∀ i (hi : i < items.length),
        read (at' i) = .ok (items[i], at' (i + 1)) ∧ (at' (i + 1)).offset ≠ (at' i).offset := by
  induction h with
  | start cursor => exact ⟨fun _ => cursor, rfl, rfl, fun i hi => absurd hi (Nat.not_lt_zero i)⟩
  | @round cursor next last v items _ hv hmoved _ ih =>
    obtain ⟨later, hfirst, hlast, hlater⟩ := ih
    refine ⟨precede cursor later, rfl, hlast, ?_⟩
    intro i hi
    cases i with
    | zero =>
      have hnext : precede cursor later 1 = next := hfirst
      rw [hnext]
      exact ⟨hv, hmoved⟩
    | succ i => exact hlater i (Nat.lt_of_succ_lt_succ hi)

end Rounds

namespace Codec

variable {c : Codec} {layout : SizedArray} {group : String}

/-! ## Elements -/

/-- Whether an element of a region lies at one offset and the next one would lie at another: the header
there tells a struct of the group, the element is what is read as this struct there, and the next
offset is the end of it, filled up to the alignment. -/
def ItemAt (c : Codec) (layout : SizedArray) (group : String) (region : Bytes) (here : Nat)
    (item : Value) (next : Nat) : Prop :=
  ∃ id version name r taken pad,
    c.decodeHeader layout.binding (region.drop here) = .ok (id, version) ∧
    c.dispatch.resolve? group (version.getD 0) id = some name ∧
    c.decoder name ⟨here, region.drop here⟩ =
      .ok (r, ⟨here + taken, region.drop (here + taken)⟩) ∧
    r.typeName = name ∧ item = r.toValue ∧
    Fills layout.align (here + taken) pad ∧ next = here + taken + pad

/-- Whether offsets cut a region into its elements. -/
structure Cuts (c : Codec) (layout : SizedArray) (group : String) (region : Bytes)
    (items : List Value) (offset : Nat → Nat) : Prop where
  first : offset 0 = 0
  last : offset items.length = region.length
  ascending : ∀ i < items.length, offset i < offset (i + 1)
  item : ∀ i (hi : i < items.length),
    c.ItemAt layout group region (offset i) items[i] (offset (i + 1))

theorem Cuts.le_offset {region : Bytes} {items : List Value} {offset : Nat → Nat}
    (h : c.Cuts layout group region items offset) {i : Nat} (hi : i ≤ items.length) :
    i ≤ offset i := by
  induction i with
  | zero => exact Nat.zero_le _
  | succ i ih =>
    have hbefore := ih (Nat.le_of_succ_le hi)
    have hlt := h.ascending i hi
    omega

/-- There are no more elements than bytes. -/
theorem Cuts.length_le {region : Bytes} {items : List Value} {offset : Nat → Nat}
    (h : c.Cuts layout group region items offset) : items.length ≤ region.length :=
  h.last ▸ h.le_offset (Nat.le_refl _)

section Items

variable (hc : c.Sound) (halign : ∀ a, layout.align = some a → 0 < a) {n : Nat} {region : Bytes}
  {here next : Cursor}

include hc halign

/-- One round takes an element and goes to the next place. -/
theorem Sound.itemAt_of_readPolymorphic (hin : here.Within region) {item : Value}
    (h : c.readPolymorphic (c.decodeAt n) layout group here = .ok (item, next)) :
    c.ItemAt layout group region here.offset item next.offset := by
  simp only [readPolymorphic, bind_eq_ok] at h
  obtain ⟨⟨id, version⟩, hpeek, name, hname, ⟨r, mid⟩, hr, next', hskip, h⟩ := h
  cases h
  obtain ⟨⟨header, behind⟩, hread, hkey⟩ := bind_eq_ok.mp hpeek
  obtain ⟨⟨front, next'⟩, htake, rfl⟩ := map_eq_ok.mp hskip
  obtain ⟨used, hused, -⟩ := hc.decodeAt_steady n name here r mid hr
  obtain ⟨hpad, hlen⟩ := Cursor.reads_of_take htake
  have hmid : mid.offset = here.offset + used.length := hused.offset
  refine ⟨id, version, name, r, used.length, front.length, ?_, ?_, ?_, ?_, rfl, ?_, ?_⟩
  · have hrest : region.drop here.offset = here.rest := congrArg Cursor.rest hin.eq.symm
    rw [hrest]
    exact bind_eq_ok.mpr ⟨_, hc.decoder_of_decodeAt hread, hkey⟩
  · exact structOf_eq_ok.mp hname
  · rw [← hin.eq, ← hmid, ← (hin.reads hused).eq]
    exact hc.decoder_of_decodeAt hr
  · exact typeName_of_decodeAt hr
  · rw [hlen, ← hmid]
    exact fills_padding halign mid.offset
  · rw [← hmid]
    exact hpad.offset

/-- The loop over a region cuts it into the elements that it reads. -/
theorem Sound.cuts_of_readToEnd {field : String} {rounds : Nat} {last : Cursor}
    {items : List Value}
    (h : readToEnd field (c.readPolymorphic (c.decodeAt n) layout group) rounds
      (Cursor.start region) = .ok (items, last)) :
    ∃ offset, c.Cuts layout group region items offset := by
  obtain ⟨hrounds, hend⟩ := rounds_of_readToEnd h
  obtain ⟨place, hfirst, hlast, hstep⟩ := hrounds.places
  have hforward := c.readPolymorphic_forward (hc.decodeAt_steady n) layout group
  have hin : ∀ i ≤ items.length, (place i).Within region := by
    intro i hi
    induction i with
    | zero => exact hfirst ▸ .start region
    | succ i ih =>
      obtain ⟨used, hused⟩ := hforward _ _ _ (hstep i hi).1
      exact (ih (Nat.le_of_succ_le hi)).reads hused
  refine ⟨fun i => (place i).offset, ?_, ?_, ?_, ?_⟩
  · exact congrArg Cursor.offset hfirst
  · exact (hin _ (Nat.le_refl _)).offset_of_nil (hlast ▸ hend)
  · intro i hi
    obtain ⟨hread, hmoved⟩ := hstep i hi
    obtain ⟨used, hused⟩ := hforward _ _ _ hread
    have hoffset := hused.offset
    omega
  · intro i hi
    exact hc.itemAt_of_readPolymorphic halign (hin i (Nat.le_of_lt hi)) (hstep i hi).1

end Items

/-- A step that reads a region is that of a field that holds one. -/
theorem Sound.field_of_regionStep (hc : c.Sound) {owner : String} {s : Struct} {plan : Plan}
    (hl : c.lookup owner = .ok (s, plan)) {step : Step DecodeOp} (hstep : step ∈ plan.decode)
    (hop : step.op = .arraySized layout group) :
    ∃ f ∈ s.fields, f.sizedArray? = some layout ∧ step = f.regionStep layout group := by
  obtain ⟨-, hmem, -, -, -, slots, entries, hp⟩ := hc.planned_of_lookup hl
  rw [hp.decode] at hstep
  rcases Struct.mem_decodeSteps hstep with ⟨e, he, rfl⟩ | ⟨i, hstep⟩
  · obtain ⟨i, f, hf, hentry⟩ := hp.exists_of_mem he
    cases hentry with
    | slot hslot hpos hname => cases hop
    | own hconst hunion hshape =>
      cases hshape with
      | @arraySized layout' group' hd hgroup =>
        cases hop
        refine ⟨f, List.mem_of_getElem? hf, ?_, ?_⟩
        · unfold Field.sizedArray?
          rw [hd]
        · simp only [WireEntry.step, WireEntry.decodeOp, Field.regionStep, hd, Disposition.role]
      | leaf hstored hform =>
        dsimp only [WireEntry.step, WireEntry.decodeOp] at hop
        split at hop <;> cases hop
      | _ => cases hop
  · obtain ⟨slot, -, -, rfl⟩ | ⟨-, f, target, -, -, -, rfl⟩ := Struct.deferredAt_cases hstep
    · cases hop
    · cases hop

end Codec

/-- **A region is read element by element.** Whenever the step of a region succeeds, whatever was read
before it, the reader has gone past as many bytes as the length field says. There are offsets that cut
these bytes, the first at their start and the last at their end: at each lies an element, of the struct
that the header there tells, and the next follows at the end of this element, filled up to the
alignment. There are at most as many elements as bytes. -/
theorem cuts_of_readStep {options : Options} {decls : List Declaration} {c : Codec}
    (hcompile : compile options decls = .ok c) {owner : String} {s : Struct} {plan : Plan}
    (hl : c.lookup owner = .ok (s, plan)) {step : Step DecodeOp} (hstep : step ∈ plan.decode)
    {layout : SizedArray} {group : String} (hop : step.op = .arraySized layout group) {depth : Nat}
    {p p' : Progress} (hguard : p.holds s.name step.guard = .ok true)
    (h : c.readStep (c.decodeAt depth) s plan p step = .ok p') :
    ∃ region items offset,
      p.noted s.name layout.lengthField = .ok (region.length : Int) ∧
      p.cursor.Reads region p'.cursor ∧
      p' = (p.store step.field (.list items)).moveTo p'.cursor ∧
      c.Cuts layout group region items offset ∧ items.length ≤ region.length := by
  have hc := sound_of_compile hcompile
  obtain ⟨f, hf, hlayout, -⟩ := hc.field_of_regionStep hl hstep hop
  obtain ⟨-, hs, -⟩ := hc.planned_of_lookup hl
  have halign : ∀ a, layout.align = some a → 0 < a :=
    fun a ha => align_pos_of_compile hcompile hs hf hlayout ha
  obtain ⟨b, hb, h⟩ := bind_eq_ok.mp h
  obtain rfl : true = b := Except.ok.inj (hguard.symm.trans hb)
  simp only [if_true, hop, Codec.readOp, bind_eq_ok] at h
  obtain ⟨declared, hdeclared, len, hlen, ⟨region, cursor⟩, hregion, ⟨items, last⟩, hitems, h⟩ := h
  cases h
  obtain ⟨⟨front, cursor'⟩, htake, hpair⟩ := map_eq_ok.mp hregion
  cases hpair
  obtain ⟨hreads, rfl⟩ := Cursor.reads_of_take htake
  obtain ⟨rfl, -⟩ := toLength_eq_ok.mp hlen
  obtain ⟨offset, hcuts⟩ := hc.cuts_of_readToEnd halign hitems
  exact ⟨front, items, offset, hdeclared, hreads, rfl, hcuts, hcuts.length_le⟩

/-- A reader that knows the length of the region of two transfers and has it ahead. -/
def sampleProgress : Progress :=
  { record := Record.empty "Batch", scratch := [("length", 32)], slots := []
    cursor := Cursor.start sampleRegion }

/-- The region of the two transfers is cut into both. -/
theorem cuts_of_readStep_batch : ∃ s plan, sampleCodec.lookup "Batch" = .ok (s, plan) ∧
    ∃ step ∈ plan.decode, ∃ layout, step.op = .arraySized layout "Kind" ∧
      sampleProgress.holds s.name step.guard = .ok true ∧
      ∃ p', sampleCodec.readStep (sampleCodec.decodeAt 2) s plan sampleProgress step = .ok p' ∧
        ∃ items offset, sampleProgress.cursor.Reads sampleRegion p'.cursor ∧
          p' = (sampleProgress.store step.field (.list items)).moveTo p'.cursor ∧
          sampleCodec.Cuts layout "Kind" sampleRegion items offset ∧
          items.length ≤ sampleRegion.length := by
  obtain ⟨⟨s, plan⟩, hl, f, -, layout, -, hstep, hcondition, hlength, hread⟩ :
      ∃ q, sampleCodec.lookup "Batch" = .ok q ∧ ∃ f ∈ q.1.fields, ∃ layout ∈ f.sizedArray?,
        f.regionStep layout "Kind" ∈ q.2.decode ∧ f.condition = none ∧
        layout.lengthField = "length" ∧
        (sampleCodec.readStep (sampleCodec.decodeAt 2) q.1 q.2 sampleProgress
          (f.regionStep layout "Kind")).toOption.isSome = true :=
    exists_ok_of_toOption (by decide +kernel)
  obtain ⟨p', hp'⟩ := Option.isSome_iff_exists.mp hread
  have hguard : sampleProgress.holds s.name (f.regionStep layout "Kind").guard = .ok true := by
    change sampleProgress.holds s.name f.condition = .ok true
    rw [hcondition]
    rfl
  obtain ⟨region, items, offset, hnoted, hreads, hp, hcuts, hle⟩ :=
    cuts_of_readStep compile_sample hl hstep rfl hguard (eq_ok_of_toOption hp')
  -- the length is known, and so are the bytes that were taken
  have hregion : region = sampleRegion := by
    have hknown : (32 : Int) = region.length := by
      rw [hlength] at hnoted
      exact Except.ok.inj hnoted
    have hlen : region.length = sampleRegion.length := by
      change region.length = 32
      omega
    have hrest : sampleRegion = region ++ p'.cursor.rest := hreads.rest
    calc region = (region ++ p'.cursor.rest).take region.length := by rw [List.take_left]
      _ = sampleRegion.take sampleRegion.length := by rw [← hrest, hlen]
      _ = sampleRegion := List.take_length
  subst hregion
  exact ⟨s, plan, hl, _, hstep, layout, rfl, hguard, p', eq_ok_of_toOption hp', items, offset,
    hreads, hp, hcuts, hle⟩

end WireLayout
