import WireLayout.Proofs.PrefixFree
import WireLayout.Proofs.Rereading

/-!
# Batches

A region is a batch of messages of a group, each with bytes up to the alignment behind it. A message
that stands alone is read as the struct that its header tells. In a region the header is looked for in
front of all that is left of the region, and the message is read from there: it is the same struct and
the same record, since neither the header nor the message goes on to the end of the region.
-/

namespace WireLayout

/-- Whether so many bytes lead from an offset to the next multiple of an alignment, which may be where
the offset is. -/
def Fills (align : Option Nat) (offset count : Nat) : Prop :=
  match align with
  | none => count = 0
  | some a => a ∣ offset + count ∧ count < a

/-- The bytes that a reader passes over are those up to the next multiple. -/
theorem Fills.eq_padding {align : Option Nat} {offset count : Nat} (h : Fills align offset count) :
    count = padding offset align := by
  cases align with
  | none => exact h
  | some a =>
    obtain ⟨hdvd, hlt⟩ := h
    unfold padding
    dsimp only
    split
    case isFalse => omega
    rename_i ha
    have hmod := Nat.mod_lt offset (Nat.lt_of_succ_lt ha)
    have hsum : (offset % a + count) % a = 0 := by
      rw [Nat.mod_add_mod]
      exact Nat.mod_eq_zero_of_dvd hdvd
    -- the sum is zero or the alignment, since both parts are less
    by_cases hzero : offset % a = 0
    · rw [hzero, Nat.zero_add, Nat.mod_eq_of_lt hlt] at hsum
      rw [hzero, hsum, Nat.sub_zero, Nat.mod_self]
    · have hle : a ≤ offset % a + count := by
        by_contra hless
        rw [Nat.mod_eq_of_lt (by omega)] at hsum
        omega
      rw [Nat.mod_eq_sub_mod hle, Nat.mod_eq_of_lt (by omega)] at hsum
      rw [Nat.mod_eq_of_lt (by omega)]
      omega

/-- Messages of a group, each with bytes up to the alignment behind it, from an offset on. -/
inductive Codec.Batch (c : Codec) (group : String) (align : Option Nat) :
    Nat → List Record → Bytes → Prop where
  /-- None. -/
  | nil (offset : Nat) : Batch c group align offset [] []
  /-- One and those after it. -/
  | cons {offset : Nat} {r : Record} {rs : List Record} {message pad more : Bytes} :
      c.decodeAny group message = .ok r → Fills align (offset + message.length) pad.length →
      Batch c group align (offset + message.length + pad.length) rs more →
      Batch c group align offset (r :: rs) (message ++ pad ++ more)

/-- The step that reads a region. -/
def Field.regionStep (f : Field) (layout : SizedArray) (group : String) : Step DecodeOp :=
  { field := f.name, role := .arraySized, guard := f.condition, op := .arraySized layout group }

namespace Codec

variable {c : Codec} {group : String} {layout : SizedArray}

/-- A message that stands alone has a header, which tells a struct of the group, and is read as this
struct. -/
theorem dispatched_of_decodeAny {bytes : Bytes} {r : Record} (h : c.decodeAny group bytes = .ok r)
    (hbound : c.dispatch.header? group = some layout.binding) :
    ∃ key name, c.decodeHeader layout.binding bytes = .ok key ∧ c.structOf group key = .ok name ∧
      c.decode name bytes = .ok r := by
  unfold decodeAny at h
  rw [hbound] at h
  obtain ⟨key, hkey, h⟩ := bind_eq_ok.mp h
  obtain ⟨name, hname, h⟩ := bind_eq_ok.mp h
  exact ⟨key, name, hkey, hname, h⟩

theorem registered_of_structOf {key : Int × Option Nat} {name : String}
    (h : c.structOf group key = .ok name) :
    ∃ reg ∈ c.dispatch.registrations, reg.identity.group = group ∧ reg.structName = name := by
  obtain ⟨reg, hfind, hname⟩ := Option.map_eq_some_iff.mp (structOf_eq_ok.mp h)
  have hat := List.find?_some hfind
  simp only [Registration.isAt, Bool.and_eq_true, beq_iff_eq] at hat
  exact ⟨reg, List.mem_of_find?_eq_some hfind, hat.1.1, hname⟩

/-- A whole buffer that is read as a delimited struct is read so wherever its bytes lie. -/
theorem Sound.decoder_of_decode (hc : c.Sound) {name : String} (hdelimited : c.schema.Delimited name)
    {bytes : Bytes} {r : Record} (h : c.decode name bytes = .ok r) {here next : Cursor}
    (hreads : here.Reads bytes next) : c.decoder name here = .ok (r, next) := by
  obtain ⟨⟨r', last⟩, hread, hpair⟩ := map_eq_ok.mp (decodePrefix_of_decode h)
  obtain ⟨rfl, hoffset⟩ : r' = r ∧ last.offset = bytes.length := Prod.mk.inj hpair
  obtain ⟨used, hused, hsteady⟩ := hc.decoder_steady _ _ _ _ hread
  obtain ⟨hrest, hlen⟩ := Cursor.Reads.start_iff.mp hused
  obtain rfl : bytes = used := by
    have htake : bytes.take used.length = used := by rw [hrest, List.take_left]
    rw [← htake, ← hlen, hoffset, List.take_length]
  exact hsteady here next hreads (Or.inr hdelimited)

section Regions

variable (hc : c.Sound) (hbound : c.dispatch.header? group = some layout.binding)
  (hheader : c.schema.Delimited layout.binding.header)
  (hregistered : ∀ reg ∈ c.dispatch.registrations, reg.identity.group = group →
    c.schema.Delimited reg.structName)

include hc hbound hheader hregistered

/-- A message in a region is read as the one that stands alone, and the bytes behind it are passed
over. -/
theorem Sound.readPolymorphic_of_decodeAny {message pad : Bytes} {r : Record}
    (h : c.decodeAny group message = .ok r) {here next : Cursor}
    (hpad : Fills layout.align (here.offset + message.length) pad.length)
    (hreads : here.Reads (message ++ pad) next) :
    message ≠ [] ∧ c.readPolymorphic c.decoder layout group here = .ok (r.toValue, next) := by
  obtain ⟨key, name, hkey, hname, hdecode⟩ := dispatched_of_decodeAny h hbound
  obtain ⟨reg, hreg, hgroup, rfl⟩ := registered_of_structOf hname
  obtain ⟨mid, hfirst, hlast⟩ := hreads.split
  have hread := hc.decoder_of_decode (hregistered reg hreg hgroup) hdecode hfirst
  exact hc.readPolymorphic_of_header hheader hkey hname hfirst hread hlast
    (hfirst.offset ▸ hpad.eq_padding)

/-- The loop over a region reads the messages of a batch one after the other. -/
theorem Sound.readToEnd_of_batch (field : String) {rs : List Record} {region : Bytes}
    {cursor last : Cursor} (hbatch : c.Batch group layout.align cursor.offset rs region)
    (hreads : cursor.Reads region last) (hend : last.rest = []) {rounds : Nat}
    (hrounds : cursor.remaining ≤ rounds) :
    readToEnd field (c.readPolymorphic c.decoder layout group) rounds cursor =
      .ok (rs.map Record.toValue, last) := by
  generalize hoffset : cursor.offset = offset at hbatch
  induction hbatch generalizing cursor rounds with
  | nil =>
    obtain rfl := hreads.eq_of_nil
    exact readToEnd_nil _ hend
  | @cons offset r rs message pad more hmessage hpad _ ih =>
    subst hoffset
    obtain ⟨next, hnext, hlast⟩ := hreads.split
    obtain ⟨hne, hread⟩ :=
      hc.readPolymorphic_of_decodeAny hbound hheader hregistered hmessage hpad hnext
    have hoffset : next.offset = cursor.offset + message.length + pad.length := by
      rw [hnext.offset, List.length_append, Nat.add_assoc]
    refine readToEnd_cons hnext ?_ hread (fun rounds hrounds => ?_) hrounds
    · exact fun hnil => hne (List.append_eq_nil_iff.mp hnil).1
    · exact ih hlast hrounds hoffset

end Regions

theorem Sound.regionStep_mem (hc : c.Sound) {owner : String} {s : Struct} {plan : Plan}
    (hl : c.lookup owner = .ok (s, plan)) {f : Field} (hf : f ∈ s.fields)
    (hlayout : f.sizedArray? = some layout)
    (hgroup : c.schema.arrayGroup s f layout.binding = .ok group) :
    f.regionStep layout group ∈ plan.decode := by
  obtain ⟨-, hmem, -, -, -, slots, entries, hp⟩ := hc.planned_of_lookup hl
  have hs := hc.linked.wellFormed s hmem
  have hd := Field.disposition_of_sizedArray? hlayout
  obtain ⟨i, hi⟩ := List.mem_iff_getElem?.mp hf
  have hunion := hp.unionOf?_of_not_stored hs hf (by simp [Field.isStored, hd])
  obtain ⟨shape, hshape, he⟩ := hp.entry_of_own hs hi
    (by simp [Field.isConst, hd, Disposition.role]) hunion
  have hregion : shape = .arraySized layout group := by
    cases hshape with
    | arraySized hd' hgroup' =>
      rw [hd] at hd'
      cases hd'
      rw [hgroup] at hgroup'
      rw [Except.ok.inj hgroup']
    | leaf hstored _ => simp [Field.isStored, hd] at hstored
    | nested hstored _ _ => simp [Field.isStored, hd] at hstored
    | reserved hd' _ => rw [hd] at hd'; cases hd'
    | array hd' _ => rw [hd] at hd'; cases hd'
    | fill hd' _ => rw [hd] at hd'; cases hd'
  subst hregion
  rw [hp.decode]
  refine List.mem_flatMap.mpr ⟨(_, i), List.mk_mem_zipIdx_iff_getElem?.mpr he, ?_⟩
  refine List.mem_append_left _ (Option.mem_toList.mpr ?_)
  simp only [Option.map_some, WireEntry.step, WireEntry.decodeOp, Field.regionStep, hd,
    Disposition.role]

end Codec

/-- **A batch is read message by message.** Where the header of a group is the one that a region is read
by, and neither the header nor a struct of the group goes on to the end of the buffer, the step of the
region stores the records that its messages are read as when each stands alone. -/
theorem readStep_of_batch {options : Options} {decls : List Declaration} {c : Codec}
    (hcompile : compile options decls = .ok c) {owner : String} {s : Struct} {plan : Plan}
    (hl : c.lookup owner = .ok (s, plan)) {f : Field} (hf : f ∈ s.fields) {layout : SizedArray}
    (hlayout : f.sizedArray? = some layout) {group : String}
    (hgroup : c.schema.arrayGroup s f layout.binding = .ok group)
    (hbound : c.dispatch.header? group = some layout.binding)
    (hheader : c.schema.Delimited layout.binding.header)
    (hregistered : ∀ reg ∈ c.dispatch.registrations, reg.identity.group = group →
      c.schema.Delimited reg.structName)
    {rs : List Record} {region : Bytes} (hbatch : c.Batch group layout.align 0 rs region)
    {p : Progress} {next : Cursor} (hreads : p.cursor.Reads region next)
    (hguard : p.holds s.name f.condition = .ok true)
    (hlength : p.noted s.name layout.lengthField = .ok (region.length : Int))
    (hlimit : region.length < sizeLimit) :
    f.regionStep layout group ∈ plan.decode ∧
      c.readStep c.decoder s plan p (f.regionStep layout group) =
        .ok ((p.store f.name (.list (rs.map Record.toValue))).moveTo next) := by
  have hc := sound_of_compile hcompile
  refine ⟨hc.regionStep_mem hl hf hlayout hgroup, ?_⟩
  have hlen : toLength layout.lengthField (region.length : Int) = .ok region.length :=
    toLength_eq_ok.mpr ⟨rfl, hlimit⟩
  have htake : p.cursor.region region.length = .ok (Cursor.start region, next) :=
    map_eq_ok.mpr ⟨_, Cursor.take_of_reads hreads, rfl⟩
  have hall : (Cursor.start region).Reads region { offset := region.length, rest := [] } :=
    Cursor.Reads.start_iff.mpr ⟨(List.append_nil region).symm, rfl⟩
  have hitems := hc.readToEnd_of_batch hbound hheader hregistered f.name hbatch hall rfl
    (Nat.le_refl _)
  refine bind_eq_ok.mpr ⟨true, hguard, ?_⟩
  refine bind_eq_ok.mpr ⟨_, hlength, ?_⟩
  refine bind_eq_ok.mpr ⟨_, hlen, ?_⟩
  refine bind_eq_ok.mpr ⟨_, htake, ?_⟩
  exact bind_eq_ok.mpr ⟨_, hitems, rfl⟩

/-- Two transfers as they stand alone. -/
def sampleMessages : Bytes × Bytes :=
  ([1, 0, 3, 0, 0, 0, 0, 0, 0, 0], [1, 0, 4, 0, 0, 0, 0, 0, 0, 0])

/-- A region of the two, each filled up to sixteen bytes. -/
def sampleRegion : Bytes :=
  sampleMessages.1 ++ [9, 9, 9, 9, 9, 9] ++ (sampleMessages.2 ++ [7, 7, 7, 7, 7, 7] ++ [])

/-- The region of a batch is read as the two transfers. -/
theorem readStep_of_batch_transfers : ∃ s plan, sampleCodec.lookup "Batch" = .ok (s, plan) ∧
    ∃ f ∈ s.fields, ∃ layout, f.sizedArray? = some layout ∧
      sampleCodec.schema.arrayGroup s f layout.binding = .ok "Kind" ∧
      sampleCodec.dispatch.header? "Kind" = some layout.binding ∧
      sampleCodec.schema.Delimited layout.binding.header ∧
      (∀ reg ∈ sampleCodec.dispatch.registrations, reg.identity.group = "Kind" →
        sampleCodec.schema.Delimited reg.structName) ∧
      ∃ r r', sampleCodec.decodeAny "Kind" sampleMessages.1 = .ok r ∧
        sampleCodec.decodeAny "Kind" sampleMessages.2 = .ok r' ∧
        sampleCodec.Batch "Kind" layout.align 0 [r, r'] sampleRegion ∧
        ∃ p next, p.cursor.Reads sampleRegion next ∧
          p.holds s.name f.condition = .ok true ∧
          p.noted s.name layout.lengthField = .ok (sampleRegion.length : Int) ∧
          sampleRegion.length < sizeLimit ∧
          f.regionStep layout "Kind" ∈ plan.decode ∧
          sampleCodec.readStep sampleCodec.decoder s plan p (f.regionStep layout "Kind") =
            .ok ((p.store f.name (.list [r.toValue, r'.toValue])).moveTo next) := by
  obtain ⟨⟨s, plan⟩, hl, f, hf, layout, hlayout, hgroup, hbound, hheader, hfills, hcondition,
      hlength⟩ :
      ∃ q, sampleCodec.lookup "Batch" = .ok q ∧ ∃ f ∈ q.1.fields, ∃ layout ∈ f.sizedArray?,
        (sampleCodec.schema.arrayGroup q.1 f layout.binding).toOption = some "Kind" ∧
        sampleCodec.dispatch.header? "Kind" = some layout.binding ∧
        layout.binding.header = "Header" ∧ layout.align = some 8 ∧ f.condition = none ∧
        layout.lengthField = "length" :=
    exists_ok_of_toOption (by decide +kernel)
  have hdelimited : ∀ name ∈ ["Header", "Transfer", "Kind", "uint64"],
      sampleCodec.schema.Delimited name := fun name hname =>
    Schema.delimited_of_closed ["Header", "Transfer", "Kind", "uint64"] (by decide +kernel)
      (by decide +kernel) hname
  have hregistered : ∀ reg ∈ sampleCodec.dispatch.registrations,
      reg.structName ∈ ["Header", "Transfer", "Kind", "uint64"] := by decide +kernel
  obtain ⟨r, hr⟩ := Option.isSome_iff_exists.mp (by decide +kernel :
    (sampleCodec.decodeAny "Kind" sampleMessages.1).toOption.isSome = true)
  obtain ⟨r', hr'⟩ := Option.isSome_iff_exists.mp (by decide +kernel :
    (sampleCodec.decodeAny "Kind" sampleMessages.2).toOption.isSome = true)
  have hbatch : sampleCodec.Batch "Kind" layout.align 0 [r, r'] sampleRegion := by
    rw [hfills]
    exact .cons (eq_ok_of_toOption hr) ⟨by decide, by decide⟩
      (.cons (eq_ok_of_toOption hr') ⟨by decide, by decide⟩ (.nil _))
  have hregistered : ∀ reg ∈ sampleCodec.dispatch.registrations, reg.identity.group = "Kind" →
      sampleCodec.schema.Delimited reg.structName :=
    fun reg hreg _ => hdelimited _ (hregistered reg hreg)
  have hheader : sampleCodec.schema.Delimited layout.binding.header :=
    hheader ▸ hdelimited "Header" (by decide)
  have hgroup := eq_ok_of_toOption hgroup
  -- the progress of a reader that knows the length and has the region ahead
  have hreads : (Cursor.start sampleRegion).Reads sampleRegion
      { offset := sampleRegion.length, rest := [] } :=
    Cursor.Reads.start_iff.mpr ⟨(List.append_nil _).symm, rfl⟩
  have hguard : ∀ p : Progress, p.holds s.name f.condition = .ok true := by
    intro p
    rw [hcondition]
    rfl
  have hnoted : Progress.noted { record := Record.empty "Batch", scratch := [("length", 32)]
                                 slots := [], cursor := Cursor.start sampleRegion } s.name
      layout.lengthField = .ok (sampleRegion.length : Int) := by
    rw [hlength]
    rfl
  obtain ⟨hmem, hstep⟩ := readStep_of_batch compile_sample hl hf hlayout hgroup hbound hheader
    hregistered hbatch hreads (hguard _) hnoted (by decide)
  exact ⟨s, plan, hl, f, hf, layout, hlayout, hgroup, hbound, hheader, hregistered, r, r',
    eq_ok_of_toOption hr, eq_ok_of_toOption hr', hbatch, _, _, hreads, hguard _, hnoted, by decide,
    hmem, hstep⟩

end WireLayout
