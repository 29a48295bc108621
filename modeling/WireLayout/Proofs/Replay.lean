import WireLayout.Proofs.Rereading
import WireLayout.Proofs.Writing

/-!
# Reading the fields of a written record

A record that was written is read back field by field. What the writer asked the whole record for, the
reader finds in what it read before: the integers of the fields that conditions test, the numbers of
elements and the lengths of regions. So each field is read from its bytes as the record holds it.
-/

namespace WireLayout

/-! ## Cursors between entries -/

/-- The cursors between entries that were written one after the other. -/
theorem cursors_of_joinM {f : WireEntry → Except CodecError Bytes}
    {entries : List (Option WireEntry)} {bytes : Bytes}
    (h : joinM f (entries.filterMap id) = .ok bytes) {cursor last : Cursor}
    (hreads : cursor.Reads bytes last) : ∃ cur : Nat → Cursor, cur 0 = cursor ∧
      cur entries.length = last ∧ (∀ i : Nat, entries[i]? = some none → cur (i + 1) = cur i) ∧
      ∀ i e, entries[i]? = some (some e) →
        ∃ chunk, f e = .ok chunk ∧ (cur i).Reads chunk (cur (i + 1)) := by
  induction entries generalizing bytes cursor with
  | nil =>
    cases h
    obtain rfl := hreads.eq_of_nil
    refine ⟨fun _ => last, rfl, rfl, fun i hi => ?_, fun i e hi => ?_⟩
    · cases hi
    · cases hi
  | cons o rest ih =>
    cases o with
    | none =>
      obtain ⟨cur, h0, hlast, hskip, hentry⟩ := ih h hreads
      refine ⟨precede cursor cur, rfl, hlast, fun i hi => ?_, fun i e hi => ?_⟩
      · cases i with
        | zero => exact h0
        | succ i => exact hskip i hi
      · cases i with
        | zero => cases hi
        | succ i => exact hentry i e hi
    | some e =>
      have hcons : (some e :: rest).filterMap id = e :: rest.filterMap id := rfl
      rw [hcons] at h
      simp only [joinM, bind_eq_ok] at h
      obtain ⟨front, hfront, more, hmore, h⟩ := h
      cases h
      obtain ⟨next, hnext, hrest⟩ := hreads.split
      obtain ⟨cur, h0, hlast, hskip, hentry⟩ := ih hmore hrest
      refine ⟨precede cursor cur, rfl, hlast, fun i hi => ?_, fun i e' hi => ?_⟩
      · cases i with
        | zero => cases hi
        | succ i => exact hskip i hi
      · cases i with
        | zero =>
          cases hi
          refine ⟨front, hfront, ?_⟩
          show cursor.Reads front (cur 0)
          rw [h0]
          exact hnext
        | succ i => exact hentry i e' hi

/-- A field that counts the elements of arrays counts those of each that is there. -/
theorem Frame.length_of_liveLength {frame : Frame} {arrays : List String} {n : Nat}
    (h : frame.liveLength arrays = .ok n) {a : String} (ha : a ∈ arrays) {items : List Value}
    (hget : frame.record.get? a = some (.list items)) : items.length = n := by
  have key : ∀ (arrays : List String) (shared : Option Nat),
      frame.sharedLength shared arrays = .ok n → (∀ k, shared = some k → k = n) ∧
        ∀ a ∈ arrays, ∀ items, frame.record.get? a = some (.list items) → items.length = n := by
    intro arrays
    induction arrays with
    | nil =>
      intro shared h
      refine ⟨fun k hk => ?_, by simp⟩
      subst hk
      exact Except.ok.inj h
    | cons b rest ih =>
      intro shared h
      unfold sharedLength at h
      split at h
      · rename_i hnone
        obtain ⟨hshared, hrest⟩ := ih shared h
        refine ⟨hshared, List.forall_mem_cons.mpr ⟨fun items hget => ?_, hrest⟩⟩
        rw [hnone] at hget
        cases hget
      · rename_i v hv
        split at h
        · cases h
        · rename_i found hfound
          obtain rfl := asList_eq_ok.mp hfound
          have hhead : found.length = n → ∀ items,
              frame.record.get? b = some (.list items) → items.length = n := by
            intro hlen items hget
            rw [hv] at hget
            cases hget
            exact hlen
          split at h
          · obtain ⟨hshared, hrest⟩ := ih _ h
            refine ⟨fun k hk => ?_, List.forall_mem_cons.mpr ⟨hhead (hshared _ rfl), hrest⟩⟩
            cases hk
          · split at h
            · rename_i hsame
              obtain ⟨hshared, hrest⟩ := ih _ h
              have hn := hshared _ rfl
              exact ⟨fun k hk => Option.some.inj hk ▸ hn,
                List.forall_mem_cons.mpr ⟨hhead (hsame ▸ hn), hrest⟩⟩
            · cases h
  exact (key arrays none h).2 a ha items hget

/-! ## Known integers -/

/-- Whether a struct that is being read knows the integers of the plain fields before a place as they
were written. -/
def Progress.Knows (p : Progress) (types : TypeTable) (frame : Frame) (measure : Measure)
    (place : Nat) : Prop :=
  ∀ k g, frame.struct.fields[k]? = some g → k < place → g.Testable types →
    ∃ n, frame.intOf measure g.name = .ok n ∧ p.scratch.lookup g.name = some n ∧ n < sizeLimit

section Knows

variable {p : Progress} {types : TypeTable} {frame : Frame} {measure : Measure} {place i : Nat}
  {f : Field} (hp : p.Knows types frame measure place) (hs : frame.struct.WellFormed types)
  (hi : frame.struct.fields[i]? = some f)

include hp hs hi

/-- A reader decides the condition of a field of its own as the writer did. -/
theorem Progress.Knows.holds (hle : i ≤ place) (hconst : f.isConst = false)
    (hunion : frame.struct.unionOf? f.name = none) {b : Bool}
    (hb : frame.holds measure f.condition = .ok b) :
    p.holds frame.struct.name f.condition = .ok b := by
  cases hc : f.condition with
  | none => rw [hc] at hb; exact hb
  | some cond =>
    rw [hc] at hb
    obtain ⟨g, hg, hname, ht⟩ := hs.tested f (List.mem_of_getElem? hi) cond hc
    obtain ⟨k, hk⟩ := List.mem_iff_getElem?.mp hg
    have hlt := Struct.tested_before hs.names hi hconst hc hunion hk hname ht.plain.2
    obtain ⟨n, hn, hlookup, -⟩ := hp k g hk (Nat.lt_of_lt_of_le hlt hle) ht
    rw [hname] at hn hlookup
    obtain ⟨n', hn', hb⟩ := map_eq_ok.mp hb
    rw [hn] at hn'
    cases hn'
    exact map_eq_ok.mpr ⟨n, noted_eq_ok.mpr hlookup, hb⟩

/-- The elements of a counted array that is written are as many as a reader expects. -/
theorem Progress.Knows.counted (hle : i ≤ place) {count : Count} (hd : f.disposition = .array count)
    {schema : Schema} {encoder : Encoder} {element : Element} {chunk : Bytes}
    (hb : frame.opBytes schema measure encoder f.name (.array element count) = .ok chunk) :
    ∃ items, frame.record.get? f.name = some (.list items) ∧
      joinM (fun v => element.write encoder f.name v) items = .ok chunk ∧
      Codec.countOf frame.struct.name p count = .ok items.length := by
  have hf := List.mem_of_getElem? hi
  obtain ⟨items, hitems, hb⟩ := bind_eq_ok.mp hb
  have hget : frame.record.get? f.name = some (.list items) := Frame.list_eq_ok.mp hitems
  refine ⟨items, hget, ?_⟩
  cases count with
  | literal expected =>
    dsimp only at hb
    split at hb
    · rename_i hlen
      exact ⟨hb, congrArg Except.ok hlen.symm⟩
    · cases hb
  | field name =>
    refine ⟨hb, ?_⟩
    have hby : f.countedBy? = some name := by unfold Field.countedBy?; rw [hd]
    obtain ⟨j, g, hlt, hg, rfl, hplain, hnum⟩ :=
      hs.counted i f hi _ (Field.lengthName?_of_countedBy? hby)
    have ht : g.Testable types := ⟨hplain, TypeTable.intType_of_isNumber hnum⟩
    obtain ⟨n, hn, hlookup, hlimit⟩ := hp j g hg (Nat.lt_of_lt_of_le hlt hle) ht
    have hcount : frame.struct.isCount g.name = true := Struct.isCount_eq_true.mpr ⟨f, hf, hby⟩
    rw [Frame.intOf_of_isCount hs (List.mem_of_getElem? hg) ht hcount] at hn
    obtain ⟨k, hk, rfl⟩ := map_eq_ok.mp hn
    have hmem : f.name ∈ frame.struct.arraysCountedBy g.name :=
      List.mem_map.mpr ⟨f, List.mem_filter.mpr ⟨hf, by simp [hby]⟩, rfl⟩
    have hlength : toLength g.name (Int.ofNat k) = .ok k := by
      rw [toLength_eq_ok]
      exact ⟨rfl, by simpa using hlimit⟩
    rw [Frame.length_of_liveLength hk hmem hget]
    exact bind_eq_ok.mpr ⟨_, noted_eq_ok.mpr hlookup, hlength⟩

end Knows

/-! ## Kept bytes -/

section Kept

variable {schema : Schema} {s : Struct} {plan : Plan} {slots : List UnionSlot}
  {entries : List (Option WireEntry)} {i : Nat} {slot : UnionSlot}

/-- The bytes of the slots up to a place are kept, once those of the slot in the place are. -/
theorem Schema.Planned.kept_cons (hp : schema.Planned s plan slots entries)
    (hs : s.WellFormed schema.types) (hslot : slot ∈ slots) (hpos : slot.position = i)
    {written : UnionSlot → Except CodecError Bytes} {raw : Bytes} (hraw : written slot = .ok raw)
    {kept : List (String × Bytes)} (h : ∀ slot ∈ slots, slot.position < i → ∀ raw,
      written slot = .ok raw → kept.lookup slot.name = some raw) :
    ∀ slot' ∈ slots, slot'.position < i + 1 → ∀ raw', written slot' = .ok raw' →
      ((slot.name, raw) :: kept).lookup slot'.name = some raw' := by
  intro slot' hslot' hlt raw' hraw'
  rw [Ordered.lookup_cons]
  by_cases hpos' : slot'.position = i
  · obtain rfl := hp.slot_of_position hs hslot hslot' (hpos'.trans hpos.symm)
    rw [hraw] at hraw'
    rw [if_pos rfl, Except.ok.inj hraw']
  · have hne : slot'.name ≠ slot.name := by
      intro hname
      obtain ⟨g, -, hof⟩ := hp.union_of_slot hslot
      obtain ⟨g', -, hof'⟩ := hp.union_of_slot hslot'
      have hsame := hof'.position
      rw [hname, hof.position, hpos] at hsame
      exact hpos' (Option.some.inj hsame).symm
    rw [if_neg hne]
    exact h slot' hslot' (by omega) raw' hraw'

/-- The entry of a union has no condition. -/
theorem Frame.stepBytes_slotEntry (schema : Schema) (measure : Measure) (encoder : Encoder)
    (frame : Frame) (s : Struct) (slot : UnionSlot) :
    frame.stepBytes schema measure encoder
        ((Schema.slotEntry slot).step ((Schema.slotEntry slot).encodeOp s)) =
      frame.opBytes schema measure encoder slot.name (.union slot.bytes slot.members) := rfl

section Slots

variable {c : Codec} {frame : Frame} {encoder : Encoder} {d : Decoder} {raw : Bytes}
  (hraw : frame.opBytes c.schema c.measure encoder slot.name (.union slot.bytes slot.members) =
    .ok raw) {p : Progress}

include hraw

/-- The entry of a union that is written is read: its bytes are kept. -/
theorem Codec.readStep_of_slot {next : Cursor} (hreads : p.cursor.Reads raw next) :
    c.readStep d s plan p ((Schema.slotEntry slot).step ((Schema.slotEntry slot).decodeOp s)) =
      .ok { p with slots := (slot.name, raw) :: p.slots, cursor := next } := by
  have htake := Cursor.take_of_reads hreads
  rw [Frame.length_of_union hraw] at htake
  simp only [readStep, Schema.slotEntry, WireEntry.step, WireEntry.decodeOp, Progress.holds, ok_bind,
    if_true, readOp, htake]

/-- A union whose bytes are kept is resolved as it was written, by its first member whose condition
holds, if there is one. -/
theorem Codec.readStep_of_kept (hguards : ∀ u ∈ slot.members, u.guard.field = slot.conditionField)
    {t : Int} (ht : frame.intOf c.measure slot.conditionField = .ok t)
    (hlookup : p.scratch.lookup slot.conditionField = some t)
    (hkept : p.slots.lookup slot.name = some raw) :
    (slot.members.find? fun u => u.guard.holds t) = none ∧
        c.readStep d s plan p (Struct.resolveStep slot) = .ok p ∨
      ∃ u v bytes last, (slot.members.find? fun u => u.guard.holds t) = some u ∧
        frame.value u.field = .ok v ∧ u.element.write encoder u.field v = .ok bytes ∧
        bytes.length ≤ raw.length ∧ (Cursor.start raw).Reads bytes last ∧
        c.readStep d s plan p (Struct.resolveStep slot) =
          (u.element.read d (Cursor.start raw)).map fun q =>
            (p.noteValue u.field q.1).store u.field q.1 := by
  obtain ⟨bytes, hbytes, -, hzeros⟩ := Frame.unionBytes_of_union hraw
  rw [Frame.unionBytes_eq ht hguards] at hbytes
  have hstep : c.readStep d s plan p (Struct.resolveStep slot) =
      readUnion d s.name raw p slot.members := by
    simp only [readStep, Struct.resolveStep, Progress.holds, ok_bind, if_true, readOp,
      slot_eq_ok.mpr hkept]
  rw [readUnion_eq hlookup hguards] at hstep
  cases hfind : slot.members.find? fun u => u.guard.holds t with
  | none =>
    rw [hfind] at hstep
    exact Or.inl ⟨rfl, hstep⟩
  | some u =>
    rw [hfind] at hstep hbytes
    obtain ⟨v, hv, hbytes⟩ := bind_eq_ok'.mp hbytes
    have hle : bytes.length ≤ raw.length := by
      rw [hzeros, List.length_append]
      exact Nat.le_add_right _ _
    have hreads : (Cursor.start raw).Reads bytes
        { offset := bytes.length, rest := Bytes.zeros (slot.bytes - bytes.length) } :=
      Cursor.Reads.start_iff.mpr ⟨hzeros, rfl⟩
    exact Or.inr ⟨u, v, bytes, _, rfl, hv, hbytes, hle, hreads, hstep⟩

end Slots

end Kept

/-! ## Written records -/

/-- Whether no field that counts elements holds the byte length of a region. -/
def Schema.LengthsUncounted (schema : Schema) : Prop :=
  ∀ s ∈ schema.structs, ∀ f ∈ s.fields, ∀ layout ∈ f.sizedArray?,
    s.isCount layout.lengthField = false

instance (schema : Schema) : Decidable schema.LengthsUncounted :=
  inferInstanceAs (Decidable (∀ s ∈ schema.structs, ∀ f ∈ s.fields, ∀ layout ∈ f.sizedArray?,
    s.isCount layout.lengthField = false))

/-- What is known of a record that was written: each of its entries lies between two cursors, its parts
can be read back, and an array that goes on to the end of the buffer does so. -/
structure Codec.Written (c : Codec) (s : Struct) (plan : Plan) (r : Record)
    (initial : List Initializer) (slots : List UnionSlot) (entries : List (Option WireEntry)) (m : Nat)
    (cur : Nat → Cursor) : Prop where
  sound : c.Sound
  lookup : c.lookup r.typeName = .ok (s, plan)
  planned : c.schema.Planned s plan slots entries
  proper : c.Proper r
  rereads : c.Rereads (c.encodeAt m)
  parts : ∀ name, c.Refers r.typeName name → c.FillFree name
  fill : ∀ f ∈ s.fields, f.disposition = .arrayFill → (cur entries.length).rest = [] ∧
    ∀ element, c.schema.ElementOf f.typeName element → ∀ items,
      r.get? f.name = some (.list items) → ∀ v ∈ items,
        element.write (c.encodeAt m) f.name v ≠ .ok []
  entry : ∀ i e, entries[i]? = some (some e) → ∃ chunk, (Frame.mk s plan r initial).stepBytes
    c.schema c.measure (c.encodeAt m) (e.step (e.encodeOp s)) = .ok chunk ∧
      (cur i).Reads chunk (cur (i + 1))
  skip : ∀ i : Nat, entries[i]? = some none → cur (i + 1) = cur i

namespace Codec.Written

variable {c : Codec} {s : Struct} {plan : Plan} {r : Record} {initial : List Initializer}
  {slots : List UnionSlot} {entries : List (Option WireEntry)} {m : Nat} {cur : Nat → Cursor}
  (h : c.Written s plan r initial slots entries m cur)

include h

theorem here : c.CanonicalHere r := h.proper.canonical r (.refl r)

theorem declared : c.schema.struct? r.typeName = some s ∧ s ∈ c.schema.structs := by
  obtain ⟨hstruct, hmem, -⟩ := h.sound.planned_of_lookup h.lookup
  exact ⟨hstruct, hmem⟩

theorem wellFormed : s.WellFormed c.schema.types := h.sound.linked.wellFormed s h.declared.2

/-- The value of a field of its own that is written, if it holds one. -/
theorem get?_of_stored {f : Field} (hf : f ∈ s.fields) (hunion : s.unionOf? f.name = none)
    (hstored : f.isStored = true) (hcount : s.isCount f.name = false)
    (hholds : (Frame.mk s plan r initial).holds c.measure f.condition = .ok true) :
    ∃ v, r.get? f.name = some v := by
  rcases h.here.get?_of_own h.lookup h.wellFormed initial hf hunion with ⟨v, hv, -⟩ | ⟨-, hnot⟩
  · exact ⟨v, hv⟩
  · exact absurd hholds
      (hnot (Field.isConst_of_isStored hstored) (Field.role_of_isStored hstored) hcount)

/-- A field that holds no value of its own is not in the record. -/
theorem get?_of_dropped {f : Field} (hf : f ∈ s.fields) (hunion : s.unionOf? f.name = none)
    (hdropped : f.isConst = true ∨ f.disposition.role = .reserved ∨ s.isCount f.name = true ∨
      (Frame.mk s plan r initial).holds c.measure f.condition = .ok false) :
    r.get? f.name = none := by
  rcases h.here.get?_of_own h.lookup h.wellFormed initial hf hunion with
    ⟨v, -, hconst, hrole, hcount, hholds⟩ | ⟨hnone, -⟩
  · rcases hdropped with hd | hd | hd | hd
    · rw [hconst] at hd; cases hd
    · exact absurd hd hrole
    · rw [hcount] at hd; cases hd
    · rw [hholds] at hd; cases hd
  · exact hnone

omit h in
/-- What is written for a field that holds a value which is no struct: the number of elements that it
counts, or its value. -/
theorem value_of_leaf {f : Field} (hcount : s.isCount f.name = false → ∃ v, r.get? f.name = some v)
    {leaf : Leaf} {role : Role} {guard : Option Condition} {e : Encoder} {chunk : Bytes}
    (hb : (Frame.mk s plan r initial).opBytes c.schema c.measure e f.name
      (WireEntry.encodeOp s { field := f.name, role, guard, shape := .leaf leaf }) = .ok chunk) :
    (s.isCount f.name = true ∧ ∃ n : Nat, (Frame.mk s plan r initial).liveLength
        (s.arraysCountedBy f.name) = .ok n ∧ leaf.write f.name (.int n) = .ok chunk) ∨
      s.isCount f.name = false ∧ ∃ v, r.get? f.name = some v ∧ leaf.write f.name v = .ok chunk := by
  cases hc : s.isCount f.name with
  | true =>
    simp only [WireEntry.encodeOp, hc, if_true, Frame.opBytes, bind_eq_ok] at hb
    exact Or.inl ⟨rfl, hb⟩
  | false =>
    obtain ⟨v, hv⟩ := hcount hc
    refine Or.inr ⟨rfl, v, hv, ?_⟩
    simp only [WireEntry.encodeOp, hc, Bool.false_eq_true, if_false] at hb
    split at hb
    · simp only [Frame.opBytes, Frame.byteLength, hv, bind_eq_ok] at hb
      obtain ⟨n, hn, hb⟩ := hb
      rw [asInt_eq_ok.mp hn]
      exact hb
    · simp only [Frame.opBytes, Frame.value, hv, ok_bind] at hb
      exact hb

/-- A plain integer field has an integer that fits the lengths of values. -/
theorem intOf_ok {k : Nat} {f : Field} (hk : s.fields[k]? = some f)
    (ht : f.Testable c.schema.types) :
    ∃ n, (Frame.mk s plan r initial).intOf c.measure f.name = .ok n ∧ n < sizeLimit := by
  have hs := h.wellFormed
  have hf := List.mem_of_getElem? hk
  obtain ⟨leaf, t, hform, hentry⟩ := h.planned.entry_of_testable hs hk ht
  obtain ⟨chunk, hchunk, -⟩ := h.entry k _ hentry
  simp only [Frame.stepBytes, WireEntry.step, Frame.holds, ok_bind, if_true] at hchunk
  have hsome : s.isCount f.name = false → ∃ v, r.get? f.name = some v := fun hcount =>
    Option.isSome_iff_exists.mp (h.here.isSome_of_testable h.lookup hs hf ht hcount)
  rcases value_of_leaf hsome hchunk with ⟨hcount, n, hlive, hwrite⟩ | ⟨hcount, v, hv, hwrite⟩
  · refine ⟨n, ?_, (Leaf.form_of_write hwrite).choose_spec.2⟩
    rw [Frame.intOf_of_isCount hs hf ht hcount]
    exact map_eq_ok.mpr ⟨n, hlive, rfl⟩
  · obtain ⟨n, rfl, hlimit⟩ := Leaf.int_of_write hwrite hform
    refine ⟨n, ?_, hlimit⟩
    rw [Frame.intOf_of_get? hs hf ht hcount hv]
    rfl

/-- The type of a field is no struct with an array that goes on to the end. -/
theorem free {f : Field} (hf : f ∈ s.fields) (hconst : f.isConst = false)
    (hsized : f.sizedArray? = none) : c.FillFree f.typeName :=
  h.parts _ (refers_of_field h.declared.1 hf hconst hsized)

theorem free_element {f : Field} (hf : f ∈ s.fields) (hconst : f.isConst = false)
    (hsized : f.sizedArray? = none) {element : Element}
    (helement : c.schema.ElementOf f.typeName element) :
    ∀ ty, element = .struct ty → c.FillFree ty := by
  rintro ty rfl
  exact helement.eq_of_struct ▸ h.free hf hconst hsized

theorem proper_element {name : String} {items : List Value}
    (hget : r.get? name = some (.list items)) :
    ∀ v ∈ items, ∀ x, v = Record.toValue x → c.Proper x := by
  rintro v hv x rfl
  exact h.proper.within (Record.within_of_mem hget hv)

end Codec.Written

/-! ## Readers of a written record -/

/-- What a reader of a written record knows once it took what lies before a place and settled the names
that are `known`. -/
structure Codec.Replays (c : Codec) (frame : Frame) (slots : List UnionSlot) (e : Encoder)
    (known : String → Prop) (place : Nat) (p : Progress) : Prop where
  /-- Where a name is known, the reader's record is the one that was written. -/
  settled : ∀ x, known x → p.record.get? x = frame.record.get? x
  /-- It holds nothing else. -/
  pending : ∀ x, ¬ known x → p.record.get? x = none
  /-- The integers that conditions test were kept. -/
  tested : ∀ k f, frame.struct.fields[k]? = some f → k < place → f.Testable c.schema.types →
    ∀ n, frame.intOf c.measure f.name = .ok n → p.scratch.lookup f.name = some n
  /-- So were the promised sizes. -/
  promised : ∀ k f, frame.struct.fields[k]? = some f → k < place → ∀ target ∈ f.sizeOfTarget?,
    frame.holds c.measure f.condition = .ok true → ∀ n : Nat,
      frame.fieldSize c.schema c.measure target = .ok n → p.scratch.lookup f.name = some (n : Int)
  /-- So were the bytes of unions. -/
  slots : ∀ slot ∈ slots, slot.position < place → ∀ raw,
    frame.opBytes c.schema c.measure e slot.name (.union slot.bytes slot.members) = .ok raw →
      p.slots.lookup slot.name = some raw

/-- What the reading of a field of its own brings about. -/
structure Codec.Settles (c : Codec) (frame : Frame) (f : Field) (next : Cursor) (p p' : Progress) :
    Prop where
  cursor : p'.cursor = next
  slots : p'.slots = p.slots
  record : p'.record.get? f.name = frame.record.get? f.name
  tested : f.Testable c.schema.types → ∀ n, frame.intOf c.measure f.name = .ok n →
    p'.scratch.lookup f.name = some n
  promised : ∀ target ∈ f.sizeOfTarget?, frame.holds c.measure f.condition = .ok true → ∀ n : Nat,
    frame.fieldSize c.schema c.measure target = .ok n → p'.scratch.lookup f.name = some (n : Int)

namespace Codec

variable {c : Codec} {s : Struct} {plan : Plan} {r : Record} {initial : List Initializer}
  {slots : List UnionSlot} {entries : List (Option WireEntry)} {m : Nat} {cur : Nat → Cursor}
  {known : String → Prop} {place : Nat} {p : Progress}

/-- Storing a value that is neither an integer nor promises a size. -/
theorem Settles.of_store {frame : Frame} {f : Field} {v : Value}
    (hv : frame.record.get? f.name = some v) (htest : ¬ f.Testable c.schema.types)
    (hsize : f.sizeOfTarget? = none) (next : Cursor) :
    c.Settles frame f next p ((p.store f.name v).moveTo next) where
  cursor := rfl
  slots := rfl
  record := (Record.get?_insert_self _ _ _).trans hv.symm
  tested := fun ht => absurd ht htest
  promised := fun target htarget => by rw [hsize] at htarget; cases htarget

section Replays

variable (h : c.Written s plan r initial slots entries m cur)
  (hp : c.Replays (Frame.mk s plan r initial) slots (c.encodeAt m) known place p)

include h hp

/-- The integer that a condition tests is known. -/
theorem Replays.noted {k : Nat} {g : Field} (hk : s.fields[k]? = some g) (hlt : k < place)
    (ht : g.Testable c.schema.types) :
    ∃ n, (Frame.mk s plan r initial).intOf c.measure g.name = .ok n ∧
      p.scratch.lookup g.name = some n ∧ n < sizeLimit := by
  obtain ⟨n, hn, hlimit⟩ := h.intOf_ok hk ht
  exact ⟨n, hn, hp.tested k g hk hlt ht n hn, hlimit⟩

theorem Replays.knows : p.Knows c.schema.types (Frame.mk s plan r initial) c.measure place :=
  fun _ _ hk hlt ht => hp.noted h hk hlt ht

end Replays

section Fields

variable {i : Nat} {f : Field} {next : Cursor} {chunk : Bytes}
  (h : c.Written s plan r initial slots entries m cur)
  (hp : c.Replays (Frame.mk s plan r initial) slots (c.encodeAt m) (s.ready slots · < i) i p)
  (hi : s.fields[i]? = some f) (hunion : s.unionOf? f.name = none)
  (hreads : p.cursor.Reads chunk next)

include h hp hi hunion hreads

/-- A field that holds a value which is no struct is read back. -/
theorem Replays.readLeaf (hstored : f.isStored = true) {leaf : Leaf}
    (hholds : (Frame.mk s plan r initial).holds c.measure f.condition = .ok true) {role : Role}
    {guard : Option Condition}
    (hb : (Frame.mk s plan r initial).opBytes c.schema c.measure (c.encodeAt m) f.name
      (WireEntry.encodeOp s { field := f.name, role, guard, shape := .leaf leaf }) = .ok chunk) :
    ∃ p', c.readOp c.decoder s plan f.name p
        (WireEntry.decodeOp s { field := f.name, role, guard, shape := .leaf leaf }) = .ok p' ∧
      c.Settles (Frame.mk s plan r initial) f next p p' := by
  have hs := h.wellFormed
  have hf := List.mem_of_getElem? hi
  have hconst := Field.isConst_of_isStored hstored
  have hpromised := Field.sizeOfTarget?_of_isStored hstored
  have hsome := fun hcount => h.get?_of_stored hf hunion hstored hcount hholds
  rcases Written.value_of_leaf hsome hb with ⟨hcount, n, hlive, hwrite⟩ | ⟨hcount, v, hv, hwrite⟩
  · -- the number of elements is kept, and the record does not hold it
    obtain ⟨t, hform, -⟩ := Leaf.form_of_write hwrite
    have hread : leaf.readInt f.name p.cursor = .ok ((n : Int), next) :=
      (Leaf.readInt_eq_ok t hform).mpr (Leaf.read_of_write hwrite hreads)
    have hown := h.planned.ready_of_own hs hi hunion
    refine ⟨(p.note f.name n).moveTo next, ?_, rfl, rfl, ?_, fun ht k hk => ?_, fun target hz => ?_⟩
    · simp only [WireEntry.decodeOp, hcount, if_true, readOp, hread, ok_bind]
    · have hnone := h.get?_of_dropped hf hunion (Or.inr (Or.inr (Or.inl hcount)))
      exact (hp.pending f.name (Nat.not_lt.mpr (Nat.le_of_eq hown.symm))).trans hnone.symm
    · rw [Frame.intOf_of_isCount hs hf ht hcount] at hk
      obtain ⟨n', hn', rfl⟩ := map_eq_ok.mp hk
      rw [hlive] at hn'
      cases hn'
      exact (Ordered.lookup_cons _ _ _).trans (if_pos rfl)
    · rw [hpromised] at hz
      cases hz
  · have hread := Leaf.read_of_write hwrite hreads
    refine ⟨((p.noteValue f.name v).store f.name v).moveTo next, ?_, rfl, ?_, ?_,
      fun ht k hk => ?_, fun target hz => ?_⟩
    · simp only [WireEntry.decodeOp, hcount, Bool.false_eq_true, if_false, readOp, hread, ok_bind]
    · exact p.slots_noteValue f.name v
    · exact (Record.get?_insert_self _ _ _).trans hv.symm
    · rw [Frame.intOf_of_get? hs hf ht hcount hv] at hk
      obtain rfl := asInt_eq_ok.mp hk
      exact (Ordered.lookup_cons _ _ _).trans (if_pos rfl)
    · rw [hpromised] at hz
      cases hz

/-- A reserved field is read back: it holds what is expected of it. -/
theorem Replays.readReserved {value : ReservedValue} (hd : f.disposition = .reserved value)
    {leaf : Leaf} (hb : (Frame.mk s plan r initial).opBytes c.schema c.measure (c.encodeAt m) f.name
      (.reserved leaf value) = .ok chunk) :
    ∃ p', c.readOp c.decoder s plan f.name p (.reserved leaf value.fixed?) = .ok p' ∧
      c.Settles (Frame.mk s plan r initial) f next p p' := by
  have hs := h.wellFormed
  have hf := List.mem_of_getElem? hi
  obtain ⟨k, hk, hwrite⟩ := bind_eq_ok.mp hb
  obtain ⟨t, hform, -⟩ := Leaf.form_of_write hwrite
  have hread : leaf.readInt f.name p.cursor = .ok (k, next) :=
    (Leaf.readInt_eq_ok t hform).mpr (Leaf.read_of_write hwrite hreads)
  have hown := h.planned.ready_of_own hs hi hunion
  refine ⟨(p.note f.name k).moveTo next, ?_, rfl, rfl, ?_, fun ht => ?_, fun target hz _ n hn => ?_⟩
  · cases value with
    | sizeOf target => simp only [ReservedValue.fixed?, readOp, hread, ok_bind]
    | int v =>
      cases hk
      simp only [ReservedValue.fixed?, readOp, hread, ok_bind, checkReserved, if_true]
    | member text v =>
      cases hk
      simp only [ReservedValue.fixed?, readOp, hread, ok_bind, checkReserved, if_true]
  · have hnone := h.get?_of_dropped hf hunion (Or.inr (Or.inl (by rw [hd]; rfl)))
    exact (hp.pending f.name (Nat.not_lt.mpr (Nat.le_of_eq hown.symm))).trans hnone.symm
  · exact absurd ht (Field.not_testable hd (by simp))
  · have hvalue : value = .sizeOf target := by
      have hd' := Field.disposition_of_sizeOfTarget? hz
      rw [hd] at hd'
      cases hd'
      rfl
    subst hvalue
    obtain ⟨n', hn', rfl⟩ := map_eq_ok.mp hk
    rw [hn] at hn'
    cases hn'
    exact (Ordered.lookup_cons _ _ _).trans (if_pos rfl)

omit hp in
/-- A nested record is read back. -/
theorem Replays.readNested (hstored : f.isStored = true)
    (hform : c.schema.types.form? f.typeName = none) {isInline : Bool}
    (hholds : (Frame.mk s plan r initial).holds c.measure f.condition = .ok true)
    (hb : (Frame.mk s plan r initial).opBytes c.schema c.measure (c.encodeAt m) f.name
      (.nested f.typeName isInline) = .ok chunk) :
    ∃ p', c.readOp c.decoder s plan f.name p (.nested f.typeName isInline) = .ok p' ∧
      c.Settles (Frame.mk s plan r initial) f next p p' := by
  have hf := List.mem_of_getElem? hi
  have hconst := Field.isConst_of_isStored hstored
  have htest : ¬ f.Testable c.schema.types := by
    rintro ⟨-, t, ht⟩
    rw [TypeTable.form?_of_intType? ht] at hform
    cases hform
  have hcount : s.isCount f.name = false := by
    rw [Bool.eq_false_iff]
    exact fun hcount => htest (h.wellFormed.testable_of_isCount hf hcount)
  obtain ⟨v, hv⟩ := h.get?_of_stored hf hunion hstored hcount hholds
  simp only [Frame.opBytes, Frame.nested, hv, bind_eq_ok] at hb
  obtain ⟨x, hx, hb⟩ := hb
  obtain rfl := asRecord_eq_ok.mp hx
  have hread := h.rereads f.typeName _ x chunk (h.proper.within (Record.within_of_get? hv))
    (h.free hf hconst (Field.sizedArray?_of_isStored hstored)) hb p.cursor next hreads
  refine ⟨_, ?_, Settles.of_store hv htest (Field.sizeOfTarget?_of_isStored hstored) next⟩
  simp only [readOp, hread, ok_bind]

omit hunion in
/-- A counted array is read back: its length field was read before. -/
theorem Replays.readArray {count : Count} (hd : f.disposition = .array count) {element : Element}
    (helement : c.schema.ElementOf f.typeName element)
    (hb : (Frame.mk s plan r initial).opBytes c.schema c.measure (c.encodeAt m) f.name
      (.array element count) = .ok chunk) :
    ∃ p', c.readOp c.decoder s plan f.name p (.array element count) = .ok p' ∧
      c.Settles (Frame.mk s plan r initial) f next p p' := by
  have hs := h.wellFormed
  have hf := List.mem_of_getElem? hi
  have hconst : f.isConst = false := by simp [Field.isConst, hd, Disposition.role]
  obtain ⟨items, hget, hjoin, hcount⟩ := (hp.knows h).counted h.wellFormed hi (Nat.le_refl i) hd hb
  have hsized : f.sizedArray? = none := by unfold Field.sizedArray?; rw [hd]
  have hread := h.rereads.counted hjoin (h.proper_element hget)
    (h.free_element hf hconst hsized helement) hreads
  refine ⟨_, ?_, Settles.of_store hget (Field.not_testable hd (by simp))
    (by unfold Field.sizeOfTarget?; rw [hd]) next⟩
  simp only [readOp, hcount, hread, ok_bind]

omit hunion in
/-- A region is read back: its length field was read before, and holds its length. -/
theorem Replays.readRegion (hlengths : c.schema.LengthsUncounted) {layout : SizedArray}
    (hd : f.disposition = .arraySized layout) {group : String}
    (hgroup : c.schema.arrayGroup s f layout.binding = .ok group)
    (hb : (Frame.mk s plan r initial).opBytes c.schema c.measure (c.encodeAt m) f.name
      (.arraySized layout.lengthField layout.align) = .ok chunk) :
    ∃ p', c.readOp c.decoder s plan f.name p (.arraySized layout group) = .ok p' ∧
      c.Settles (Frame.mk s plan r initial) f next p p' := by
  have hs := h.wellFormed
  obtain ⟨hstruct, hsmem⟩ := h.declared
  have hf := List.mem_of_getElem? hi
  have hlayout : f.sizedArray? = some layout := by unfold Field.sizedArray?; rw [hd]
  have hrefers : ∀ name, (name = layout.binding.header ∨ ∃ group version id,
      c.schema.arrayGroup s f layout.binding = .ok group ∧
        c.dispatch.resolve? group version id = some name) → c.FillFree name := by
    intro name hname
    refine h.parts name ⟨s, hstruct, f, hf, ?_⟩
    unfold FieldRefers
    rw [hd]
    exact hname
  -- the length field is in the record
  obtain ⟨j, g, hlt, hg, hgname, hplain, hnum⟩ :=
    hs.counted i f hi _ (Field.lengthName?_of_sizedArray? hlayout)
  have hgmem := List.mem_of_getElem? hg
  have ht : g.Testable c.schema.types := ⟨hplain, TypeTable.intType_of_isNumber hnum⟩
  have hcount : s.isCount g.name = false := hgname ▸ hlengths s hsmem f hf layout hlayout
  obtain ⟨n, hn, hlookup, hlimit⟩ := hp.noted h hg hlt ht
  obtain ⟨v, hv⟩ := Option.isSome_iff_exists.mp
    (h.here.isSome_of_testable h.lookup hs hgmem ht hcount)
  rw [Frame.intOf_of_get? hs hgmem ht hcount hv] at hn
  obtain rfl := asInt_eq_ok.mp hn
  rw [hgname] at hv hlookup
  -- so the region is as long as it says
  obtain ⟨items, hitems, hregion, hsaid⟩ := Frame.regionBytes_of_arraySized hb
  have hget : r.get? f.name = some (.list items) := Frame.list_eq_ok.mp hitems
  have hlen := hsaid _ hv
  have hlength : toLength layout.lengthField n = .ok chunk.length := by
    rw [toLength_eq_ok]
    exact ⟨hlen, by omega⟩
  have htake : p.cursor.region chunk.length = .ok (Cursor.start chunk, next) :=
    map_eq_ok.mpr ⟨_, Cursor.take_of_reads hreads, rfl⟩
  have hall : (Cursor.start chunk).Reads chunk { offset := chunk.length, rest := [] } :=
    Cursor.Reads.start_iff.mpr ⟨(List.append_nil chunk).symm, rfl⟩
  have hparts : ∀ x, Record.toValue x ∈ items → c.Proper x ∧ ∃ bytes key,
      c.encode x = .ok bytes ∧ c.decodeHeader layout.binding bytes = .ok key ∧
      c.dispatch.resolve? group (key.2.getD 0) key.1 = some x.typeName ∧ c.FillFree x.typeName := by
    intro x hx
    obtain ⟨bytes, key, henc, hkey, hresolve⟩ := h.proper.dispatched r (.refl r) s plan h.lookup f hf
      layout hlayout group hgroup items hget x hx
    exact ⟨h.proper.within (Record.within_of_mem hget hx), bytes, key, henc, hkey, hresolve,
      hrefers _ (Or.inr ⟨group, _, _, hgroup, hresolve⟩)⟩
  have hread := h.sound.region_of_write h.rereads hparts (hrefers _ (Or.inl rfl)) hregion
    hall rfl (Nat.le_refl _)
  refine ⟨_, ?_, Settles.of_store hget (Field.not_testable hd (by simp))
    (by unfold Field.sizeOfTarget?; rw [hd]) next⟩
  simp only [readOp, noted_eq_ok.mpr hlookup, hlength, htake, hread, ok_bind]

omit hp hunion in
/-- An array that goes on to the end of the buffer is read back: it is the last field. -/
theorem Replays.readFill (hd : f.disposition = .arrayFill) {element : Element}
    (helement : c.schema.ElementOf f.typeName element) (hend : next.rest = [])
    (hb : (Frame.mk s plan r initial).opBytes c.schema c.measure (c.encodeAt m) f.name
      (.fill element) = .ok chunk) :
    ∃ p', c.readOp c.decoder s plan f.name p (.fill element) = .ok p' ∧
      c.Settles (Frame.mk s plan r initial) f next p p' := by
  have hf := List.mem_of_getElem? hi
  obtain ⟨items, hitems, hb⟩ := bind_eq_ok.mp hb
  have hget : r.get? f.name = some (.list items) := Frame.list_eq_ok.mp hitems
  have hconst : f.isConst = false := by simp [Field.isConst, hd, Disposition.role]
  have hsized : f.sizedArray? = none := by unfold Field.sizedArray?; rw [hd]
  have hread := h.rereads.toEnd hb (h.proper_element hget)
    (h.free_element hf hconst hsized helement)
    ((h.fill f hf hd).2 element helement items hget) hreads hend (Nat.le_refl _)
  refine ⟨_, ?_, Settles.of_store hget (Field.not_testable hd (by simp))
    (by unfold Field.sizeOfTarget?; rw [hd]) next⟩
  simp only [readOp, hread, ok_bind]

end Fields

end Codec

end WireLayout
