import WireLayout.Proofs.Promises
import WireLayout.Proofs.Replay
import WireLayout.Proofs.SizeOfDecoded
import WireLayout.Proofs.SizeOfEncoding

/-!
# Remembering what was written

A record that was written need not be canonical: it may hold what is not written, leave out what has
an initial value, or leave out a nested record. The reader makes another record of it. What it
remembers of a field is all the same what the writer asked for: the integers that conditions test, the
sizes that were promised, and a value that has the size of the bytes it was read from.
-/

namespace WireLayout

/-! ## Sizes of what is written -/

namespace Schema.AllCounted

variable {schema : Schema} (h : schema.AllCounted) {s : Struct}

include h

theorem lengthsOwned : schema.LengthsOwned := by
  intro s hs f hf hsome
  rw [(h s hs f hf).2] at hsome
  cases hsome

theorem regionsMeasuredBy_eq_nil (hs : s ∈ schema.structs) (name : String) :
    s.regionsMeasuredBy name = [] := by
  rw [List.eq_nil_iff_forall_not_mem]
  intro p hp
  obtain ⟨f, hf, layout, hlayout, -⟩ := Struct.mem_regionsMeasuredBy.mp hp
  rw [(h s hs f hf).2] at hlayout
  cases hlayout

theorem reachesLength_eq_false (hs : s ∈ schema.structs) (path : List String) :
    schema.reachesLength s path = false := by
  induction path generalizing s with
  | nil => rfl
  | cons hop path ih =>
    cases path with
    | nil => rw [reachesLength, h.regionsMeasuredBy_eq_nil hs]; rfl
    | cons next path =>
      rw [reachesLength]
      cases hnext : (s.field? hop).bind fun f => schema.struct? f.typeName with
      | none => rfl
      | some t =>
        obtain ⟨f, -, ht⟩ := Option.bind_eq_some_iff.mp hnext
        exact ih (Schema.mem_of_struct? ht).1

end Schema.AllCounted

namespace Codec

variable {c : Codec} {n : Nat} {bytes : Bytes}

/-- The size of a record that is written is the number of its bytes. -/
theorem Sound.eq_of_measure (hc : c.Sound) (hcounted : c.schema.AllCounted) {name : String}
    {initial : List Initializer} {r : Record} (hb : c.encodeAt n name initial r = .ok bytes)
    (hlt : bytes.length < sizeLimit) {k : Nat} (hk : c.measure name initial r = .ok k) :
    k = bytes.length := by
  have hspares : ∀ s ∈ c.schema.structs, ∀ initial, c.schema.SparesLengths s initial :=
    fun s hs initial i _ => hcounted.reachesLength_eq_false hs i.path
  -- both are found within a depth that suffices for the two
  have hb' := c.encodeAt_below (Nat.le_max_left n (c.depthOf r)) _ _ _ _ hb
  have hk' := c.sizeAt_below (Nat.le_max_right n (c.depthOf r)) _ _ _ _ hk
  rw [measures hc hcounted.lengthsOwned (fun s hs plan _ _ => hspares s hs plan.initializers)
    _ name initial r (fun s hs => hspares s (Schema.mem_of_struct? hs).1 initial)
    (Or.inl (Nat.le_max_right _ _)) bytes hb' hlt] at hk'
  exact (Except.ok.inj hk').symm

/-- The sizes of elements that are written add up to the number of their bytes. -/
theorem Sound.eq_of_elementsSize (hc : c.Sound) (hcounted : c.schema.AllCounted) {element : Element}
    {field : String} {items : List Value} {total : Nat}
    (hb : joinM (fun v => element.write (c.encodeAt n) field v) items = .ok bytes)
    (hlt : bytes.length < sizeLimit) {k : Nat}
    (hk : elementsSize c.measure element field total items = .ok k) : k = total + bytes.length := by
  induction items generalizing bytes total with
  | nil =>
    cases hb
    exact (Except.ok.inj hk).symm
  | cons v rest ih =>
    simp only [joinM, bind_eq_ok] at hb
    obtain ⟨first, hfirst, more, hmore, hb⟩ := hb
    cases hb
    rw [List.length_append] at hlt ⊢
    simp only [elementsSize, bind_eq_ok] at hk
    obtain ⟨size, hsize, total', htotal, hk⟩ := hk
    have hsame : size = first.length := by
      cases element with
      | leaf l => exact (Except.ok.inj hsize).symm.trans (Leaf.length_of_write hfirst).symm
      | struct ty =>
        obtain ⟨r, hr, hsize⟩ := bind_eq_ok'.mp hsize
        obtain ⟨r', hr', hfirst⟩ := bind_eq_ok'.mp hfirst
        rw [hr] at hr'
        cases hr'
        exact hc.eq_of_measure hcounted hfirst (by omega) hsize
    rw [ih hmore (by omega) hk, (grow_eq_ok.mp htotal).1, hsame, Nat.add_assoc]

/-- The size of a field of its own that is written is the number of its bytes. -/
theorem Sound.eq_of_opSize (hc : c.Sound) (hcounted : c.schema.AllCounted) {frame : Frame}
    (hs : frame.struct ∈ c.schema.structs) {f : Field} (hf : f ∈ frame.struct.fields)
    {shape : WireShape} (hshape : c.schema.Shaped frame.struct f shape) {role : Role}
    {guard : Option Condition}
    (hb : frame.opBytes c.schema c.measure (c.encodeAt n) f.name
      (WireEntry.encodeOp frame.struct { field := f.name, role, guard, shape }) = .ok bytes)
    (hlt : bytes.length < sizeLimit) {k : Nat}
    (hk : frame.opSize c.measure f.name
      (WireEntry.sizeOp { field := f.name, role, guard, shape }) = .ok k) : k = bytes.length := by
  cases hshape with
  | leaf _ _ => exact (Except.ok.inj hk).symm.trans (Frame.length_of_leaf hb).symm
  | reserved _ _ =>
    obtain ⟨v, -, hb⟩ := bind_eq_ok.mp hb
    exact (Except.ok.inj hk).symm.trans (Leaf.length_of_write hb).symm
  | nested _ _ _ =>
    obtain ⟨r, hr, hb⟩ := bind_eq_ok.mp hb
    obtain ⟨r', hr', hk⟩ := bind_eq_ok.mp hk
    rw [hr] at hr'
    cases hr'
    exact hc.eq_of_measure hcounted hb hlt hk
  | @array element count _ _ =>
    obtain ⟨items, hitems, hjoin⟩ := Frame.joinM_of_array hb
    obtain ⟨items', hitems', hk⟩ := bind_eq_ok.mp hk
    rw [hitems] at hitems'
    cases hitems'
    rw [hc.eq_of_elementsSize hcounted hjoin hlt hk, Nat.zero_add]
  | arraySized hd _ =>
    have hnone := (hcounted _ hs f hf).2
    simp [Field.sizedArray?, hd] at hnone
  | fill hd _ => exact absurd hd (hcounted _ hs f hf).1

/-! ## Elements -/

/-- Whether the size that is promised of a field can be found again in what is read for it: in the
structs that the field brings in, numbers of elements can. -/
def PromisesAnchored (c : Codec) : Prop :=
  ∀ s ∈ c.schema.structs, ∀ f ∈ s.fields, ∀ target ∈ f.sizeOfTarget?, ∀ g ∈ s.fields,
    g.name = target → s.unionOf? target = none → c.AnchoredFrom g.typeName

/-- Whether every record that an encoder writes is read from its bytes, wherever they lie, if no initial
value is one of a promised member of a union: as some record, of that size where numbers of elements
can be found again. -/
def Accepts (c : Codec) (e : Encoder) : Prop :=
  ∀ name initial r bytes, c.schema.SparesPromises initial → e name initial r = .ok bytes →
    bytes.length < sizeLimit → ∀ cursor last, cursor.Reads bytes last →
      ∃ r', c.decoder name cursor = .ok (r', last) ∧
        (c.AnchoredFrom name → ∀ initial', c.measure name initial' r' = .ok bytes.length)

theorem sparesPromises_nil (c : Codec) : c.schema.SparesPromises [] := fun _ hi => by cases hi

section Elements

variable {e : Encoder} (he : c.Accepts e) {field : String}

include he

/-- An element that was written is read from its bytes. -/
theorem Accepts.element {element : Element} {v : Value} (h : element.write e field v = .ok bytes)
    (hlt : bytes.length < sizeLimit) {cursor last : Cursor} (hreads : cursor.Reads bytes last) :
    ∃ v', element.read c.decoder cursor = .ok (v', last) ∧
      ((∀ ty, element = .struct ty → c.AnchoredFrom ty) →
        ∀ field, element.size c.measure field v' = .ok bytes.length) := by
  cases element with
  | leaf l => exact ⟨v, Leaf.read_of_write h hreads, fun _ _ =>
      congrArg Except.ok (Leaf.length_of_write h).symm⟩
  | struct ty =>
    obtain ⟨r, -, h⟩ := bind_eq_ok'.mp h
    obtain ⟨r', hread, hsize⟩ := he ty [] r bytes c.sparesPromises_nil h hlt cursor last hreads
    refine ⟨r'.toValue, map_eq_ok.mpr ⟨_, hread, rfl⟩, fun hanchored field => ?_⟩
    have hrecord : asRecord field r'.toValue = .ok r' := asRecord_eq_ok.mpr rfl
    simp only [Element.size, hrecord]
    exact hsize (hanchored ty rfl) []

/-- As many elements as were written are read from their bytes. -/
theorem Accepts.counted {element : Element} {items : List Value}
    (h : joinM (fun v => element.write e field v) items = .ok bytes)
    (hlt : bytes.length < sizeLimit) {cursor last : Cursor} (hreads : cursor.Reads bytes last) :
    ∃ items', readCounted c.decoder element items.length cursor = .ok (items', last) ∧
      ((∀ ty, element = .struct ty → c.AnchoredFrom ty) → ∀ total,
        total + bytes.length < sizeLimit →
          elementsSize c.measure element field total items' = .ok (total + bytes.length)) := by
  induction items generalizing bytes cursor with
  | nil =>
    cases h
    rw [hreads.eq_of_nil]
    exact ⟨[], rfl, fun _ _ _ => rfl⟩
  | cons v rest ih =>
    simp only [joinM, bind_eq_ok] at h
    obtain ⟨front, hfront, more, hmore, h⟩ := h
    cases h
    rw [List.length_append] at hlt
    obtain ⟨next, hnext, hlast⟩ := hreads.split
    obtain ⟨v', hread, hsize⟩ := he.element hfront (by omega) hnext
    obtain ⟨rest', hrest, hsizes⟩ := ih hmore (by omega) hlast
    refine ⟨v' :: rest', ?_, fun hanchored total htotal => ?_⟩
    · rw [List.length_cons, readCounted]
      simp only [hread, ok_bind, hrest]
    · rw [List.length_append] at htotal ⊢
      have hgrow : grow total front.length field = .ok (total + front.length) :=
        grow_eq_ok.mpr ⟨rfl, by omega⟩
      simp only [elementsSize, hsize hanchored, hgrow, ok_bind]
      rw [hsizes hanchored _ (by omega), Nat.add_assoc]

end Elements

/-! ## What a reader remembers -/

/-- What is known of a record that was written: each of its entries lies between two cursors, and what
its encoder writes is accepted. -/
structure Sent (c : Codec) (s : Struct) (plan : Plan) (r : Record) (initial : List Initializer)
    (slots : List UnionSlot) (entries : List (Option WireEntry)) (n : Nat) (cur : Nat → Cursor) :
    Prop where
  sound : c.Sound
  counted : c.schema.AllCounted
  told : c.PromisesTold
  anchored : c.PromisesAnchored
  declared : s ∈ c.schema.structs
  planned : c.schema.Planned s plan slots entries
  spares : c.schema.SparesPromises initial
  accepts : c.Accepts (c.encodeAt n)
  entry : ∀ i e, entries[i]? = some (some e) → ∃ chunk, (Frame.mk s plan r initial).stepBytes
    c.schema c.measure (c.encodeAt n) (e.step (e.encodeOp s)) = .ok chunk ∧
      chunk.length < sizeLimit ∧ (cur i).Reads chunk (cur (i + 1))
  skip : ∀ i : Nat, entries[i]? = some none → cur (i + 1) = cur i

/-- What a reader remembers of a field of its own that was written: an integer that conditions may
test, the size that was promised, and a value that has the size of the bytes where numbers of elements
can be found again. -/
structure Recalls (c : Codec) (e : Encoder) (frame : Frame) (f : Field) (entry : WireEntry)
    (p : Progress) : Prop where
  tested : f.Testable c.schema.types → ∃ n, frame.intOf c.measure f.name = .ok n ∧
    p.scratch.lookup f.name = some n ∧ n < sizeLimit ∧
      (frame.struct.isCount f.name = false → p.record.get? f.name = some (.int n))
  promised : ∀ target ∈ f.sizeOfTarget?, frame.holds c.measure f.condition = .ok true → ∀ n,
    frame.fieldSize c.schema c.measure target = .ok n → p.scratch.lookup f.name = some (n : Int)
  sized : c.AnchoredFrom f.typeName → frame.holds c.measure f.condition = .ok true → ∀ chunk,
    frame.opBytes c.schema c.measure e f.name (entry.encodeOp frame.struct) = .ok chunk →
      ∀ part : Record, part.get? f.name = p.record.get? f.name →
        (Frame.mk frame.struct frame.plan part []).opSize c.measure f.name entry.sizeOp =
          .ok chunk.length

/-- What a reader of a written record knows after a place, once some of the unions are resolved. -/
structure Follows (c : Codec) (e : Encoder) (frame : Frame) (slots : List UnionSlot)
    (entries : List (Option WireEntry)) (done : UnionSlot → Prop) (place : Nat) (p : Progress) :
    Prop where
  recalled : ∀ k f entry, frame.struct.fields[k]? = some f → k < place →
    frame.struct.unionOf? f.name = none → entries[k]? = some (some entry) →
      c.Recalls e frame f entry p
  kept : ∀ slot ∈ slots, slot.position < place → ∀ raw,
    frame.opBytes c.schema c.measure e slot.name (.union slot.bytes slot.members) = .ok raw →
      p.slots.lookup slot.name = some raw
  resolved : ∀ slot ∈ slots, done slot → ∀ t, frame.intOf c.measure slot.conditionField = .ok t →
    ∀ m ∈ slot.members, (p.record.get? m.field).isSome = true ↔
      (slot.members.find? fun x => x.guard.holds t).map (·.field) = some m.field
  pending : ∀ slot ∈ slots, ¬ done slot → ∀ m ∈ slot.members, p.record.get? m.field = none

/-- What is remembered of a field that does not promise a size. -/
theorem Recalls.of_size {e : Encoder} {frame : Frame} {f : Field} {entry : WireEntry} {p : Progress}
    (htest : f.Testable c.schema.types → ∃ n, frame.intOf c.measure f.name = .ok n ∧
      p.scratch.lookup f.name = some n ∧ n < sizeLimit ∧
        (frame.struct.isCount f.name = false → p.record.get? f.name = some (.int n)))
    (hpromise : f.sizeOfTarget? = none)
    (hb : frame.opBytes c.schema c.measure e f.name (entry.encodeOp frame.struct) = .ok bytes)
    (hsize : c.AnchoredFrom f.typeName → ∀ part : Record,
      part.get? f.name = p.record.get? f.name →
        (Frame.mk frame.struct frame.plan part []).opSize c.measure f.name entry.sizeOp =
          .ok bytes.length) : c.Recalls e frame f entry p where
  tested := htest
  promised := fun target htarget => by rw [hpromise] at htarget; cases htarget
  sized := fun hanchored _ chunk hchunk part hpart => by
    rw [hb] at hchunk
    cases hchunk
    exact hsize hanchored part hpart

theorem Recalls.agree {e : Encoder} {frame : Frame} {f : Field} {entry : WireEntry}
    {p q : Progress} (hp : c.Recalls e frame f entry p) (h : p.Agree f.name q) :
    c.Recalls e frame f entry q where
  tested := fun ht => by
    rw [h.record, h.scratch]
    exact hp.tested ht
  promised := by
    rw [h.scratch]
    exact hp.promised
  sized := by
    rw [h.record]
    exact hp.sized

theorem Follows.congr {e : Encoder} {frame : Frame} {slots : List UnionSlot}
    {entries : List (Option WireEntry)} {done done' : UnionSlot → Prop} {place : Nat} {p : Progress}
    (hp : c.Follows e frame slots entries done place p)
    (h : ∀ slot ∈ slots, done slot ↔ done' slot) :
    c.Follows e frame slots entries done' place p :=
  { hp with
    resolved := fun slot hslot hdone => hp.resolved slot hslot ((h slot hslot).mpr hdone)
    pending := fun slot hslot hnot => hp.pending slot hslot fun hdone =>
      hnot ((h slot hslot).mp hdone) }

section Fields

variable {s : Struct} {plan : Plan} {r : Record} {initial : List Initializer}
  {slots : List UnionSlot} {entries : List (Option WireEntry)} {cur : Nat → Cursor}
  (h : c.Sent s plan r initial slots entries n cur)

include h

theorem Sent.wellFormed : s.WellFormed c.schema.types := h.sound.linked.wellFormed s h.declared

/-- The integer that a condition tests is known. -/
theorem Follows.noted {done : UnionSlot → Prop} {place : Nat} {p : Progress}
    (hp : c.Follows (c.encodeAt n) (Frame.mk s plan r initial) slots entries done place p) {k : Nat}
    {g : Field} (hk : s.fields[k]? = some g) (hlt : k < place) (ht : g.Testable c.schema.types) :
    ∃ v, (Frame.mk s plan r initial).intOf c.measure g.name = .ok v ∧
      p.scratch.lookup g.name = some v ∧ v < sizeLimit ∧
        (s.isCount g.name = false → p.record.get? g.name = some (.int v)) := by
  have hunion := Struct.unionOf?_of_unconditioned h.wellFormed.names (List.mem_of_getElem? hk)
    ht.plain.2
  obtain ⟨leaf, t, -, hentry⟩ := h.planned.entry_of_testable h.wellFormed hk ht
  exact (hp.recalled k g _ hk hlt hunion hentry).tested ht

theorem Follows.knows {done : UnionSlot → Prop} {place : Nat} {p : Progress}
    (hp : c.Follows (c.encodeAt n) (Frame.mk s plan r initial) slots entries done place p) :
    p.Knows c.schema.types (Frame.mk s plan r initial) c.measure place := by
  intro k g hk hlt ht
  obtain ⟨v, hv, hlookup, hlimit, -⟩ := hp.noted h hk hlt ht
  exact ⟨v, hv, hlookup, hlimit⟩

variable {p : Progress} {i : Nat} {f : Field} {chunk : Bytes} {next : Cursor}
  (hi : s.fields[i]? = some f) (hlt : chunk.length < sizeLimit) (hreads : p.cursor.Reads chunk next)

include hi hreads

/-- A field that holds a value which is no struct is read. -/
theorem Sent.readLeaf (hstored : f.isStored = true) {leaf : Leaf}
    (hform : c.schema.types.form? f.typeName = some leaf.form) {role : Role}
    {guard : Option Condition} {entry : WireEntry}
    (hentry : entry = { field := f.name, role, guard, shape := .leaf leaf })
    (hb : (Frame.mk s plan r initial).opBytes c.schema c.measure (c.encodeAt n) f.name
      (entry.encodeOp s) = .ok chunk) :
    ∃ q, c.readOp c.decoder s plan f.name p (entry.decodeOp s) = .ok q ∧ q.cursor = next ∧
      q.slots = p.slots ∧ c.Recalls (c.encodeAt n) (Frame.mk s plan r initial) f entry q := by
  subst hentry
  have hs := h.wellFormed
  have hf := List.mem_of_getElem? hi
  have hpromise := Field.sizeOfTarget?_of_isStored hstored
  cases hcount : s.isCount f.name with
  | true =>
    have hop := hb
    simp only [WireEntry.encodeOp, hcount, if_true, Frame.opBytes, bind_eq_ok] at hop
    obtain ⟨k, hlive, hwrite⟩ := hop
    obtain ⟨t, ht, hlimit⟩ := Leaf.form_of_write hwrite
    have hread : leaf.readInt f.name p.cursor = .ok ((k : Int), next) :=
      (Leaf.readInt_eq_ok t ht).mpr (Leaf.read_of_write hwrite hreads)
    refine ⟨(p.note f.name k).moveTo next, ?_, rfl, rfl, .of_size (fun htest => ?_) hpromise hb
      fun _ _ _ => congrArg Except.ok (Leaf.length_of_write hwrite).symm⟩
    · simp only [WireEntry.decodeOp, hcount, if_true, readOp, hread, ok_bind]
    · refine ⟨k, ?_, (Ordered.lookup_cons _ _ _).trans (if_pos rfl), hlimit, fun hnot => ?_⟩
      · rw [Frame.intOf_of_isCount hs hf htest hcount]
        exact map_eq_ok.mpr ⟨k, hlive, rfl⟩
      · have hfalse := hcount.symm.trans hnot
        cases hfalse
  | false =>
    have hop := hb
    simp only [WireEntry.encodeOp, hcount, h.counted.regionsMeasuredBy_eq_nil h.declared,
      List.getLast?_nil, Bool.false_eq_true, if_false, Frame.opBytes, bind_eq_ok] at hop
    obtain ⟨v, hv, hwrite⟩ := hop
    have hread := Leaf.read_of_write hwrite hreads
    refine ⟨((p.noteValue f.name v).store f.name v).moveTo next, ?_, rfl,
      p.slots_noteValue f.name v, .of_size (fun htest => ?_) hpromise hb
      fun _ _ _ => congrArg Except.ok (Leaf.length_of_write hwrite).symm⟩
    · simp only [WireEntry.decodeOp, hcount, Bool.false_eq_true, if_false, readOp, hread, ok_bind]
    · obtain ⟨t, ht⟩ := htest.2
      rw [TypeTable.form?_of_intType? ht] at hform
      obtain ⟨k, rfl, hlimit⟩ := Leaf.int_of_write hwrite (Option.some.inj hform).symm
      refine ⟨k, Frame.intOf_of_value hs hf htest hcount hv _,
        (Ordered.lookup_cons _ _ _).trans (if_pos rfl), hlimit, fun _ => ?_⟩
      exact Record.get?_insert_self _ _ _

omit h hi in
/-- A reserved field is read: it holds what is expected of it. -/
theorem Sent.readReserved {value : ReservedValue} (hd : f.disposition = .reserved value)
    {leaf : Leaf} {role : Role} {guard : Option Condition} {entry : WireEntry}
    (hentry : entry = { field := f.name, role, guard, shape := .reserved leaf value })
    (hb : (Frame.mk s plan r initial).opBytes c.schema c.measure (c.encodeAt n) f.name
      (entry.encodeOp s) = .ok chunk) :
    ∃ q, c.readOp c.decoder s plan f.name p (entry.decodeOp s) = .ok q ∧ q.cursor = next ∧
      q.slots = p.slots ∧ c.Recalls (c.encodeAt n) (Frame.mk s plan r initial) f entry q := by
  subst hentry
  obtain ⟨k, hk, hwrite⟩ := bind_eq_ok.mp hb
  obtain ⟨t, ht, -⟩ := Leaf.form_of_write hwrite
  have hread : leaf.readInt f.name p.cursor = .ok (k, next) :=
    (Leaf.readInt_eq_ok t ht).mpr (Leaf.read_of_write hwrite hreads)
  refine ⟨(p.note f.name k).moveTo next, ?_, rfl, rfl, ?_⟩
  · cases value with
    | sizeOf target => simp only [WireEntry.decodeOp, ReservedValue.fixed?, readOp, hread, ok_bind]
    | int v =>
      cases hk
      simp only [WireEntry.decodeOp, ReservedValue.fixed?, readOp, hread, ok_bind, checkReserved,
        if_true]
    | member text v =>
      cases hk
      simp only [WireEntry.decodeOp, ReservedValue.fixed?, readOp, hread, ok_bind, checkReserved,
        if_true]
  · constructor
    case tested => exact fun htest => absurd htest (Field.not_testable hd (by simp))
    case promised =>
      intro target htarget _ m hm
      have hd' := Field.disposition_of_sizeOfTarget? htarget
      rw [hd] at hd'
      cases hd'
      obtain ⟨m', hm', rfl⟩ := map_eq_ok.mp hk
      rw [hm] at hm'
      cases hm'
      exact (Ordered.lookup_cons _ _ _).trans (if_pos rfl)
    case sized =>
      intro _ _ chunk' hb' part _
      rw [hb] at hb'
      cases hb'
      exact congrArg Except.ok (Leaf.length_of_write hwrite).symm

include hlt

omit hi in
/-- A nested record is read as some record of its size. -/
theorem Sent.readNested (hstored : f.isStored = true)
    (hform : c.schema.types.form? f.typeName = none) {isInline : Bool} {role : Role}
    {guard : Option Condition} {entry : WireEntry}
    (hentry : entry = { field := f.name, role, guard, shape := .nested f.typeName isInline })
    (hb : (Frame.mk s plan r initial).opBytes c.schema c.measure (c.encodeAt n) f.name
      (entry.encodeOp s) = .ok chunk) :
    ∃ q, c.readOp c.decoder s plan f.name p (entry.decodeOp s) = .ok q ∧ q.cursor = next ∧
      q.slots = p.slots ∧ c.Recalls (c.encodeAt n) (Frame.mk s plan r initial) f entry q := by
  subst hentry
  obtain ⟨x, -, hx⟩ := bind_eq_ok.mp hb
  obtain ⟨r', hread, hsize⟩ := h.accepts _ _ _ _ (h.spares.inside f.name) hx hlt _ _ hreads
  have htest : ¬ f.Testable c.schema.types := by
    rintro ⟨-, t, ht⟩
    rw [TypeTable.form?_of_intType? ht] at hform
    cases hform
  refine ⟨(p.store f.name r'.toValue).moveTo next, ?_, rfl, rfl,
    .of_size (fun ht => absurd ht htest) (Field.sizeOfTarget?_of_isStored hstored) hb
    fun hanchored part hpart => ?_⟩
  · simp only [WireEntry.decodeOp, readOp, hread, ok_bind]
  · have hget : part.get? f.name = some r'.toValue := hpart.trans (Record.get?_insert_self _ _ _)
    have hrecord : asRecord f.name r'.toValue = .ok r' := asRecord_eq_ok.mpr rfl
    simp only [WireEntry.sizeOp, Frame.opSize, Frame.nested, hget, hrecord, ok_bind]
    exact hsize hanchored _

/-- A counted array is read as some array of its size: its length field was read before. -/
theorem Follows.readArray {done : UnionSlot → Prop}
    (hp : c.Follows (c.encodeAt n) (Frame.mk s plan r initial) slots entries done i p)
    {count : Count} (hd : f.disposition = .array count) {element : Element}
    (helement : c.schema.ElementOf f.typeName element) {role : Role} {guard : Option Condition} {entry : WireEntry}
    (hentry : entry = { field := f.name, role, guard, shape := .array element count })
    (hb : (Frame.mk s plan r initial).opBytes c.schema c.measure (c.encodeAt n) f.name
      (entry.encodeOp s) = .ok chunk) :
    ∃ q, c.readOp c.decoder s plan f.name p (entry.decodeOp s) = .ok q ∧ q.cursor = next ∧
      q.slots = p.slots ∧ c.Recalls (c.encodeAt n) (Frame.mk s plan r initial) f entry q := by
  subst hentry
  obtain ⟨items, -, hjoin, hcount⟩ := (hp.knows h).counted h.wellFormed hi (Nat.le_refl i) hd hb
  obtain ⟨items', hread, hsize⟩ := h.accepts.counted hjoin hlt hreads
  refine ⟨(p.store f.name (.list items')).moveTo next, ?_, rfl, rfl,
    .of_size (fun ht => absurd ht (Field.not_testable hd (by simp)))
    (by unfold Field.sizeOfTarget?; rw [hd]) hb fun hanchored part hpart => ?_⟩
  · simp only [WireEntry.decodeOp, readOp, hcount, hread, ok_bind]
  · have hget : part.get? f.name = some (.list items') :=
      hpart.trans (Record.get?_insert_self _ _ _)
    have hsum := hsize (hanchored.element helement) 0 (by omega)
    rw [Nat.zero_add] at hsum
    exact bind_eq_ok.mpr ⟨items', Frame.list_eq_ok.mpr hget, hsum⟩

end Fields

end Codec

end WireLayout
