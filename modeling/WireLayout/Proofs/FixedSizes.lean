import WireLayout.Proofs.LookingBack
import WireLayout.Proofs.MeasureFaults
import WireLayout.Proofs.Widths
import WireLayout.Proofs.Writing

/-!
# A fixed size is the size

Where a struct has a fixed size, its records are written in as many bytes, and as many bytes are read as
one of its records: no more where there are more, and a reader never runs out of them where there are as
many. This is so entry by entry, so it is for the struct; the structs in it nest one level less deep.

So a member of a union, which has a fixed size, always fits the slot, which has that of the largest.
-/

namespace WireLayout

/-! ## Writing -/

/-- Whether an encoder writes the structs that have a size in as many bytes. -/
def Encoder.Fits (encoder : Encoder) (sizeOf : String → Option Nat) : Prop :=
  ∀ ty n initial r bytes, sizeOf ty = some n → encoder ty initial r = .ok bytes → bytes.length = n

/-- What is joined is as long as its parts together. -/
theorem length_of_joinM {α : Type} {f : α → Except CodecError Bytes} {width : α → Nat} {l : List α}
    (hf : ∀ a ∈ l, ∀ part, f a = .ok part → part.length = width a) {bytes : Bytes}
    (h : joinM f l = .ok bytes) : bytes.length = (l.map width).sum := by
  induction l generalizing bytes with
  | nil =>
    cases h
    rfl
  | cons a l ih =>
    simp only [joinM, bind_eq_ok] at h
    obtain ⟨first, hfirst, more, hmore, h⟩ := h
    cases h
    rw [List.length_append, List.map_cons, List.sum_cons, hf a (by simp) first hfirst,
      ih (fun b hb => hf b (List.mem_cons_of_mem _ hb)) hmore]

section Writing

variable {sizeOf : String → Option Nat} {encoder : Encoder} (hencoder : encoder.Fits sizeOf)
  {schema : Schema} {measure : Measure} {frame : Frame}

include hencoder

theorem Element.length_of_write {element : Element} {n : Nat} (hn : element.width? sizeOf = some n)
    {field : String} {v : Value} {bytes : Bytes} (h : element.write encoder field v = .ok bytes) :
    bytes.length = n := by
  cases element with
  | leaf l =>
    cases hn
    exact Leaf.length_of_write h
  | struct ty =>
    obtain ⟨r, -, h⟩ := bind_eq_ok'.mp h
    exact hencoder ty n [] r bytes hn h

namespace Frame

/-- An entry is written in as many bytes as it is wide. -/
theorem length_of_entry {e : WireEntry} {n : Nat} (hn : e.shape.width? sizeOf = some n)
    {bytes : Bytes}
    (h : frame.opBytes schema measure encoder e.field (e.encodeOp frame.struct) = .ok bytes) :
    bytes.length = n := by
  obtain ⟨field, role, guard, shape⟩ := e
  cases shape with
  | leaf l =>
    cases hn
    exact length_of_leaf h
  | nested ty isInline =>
    obtain ⟨r, -, h⟩ := bind_eq_ok.mp h
    exact hencoder ty n _ r bytes hn h
  | reserved l value =>
    cases hn
    obtain ⟨v, -, h⟩ := bind_eq_ok.mp h
    exact Leaf.length_of_write h
  | array element count =>
    cases count with
    | field name => cases hn
    | literal count =>
      obtain ⟨each, heach, rfl⟩ := Option.map_eq_some_iff.mp hn
      obtain ⟨items, -, h⟩ := bind_eq_ok.mp h
      dsimp only at h
      split at h
      · rename_i hcount
        have hlen := length_of_joinM (fun v _ part hpart =>
          Element.length_of_write hencoder heach hpart) h
        rw [hlen, List.map_const', List.sum_replicate_nat, hcount, Nat.mul_comm]
      · cases h
  | arraySized layout group => cases hn
  | fill element => cases hn
  | union slot =>
    cases hn
    exact length_of_union h

/-- The member that a union holds is no longer than the slot. -/
theorem length_le_of_unionBytes {size : Nat} {members : List UnionMember}
    (hmembers : ∀ m ∈ members, ∃ k, m.element.width? sizeOf = some k ∧ k ≤ size) {raw : Bytes}
    (h : frame.unionBytes measure encoder members = .ok raw) : raw.length ≤ size := by
  induction members with
  | nil =>
    cases h
    exact Nat.zero_le _
  | cons m rest ih =>
    obtain ⟨tested, -, h⟩ := bind_eq_ok.mp h
    split at h
    · obtain ⟨v, -, h⟩ := bind_eq_ok.mp h
      obtain ⟨k, hk, hle⟩ := hmembers m (by simp)
      rw [Element.length_of_write hencoder hk h]
      exact hle
    · exact ih (fun m' hm' => hmembers m' (List.mem_cons_of_mem _ hm')) h

variable (schema) in
/-- A slot is written as what it holds and zeros, and fails only where what it holds does. -/
theorem opBytes_union {size : Nat} {members : List UnionMember}
    (hmembers : ∀ m ∈ members, ∃ k, m.element.width? sizeOf = some k ∧ k ≤ size) (field : String) :
    frame.opBytes schema measure encoder field (.union size members) =
      (frame.unionBytes measure encoder members).map
        fun raw => raw ++ Bytes.zeros (size - raw.length) := by
  simp only [opBytes]
  cases hraw : frame.unionBytes measure encoder members with
  | error e => rfl
  | ok raw =>
    rw [ok_bind, if_pos (length_le_of_unionBytes hencoder hmembers hraw)]
    rfl

/-- Entries that are fixed are written in as many bytes as they are wide together. -/
theorem length_of_entries {es : List WireEntry} (hfixed : ∀ e ∈ es, e.IsFixed sizeOf)
    {bytes : Bytes}
    (h : joinM (frame.stepBytes schema measure encoder)
      (es.map fun e => e.step (e.encodeOp frame.struct)) = .ok bytes) :
    bytes.length = (es.map fun e => e.width sizeOf).sum := by
  rw [joinM_map] at h
  refine length_of_joinM (fun e he part hpart => ?_) h
  obtain ⟨hguard, hwidth⟩ := hfixed e he
  unfold stepBytes WireEntry.step at hpart
  rw [hguard] at hpart
  exact length_of_entry hencoder hwidth hpart

end Frame

end Writing

/-! ## Reading -/

/-- Whether a fault is another than that of running out of bytes. -/
def CodecError.InBounds : CodecError → Prop
  | .outOfBounds .. => False
  | _ => True

theorem CodecError.OfMeasuring.inBounds (e : CodecError) (h : e.OfMeasuring) : e.InBounds := by
  cases e with
  | outOfBounds offset wanted => exact h
  | _ => trivial

/-- Whether a reading takes `n` bytes where it succeeds, and does not run out of bytes where there are
`n` of them. `place` tells where a result leaves the reader. -/
structure Takes {α : Type} (place : α → Cursor) (n : Nat) (cursor : Cursor)
    (x : Except CodecError α) : Prop where
  used : ∀ a, x = .ok a → ∃ used, used.length = n ∧ cursor.Reads used (place a)
  enough : n ≤ cursor.remaining → FailsOnly CodecError.InBounds x

namespace Takes

variable {α β ι : Type} {place : α → Cursor} {place' : β → Cursor} {n m : Nat} {cursor : Cursor}

/-- What reads nothing does not run out of bytes. -/
theorem of_still {x : Except CodecError α} (hx : FailsOnly CodecError.InBounds x)
    (hstill : ∀ a, x = .ok a → place a = cursor) : Takes place 0 cursor x where
  used a ha := ⟨[], rfl, hstill a ha ▸ .refl cursor⟩
  enough _ := hx

theorem ok {a : α} (h : place a = cursor) : Takes place 0 cursor (.ok a) :=
  of_still (.ok a) fun _ ha => Except.ok.inj ha ▸ h

theorem error {e : CodecError} (h : e.InBounds) : Takes place n cursor (.error e) where
  used _ ha := nomatch ha
  enough _ := FailsOnly.error_iff.mpr h

/-- A reading that goes on from another takes bytes after those of the other. -/
theorem bind {x : Except CodecError α} {f : α → Except CodecError β} (hx : Takes place n cursor x)
    (hf : ∀ a, x = .ok a → Takes place' m (place a) (f a)) :
    Takes place' (n + m) cursor (x >>= f) where
  used b hb := by
    obtain ⟨a, ha, hb⟩ := bind_eq_ok.mp hb
    obtain ⟨front, rfl, hfront⟩ := hx.used a ha
    obtain ⟨back, rfl, hback⟩ := (hf a ha).used b hb
    exact ⟨front ++ back, List.length_append, hfront.trans hback⟩
  enough hle := by
    refine .bind (hx.enough (by omega)) fun a ha => (hf a ha).enough ?_
    obtain ⟨front, rfl, hfront⟩ := hx.used a ha
    have hremaining := hfront.remaining
    omega

/-- What follows a reading and takes nothing. -/
theorem bind_still {x : Except CodecError α} {f : α → Except CodecError β}
    (hx : Takes place n cursor x) (hf : ∀ a, x = .ok a → Takes place' 0 (place a) (f a)) :
    Takes place' n cursor (x >>= f) := hx.bind hf

/-- What a reading asks for before it takes anything. -/
theorem of_bind {x : Except CodecError α} {f : α → Except CodecError β}
    (hx : FailsOnly CodecError.InBounds x) (hf : ∀ a, x = .ok a → Takes place' n cursor (f a)) :
    Takes place' n cursor (x >>= f) where
  used b hb := by
    obtain ⟨a, ha, hb⟩ := bind_eq_ok.mp hb
    exact (hf a ha).used b hb
  enough hle := .bind hx fun a ha => (hf a ha).enough hle

theorem map {x : Except CodecError α} (hx : Takes place n cursor x) {g : α → β}
    (hg : ∀ a, place' (g a) = place a) : Takes place' n cursor (x.map g) where
  used b hb := by
    obtain ⟨a, ha, rfl⟩ := map_eq_ok.mp hb
    rw [hg]
    exact hx.used a ha
  enough hle := (hx.enough hle).map g

/-- A loop takes the bytes of its rounds. -/
theorem foldlM {f : α → ι → Except CodecError α} {width : ι → Nat} {l : List ι} (inv : α → Prop)
    (h : ∀ a, inv a → ∀ x ∈ l, Takes place (width x) (place a) (f a x))
    (keep : ∀ x ∈ l, ∀ a a', inv a → f a x = .ok a' → inv a') {a : α} (start : inv a) :
    Takes place (l.map width).sum (place a) (l.foldlM f a) := by
  induction l generalizing a with
  | nil => exact ok rfl
  | cons x l ih =>
    rw [List.foldlM_cons, List.map_cons, List.sum_cons]
    refine (h a start x (by simp)).bind fun a' ha' => ?_
    exact ih (fun a ha y hy => h a ha y (List.mem_cons_of_mem _ hy))
      (fun y hy => keep y (List.mem_cons_of_mem _ hy)) (keep x (by simp) a a' start ha')

end Takes

theorem Cursor.takes_take (cursor : Cursor) (len : Nat) :
    Takes Prod.snd len cursor (cursor.take len) where
  used a ha := by
    obtain ⟨hreads, hlen⟩ := Cursor.reads_of_take ha
    exact ⟨a.1, hlen, hreads⟩
  enough hle e he := by
    have hfront : (cursor.rest.take len).length = len := by
      rw [List.length_take]
      exact Nat.min_eq_left hle
    have hreads : cursor.Reads (cursor.rest.take len)
        ⟨cursor.offset + len, cursor.rest.drop len⟩ :=
      ⟨(List.take_append_drop _ _).symm, by rw [hfront]⟩
    have hok := Cursor.take_of_reads hreads
    rw [hfront, he] at hok
    cases hok

theorem Cursor.takes_takeInt (cursor : Cursor) (t : IntType) :
    Takes Prod.snd t.bytes cursor (cursor.takeInt t) := by
  unfold Cursor.takeInt
  exact (cursor.takes_take _).map fun _ => rfl

theorem Leaf.takes_read (leaf : Leaf) (cursor : Cursor) :
    Takes Prod.snd leaf.form.width cursor (leaf.read cursor) := by
  unfold Leaf.read
  cases leaf.form with
  | int t =>
    dsimp only
    exact (cursor.takes_takeInt t).map fun _ => rfl
  | bytes len =>
    dsimp only
    exact (cursor.takes_take len).map fun _ => rfl

theorem Leaf.takes_readInt (leaf : Leaf) (field : String) (cursor : Cursor) :
    Takes Prod.snd leaf.form.width cursor (leaf.readInt field cursor) := by
  unfold Leaf.readInt
  cases leaf.form with
  | int t => exact cursor.takes_takeInt t
  | bytes len => exact .error trivial

/-- Whether a decoder takes as many bytes for the structs that have a size. -/
def Decoder.Fits (d : Decoder) (sizeOf : String → Option Nat) : Prop :=
  ∀ ty n cursor, sizeOf ty = some n → Takes Prod.snd n cursor (d ty cursor)

section Reading

variable {sizeOf : String → Option Nat} {d : Decoder} (hd : d.Fits sizeOf)

include hd

theorem Element.takes_read {element : Element} {n : Nat} (hn : element.width? sizeOf = some n)
    (cursor : Cursor) : Takes Prod.snd n cursor (element.read d cursor) := by
  cases element with
  | leaf l =>
    cases hn
    exact l.takes_read cursor
  | struct ty => exact (hd ty n cursor hn).map fun _ => rfl

theorem takes_readCounted {element : Element} {n : Nat} (hn : element.width? sizeOf = some n)
    (count : Nat) (cursor : Cursor) :
    Takes Prod.snd (n * count) cursor (readCounted d element count cursor) := by
  induction count generalizing cursor with
  | zero => exact .ok rfl
  | succ count ih =>
    unfold readCounted
    rw [Nat.mul_succ, Nat.add_comm]
    exact (Element.takes_read hd hn cursor).bind fun q _ =>
      (ih q.2).bind_still fun _ _ => .ok rfl

/-- A member is read from the bytes of a slot that is large enough for it. -/
theorem inBounds_of_readUnion {raw : Bytes} {members : List UnionMember}
    (hmembers : ∀ m ∈ members, ∃ k, m.element.width? sizeOf = some k ∧ k ≤ raw.length)
    (owner : String) (p : Progress) :
    FailsOnly CodecError.InBounds (Codec.readUnion d owner raw p members) := by
  induction members with
  | nil => exact .ok _
  | cons m rest ih =>
    unfold Codec.readUnion
    refine .bind (p.noted_failsOnly trivial) fun tested _ => ?_
    split
    · obtain ⟨k, hk, hle⟩ := hmembers m (by simp)
      exact .bind ((Element.takes_read hd hk _).enough hle) fun _ _ => .ok _
    · exact ih fun m' hm' => hmembers m' (List.mem_cons_of_mem _ hm')

namespace Codec

variable {c : Codec} {s : Struct} {plan : Plan} {p : Progress}

/-- An entry is read from as many bytes as it is wide. -/
theorem takes_readEntry {e : WireEntry} {n : Nat} (hn : e.shape.width? sizeOf = some n) :
    Takes Progress.cursor n p.cursor (c.readOp d s plan e.field p (e.decodeOp s)) := by
  obtain ⟨field, role, guard, shape⟩ := e
  cases shape with
  | leaf l =>
    cases hn
    simp only [WireEntry.decodeOp]
    split
    · exact (l.takes_readInt field p.cursor).bind_still fun _ _ => .ok rfl
    · exact (l.takes_read p.cursor).bind_still fun _ _ => .ok rfl
  | nested ty isInline => exact (hd ty n p.cursor hn).bind_still fun _ _ => .ok rfl
  | reserved l value =>
    cases hn
    refine (l.takes_readInt field p.cursor).bind_still fun q _ => ?_
    cases value.fixed? with
    | none => exact .ok rfl
    | some expected => exact .of_bind (checkReserved_failsOnly trivial) fun _ _ => .ok rfl
  | array element count =>
    cases count with
    | field name => cases hn
    | literal count =>
      obtain ⟨each, heach, rfl⟩ := Option.map_eq_some_iff.mp hn
      exact (takes_readCounted hd heach count p.cursor).bind_still fun _ _ => .ok rfl
  | arraySized layout group => cases hn
  | fill element => cases hn
  | union slot =>
    cases hn
    exact (p.cursor.takes_take _).bind_still fun _ _ => .ok rfl

end Codec

end Reading

/-! ## Reading a struct -/

theorem Codec.Performs.cursor_of_isDeferred {c : Codec} {d : Decoder} {s : Struct} {plan : Plan}
    {field : String} {p p' : Progress} {op : DecodeOp} (h : c.Performs d s plan field p op p')
    (hop : op.isDeferred = true) : p'.cursor = p.cursor := by
  cases h with
  | check hfound hsize heq => rfl
  | vacant hraw => rfl
  | member hraw hm hv => exact p.cursor_noteValue _ _
  | _ => cases hop

/-- Whether the bytes that are kept for a slot are as many as it has. -/
def Progress.Stocked (slots : List UnionSlot) (p : Progress) : Prop :=
  ∀ slot ∈ slots, ∀ raw, p.slots.lookup slot.name = some raw → raw.length = slot.bytes

section Struct

variable {sizeOf : String → Option Nat} {d : Decoder} {c : Codec} {s : Struct} {plan : Plan}
  {slots : List UnionSlot} {entries : List (Option WireEntry)}
  (hp : c.schema.Planned s plan slots entries) (hs : s.WellFormed c.schema.types)

include hp

/-- A step that takes the bytes of a union is that of a slot. -/
theorem slot_of_takingStep {step : Step DecodeOp} (hstep : step ∈ plan.decode) {size : Nat}
    (hop : step.op = .union size) :
    ∃ slot ∈ slots, step.field = slot.name ∧ slot.bytes = size := by
  have htaking : step ∈ plan.takingSteps := List.mem_filter.mpr ⟨hstep, by rw [hop]; rfl⟩
  rw [hp.takingSteps] at htaking
  obtain ⟨e, he, rfl⟩ := List.mem_map.mp htaking
  obtain ⟨slot, hshape, hbytes⟩ := WireEntry.shape_of_decodeOp hop
  obtain ⟨hslot, rfl⟩ := hp.slot_of_shape he hshape
  exact ⟨slot, hslot, rfl, hbytes⟩

include hs

/-- Every step keeps as many bytes for a slot as it has. -/
theorem stocked_of_readStep {step : Step DecodeOp} (hstep : step ∈ plan.decode) {p p' : Progress}
    (hstocked : p.Stocked slots) (h : c.readStep d s plan p step = .ok p') : p'.Stocked slots := by
  rcases Codec.performs_of_readStep h with rfl | hdone
  · exact hstocked
  · rcases hdone.slots with hslots | ⟨size, raw, hop, hslots, -, hlen⟩
    · intro slot hslot raw hraw
      rw [hslots] at hraw
      exact hstocked slot hslot raw hraw
    · obtain ⟨slot, hslot, hfield, hsize⟩ := slot_of_takingStep hp hstep hop
      intro other hother raw' hraw
      rw [hslots, Ordered.lookup_cons] at hraw
      split at hraw
      · rename_i hname
        obtain rfl := hp.slot_of_name hs hslot hother (hname.trans hfield)
        cases hraw
        rw [hlen, hsize]
      · exact hstocked other hother raw' hraw

variable (hsizing : c.schema.Sizing sizeOf) (hd : d.Fits sizeOf)

include hsizing hd

section Places

variable (hunions : ∀ g ∈ s.unions, ∃ n, s.unionSizeWith? sizeOf g = some n) {place : Nat}

include hunions

/-- A step that looks back takes nothing, and finds a member in the bytes of its slot. -/
theorem takes_deferred {step : Step DecodeOp} (hstep : step ∈ s.deferredAt slots place)
    {p : Progress} (hstocked : p.Stocked slots) :
    Takes Progress.cursor 0 p.cursor (c.readStep d s plan p step) := by
  refine .of_still ?_ fun p' hp' => ?_
  · refine .bind (p.holds_failsOnly (fun _ => trivial) _) fun b _ => ?_
    split
    · obtain ⟨slot, hslot, -, rfl⟩ | ⟨-, f, target, -, -, -, rfl⟩ := Struct.deferredAt_cases hstep
      · -- the bytes of a slot
        refine .bind (p.slot_failsOnly trivial) fun raw hraw => ?_
        refine inBounds_of_readUnion hd (fun m hm => ?_) s.name p
        rw [hstocked slot hslot raw (slot_eq_ok.mp hraw)]
        exact hp.width?_of_member hsizing hs hunions hslot hm
      · -- a promised size
        refine .bind (p.noted_failsOnly trivial) fun found _ => .bind ?_ fun size _ =>
          .bind (Codec.checkReserved_failsOnly trivial) fun _ _ => .ok _
        refine Frame.fieldSize_failsOnly CodecError.OfMeasuring.inBounds ?_ _ _
        have hmeasure := c.measure_failsOnly CodecError.OfMeasuring.inBounds fun _ => trivial
        exact ⟨fun _ _ _ _ _ r _ ty => hmeasure ty [] r, fun _ _ ty _ r _ => hmeasure ty _ r⟩
    · exact .ok _
  · rcases Codec.performs_of_readStep hp' with rfl | hdone
    · rfl
    · exact hdone.cursor_of_isDeferred (Struct.isDeferred_of_mem hstep)

variable (hsteps : ∀ step ∈ s.stepsAt slots entries place, step ∈ plan.decode)

include hsteps

theorem takes_deferredAt {p : Progress} (hstocked : p.Stocked slots) :
    Takes Progress.cursor 0 p.cursor
      ((s.deferredAt slots place).foldlM (c.readStep d s plan) p) := by
  have hloop : Takes Progress.cursor ((s.deferredAt slots place).map fun _ => 0).sum p.cursor
      ((s.deferredAt slots place).foldlM (c.readStep d s plan) p) := by
    refine Takes.foldlM (Progress.Stocked slots) (fun q hq step hstep => ?_)
      (fun step hstep q q' => ?_) hstocked
    · exact takes_deferred hp hs hsizing hd hunions hstep hq
    · exact stocked_of_readStep hp hs (hsteps step (List.mem_append_right _ hstep))
  rwa [List.map_const', List.sum_replicate_nat, Nat.mul_zero] at hloop

/-- At a place, the entry takes as many bytes as it is wide, and what looks back takes none. -/
theorem takes_stepsAt (hfixed : ∀ e ∈ entries.filterMap id, e.IsFixed sizeOf) {p : Progress}
    (hstocked : p.Stocked slots) :
    Takes Progress.cursor (widthAt sizeOf entries place) p.cursor
      ((s.stepsAt slots entries place).foldlM (c.readStep d s plan) p) := by
  have hback := fun q => takes_deferredAt hp hs hsizing hd hunions hsteps (p := q)
  unfold Struct.stepsAt Struct.entryStep widthAt at *
  cases hentry : entries[place]?.join with
  | none => exact hback p hstocked
  | some e =>
    rw [hentry] at hsteps
    have hget : entries[place]? = some (some e) := Option.join_eq_some_iff.mp hentry
    obtain ⟨hguard, hwidth⟩ :=
      hfixed e (List.mem_filterMap.mpr ⟨some e, List.mem_of_getElem? hget, rfl⟩)
    have hread : Takes Progress.cursor (e.width sizeOf) p.cursor
        (c.readStep d s plan p (e.step (e.decodeOp s))) := by
      unfold Codec.readStep WireEntry.step
      rw [hguard]
      exact Codec.takes_readEntry hd hwidth
    refine hread.bind_still fun q hq => hback q ?_
    exact stocked_of_readStep hp hs (hsteps _ (by simp)) hstocked hq

end Places

/-- The steps of a struct of fixed size take as many bytes. -/
theorem takes_steps {n : Nat} (hn : s.sizeWith? sizeOf = some n) (name : String)
    (cursor : Cursor) :
    Takes Progress.cursor n cursor
      (plan.decode.foldlM (c.readStep d s plan) (Progress.start s name cursor)) := by
  obtain ⟨hfixed, rfl⟩ := hp.widths_of_sizeWith? hsizing hs hn
  have hunions : ∀ g ∈ s.unions, ∃ n, s.unionSizeWith? sizeOf g = some n := by
    obtain ⟨total, htotal, -⟩ := Option.bind_eq_some_iff.mp hn
    exact (sumSizes?_eq_some htotal).1
  have hmem : ∀ place ∈ List.range entries.length, ∀ step ∈ s.stepsAt slots entries place,
      step ∈ plan.decode := by
    intro place hplace step hstep
    rw [hp.decode, Struct.decodeSteps_eq]
    exact List.mem_flatMap.mpr ⟨place, hplace, hstep⟩
  have hstart : (Progress.start s name cursor).Stocked slots := by
    intro slot hslot raw hraw
    cases hraw
  rw [← sum_widthAt, hp.decode, Struct.decodeSteps_eq, foldlM_flatMap]
  change Takes Progress.cursor _ (Progress.start s name cursor).cursor _
  refine Takes.foldlM (Progress.Stocked slots) (fun p hstocked place hplace => ?_)
    (fun place hplace p p' hstocked h => ?_) hstart
  · exact takes_stepsAt hp hs hsizing hd hunions (hmem place hplace) hfixed hstocked
  · exact foldlM_invariant _ (fun step hstep _ _ => stocked_of_readStep hp hs
      (hmem place hplace step hstep)) hstocked h

end Struct

/-! ## Fixed sizes -/

/-- Whether the records of a type are written in `n` bytes and read from as many, and a reader that has
as many does not run out of them. -/
structure Codec.HasSize (c : Codec) (name : String) (n : Nat) : Prop where
  encode : ∀ r bytes, r.typeName = name → c.encode r = .ok bytes → bytes.length = n
  decode : ∀ buffer r used, c.decodePrefix name buffer = .ok (r, used) →
    used = n ∧ n ≤ buffer.length
  enough : ∀ buffer, n ≤ buffer.length → ∀ offset wanted,
    c.decodePrefix name buffer ≠ .error (.outOfBounds offset wanted)

/-- Whether a step writes the slot of a union: as large as the largest member, so that whatever it holds
fits, and filled up with zeros. -/
structure Codec.WritesSlot (c : Codec) (frame : Frame) (step : Step EncodeOp) (size : Nat)
    (members : List UnionMember) : Prop where
  widest : ∃ g ∈ frame.struct.unions, g.members.head? = some step.field ∧
    g.members = members.map (·.field) ∧ frame.struct.Widest c.schema.fixedSize? g size
  fits : ∀ depth raw, frame.unionBytes c.measure (c.encodeAt depth) members = .ok raw →
    raw.length ≤ size
  written : ∀ depth, frame.stepBytes c.schema c.measure (c.encodeAt depth) step =
    (frame.unionBytes c.measure (c.encodeAt depth) members).map
      fun raw => raw ++ Bytes.zeros (size - raw.length)
  length : ∀ depth bytes,
    frame.stepBytes c.schema c.measure (c.encodeAt depth) step = .ok bytes → bytes.length = size

section Fixed

variable {options : Options} {decls : List Declaration} {c : Codec}
  (hcompile : compile options decls = .ok c)

include hcompile

/-- A struct that has a size at some depth is written in as many bytes. -/
theorem Codec.encodeAt_fits {k : Nat} (hk : k ≤ c.schema.structs.length) (depth : Nat) :
    (c.encodeAt depth).Fits (c.schema.fixedSizeAt? k) := by
  have hc := sound_of_compile hcompile
  -- on the depth to which structs of the schema nest, whatever the depth of the record is
  induction k using Nat.strong_induction_on generalizing depth with
  | _ k ih =>
    intro ty n initial r bytes hn h
    cases depth with
    | zero => cases h
    | succ depth =>
      obtain ⟨frame, hframe, h⟩ := bind_eq_ok.mp h
      obtain ⟨s, plan, hl, -, rfl⟩ := frame_eq_ok.mp hframe
      obtain ⟨hstruct, hmem, -, -, -, slots, entries, hp⟩ := hc.planned_of_lookup hl
      obtain ⟨j, s', rfl, hstruct', hsize⟩ :=
        Schema.fixedSizeAt?_eq_some (Schema.form?_of_struct? hcompile hstruct) hn
      obtain rfl := Option.some.inj (hstruct.symm.trans hstruct')
      have hj : j ≤ c.schema.structs.length := Nat.le_of_succ_le hk
      obtain ⟨hfixed, hsum⟩ := hp.widths_of_sizeWith? (Schema.sizing_fixedSizeAt? hj)
        (hc.linked.wellFormed s hmem) hsize
      simp only [hp.encode] at h
      rw [Frame.length_of_entries (ih j (Nat.lt_succ_self j) hj depth) hfixed h, hsum]

/-- So it is read from as many. -/
theorem Codec.decodeAt_fits {k : Nat} (hk : k ≤ c.schema.structs.length) (depth : Nat) :
    (c.decodeAt depth).Fits (c.schema.fixedSizeAt? k) := by
  have hc := sound_of_compile hcompile
  induction k using Nat.strong_induction_on generalizing depth with
  | _ k ih =>
    intro ty n cursor hn
    cases depth with
    | zero => exact .error trivial
    | succ depth =>
      rw [decodeAt_succ]
      unfold enter
      refine .of_bind (c.lookup_failsOnly CodecError.OfMeasuring.inBounds ty) fun q hl => ?_
      obtain ⟨hstruct, hmem, -, -, -, slots, entries, hp⟩ := hc.planned_of_lookup hl
      obtain ⟨j, s', rfl, hstruct', hsize⟩ :=
        Schema.fixedSizeAt?_eq_some (Schema.form?_of_struct? hcompile hstruct) hn
      obtain rfl := Option.some.inj (hstruct.symm.trans hstruct')
      have hj : j ≤ c.schema.structs.length := Nat.le_of_succ_le hk
      have hsteps := takes_steps hp (hc.linked.wellFormed _ hmem) (Schema.sizing_fixedSizeAt? hj)
        (ih j (Nat.lt_succ_self j) hj depth) hsize ty cursor
      exact hsteps.bind_still fun p _ => .ok rfl

theorem hasSize_of_fixedSize? {name : String} {n : Nat} (hn : c.schema.fixedSize? name = some n) :
    c.HasSize name n := by
  have htakes : ∀ buffer, Takes Prod.snd n (Cursor.start buffer)
      (c.decoder name (Cursor.start buffer)) :=
    fun buffer => Codec.decodeAt_fits hcompile (Nat.le_refl _) _ name n _ hn
  constructor
  case encode =>
    rintro r bytes rfl h
    exact Codec.encodeAt_fits hcompile (Nat.le_refl _) _ _ n [] r bytes hn h
  case decode =>
    intro buffer r used h
    obtain ⟨⟨r', next⟩, hr, heq⟩ := map_eq_ok.mp h
    cases heq
    obtain ⟨front, rfl, hreads⟩ := (htakes buffer).used _ hr
    obtain ⟨rfl, hoffset⟩ := Cursor.Reads.start_iff.mp hreads
    refine ⟨hoffset, ?_⟩
    rw [List.length_append]
    exact Nat.le_add_right _ _
  case enough =>
    intro buffer hle offset wanted h
    exact ((htakes buffer).enough hle).map _ _ h

theorem writesSlot_of_frame {name : String} {initial : List Initializer} {r : Record} {frame : Frame}
    (hframe : c.frame name initial r = .ok frame) {step : Step EncodeOp}
    (hstep : step ∈ frame.plan.encode) {size : Nat} {members : List UnionMember}
    (hop : step.op = .union size members) : c.WritesSlot frame step size members := by
  have hc := sound_of_compile hcompile
  obtain ⟨s, plan, hl, -, rfl⟩ := Codec.frame_eq_ok.mp hframe
  obtain ⟨-, hs, -, -, -, slots, entries, hp⟩ := hc.planned_of_lookup hl
  have hwf := hc.linked.wellFormed s hs
  -- the step is that of a slot
  simp only [hp.encode] at hstep
  obtain ⟨e, he, rfl⟩ := List.mem_map.mp hstep
  obtain ⟨slot, hshape, rfl, rfl⟩ := WireEntry.shape_of_encodeOp hop
  obtain ⟨hslot, rfl⟩ := hp.slot_of_shape he hshape
  obtain ⟨g, hg, hof⟩ := hp.union_of_slot hslot
  -- every member is one of fixed size, and fits
  have hunions : ∀ g ∈ s.unions, ∃ n, s.unionSizeWith? c.schema.fixedSize? g = some n := by
    intro g hg
    obtain ⟨slot, -, hof⟩ := forall₂_mem_left hp.unions hg
    exact ⟨slot.bytes, hof.bytes⟩
  have hmembers := fun m (hm : m ∈ slot.members) =>
    hp.width?_of_member (Schema.sizing_fixedSize? c.schema) hwf hunions hslot hm
  have hencoder : ∀ depth, (c.encodeAt depth).Fits c.schema.fixedSize? :=
    Codec.encodeAt_fits hcompile (Nat.le_refl _)
  constructor
  case widest =>
    refine ⟨g, hg, hof.first, ?_, ?_⟩
    · rw [← List.map_id g.members]
      exact forall₂_map_eq hof.members fun name m hm => hm.named.symm
    · exact Struct.widest_of_unionSizeWith? (Struct.mem_unions.mp hg).1 hof.bytes
  case fits =>
    intro depth raw hraw
    exact Frame.length_le_of_unionBytes (hencoder depth) hmembers hraw
  case written =>
    intro depth
    exact Frame.opBytes_union (hencoder depth) c.schema hmembers slot.name
  case length =>
    intro depth bytes h
    have hslotBytes : Frame.opBytes _ c.schema c.measure (c.encodeAt depth) slot.name
        (.union slot.bytes slot.members) = .ok bytes := h
    exact Frame.length_of_union hslotBytes

end Fixed

/-- **A fixed size is the size.** In a compiled schema, the records of a type of fixed size are written in
as many bytes; where one is read from the front of a buffer, it takes as many of them, so no shorter
buffer will do, and a buffer that has as many does not end too early. So a union holds any of its members
in its slot, which is as large as the largest of them and is written whole. -/
theorem fixed_sizes_hold {options : Options} {decls : List Declaration} {c : Codec}
    (hcompile : compile options decls = .ok c) :
    (∀ name n, c.schema.fixedSize? name = some n → c.HasSize name n) ∧
      ∀ name initial r frame, c.frame name initial r = .ok frame → ∀ step ∈ frame.plan.encode,
        ∀ size members, step.op = .union size members → c.WritesSlot frame step size members := by
  constructor
  · intro name n hn
    exact hasSize_of_fixedSize? hcompile hn
  · intro name initial r frame hframe step hstep size members hop
    exact writesSlot_of_frame hcompile hframe hstep hop

/-- Figures of fixed size: a union of points and numbers, inside another union, and an array of a
literal number of points. -/
def figureDeclarations : List Declaration :=
  [ .struct { name := "Point", comment := none, disposition := none
              fields := [{ name := some "x", typeName := some "uint8" },
                { name := some "y", typeName := some "uint16" }] },
    .struct { name := "Shape", comment := none, disposition := none
              fields :=
                [ { name := some "center", typeName := some "Point", condition := some "kind"
                    conditionOperation := some "equals", conditionValue := some (.unsigned 0) },
                  { name := some "radius", typeName := some "uint32", condition := some "kind"
                    conditionOperation := some "equals", conditionValue := some (.unsigned 1) },
                  { name := some "kind", typeName := some "uint8" } ] },
    .struct { name := "Figure", comment := none, disposition := none
              fields :=
                [ { name := some "magic", typeName := some "uint8"
                    disposition := some "reserved", value := some (.unsigned 7) },
                  { name := some "corners", typeName := some "Point", disposition := some "array"
                    size := some (.unsigned 2) },
                  { name := some "shape", typeName := some "Shape", condition := some "drawn"
                    conditionOperation := some "equals", conditionValue := some (.unsigned 1) },
                  { name := some "drawn", typeName := some "uint8" } ] } ]

/-- A figure with a point as its shape, which leaves a byte of zeros in the slot. -/
def figure : Record :=
  { typeName := "Figure"
    fields :=
      [ ("corners", .list [.record "Point" [("x", .int 1), ("y", .int 2)],
          .record "Point" [("x", .int 3), ("y", .int 4)]]), ("drawn", .int 1),
        ("shape", .record "Shape" [("center", .record "Point" [("x", .int 5), ("y", .int 6)]),
          ("kind", .int 0)]) ] }

/-- A figure takes thirteen bytes, five of which are the slot of its shape, and one is read from them.
-/
theorem fixed_sizes_hold_figure :
    let c := codecOf figureDeclarations
    compile {} figureDeclarations = .ok c ∧ c.schema.fixedSize? "Figure" = some 13 ∧
      c.HasSize "Figure" 13 ∧ c.encode figure = .ok [7, 1, 2, 0, 3, 4, 0, 5, 6, 0, 0, 0, 1] ∧
      (∃ r, c.decodePrefix "Figure" [7, 1, 2, 0, 3, 4, 0, 5, 6, 0, 0, 0, 1] = .ok (r, 13)) ∧
      ∃ frame step members, c.frame "Figure" [] figure = .ok frame ∧ step ∈ frame.plan.encode ∧
        step.op = .union 5 members ∧ c.WritesSlot frame step 5 members := by
  intro c
  have hcompile : compile {} figureDeclarations = .ok c := compile_codecOf (by decide +kernel)
  have hsize : c.schema.fixedSize? "Figure" = some 13 := by decide +kernel
  have hencode : c.encode figure = .ok [7, 1, 2, 0, 3, 4, 0, 5, 6, 0, 0, 0, 1] :=
    eq_ok_of_toOption (by decide +kernel)
  obtain ⟨⟨r, used⟩, hread, rfl⟩ : ∃ q, c.decodePrefix "Figure"
      [7, 1, 2, 0, 3, 4, 0, 5, 6, 0, 0, 0, 1] = .ok q ∧ q.2 = 13 :=
    exists_ok_of_toOption (by decide +kernel)
  obtain ⟨frame, hframe, step, hstep, hop⟩ : ∃ frame, c.frame "Figure" [] figure = .ok frame ∧
      ∃ step ∈ frame.plan.encode, step.op = .union 5 [{ field := "shape"
                                                        guard := ⟨"drawn", .equals, 1, "1"⟩
                                                        element := .struct "Shape" }] :=
    exists_ok_of_toOption (by decide +kernel)
  obtain ⟨hsizes, hslots⟩ := fixed_sizes_hold hcompile
  exact ⟨hcompile, hsize, hsizes "Figure" 13 hsize, hencode, ⟨r, hread⟩, frame, step, _, hframe,
    hstep, hop, hslots "Figure" [] figure frame hframe step hstep _ _ hop⟩

end WireLayout
