import WireLayout.Proofs.DecodeFaults

/-!
# Bytes that are taken for sure

Every value of some types takes a byte: one of a form that has a width, and a struct with a field that
is always there and has such values, or with a union whose slot has bytes. Whoever has read such a value
has fewer bytes ahead than before. And so has whoever has read such a field or slot of a struct; after
such a field, what is ahead together with the bytes of any of the struct's unions is less than what was
ahead of the struct.
-/

namespace WireLayout

/-! ## Types and fields -/

/-- Whether a field has values of its type on the wire wherever its struct is. -/
def Field.isHeld (f : Field) : Bool :=
  f.condition.isNone && match f.disposition with
    | .plain | .inline | .reserved _ => true
    | .array (.literal count) => decide (0 < count)
    | _ => false

/-- Whether every value of a type takes a byte. -/
inductive Schema.Solid (schema : Schema) : String → Prop where
  /-- A value that is no struct takes the width of its form. -/
  | form {ty : String} {form : WireForm} : schema.types.form? ty = some form → 0 < form.width →
      Solid schema ty
  /-- A struct has a field with such values. -/
  | struct {ty : String} {s : Struct} {f : Field} : schema.types.form? ty = none →
      schema.struct? ty = some s → f ∈ s.fields → f.isHeld = true → Solid schema f.typeName →
      Solid schema ty
  /-- A struct has a union whose slot has bytes. -/
  | union {ty : String} {s : Struct} {g : ConditionGroup} {bytes : Nat} :
      schema.types.form? ty = none → schema.struct? ty = some s → g ∈ s.unions →
      schema.unionSize? s g = some bytes → 0 < bytes → Solid schema ty

/-- Whether a byte is taken in the place of a field wherever its struct is. -/
inductive Schema.TakesByte (schema : Schema) (s : Struct) (f : Field) : Prop where
  /-- The field takes it. -/
  | held : f.isHeld = true → schema.Solid f.typeName → TakesByte schema s f
  /-- The slot of a union does, of which the field is the first member. -/
  | slot {g : ConditionGroup} {bytes : Nat} : g ∈ s.unions → g.members.head? = some f.name →
      schema.unionSize? s g = some bytes → 0 < bytes → TakesByte schema s f

theorem Field.condition_of_isHeld {f : Field} (h : f.isHeld = true) : f.condition = none :=
  Option.isNone_iff_eq_none.mp (Bool.and_eq_true_iff.mp h).1

theorem Field.isConst_of_isHeld {f : Field} (h : f.isHeld = true) : f.isConst = false := by
  have hd := (Bool.and_eq_true_iff.mp h).2
  unfold isConst
  cases hdisp : f.disposition with
  | const v => simp [hdisp] at hd
  | _ => rfl

theorem Schema.Solid.width_pos {schema : Schema} {ty : String} (h : schema.Solid ty)
    {form : WireForm} (hform : schema.types.form? ty = some form) : 0 < form.width := by
  cases h with
  | form hform' hpos =>
    obtain rfl := Option.some.inj (hform.symm.trans hform')
    exact hpos
  | struct hnone _ _ _ _ =>
    rw [hform] at hnone
    cases hnone
  | union hnone _ _ _ _ =>
    rw [hform] at hnone
    cases hnone

theorem Schema.solid_of_testable {schema : Schema} {f : Field} (h : f.Testable schema.types) :
    f.isHeld = true ∧ schema.Solid f.typeName := by
  obtain ⟨hdisp, hcond⟩ := h.plain
  obtain ⟨t, ht⟩ := h.2
  refine ⟨?_, .form (TypeTable.form?_of_intType? ht) t.bytes_pos⟩
  unfold Field.isHeld
  rw [hdisp, hcond]
  rfl

/-! ## Reading -/

theorem remaining_lt_of_take {cursor next : Cursor} {len : Nat} {front : Bytes} (hpos : 0 < len)
    (h : cursor.take len = .ok (front, next)) : next.remaining < cursor.remaining := by
  obtain ⟨hreads, hlen⟩ := Cursor.reads_of_take h
  have hremaining := hreads.remaining
  omega

namespace Leaf

variable {l : Leaf} {cursor next : Cursor}

theorem remaining_lt_of_read (hpos : 0 < l.form.width) {v : Value}
    (h : l.read cursor = .ok (v, next)) : next.remaining < cursor.remaining := by
  unfold read at h
  split at h
  · rename_i t _
    obtain ⟨⟨n, last⟩, hn, hpair⟩ := map_eq_ok.mp h
    cases hpair
    obtain ⟨⟨front, last⟩, htake, hpair⟩ := map_eq_ok.mp hn
    cases hpair
    exact remaining_lt_of_take t.bytes_pos htake
  · rename_i len hform
    obtain ⟨⟨front, last⟩, htake, hpair⟩ := map_eq_ok.mp h
    cases hpair
    rw [hform] at hpos
    exact remaining_lt_of_take hpos htake

theorem remaining_lt_of_readInt {field : String} {n : Int}
    (h : l.readInt field cursor = .ok (n, next)) : next.remaining < cursor.remaining := by
  unfold readInt at h
  split at h
  · rename_i t _
    obtain ⟨⟨front, last⟩, htake, hpair⟩ := map_eq_ok.mp h
    cases hpair
    exact remaining_lt_of_take t.bytes_pos htake
  · cases h

end Leaf

/-- Whether a decoder has fewer bytes ahead after a struct than before it. -/
def Decoder.Advances (d : Decoder) (ty : String) : Prop :=
  ∀ cursor r last, d ty cursor = .ok (r, last) → last.remaining < cursor.remaining

/-- Whether this is so for the structs that always take a byte. -/
def Decoder.AdvancesIn (d : Decoder) (schema : Schema) : Prop :=
  ∀ ty, schema.Solid ty → schema.types.form? ty = none → d.Advances ty

section Fields

variable {schema : Schema} {d : Decoder} {free : String → Prop}

theorem Element.remaining_lt_of_read {ty : String} (hsolid : schema.Solid ty)
    (hadvances : schema.types.form? ty = none → d.Advances ty) {element : Element}
    (helem : schema.ElementOf ty element) {cursor next : Cursor} {v : Value}
    (h : element.read d cursor = .ok (v, next)) : next.remaining < cursor.remaining := by
  cases helem with
  | leaf hform => exact Leaf.remaining_lt_of_read (hsolid.width_pos hform) h
  | struct hform _ =>
    obtain ⟨⟨r, last⟩, hr, hpair⟩ := map_eq_ok.mp h
    cases hpair
    exact hadvances hform _ _ _ hr

theorem remaining_lt_of_readCounted (hd : d.Steady free) {ty : String} (hsolid : schema.Solid ty)
    (hadvances : schema.types.form? ty = none → d.Advances ty) {element : Element}
    (helem : schema.ElementOf ty element) {count : Nat} (hpos : 0 < count) {cursor last : Cursor}
    {items : List Value} (h : readCounted d element count cursor = .ok (items, last)) :
    last.remaining < cursor.remaining := by
  obtain ⟨count, rfl⟩ := Nat.exists_eq_succ_of_ne_zero (Nat.ne_of_gt hpos)
  obtain ⟨⟨v, next⟩, hv, h⟩ := bind_eq_ok.mp h
  obtain ⟨⟨vs, last'⟩, hvs, hpair⟩ := bind_eq_ok.mp h
  cases hpair
  have hsteady : Steady False (readCounted d element count) :=
    readCounted_steady hd (fun _ _ hf => hf.elim) count
  obtain ⟨used, hused⟩ := hsteady.forward _ _ _ hvs
  have hfirst := Element.remaining_lt_of_read hsolid hadvances helem hv
  have hrest := hused.remaining
  omega

/-- The step of a field that lies on the wire by itself. -/
def Struct.ownStep (s : Struct) (f : Field) (shape : WireShape) : Step DecodeOp :=
  let e : WireEntry := { field := f.name, role := f.disposition.role, guard := f.condition, shape }
  e.step (e.decodeOp s)

theorem Schema.Planned.entry_of_held {s : Struct} {plan : Plan} {slots : List UnionSlot}
    {entries : List (Option WireEntry)} (hp : schema.Planned s plan slots entries)
    (hs : s.WellFormed schema.types) {i : Nat} {f : Field} (hf : s.fields[i]? = some f)
    (hheld : f.isHeld = true) : ∃ shape, schema.Shaped s f shape ∧ entries[i]? = some
      (some { field := f.name, role := f.disposition.role, guard := f.condition, shape }) :=
  hp.entry_of_own hs hf (Field.isConst_of_isHeld hheld) (Struct.unionOf?_of_unconditioned hs.names
    (List.mem_of_getElem? hf) (Field.condition_of_isHeld hheld))

/-- The slot of a union that has bytes, with its entry. -/
theorem Schema.Planned.entry_of_union {s : Struct} {plan : Plan} {slots : List UnionSlot}
    {entries : List (Option WireEntry)} (hp : schema.Planned s plan slots entries)
    (hs : s.WellFormed schema.types) {g : ConditionGroup} (hg : g ∈ s.unions) {bytes : Nat}
    (hbytes : schema.unionSize? s g = some bytes) (hpos : 0 < bytes) :
    ∃ slot, schema.SlotOf s g slot ∧ 0 < slot.bytes ∧
      entries[slot.position]? = some (some (Schema.slotEntry slot)) := by
  obtain ⟨slot, hslot, hof⟩ := forall₂_mem_left hp.unions hg
  refine ⟨slot, hof, ?_, hp.entry_of_slot hs hslot⟩
  rwa [Option.some.inj (hof.bytes.symm.trans hbytes)]

theorem Struct.mem_decodeSteps_of_entry {s : Struct} {slots : List UnionSlot}
    {entries : List (Option WireEntry)} {i : Nat} {e : WireEntry} (he : entries[i]? = some (some e)) :
    e.step (e.decodeOp s) ∈ s.decodeSteps slots entries := by
  rw [decodeSteps_eq]
  refine List.mem_flatMap.mpr ⟨i, List.mem_range.mpr (List.getElem?_eq_some_iff.mp he).1, ?_⟩
  exact List.mem_append_left _ (mem_entryStep.mpr ⟨e, he, rfl⟩)

namespace Codec

variable {c : Codec} {s : Struct} {plan : Plan} {p p' : Progress}

theorem remaining_le_of_readStep (hd : d.Steady free) {step : Step DecodeOp}
    (h : c.readStep d s plan p step = .ok p') : p'.cursor.remaining ≤ p.cursor.remaining := by
  have hsteady : Progress.Steady False fun p => c.readStep d s plan p step :=
    readStep_steady hd s plan fun hf => hf.elim
  obtain ⟨used, hused, -⟩ := hsteady p p' h
  have hremaining := hused.remaining
  omega

theorem remaining_le_of_readSteps (hd : d.Steady free) {steps : List (Step DecodeOp)}
    (h : steps.foldlM (c.readStep d s plan) p = .ok p') :
    p'.cursor.remaining ≤ p.cursor.remaining :=
  foldlM_invariant (fun q => q.cursor.remaining ≤ p.cursor.remaining)
    (fun _ _ _ _ hq h => Nat.le_trans (remaining_le_of_readStep hd h) hq) (Nat.le_refl _) h

/-- The step of a field that takes a byte takes one, and leaves the bytes of the unions alone. -/
theorem advance_of_ownStep (hd : d.Steady free) {f : Field} (hheld : f.isHeld = true)
    (hsolid : c.schema.Solid f.typeName)
    (hadvances : c.schema.types.form? f.typeName = none → d.Advances f.typeName)
    {shape : WireShape} (hshape : c.schema.Shaped s f shape)
    (h : c.readStep d s plan p (s.ownStep f shape) = .ok p') :
    p'.cursor.remaining < p.cursor.remaining ∧ p'.slots = p.slots := by
  obtain ⟨b, hb, h⟩ := bind_eq_ok.mp h
  have hguard : (s.ownStep f shape).guard = none := Field.condition_of_isHeld hheld
  rw [hguard] at hb
  obtain rfl : true = b := Except.ok.inj hb
  have hdone := performs_of_readOp h
  have hkind := (Bool.and_eq_true_iff.mp hheld).2
  simp only [Struct.ownStep, WireEntry.step] at hdone
  cases hshape with
  | leaf hstored hform =>
    have hpos := hsolid.width_pos hform
    simp only [WireEntry.decodeOp] at hdone
    split at hdone
    · cases hdone with
      | length hn => exact ⟨Leaf.remaining_lt_of_readInt hn, rfl⟩
    · cases hdone with
      | leaf hv => exact ⟨Leaf.remaining_lt_of_read hpos hv, p.slots_noteValue _ _⟩
  | nested hstored hform hdeclared =>
    cases hdone with
    | nested hr => exact ⟨hadvances hform _ _ _ hr, rfl⟩
  | reserved hdisp hform =>
    cases hdone with
    | reserved hn _ => exact ⟨Leaf.remaining_lt_of_readInt hn, rfl⟩
  | @array element count hdisp helem =>
    cases count with
    | field name => simp [hdisp] at hkind
    | literal count =>
      have hpos : 0 < count := by simpa [hdisp] using hkind
      cases hdone with
      | array hn hitems =>
        obtain rfl := Except.ok.inj hn
        exact ⟨remaining_lt_of_readCounted hd hsolid hadvances helem hpos hitems, rfl⟩
  | arraySized hdisp _ => simp [hdisp] at hkind
  | fill hdisp _ => simp [hdisp] at hkind

/-- The step of a union's slot takes the slot's bytes. -/
theorem remaining_lt_of_slotStep {slot : UnionSlot} (hpos : 0 < slot.bytes)
    (h : c.readStep d s plan p
      ((Schema.slotEntry slot).step ((Schema.slotEntry slot).decodeOp s)) = .ok p') :
    p'.cursor.remaining < p.cursor.remaining := by
  obtain ⟨b, hb, h⟩ := bind_eq_ok.mp h
  obtain rfl : true = b := Except.ok.inj hb
  rw [if_pos rfl] at h
  have hdone := performs_of_readOp h
  simp only [Schema.slotEntry, WireEntry.step, WireEntry.decodeOp] at hdone
  cases hdone with
  | union htake => exact remaining_lt_of_take hpos htake

/-- In a place in which a byte is taken lies an entry whose step takes it. -/
theorem exists_entry_of_takesByte {slots : List UnionSlot} {entries : List (Option WireEntry)}
    (hp : c.schema.Planned s plan slots entries) (hs : s.WellFormed c.schema.types)
    (hd : d.Steady free) {i : Nat} {f : Field} (hf : s.fields[i]? = some f)
    (htakes : c.schema.TakesByte s f) (hadvances : d.AdvancesIn c.schema) :
    ∃ e : WireEntry, entries[i]? = some (some e) ∧ ∀ p p',
      c.readStep d s plan p (e.step (e.decodeOp s)) = .ok p' →
        p'.cursor.remaining < p.cursor.remaining := by
  cases htakes with
  | held hheld hsolid =>
    obtain ⟨shape, hshape, he⟩ := hp.entry_of_held hs hf hheld
    exact ⟨_, he, fun p p' h =>
      (advance_of_ownStep hd hheld hsolid (hadvances _ hsolid) hshape h).1⟩
  | slot hg hfirst hbytes hpos =>
    obtain ⟨slot, hof, hslot, he⟩ := hp.entry_of_union hs hg hbytes hpos
    have hname : slot.name = f.name := Option.some.inj (hof.first.symm.trans hfirst)
    have hposition := hof.position
    rw [hname, Struct.position?_of_getElem? hs.names hf] at hposition
    rw [← Option.some.inj hposition] at he
    exact ⟨_, he, fun p p' => remaining_lt_of_slotStep hslot⟩

end Codec

end Fields

/-! ## What is left of a struct's bytes -/

/-- Whether what is ahead of a struct that is being read, together with the bytes of any of its unions,
is at most so many bytes. -/
structure Progress.Bounded (p : Progress) (n : Nat) : Prop where
  ahead : p.cursor.remaining ≤ n
  slots : ∀ name raw, p.slots.lookup name = some raw → raw.length + p.cursor.remaining ≤ n

namespace Codec

variable {c : Codec} {d : Decoder} {free : String → Prop} {s : Struct} {plan : Plan}
  {p p' : Progress} {n : Nat}

theorem bounded_start (s : Struct) (name : String) (cursor : Cursor) :
    (Progress.start s name cursor).Bounded cursor.remaining :=
  ⟨Nat.le_refl _, fun _ _ hraw => by cases hraw⟩

theorem bounded_of_readStep (hd : d.Steady free) (hp : p.Bounded n) {step : Step DecodeOp}
    (h : c.readStep d s plan p step = .ok p') : p'.Bounded n := by
  have hle := remaining_le_of_readStep hd h
  have hahead := hp.ahead
  refine ⟨Nat.le_trans hle hahead, fun name raw hraw => ?_⟩
  have hbefore : p.slots.lookup name = some raw → raw.length + p'.cursor.remaining ≤ n := by
    intro hraw
    have hslot := hp.slots name raw hraw
    omega
  rcases performs_of_readStep h with rfl | hdone
  · exact hbefore hraw
  rcases hdone.slots with hslots | ⟨size, front, -, hslots, hfront, -⟩
  · exact hbefore (hslots ▸ hraw)
  · rw [hslots, Ordered.lookup_cons] at hraw
    split at hraw
    · obtain rfl : front = raw := Option.some.inj hraw
      have hremaining := hfront.remaining
      omega
    · exact hbefore hraw

theorem bounded_of_readSteps (hd : d.Steady free) (hp : p.Bounded n) {steps : List (Step DecodeOp)}
    (h : steps.foldlM (c.readStep d s plan) p = .ok p') : p'.Bounded n :=
  foldlM_invariant (Progress.Bounded · n) (fun _ _ _ _ hq h => bounded_of_readStep hd hq h) hp h

/-- Once a field was read that takes a byte, there are fewer bytes. -/
theorem exists_bounded_of_ownStep (hd : d.Steady free) {f : Field} (hheld : f.isHeld = true)
    (hsolid : c.schema.Solid f.typeName)
    (hadvances : c.schema.types.form? f.typeName = none → d.Advances f.typeName)
    {shape : WireShape} (hshape : c.schema.Shaped s f shape) {steps : List (Step DecodeOp)}
    (hstep : s.ownStep f shape ∈ steps) (hp : p.Bounded n)
    (h : steps.foldlM (c.readStep d s plan) p = .ok p') : ∃ m < n, p'.Bounded m := by
  obtain ⟨front, back, rfl⟩ := List.append_of_mem hstep
  obtain ⟨q, q', hq, hq', h⟩ := foldlM_split h
  obtain ⟨hlt, hslots⟩ := advance_of_ownStep hd hheld hsolid hadvances hshape hq'
  have hbounded := bounded_of_readSteps hd hp hq
  have hahead := hbounded.ahead
  refine ⟨n - 1, by omega, bounded_of_readSteps hd ⟨by omega, fun name raw hraw => ?_⟩ h⟩
  rw [hslots] at hraw
  have hslot := hbounded.slots name raw hraw
  omega

/-- Once a step was read that takes a byte, there are fewer bytes ahead. -/
theorem remaining_lt_of_readSteps (hd : d.Steady free) {step : Step DecodeOp}
    (htakes : ∀ p p', c.readStep d s plan p step = .ok p' →
      p'.cursor.remaining < p.cursor.remaining)
    {steps : List (Step DecodeOp)} (hstep : step ∈ steps)
    (h : steps.foldlM (c.readStep d s plan) p = .ok p') :
    p'.cursor.remaining < p.cursor.remaining := by
  obtain ⟨front, back, rfl⟩ := List.append_of_mem hstep
  obtain ⟨q, q', hq, hq', h⟩ := foldlM_split h
  have hfront := remaining_le_of_readSteps hd hq
  have hlt := htakes q q' hq'
  have hback := remaining_le_of_readSteps hd h
  omega

/-- A struct with an entry whose step takes a byte takes one. -/
theorem Sound.advances_of_entry (hc : c.Sound) {ty : String} (hs : c.schema.struct? ty = some s)
    (m : Nat) (hentry : ∀ {plan slots entries}, c.schema.Planned s plan slots entries →
      s.WellFormed c.schema.types → ∃ (i : Nat) (e : WireEntry), entries[i]? = some (some e) ∧
        ∀ m p p', c.readStep (c.decodeAt m) s plan p (e.step (e.decodeOp s)) = .ok p' →
          p'.cursor.remaining < p.cursor.remaining) : (c.decodeAt m).Advances ty := by
  intro cursor r last h
  cases m with
  | zero => cases h
  | succ m =>
    obtain ⟨⟨s', plan⟩, hl, h⟩ := bind_eq_ok.mp h
    obtain ⟨p, hp, hpair⟩ := bind_eq_ok.mp h
    cases hpair
    obtain ⟨hstruct, hmem, -, -, -, slots, entries, hplanned⟩ := hc.planned_of_lookup hl
    obtain rfl := Option.some.inj (hs.symm.trans hstruct)
    obtain ⟨i, e, he, htakes⟩ := hentry hplanned (hc.linked.wellFormed s hmem)
    have hstep : e.step (e.decodeOp s) ∈ plan.decode :=
      hplanned.decode ▸ Struct.mem_decodeSteps_of_entry he
    exact remaining_lt_of_readSteps (hc.decodeAt_steady m) (htakes m) hstep hp

theorem Sound.advancesIn (hc : c.Sound) (m : Nat) : (c.decodeAt m).AdvancesIn c.schema := by
  intro ty hsolid hform
  induction hsolid generalizing m with
  | form hsome _ =>
    rw [hform] at hsome
    cases hsome
  | struct _ hs hf hheld hsolid ih =>
    refine hc.advances_of_entry hs m fun hplanned hwf => ?_
    obtain ⟨i, hi⟩ := List.mem_iff_getElem?.mp hf
    obtain ⟨shape, hshape, he⟩ := hplanned.entry_of_held hwf hi hheld
    exact ⟨i, _, he, fun m p p' h =>
      (advance_of_ownStep (hc.decodeAt_steady m) hheld hsolid (ih m) hshape h).1⟩
  | union _ hs hg hbytes hpos =>
    refine hc.advances_of_entry hs m fun hplanned hwf => ?_
    obtain ⟨slot, -, hslot, he⟩ := hplanned.entry_of_union hwf hg hbytes hpos
    exact ⟨_, _, he, fun m p p' h => remaining_lt_of_slotStep hslot h⟩

end Codec

end WireLayout
