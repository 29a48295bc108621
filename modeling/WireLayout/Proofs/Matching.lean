import WireLayout.Proofs.Alike
import WireLayout.Proofs.Complete
import WireLayout.Proofs.Layout

/-!
# Records in each other's place

A record is asked for what its fields say, and what is asked depends on the fields' roles: nobody asks
for a constant, a reserved value or a number of elements, a value that is left out may be the initial
one, and a nested record that is left out may be an empty one. A frame with another record is measured
and written alike, if the two records answer all that is asked alike and what measures and writes the
records nested in them does so, too.
-/

namespace WireLayout

/-! ## What two records say of a field -/

/-- A relation between records that are measured and written as a struct, under initial values for its
members. -/
abbrev Pairing := String → List Initializer → Record → Record → Prop

/-- Whether two records are related as every struct and under all initial values. -/
def Pairing.All (N : Pairing) (r r' : Record) : Prop := ∀ ty initial, N ty initial r r'

/-- Whether nobody asks what a record says of a field: the schema fixes it, or it is the number of
elements of arrays and no length besides. -/
def Struct.Unread (s : Struct) (f : Field) : Prop :=
  f.isConst = true ∨ f.disposition.role = .reserved ∨
    s.isCount f.name = true ∧ s.regionsMeasuredBy f.name = []

/-- Whether the field holds a list. -/
def Field.IsVector (f : Field) : Prop :=
  match f.disposition with
  | .array _ | .arraySized _ | .arrayFill => True
  | _ => False

namespace Frame

/-- The frame with another record. -/
def withRecord (frame : Frame) (r : Record) : Frame := { frame with record := r }

@[simp] theorem withRecord_struct (frame : Frame) (r : Record) :
    (frame.withRecord r).struct = frame.struct := rfl

@[simp] theorem withRecord_plan (frame : Frame) (r : Record) :
    (frame.withRecord r).plan = frame.plan := rfl

@[simp] theorem withRecord_record (frame : Frame) (r : Record) :
    (frame.withRecord r).record = r := rfl

@[simp] theorem withRecord_initial? (frame : Frame) (r : Record) (name : String) :
    (frame.withRecord r).initial? name = frame.initial? name := rfl

@[simp] theorem withRecord_initialInside (frame : Frame) (r : Record) (field : String) :
    (frame.withRecord r).initialInside field = frame.initialInside field := rfl

@[simp] theorem withRecord_missing (frame : Frame) (r : Record) (field : String) :
    (frame.withRecord r).missing field = frame.missing field := rfl

/-- What the record of a frame and another one say of a field. -/
inductive Stands (frame : Frame) (schema : Schema) (N : Pairing) (r' : Record) (f : Field) :
    Prop where
  /-- Nobody asks. -/
  | unread : frame.struct.Unread f → Stands frame schema N r' f
  /-- They say nothing. -/
  | absent : frame.record.get? f.name = none → r'.get? f.name = none → Stands frame schema N r' f
  /-- They say the same but for records in it. -/
  | alike {v v' : Value} : frame.record.get? f.name = some v → r'.get? f.name = some v' →
      v.Alike N.All v' → Stands frame schema N r' f
  /-- The other one says the initial value. -/
  | initial {n : Int} : f.disposition = .plain → schema.types.form? f.typeName ≠ none →
      frame.struct.unionOf? f.name = none → frame.struct.regionsMeasuredBy f.name = [] →
      frame.record.get? f.name = none → frame.initial? f.name = some n →
      r'.get? f.name = some (.int n) → Stands frame schema N r' f
  /-- Both have a nested record, if only an empty one. -/
  | nested {inner inner' : Record} : schema.embeds f = true →
      schema.types.form? f.typeName = none → frame.struct.unionOf? f.name = none →
      frame.nested f.name f.typeName = .ok inner →
      (frame.withRecord r').nested f.name f.typeName = .ok inner' →
      N f.typeName (frame.initialInside f.name) inner inner' → Stands frame schema N r' f

/-- Whether another record may take the place of a frame's. -/
structure Matches (frame : Frame) (schema : Schema) (N : Pairing) (r' : Record) : Prop where
  fields : ∀ f ∈ frame.struct.fields, frame.Stands schema N r' f
  empty : ∀ f ∈ frame.struct.fields, schema.embeds f = true →
    N f.typeName (frame.initialInside f.name) (.empty f.typeName) (.empty f.typeName)

end Frame

namespace Field.IsVector

variable {f : Field}

theorem of_sizedArray? {layout : SizedArray} (h : f.sizedArray? = some layout) : f.IsVector := by
  unfold IsVector
  rw [disposition_of_sizedArray? h]
  trivial

theorem of_countedBy? {name : String} (h : f.countedBy? = some name) : f.IsVector := by
  unfold IsVector
  rw [disposition_of_countedBy? h]
  trivial

theorem roles (h : f.IsVector) :
    f.isConst = false ∧ f.isStored = false ∧ f.disposition.role ≠ .reserved := by
  unfold IsVector at h
  unfold isConst isStored
  cases hd : f.disposition <;> simp_all [Disposition.role]

end Field.IsVector

theorem Struct.not_unread_of_isStored {s : Struct} {f : Field} (hstored : f.isStored = true)
    (hcount : s.isCount f.name = true → s.regionsMeasuredBy f.name ≠ []) : ¬ s.Unread f := by
  rintro (hc | hr | ⟨hc, hnone⟩)
  · rw [Field.isConst_of_isStored hstored] at hc
    cases hc
  · exact Field.role_of_isStored hstored hr
  · exact hcount hc hnone

theorem Struct.WellFormed.not_unread_of_embeds {schema : Schema} {s : Struct}
    (hs : s.WellFormed schema.types) {f : Field} (hf : f ∈ s.fields)
    (hembeds : schema.embeds f = true) (hform : schema.types.form? f.typeName = none) :
    ¬ s.Unread f := by
  apply Struct.not_unread_of_isStored (Bool.and_eq_true_iff.mp hembeds).1
  intro hcount
  obtain ⟨-, t, ht⟩ := hs.testable_of_isCount hf hcount
  rw [TypeTable.form?_of_intType? ht] at hform
  cases hform

theorem Struct.WellFormed.not_unread_of_condition {types : TypeTable} {s : Struct}
    (hs : s.WellFormed types) {f : Field} (hf : f ∈ s.fields) (hstored : f.isStored = true)
    {c : Condition} (hc : f.condition = some c) : ¬ s.Unread f := by
  apply Struct.not_unread_of_isStored hstored
  intro hcount
  rw [(hs.testable_of_isCount hf hcount).plain.2] at hc
  cases hc

/-- A member of a union holds a value of its own, under a condition. -/
theorem Schema.Planned.conditioned_of_union {schema : Schema} {s : Struct} {plan : Plan}
    {slots : List UnionSlot} {entries : List (Option WireEntry)}
    (hp : schema.Planned s plan slots entries) (hs : s.WellFormed schema.types) {f : Field}
    (hf : f ∈ s.fields) (hunion : (s.unionOf? f.name).isSome = true) :
    f.isStored = true ∧ ∃ c, f.condition = some c := by
  obtain ⟨g, hg⟩ := Option.isSome_iff_exists.mp hunion
  obtain ⟨slot, -, hslot⟩ := forall₂_mem_left hp.unions (List.mem_of_find?_eq_some hg)
  have hname : f.name ∈ g.members := by simpa using List.find?_some hg
  obtain ⟨m, -, hm⟩ := forall₂_mem_left hslot.members hname
  obtain ⟨f', hf', hname', hstored, hc, -⟩ := hm.field
  obtain rfl := List.inj_on_of_nodup_map hs.names hf' hf hname'
  exact ⟨hstored, _, hc⟩

theorem Struct.unionOf?_ne_none {s : Struct} {g : ConditionGroup} (hg : g ∈ s.unions)
    {name : String} (hname : name ∈ g.members) : s.unionOf? name ≠ none := by
  intro hnone
  have hnot := List.find?_eq_none.mp hnone g hg
  exact hnot (List.contains_iff_mem.mpr hname)

/-! ## Reading a field -/

namespace Frame

variable {schema : Schema} {frame : Frame} {N : Pairing} {r' : Record}

theorem value_of_initial? {name : String} {n : Int} (hnone : frame.record.get? name = none)
    (hinitial : frame.initial? name = some n) : frame.value name = .ok (.int n) := by
  unfold Frame.value
  rw [hnone, hinitial]

/-- The integer of a plain field that counts nothing and has no value is the length of a region. -/
theorem intOf_of_absent (hs : frame.struct.WellFormed schema.types) {f : Field}
    (hf : f ∈ frame.struct.fields) (ht : f.Testable schema.types)
    (hcount : frame.struct.isCount f.name = false) (hnone : frame.record.get? f.name = none)
    (hinitial : frame.initial? f.name = none) (m : Measure) :
    frame.intOf m f.name =
      match (frame.struct.regionsMeasuredBy f.name).head? with
      | some (array, align) =>
        frame.list array >>= fun items => (regionLength m array align 0 items).map Int.ofNat
      | none => .error (frame.missing f.name) := by
  have hconst : f.constValue? = none := by unfold Field.constValue?; rw [ht.plain.1]
  unfold intOf
  rw [Struct.field?_of_mem hs.names hf, Option.bind_some, hconst]
  cases (frame.struct.regionsMeasuredBy f.name).head? with
  | none => simp only [hcount, Bool.false_eq_true, if_false, hnone, hinitial]
  | some region => simp only [hcount, Bool.false_eq_true, if_false, hnone, hinitial]

section Reading

variable (hs : frame.struct.WellFormed schema.types) (h : frame.Matches schema N r')

include hs h

theorem Matches.rel_of_isVector {f : Field} (hf : f ∈ frame.struct.fields) (hvector : f.IsVector) :
    (frame.record.get? f.name = none ∧ r'.get? f.name = none) ∨ ∃ v v',
      frame.record.get? f.name = some v ∧ r'.get? f.name = some v' ∧ v.Alike N.All v' := by
  obtain ⟨hconst, hstored, hreserved⟩ := hvector.roles
  have hplain : f.disposition ≠ .plain := by
    intro hd
    simp [Field.isStored, hd] at hstored
  -- a vector is read, is not plain and embeds nothing, which leaves two cases
  cases h.fields f hf with
  | absent hnone hnone' => exact Or.inl ⟨hnone, hnone'⟩
  | alike hv hv' halike => exact Or.inr ⟨_, _, hv, hv', halike⟩
  | unread hunread =>
    rcases hunread with hc | hr | ⟨hcount, -⟩
    · rw [hconst] at hc
      cases hc
    · exact absurd hr hreserved
    · exact absurd (hs.testable_of_isCount hf hcount).plain.1 hplain
  | initial hd => exact absurd hd hplain
  | nested hembeds =>
    rw [Schema.embeds, hstored] at hembeds
    cases hembeds

theorem Matches.list {f : Field} (hf : f ∈ frame.struct.fields) (hvector : f.IsVector) :
    Parallel (List.Forall₂ (Value.Alike N.All)) (frame.list f.name)
      ((frame.withRecord r').list f.name) := by
  unfold Frame.list
  rcases h.rel_of_isVector hs hf hvector with ⟨hnone, hnone'⟩ | ⟨v, v', hv, hv', halike⟩
  · simp only [withRecord_record, hnone, hnone']
    exact .error _
  · simp only [withRecord_record, hv, hv']
    exact halike.asList f.name

theorem Matches.sharedLength_eq {arrays : List String}
    (harrays : ∀ a ∈ arrays, ∃ f ∈ frame.struct.fields, f.IsVector ∧ f.name = a)
    (shared : Option Nat) :
    frame.sharedLength shared arrays = (frame.withRecord r').sharedLength shared arrays := by
  induction arrays generalizing shared with
  | nil => rfl
  | cons a rest ih =>
    have hrest := ih fun b hb => harrays b (List.mem_cons_of_mem _ hb)
    obtain ⟨f, hf, hvector, rfl⟩ := harrays a List.mem_cons_self
    unfold sharedLength
    rcases h.rel_of_isVector hs hf hvector with ⟨hnone, hnone'⟩ | ⟨v, v', hv, hv', halike⟩
    · simp only [withRecord_record, hnone, hnone']
      exact hrest shared
    · simp only [withRecord_record, hv, hv']
      cases halike with
      | list hitems =>
        simp only [asList, Value.list?, hitems.length_eq, hrest]
      | _ => rfl

theorem Matches.liveLength_eq (name : String) :
    frame.liveLength (frame.struct.arraysCountedBy name) =
      (frame.withRecord r').liveLength (frame.struct.arraysCountedBy name) := by
  apply h.sharedLength_eq hs
  intro a ha
  obtain ⟨f, hf, rfl⟩ := List.mem_map.mp ha
  obtain ⟨hmem, hby⟩ := List.mem_filter.mp hf
  exact ⟨f, hmem, .of_countedBy? (by simpa using hby), rfl⟩

omit hs in
/-- A field that somebody asks for has like values, if it is no nested struct by itself. -/
theorem Matches.value {f : Field} (hf : f ∈ frame.struct.fields)
    (hread : ¬ frame.struct.Unread f)
    (hleaf : schema.types.form? f.typeName ≠ none ∨ frame.struct.unionOf? f.name ≠ none) :
    Parallel (Value.Alike N.All) (frame.value f.name) ((frame.withRecord r').value f.name) := by
  unfold Frame.value
  cases h.fields f hf with
  | unread hunread => exact absurd hunread hread
  | absent hnone hnone' =>
    simp only [withRecord_record, withRecord_initial?, withRecord_missing, hnone, hnone']
    cases frame.initial? f.name with
    | some n => exact .ok (.int n)
    | none => exact .error _
  | alike hv hv' halike =>
    simp only [withRecord_record, hv, hv']
    exact .ok halike
  | initial _ _ _ _ hnone hinitial hsome =>
    simp only [withRecord_record, hnone, hinitial, hsome]
    exact .ok (.int _)
  | nested _ hform hunion =>
    rcases hleaf with hleaf | hleaf
    · exact absurd hform hleaf
    · exact absurd hunion hleaf

theorem Matches.nested {f : Field} (hf : f ∈ frame.struct.fields)
    (hembeds : schema.embeds f = true) (hform : schema.types.form? f.typeName = none) :
    Parallel (N f.typeName (frame.initialInside f.name)) (frame.nested f.name f.typeName)
      ((frame.withRecord r').nested f.name f.typeName) := by
  cases h.fields f hf with
  | nested _ _ _ hinner hinner' hN =>
    rw [hinner, hinner']
    exact .ok hN
  | initial _ hleaf => exact absurd hform hleaf
  | unread hunread => exact absurd hunread (hs.not_unread_of_embeds hf hembeds hform)
  | alike hv hv' halike =>
    simp only [Frame.nested, withRecord_record, hv, hv']
    cases halike with
    | record hP => exact .ok (hP _ _)
    | _ => exact .error _
  | absent hnone hnone' =>
    simp only [Frame.nested, withRecord_record, hnone, hnone']
    by_cases hinside : (frame.initialInside f.name).isEmpty = true
    · simp only [withRecord_initialInside, hinside, if_true]
      exact .error _
    · simp only [withRecord_initialInside, hinside]
      exact .ok (h.empty f hf hembeds)

theorem Matches.regionLength_eq {m m' : Measure}
    (hm : ∀ ty initial r r', N ty initial r r' → m ty initial r = m' ty initial r')
    {name array : String} {align : Option Nat}
    (harray : (array, align) ∈ frame.struct.regionsMeasuredBy name) :
    (frame.list array >>= fun items => (regionLength m array align 0 items).map Int.ofNat) =
      (frame.withRecord r').list array >>= fun items =>
        (regionLength m' array align 0 items).map Int.ofNat := by
  obtain ⟨f, hf, layout, hlayout, -, heq⟩ := Struct.mem_regionsMeasuredBy.mp harray
  obtain ⟨rfl, rfl⟩ := Prod.mk.inj heq
  refine (h.list hs hf (.of_sizedArray? hlayout)).bind_eq fun items items' hitems => ?_
  rw [WireLayout.regionLength_eq (fun r r' hN ty => hm ty [] r r' (hN ty [])) hitems]

theorem Matches.intOf_eq {m m' : Measure}
    (hm : ∀ ty initial r r', N ty initial r r' → m ty initial r = m' ty initial r')
    {f : Field} (hf : f ∈ frame.struct.fields) (htest : f.Testable schema.types) :
    frame.intOf m f.name = (frame.withRecord r').intOf m' f.name := by
  have hs' : (frame.withRecord r').struct.WellFormed schema.types := hs
  cases hcount : frame.struct.isCount f.name with
  | true =>
    rw [intOf_of_isCount hs hf htest hcount, intOf_of_isCount hs' hf htest hcount,
      h.liveLength_eq hs]
    rfl
  | false =>
    cases h.fields f hf with
    | unread hunread =>
      rcases hunread with hc | hr | ⟨hc, -⟩
      · simp [Field.isConst, htest.plain.1, Disposition.role] at hc
      · simp [htest.plain.1, Disposition.role] at hr
      · rw [hcount] at hc
        cases hc
    | alike hv hv' halike =>
      rw [intOf_of_get? hs hf htest hcount hv, intOf_of_get? hs' hf htest hcount hv']
      exact halike.asInt_eq f.name
    | initial _ _ _ _ hnone hinitial hsome =>
      have hvalue := value_of_initial? hnone hinitial
      rw [intOf_of_value hs hf htest hcount hvalue, intOf_of_get? hs' hf htest hcount hsome]
      rfl
    | nested _ hform =>
      obtain ⟨t, ht⟩ := htest.2
      rw [TypeTable.form?_of_intType? ht] at hform
      cases hform
    | absent hnone hnone' =>
      cases hinitial : frame.initial? f.name with
      | some n =>
        have hvalue := value_of_initial? hnone hinitial
        have hvalue' : (frame.withRecord r').value f.name = _ := value_of_initial? hnone' hinitial
        rw [intOf_of_value hs hf htest hcount hvalue, intOf_of_value hs' hf htest hcount hvalue']
      | none =>
        rw [intOf_of_absent hs hf htest hcount hnone hinitial,
          intOf_of_absent hs' hf htest hcount hnone' hinitial]
        cases hregion : (frame.struct.regionsMeasuredBy f.name).head? with
        | none => simp only [withRecord_struct, hregion, withRecord_missing]
        | some region =>
          simp only [withRecord_struct, hregion]
          exact h.regionLength_eq hs hm (List.mem_of_mem_head? hregion)

/-- The field of a region's length says the same, in what is written for it and in what the region is
compared with. -/
theorem Matches.byteLength_eq {m m' : Measure}
    (hm : ∀ ty initial r r', N ty initial r r' → m ty initial r = m' ty initial r')
    {f : Field} (hf : f ∈ frame.struct.fields) (hstored : f.isStored = true)
    (hform : schema.types.form? f.typeName ≠ none) {array : String} {align : Option Nat}
    (hregion : (array, align) ∈ frame.struct.regionsMeasuredBy f.name) :
    frame.byteLength m f.name array align =
        (frame.withRecord r').byteLength m' f.name array align ∧
      (frame.record.get? f.name).bind Value.int? = (r'.get? f.name).bind Value.int? := by
  have hne := List.ne_nil_of_mem hregion
  unfold byteLength
  cases h.fields f hf with
  | unread hunread => exact absurd hunread (Struct.not_unread_of_isStored hstored fun _ => hne)
  | initial _ _ _ hnone => exact absurd hnone hne
  | nested _ hno => exact absurd hno hform
  | absent hnone hnone' =>
    simp only [withRecord_record, hnone, hnone']
    exact ⟨h.regionLength_eq hs hm hregion, trivial⟩
  | alike hv hv' halike =>
    simp only [withRecord_record, hv, hv']
    exact ⟨halike.asInt_eq f.name, halike.int?_eq⟩

theorem Matches.holds_eq {m m' : Measure}
    (hm : ∀ ty initial r r', N ty initial r r' → m ty initial r = m' ty initial r')
    {f : Field} (hf : f ∈ frame.struct.fields) :
    frame.holds m f.condition = (frame.withRecord r').holds m' f.condition := by
  cases hc : f.condition with
  | none => rfl
  | some c =>
    obtain ⟨g, hg, hname, htest⟩ := hs.tested f hf c hc
    show (frame.intOf m c.field).map c.holds = ((frame.withRecord r').intOf m' c.field).map c.holds
    rw [← hname, h.intOf_eq hs hm hg htest]

end Reading

/-! ## Measuring a frame -/

section Measuring

variable {slots : List UnionSlot} {entries : List (Option WireEntry)} {m m' : Measure}
  (hs : frame.struct.WellFormed schema.types) (h : frame.Matches schema N r')
  (hm : ∀ ty initial r r', N ty initial r r' → m ty initial r = m' ty initial r')
  (hp : schema.Planned frame.struct frame.plan slots entries)

include hs h hm hp

theorem Matches.entry_holds_eq {e : WireEntry} (he : e ∈ entries.filterMap id) :
    frame.holds m e.guard = (frame.withRecord r').holds m' e.guard := by
  obtain ⟨i, f, hf, hentry⟩ := hp.exists_of_mem he
  cases hentry with
  | slot => rfl
  | own => exact h.holds_eq hs hm (List.mem_of_getElem? hf)

theorem Matches.opSize_eq {e : WireEntry} (he : e ∈ entries.filterMap id) :
    frame.opSize m e.field e.sizeOp = (frame.withRecord r').opSize m' e.field e.sizeOp := by
  have hall : ∀ r r' : Record, N.All r r' → ∀ ty, m ty [] r = m' ty [] r' :=
    fun r r' hN ty => hm ty [] r r' (hN ty [])
  obtain ⟨i, f, hf, hentry⟩ := hp.exists_of_mem he
  have hmem := List.mem_of_getElem? hf
  cases hentry with
  | slot => rfl
  | own hconst hunion hshape =>
    cases hshape with
    | leaf => rfl
    | reserved => rfl
    | nested hstored hform hdeclared =>
      have hembeds : schema.embeds f = true := Bool.and_eq_true_iff.mpr ⟨hstored, hdeclared⟩
      exact (h.nested hs hmem hembeds hform).bind_eq fun r r' hN => hm _ _ r r' hN
    | array hd _ =>
      have hvector : f.IsVector := by unfold Field.IsVector; rw [hd]; trivial
      exact (h.list hs hmem hvector).bind_eq fun items items' hitems =>
        elementsSize_eq hall hitems _ _ _
    | fill hd _ =>
      have hvector : f.IsVector := by unfold Field.IsVector; rw [hd]; trivial
      exact (h.list hs hmem hvector).bind_eq fun items items' hitems =>
        elementsSize_eq hall hitems _ _ _
    | arraySized hd _ =>
      obtain ⟨j, g, -, hg, hname, hplain, hnumber⟩ :=
        hs.counted i f hf _ (by unfold Field.lengthName?; rw [hd])
      have hint := h.intOf_eq hs hm (List.mem_of_getElem? hg)
        ⟨hplain, TypeTable.intType_of_isNumber hnumber⟩
      rw [hname] at hint
      show (frame.intOf m _ >>= fun n => toLength _ n) = _ >>= fun n => toLength _ n
      rw [hint]

theorem Matches.stepsSize_eq {l : List WireEntry} (hl : ∀ e ∈ l, e ∈ entries.filterMap id)
    (total : Nat) :
    frame.stepsSize m total (l.map fun e => e.step e.sizeOp) =
      (frame.withRecord r').stepsSize m' total (l.map fun e => e.step e.sizeOp) := by
  induction l generalizing total with
  | nil => rfl
  | cons e rest ih =>
    have hrest := ih fun x hx => hl x (List.mem_cons_of_mem _ hx)
    have he := hl e List.mem_cons_self
    rw [List.map_cons, stepsSize, stepsSize]
    show (frame.holds m e.guard >>= _) = ((frame.withRecord r').holds m' e.guard >>= _)
    rw [h.entry_holds_eq hs hm hp he]
    refine bind_congr fun b => ?_
    cases b with
    | false => exact hrest total
    | true =>
      show (frame.opSize m e.field e.sizeOp >>= _) =
        ((frame.withRecord r').opSize m' e.field e.sizeOp >>= _)
      rw [h.opSize_eq hs hm hp he]
      exact bind_congr fun size => bind_congr fun total => hrest total

theorem Matches.unionMemberSize_eq {target : String}
    (hunion : (frame.struct.unionOf? target).isSome = true) :
    frame.unionMemberSize schema m target =
      (frame.withRecord r').unionMemberSize schema m' target := by
  unfold unionMemberSize
  simp only [withRecord_struct, withRecord_record, withRecord_missing]
  cases hfield : frame.struct.field? target with
  | none => rfl
  | some f =>
    obtain ⟨hf, rfl⟩ := Struct.mem_of_field? hfield
    obtain ⟨hstored, c, hc⟩ := hp.conditioned_of_union hs hf hunion
    dsimp only
    rw [h.holds_eq hs hm hf]
    cases h.fields f hf with
    | unread hunread => exact absurd hunread (hs.not_unread_of_condition hf hstored hc)
    | absent hnone hnone' => simp only [hnone, hnone']
    | alike hv hv' => simp only [hv, hv', Option.isSome_some]
    | initial _ _ hno =>
      rw [hno] at hunion
      cases hunion
    | nested _ _ hno =>
      rw [hno] at hunion
      cases hunion

theorem Matches.fieldSize_eq (target : String) :
    frame.fieldSize schema m target = (frame.withRecord r').fieldSize schema m' target := by
  unfold fieldSize
  by_cases hunion : (frame.struct.unionOf? target).isSome = true
  · rw [if_pos hunion, h.unionMemberSize_eq hs hm hp hunion]
    exact (if_pos hunion).symm
  · rw [if_neg hunion]
    refine Eq.trans ?_ (if_neg hunion).symm
    rw [show (frame.withRecord r').plan = frame.plan from rfl]
    cases hfind : frame.plan.size.find? fun step => step.field == target with
    | none => rfl
    | some step =>
      have hmem := List.mem_of_find?_eq_some hfind
      rw [hp.size] at hmem
      obtain ⟨e, he, rfl⟩ := List.mem_map.mp hmem
      show (frame.holds m e.guard >>= _) = ((frame.withRecord r').holds m' e.guard >>= _)
      rw [h.entry_holds_eq hs hm hp he]
      refine bind_congr fun b => ?_
      cases b with
      | false => rfl
      | true => exact h.opSize_eq hs hm hp he

end Measuring

/-! ## Writing a frame -/

section Writing

variable {slots : List UnionSlot} {entries : List (Option WireEntry)} {m m' : Measure}
  {enc enc' : Encoder} (hs : frame.struct.WellFormed schema.types)
  (h : frame.Matches schema N r')
  (hm : ∀ ty initial r r', N ty initial r r' → m ty initial r = m' ty initial r')
  (he : ∀ ty initial r r', N ty initial r r' → enc ty initial r = enc' ty initial r')
  (hp : schema.Planned frame.struct frame.plan slots entries)

include hs h hm he hp

omit hp in
theorem Matches.unionBytes_eq {g : ConditionGroup} (hg : g ∈ frame.struct.unions)
    {members : List UnionMember}
    (hmembers : ∀ x ∈ members, ∃ name ∈ g.members, schema.MemberOf frame.struct g name x) :
    frame.unionBytes m enc members = (frame.withRecord r').unionBytes m' enc' members := by
  induction members with
  | nil => rfl
  | cons x rest ih =>
    have hrest := ih fun y hy => hmembers y (List.mem_cons_of_mem _ hy)
    obtain ⟨name, hname, hx⟩ := hmembers x List.mem_cons_self
    obtain ⟨f, hf, rfl, hstored, hc, -⟩ := hx.field
    obtain ⟨t, ht, htname, htest⟩ := hs.tested f hf _ hc
    have hint := h.intOf_eq hs hm ht htest
    rw [htname] at hint
    unfold unionBytes
    rw [hint]
    refine bind_congr fun n => ?_
    split
    · have hunion : frame.struct.unionOf? f.name ≠ none := Struct.unionOf?_ne_none hg hname
      rw [hx.named]
      exact (h.value hf (hs.not_unread_of_condition hf hstored hc) (Or.inr hunion)).bind_eq
        fun v v' hv => elementWrite_eq (fun r r' hN ty => he ty [] r r' (hN ty [])) hv _ _
    · exact hrest

omit he hp in
theorem Matches.leafBytes_eq {f : Field} (hf : f ∈ frame.struct.fields)
    (hstored : f.isStored = true) {leaf : Leaf}
    (hform : schema.types.form? f.typeName = some leaf.form) (e : WireEntry)
    (hshape : e = ⟨f.name, e.role, e.guard, .leaf leaf⟩) (enc enc' : Encoder) :
    frame.opBytes schema m enc e.field (e.encodeOp frame.struct) =
      (frame.withRecord r').opBytes schema m' enc' e.field (e.encodeOp frame.struct) := by
  have hleaf : schema.types.form? f.typeName ≠ none := by
    rw [hform]
    exact Option.some_ne_none _
  rw [hshape]
  simp only [WireEntry.encodeOp]
  by_cases hcount : frame.struct.isCount f.name = true
  · rw [if_pos hcount]
    show (frame.liveLength _ >>= _) = ((frame.withRecord r').liveLength _ >>= _)
    rw [h.liveLength_eq hs]
  · rw [if_neg hcount]
    cases hregion : (frame.struct.regionsMeasuredBy f.name).getLast? with
    | some region =>
      have hlength := h.byteLength_eq hs hm hf hstored hleaf (List.mem_of_getLast? hregion)
      show (frame.byteLength m f.name _ _ >>= _) =
        ((frame.withRecord r').byteLength m' f.name _ _ >>= _)
      rw [hlength.1]
    | none =>
      have hread := Struct.not_unread_of_isStored hstored fun hc => absurd hc hcount
      exact (h.value hf hread (Or.inl hleaf)).bind_eq fun v v' hv => hv.write_eq leaf f.name

theorem Matches.opBytes_eq {e : WireEntry} (hentry : e ∈ entries.filterMap id) :
    frame.opBytes schema m enc e.field (e.encodeOp frame.struct) =
      (frame.withRecord r').opBytes schema m' enc' e.field (e.encodeOp frame.struct) := by
  have hall : ∀ r r' : Record, N.All r r' → ∀ ty, enc ty [] r = enc' ty [] r' :=
    fun r r' hN ty => he ty [] r r' (hN ty [])
  obtain ⟨i, f, hf, hof⟩ := hp.exists_of_mem hentry
  have hmem := List.mem_of_getElem? hf
  cases hof with
  | slot hslot hpos hname =>
    obtain ⟨g, hg, hslotOf⟩ := forall₂_mem_right hp.unions hslot
    show (frame.unionBytes m enc _ >>= _) = ((frame.withRecord r').unionBytes m' enc' _ >>= _)
    rw [h.unionBytes_eq hs hm he hg fun x hx => forall₂_mem_right hslotOf.members hx]
  | own hconst hunion hshape =>
    cases hshape with
    | leaf hstored hform => exact h.leafBytes_eq hs hm hmem hstored hform _ rfl _ _
    | reserved hd hform =>
      rename_i leaf value
      have hint : frame.reservedInt schema m value =
          (frame.withRecord r').reservedInt schema m' value := by
        cases value with
        | sizeOf target => simp only [reservedInt, h.fieldSize_eq hs hm hp target]
        | _ => rfl
      show (frame.reservedInt schema m value >>= _) =
        ((frame.withRecord r').reservedInt schema m' value >>= _)
      rw [hint]
    | nested hstored hform hdeclared =>
      have hembeds : schema.embeds f = true := Bool.and_eq_true_iff.mpr ⟨hstored, hdeclared⟩
      exact (h.nested hs hmem hembeds hform).bind_eq fun r r' hN => he _ _ r r' hN
    | array hd helement =>
      rename_i element count
      have hvector : f.IsVector := by unfold Field.IsVector; rw [hd]; trivial
      refine (h.list hs hmem hvector).bind_eq fun items items' hitems => ?_
      have hjoin : joinM (fun v => element.write enc f.name v) items =
          joinM (fun v => element.write enc' f.name v) items' :=
        joinM_eq hitems fun v v' hv => elementWrite_eq hall hv _ _
      cases count with
      | field name => exact hjoin
      | literal expected =>
        dsimp only
        rw [hitems.length_eq, hjoin]
    | fill hd _ =>
      have hvector : f.IsVector := by unfold Field.IsVector; rw [hd]; trivial
      exact (h.list hs hmem hvector).bind_eq fun items items' hitems =>
        joinM_eq hitems fun v v' hv => elementWrite_eq hall hv _ _
    | arraySized hd hgroup =>
      rename_i layout group
      have hvector : f.IsVector := by unfold Field.IsVector; rw [hd]; trivial
      obtain ⟨j, g, -, hg, hname, hplain, hnumber⟩ :=
        hs.counted i f hf layout.lengthField (by unfold Field.lengthName?; rw [hd])
      obtain ⟨t, ht⟩ := TypeTable.intType_of_isNumber hnumber
      have hregion : (f.name, layout.align) ∈ frame.struct.regionsMeasuredBy g.name :=
        Struct.mem_regionsMeasuredBy.mpr
          ⟨f, hmem, layout, by unfold Field.sizedArray?; rw [hd], hname.symm, rfl⟩
      have hdeclared := (h.byteLength_eq hs hm (List.mem_of_getElem? hg)
        (by simp [Field.isStored, (Field.isPlain_eq_true.mp hplain).1])
        (by rw [TypeTable.form?_of_intType? ht]; exact Option.some_ne_none _) hregion).2
      rw [hname] at hdeclared
      refine (h.list hs hmem hvector).bind_eq fun items items' hitems => ?_
      rw [regionBytes_eq hall hitems]
      refine bind_congr fun bytes => ?_
      rw [withRecord_record, hdeclared]

theorem Matches.stepBytes_eq {e : WireEntry} (hentry : e ∈ entries.filterMap id) :
    frame.stepBytes schema m enc (e.step (e.encodeOp frame.struct)) =
      (frame.withRecord r').stepBytes schema m' enc' (e.step (e.encodeOp frame.struct)) := by
  show (frame.holds m e.guard >>= _) = ((frame.withRecord r').holds m' e.guard >>= _)
  rw [h.entry_holds_eq hs hm hp hentry]
  refine bind_congr fun b => ?_
  cases b with
  | false => rfl
  | true => exact h.opBytes_eq hs hm he hp hentry

theorem Matches.stepsBytes_eq {l : List WireEntry} (hl : ∀ e ∈ l, e ∈ entries.filterMap id) :
    joinM (frame.stepBytes schema m enc) (l.map fun e => e.step (e.encodeOp frame.struct)) =
      joinM ((frame.withRecord r').stepBytes schema m' enc')
        (l.map fun e => e.step (e.encodeOp frame.struct)) := by
  induction l with
  | nil => rfl
  | cons e rest ih =>
    rw [List.map_cons, joinM, joinM, h.stepBytes_eq hs hm he hp (hl e List.mem_cons_self),
      ih fun x hx => hl x (List.mem_cons_of_mem _ hx)]

end Writing

end Frame

end WireLayout
