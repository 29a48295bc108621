import WireLayout.Codec.Frame
import WireLayout.Proofs.Compiled

/-!
# The layout behind the plans

The three plans of a struct are read off one list of entries. What an entry is follows from the
field in its place: a field of its own has the shape of its disposition, the first member of a union
stands for the slot, and a constant or a later member of a union has no entry.
-/

namespace WireLayout

/-! ## Elements and shapes -/

/-- What the element of a field's type is. -/
inductive Schema.ElementOf (schema : Schema) (ty : String) : Element → Prop where
  /-- A type with a form on the wire. -/
  | leaf {l : Leaf} : schema.types.form? ty = some l.form → ElementOf schema ty (.leaf l)
  /-- A struct. -/
  | struct : schema.types.form? ty = none → schema.hasStruct ty = true →
      ElementOf schema ty (.struct ty)

theorem Schema.ElementOf.eq_of_struct {schema : Schema} {ty ty' : String}
    (h : schema.ElementOf ty (.struct ty')) : ty' = ty := by
  cases h
  rfl

theorem Schema.elementOf_of_element {schema : Schema} {owner : String} {f : Field} {e : Element}
    (h : schema.element owner f = .ok e) : schema.ElementOf f.typeName e := by
  unfold Schema.element at h
  split at h
  · rename_i form hform
    cases h
    exact .leaf hform
  · rename_i hform
    split at h
    · rename_i hs
      cases h
      exact .struct hform hs
    · cases h

/-- What a field that lies on the wire by itself is there. -/
inductive Schema.Shaped (schema : Schema) (s : Struct) (f : Field) : WireShape → Prop where
  /-- A value that is no struct. -/
  | leaf {l : Leaf} : f.isStored = true → schema.types.form? f.typeName = some l.form →
      Shaped schema s f (.leaf l)
  /-- A struct. -/
  | nested {isInline : Bool} : f.isStored = true → schema.types.form? f.typeName = none →
      schema.hasStruct f.typeName = true → Shaped schema s f (.nested f.typeName isInline)
  /-- A fixed value. -/
  | reserved {l : Leaf} {v : ReservedValue} : f.disposition = .reserved v →
      schema.types.form? f.typeName = some l.form → Shaped schema s f (.reserved l v)
  /-- A counted array. -/
  | array {e : Element} {count : Count} : f.disposition = .array count →
      schema.ElementOf f.typeName e → Shaped schema s f (.array e count)
  /-- A region of polymorphic elements. -/
  | arraySized {layout : SizedArray} {group : String} : f.disposition = .arraySized layout →
      schema.arrayGroup s f layout.binding = .ok group →
      Shaped schema s f (.arraySized layout group)
  /-- An array up to the end of the buffer. -/
  | fill {e : Element} : f.disposition = .arrayFill → schema.ElementOf f.typeName e →
      Shaped schema s f (.fill e)

namespace Schema.Shaped

variable {schema : Schema} {s : Struct} {f : Field} {shape : WireShape}

/-- A field that holds a value of its own is a value that is no struct, or a struct. -/
theorem of_isStored (h : schema.Shaped s f shape) (hstored : f.isStored = true) :
    (∃ l : Leaf, shape = .leaf l ∧ schema.types.form? f.typeName = some l.form) ∨
      ∃ isInline, shape = .nested f.typeName isInline ∧ schema.types.form? f.typeName = none := by
  have hplain := Field.disposition_of_isStored hstored
  cases h with
  | leaf _ hform => exact Or.inl ⟨_, rfl, hform⟩
  | nested _ hform _ => exact Or.inr ⟨_, rfl, hform⟩
  | reserved hd _ => simp [hd] at hplain
  | array hd _ => simp [hd] at hplain
  | arraySized hd _ => simp [hd] at hplain
  | fill hd _ => simp [hd] at hplain

theorem of_reserved (h : schema.Shaped s f shape) {v : ReservedValue}
    (hd : f.disposition = .reserved v) : ∃ l, shape = .reserved l v := by
  cases h with
  | reserved hd' _ => rw [hd] at hd'; cases hd'; exact ⟨_, rfl⟩
  | leaf hstored _ => simp [Field.isStored, hd] at hstored
  | nested hstored _ _ => simp [Field.isStored, hd] at hstored
  | array hd' _ => rw [hd] at hd'; cases hd'
  | arraySized hd' _ => rw [hd] at hd'; cases hd'
  | fill hd' _ => rw [hd] at hd'; cases hd'

theorem of_array (h : schema.Shaped s f shape) {count : Count} (hd : f.disposition = .array count) :
    ∃ e, schema.ElementOf f.typeName e ∧ shape = .array e count := by
  cases h with
  | array hd' helem => rw [hd] at hd'; cases hd'; exact ⟨_, helem, rfl⟩
  | leaf hstored _ => simp [Field.isStored, hd] at hstored
  | nested hstored _ _ => simp [Field.isStored, hd] at hstored
  | reserved hd' _ => rw [hd] at hd'; cases hd'
  | arraySized hd' _ => rw [hd] at hd'; cases hd'
  | fill hd' _ => rw [hd] at hd'; cases hd'

theorem of_fill (h : schema.Shaped s f shape) (hd : f.disposition = .arrayFill) :
    ∃ e, schema.ElementOf f.typeName e ∧ shape = .fill e := by
  cases h with
  | fill _ helem => exact ⟨_, helem, rfl⟩
  | leaf hstored _ => simp [Field.isStored, hd] at hstored
  | nested hstored _ _ => simp [Field.isStored, hd] at hstored
  | reserved hd' _ => rw [hd] at hd'; cases hd'
  | array hd' _ => rw [hd] at hd'; cases hd'
  | arraySized hd' _ => rw [hd] at hd'; cases hd'

end Schema.Shaped

theorem Schema.shaped_of_shape? {schema : Schema} {s : Struct} {f : Field} {o : Option WireShape}
    (h : schema.shape? s f = .ok o) :
    (f.isConst = true ∧ o = none) ∨
      f.isConst = false ∧ ∃ shape, o = some shape ∧ schema.Shaped s f shape := by
  -- a plain field and an inline one differ in what is said of a struct
  have stored : ∀ {isInline : Bool} (shapeOf : Element → Option WireShape),
      (∀ leaf, shapeOf (.leaf leaf) = some (.leaf leaf)) →
      (∀ ty, shapeOf (.struct ty) = some (.nested ty isInline)) → f.isStored = true →
      (schema.element s.name f).map shapeOf = .ok o →
      ∃ shape, o = some shape ∧ schema.Shaped s f shape := by
    intro isInline shapeOf hleaf hnested hstored h
    obtain ⟨e, he, rfl⟩ := map_eq_ok.mp h
    cases elementOf_of_element he with
    | leaf hform => exact ⟨_, hleaf _, .leaf hstored hform⟩
    | struct hform hstruct => exact ⟨_, hnested _, .nested hstored hform hstruct⟩
  unfold shape? at h
  cases hd : f.disposition with
  | const v =>
    simp only [hd, Except.ok.injEq] at h
    exact Or.inl ⟨by simp [Field.isConst, hd, Disposition.role], h.symm⟩
  | plain =>
    simp only [hd] at h
    have hconst : f.isConst = false := by simp [Field.isConst, hd, Disposition.role]
    exact Or.inr ⟨hconst, stored _ (fun _ => rfl) (fun _ => rfl) (by simp [Field.isStored, hd]) h⟩
  | inline =>
    simp only [hd] at h
    have hconst : f.isConst = false := by simp [Field.isConst, hd, Disposition.role]
    exact Or.inr ⟨hconst, stored _ (fun _ => rfl) (fun _ => rfl) (by simp [Field.isStored, hd]) h⟩
  | reserved v =>
    simp only [hd] at h
    obtain ⟨e, he, h⟩ := bind_eq_ok'.mp h
    refine Or.inr ⟨by simp [Field.isConst, hd, Disposition.role], ?_⟩
    cases elementOf_of_element he with
    | leaf hform => cases h; exact ⟨_, rfl, .reserved hd hform⟩
    | struct hform hstruct => cases h
  | array count =>
    simp only [hd] at h
    obtain ⟨e, he, rfl⟩ := map_eq_ok.mp h
    exact Or.inr ⟨by simp [Field.isConst, hd, Disposition.role], _, rfl,
      .array hd (elementOf_of_element he)⟩
  | arraySized layout =>
    simp only [hd] at h
    obtain ⟨group, hgroup, rfl⟩ := map_eq_ok.mp h
    exact Or.inr ⟨by simp [Field.isConst, hd, Disposition.role], _, rfl, .arraySized hd hgroup⟩
  | arrayFill =>
    simp only [hd] at h
    obtain ⟨e, he, rfl⟩ := map_eq_ok.mp h
    exact Or.inr ⟨by simp [Field.isConst, hd, Disposition.role], _, rfl,
      .fill hd (elementOf_of_element he)⟩

/-- A field that counts elements is a plain field of integer type. -/
theorem Struct.WellFormed.testable_of_isCount {types : TypeTable} {s : Struct}
    (hs : s.WellFormed types) {f : Field} (hf : f ∈ s.fields) (hcount : s.isCount f.name = true) :
    f.Testable types := by
  obtain ⟨a, ha, hby⟩ := Struct.isCount_eq_true.mp hcount
  obtain ⟨i, hi⟩ := List.mem_iff_getElem?.mp ha
  obtain ⟨j, g, -, hg, hname, hplain, hnum⟩ :=
    hs.counted i a hi _ (Field.lengthName?_of_countedBy? hby)
  obtain rfl := List.inj_on_of_nodup_map hs.names (List.mem_of_getElem? hg) hf hname
  exact ⟨hplain, TypeTable.intType_of_isNumber hnum⟩

/-! ## Slots and entries -/

/-- What a slot's member is: a field of the union, with its condition and its type's element. -/
structure Schema.MemberOf (schema : Schema) (s : Struct) (g : ConditionGroup) (name : String)
    (m : UnionMember) : Prop where
  /-- The member goes by its field's name. -/
  named : m.field = name
  /-- The field holds a value of its own, has the member's condition and the element's type. -/
  field : ∃ f ∈ s.fields, f.name = name ∧ f.isStored = true ∧ f.condition = some m.guard ∧
    schema.ElementOf f.typeName m.element
  /-- The condition tests the union's field. -/
  tested : m.guard.field = g.conditionField

/-- What the slot of a union is. -/
structure Schema.SlotOf (schema : Schema) (s : Struct) (g : ConditionGroup) (slot : UnionSlot) :
    Prop where
  /-- The slot goes by the name of its first member. -/
  first : g.members.head? = some slot.name
  /-- It lies in the place of its first member. -/
  position : s.position? slot.name = some slot.position
  /-- It tests the field that the union tests. -/
  tested : slot.conditionField = g.conditionField
  /-- It is as large as its largest member. -/
  bytes : schema.unionSize? s g = some slot.bytes
  /-- Its members are those of the union, in order. -/
  members : List.Forall₂ (schema.MemberOf s g) g.members slot.members

/-- What the entry in the place of a field is. -/
inductive Schema.EntryOf (schema : Schema) (s : Struct) (slots : List UnionSlot) (position : Nat)
    (f : Field) : Option WireEntry → Prop where
  /-- A constant is not on the wire. -/
  | const : f.isConst = true → s.unionOf? f.name = none → EntryOf schema s slots position f none
  /-- A field of its own. -/
  | own {shape : WireShape} : f.isConst = false → s.unionOf? f.name = none →
      schema.Shaped s f shape → EntryOf schema s slots position f
        (some { field := f.name, role := f.disposition.role, guard := f.condition, shape })
  /-- The first member of a union. -/
  | slot {slot : UnionSlot} : slot ∈ slots → slot.position = position → slot.name = f.name →
      EntryOf schema s slots position f (some (Schema.slotEntry slot))
  /-- A later member of a union. -/
  | member : (s.unionOf? f.name).isSome = true → (∀ slot ∈ slots, slot.position ≠ position) →
      EntryOf schema s slots position f none

/-- How the plans of a struct come about. -/
structure Schema.Planned (schema : Schema) (s : Struct) (plan : Plan) (slots : List UnionSlot)
    (entries : List (Option WireEntry)) : Prop where
  /-- Every union has a slot. -/
  unions : List.Forall₂ (schema.SlotOf s) s.unions slots
  /-- Every field has a place. -/
  length : entries.length = s.fields.length
  /-- What lies in the place of a field. -/
  places : ∀ (i : Nat) (f : Field), s.fields[i]? = some f →
    ∃ e, entries[i]? = some e ∧ schema.EntryOf s slots i f e
  /-- The size plan has a step for every entry. -/
  size : plan.size = (entries.filterMap id).map fun e => e.step e.sizeOp
  /-- So has the encode plan. -/
  encode : plan.encode = (entries.filterMap id).map fun e => e.step (e.encodeOp s)
  /-- The decode plan has, at every place, its entry and the steps that look back from there. -/
  decode : plan.decode = s.decodeSteps slots entries

namespace Schema

variable {schema : Schema} {s : Struct}

theorem Linked.slotOf_of_unionSlot (h : schema.Linked) (hs : s ∈ schema.structs)
    {g : ConditionGroup} (hg : g ∈ s.unions) {first : String} (hfirst : g.members.head? = some first)
    {slot : UnionSlot} (hslot : schema.unionSlot s g first = .ok slot) :
    schema.SlotOf s g slot := by
  unfold unionSlot at hslot
  split at hslot
  · cases hslot
  rename_i bytes hbytes
  obtain ⟨members, hmembers, hslot⟩ := bind_eq_ok.mp hslot
  cases hslot
  refine { first := hfirst, position := ?_, tested := rfl, bytes := hbytes, members := ?_ }
  · obtain ⟨f, hf, -, rfl, -⟩ := Struct.field_of_mem_members (Struct.mem_unions.mp hg).1
      (List.mem_of_mem_head? hfirst)
    obtain ⟨i, hi⟩ := List.mem_iff_getElem?.mp hf
    have hpos := Struct.position?_of_getElem? (h.wellFormed s hs).names hi
    rw [hpos]
    simp
  · refine forall₂_of_mapM_filterMap hmembers fun name hname => ?_
    obtain ⟨f, hf, hfield, hfit, c, hc, htest⟩ := h.fitsUnion hs hg hname
    simp only [Schema.fitsUnion, Bool.and_eq_true] at hfit
    refine ⟨_, by unfold unionMember?; rw [hfield, Option.bind_some, hc, Option.map_some], ?_⟩
    intro um hum
    obtain ⟨e, he, rfl⟩ := map_eq_ok.mp hum
    exact ⟨rfl, ⟨f, hf, (Struct.mem_of_field? hfield).2, hfit.1, hc, elementOf_of_element he⟩,
      htest⟩

theorem Linked.slots_of_unionSlots (h : schema.Linked) (hs : s ∈ schema.structs)
    {slots : List UnionSlot} (hslots : schema.unionSlots s = .ok slots) :
    List.Forall₂ (schema.SlotOf s) s.unions slots := by
  refine forall₂_of_mapM_filterMap hslots fun g hg => ?_
  have hfirst := List.head?_eq_some_head (Struct.members_ne_nil (Struct.mem_unions.mp hg).1)
  exact ⟨_, by rw [hfirst, Option.map_some], fun slot => h.slotOf_of_unionSlot hs hg hfirst⟩

theorem entryOf_of_wireEntry? {slots : List UnionSlot}
    (hslots : List.Forall₂ (schema.SlotOf s) s.unions slots) {i : Nat} {f : Field}
    (hf : s.fields[i]? = some f) {e : Option WireEntry}
    (he : schema.wireEntry? s slots i f = .ok e) : schema.EntryOf s slots i f e := by
  unfold wireEntry? at he
  split at he
  · rename_i hunion
    cases he
    cases hfind : slots.find? fun slot => slot.position == i with
    | none =>
      refine .member hunion fun slot hslot => ?_
      simpa using List.find?_eq_none.mp hfind slot hslot
    | some slot =>
      have hpos : slot.position = i := by simpa using List.find?_some hfind
      have hslot := List.mem_of_find?_eq_some hfind
      obtain ⟨g, -, hg⟩ := forall₂_mem_right hslots hslot
      obtain ⟨f', hf', hname⟩ := Struct.getElem?_of_position? hg.position
      rw [hpos, hf] at hf'
      obtain rfl := Option.some.inj hf'
      exact .slot hslot hpos hname.symm
  · rename_i hunion
    have hnone : s.unionOf? f.name = none := by simpa using hunion
    obtain ⟨o, ho, rfl⟩ := map_eq_ok.mp he
    rcases shaped_of_shape? ho with ⟨hconst, rfl⟩ | ⟨hconst, shape, rfl, hshape⟩
    · exact .const hconst hnone
    · exact .own hconst hnone hshape

/-- The plans of a struct come from its entries. -/
theorem Linked.planned_of_planOf (h : schema.Linked) (hs : s ∈ schema.structs)
    {initializers : List Initializer} {plan : Plan}
    (hplan : schema.planOf s initializers = .ok plan) :
    plan.structName = s.name ∧ plan.initializers = initializers ∧
      ∃ slots entries, schema.Planned s plan slots entries := by
  unfold planOf at hplan
  obtain ⟨slots, hslots, hplan⟩ := bind_eq_ok.mp hplan
  obtain ⟨entries, hentries, hplan⟩ := bind_eq_ok.mp hplan
  cases hplan
  have hall := mapM_eq_ok.mp hentries
  have hslotsOf := h.slots_of_unionSlots hs hslots
  refine ⟨rfl, rfl, slots, entries, hslotsOf, ?_, ?_, rfl, rfl, rfl⟩
  · rw [← hall.length_eq, List.length_zipIdx]
  · intro i f hf
    obtain ⟨e, he, hR⟩ := forall₂_getElem? hall (i := i) (a := (f, i)) (by simp [hf])
    exact ⟨e, he, entryOf_of_wireEntry? hslotsOf hf hR⟩

/-- The entry in the place of a field that lies on the wire by itself. -/
theorem Planned.entry_of_own {plan : Plan} {slots : List UnionSlot}
    {entries : List (Option WireEntry)} (hp : schema.Planned s plan slots entries)
    (hs : s.WellFormed schema.types) {i : Nat} {f : Field} (hf : s.fields[i]? = some f)
    (hconst : f.isConst = false) (hunion : s.unionOf? f.name = none) :
    ∃ shape, schema.Shaped s f shape ∧ entries[i]? = some
      (some { field := f.name, role := f.disposition.role, guard := f.condition, shape }) := by
  obtain ⟨e, he, hentry⟩ := hp.places i f hf
  cases hentry with
  | const h => rw [hconst] at h; cases h
  | member hsome => rw [hunion] at hsome; cases hsome
  | slot hslot hpos hname =>
    -- the first member of a union is a field that the union holds
    obtain ⟨g, hg, hslotOf⟩ := forall₂_mem_right hp.unions hslot
    obtain ⟨hgroup, hlayout⟩ := Struct.mem_unions.mp hg
    have hin : f.name ∈ g.members := hname ▸ List.mem_of_mem_head? hslotOf.first
    obtain ⟨f', hf', -, hn, c', hc', htest⟩ := Struct.field_of_mem_members hgroup hin
    obtain rfl := List.inj_on_of_nodup_map hs.names hf' (List.mem_of_getElem? hf) hn
    have hsome := (Struct.unionOf?_eq_some_iff hs.names hf').mpr
      ⟨hconst, c', hc', htest ▸ Struct.eq_groupOf_of_mem hgroup, hlayout⟩
    rw [hunion] at hsome
    cases hsome
  | own _ _ hshape => exact ⟨_, hshape, he⟩

/-- The entry in the place of a plain field of integer type. -/
theorem Planned.entry_of_testable {plan : Plan} {slots : List UnionSlot}
    {entries : List (Option WireEntry)} (hp : schema.Planned s plan slots entries)
    (hs : s.WellFormed schema.types) {i : Nat} {f : Field} (hf : s.fields[i]? = some f)
    (htest : f.Testable schema.types) : ∃ (leaf : Leaf) (t : IntType), leaf.form = .int t ∧
      entries[i]? = some
        (some { field := f.name, role := .plain, guard := none, shape := .leaf leaf }) := by
  obtain ⟨hd, hc⟩ := htest.plain
  obtain ⟨t, ht⟩ := htest.2
  have hform := TypeTable.form?_of_intType? ht
  have hunion := Struct.unionOf?_of_unconditioned hs.names (List.mem_of_getElem? hf) hc
  obtain ⟨shape, hshape, he⟩ :=
    hp.entry_of_own hs hf (by simp [Field.isConst, hd, Disposition.role]) hunion
  rw [hd, hc] at he
  rcases hshape.of_isStored (by simp [Field.isStored, hd]) with ⟨l, rfl, hl⟩ | ⟨_, -, hnone⟩
  · rw [hform] at hl
    exact ⟨l, t, (Option.some.inj hl).symm, he⟩
  · rw [hform] at hnone
    cases hnone

/-- An entry has a place, which is that of a field. -/
theorem Planned.place_of_mem {plan : Plan} {slots : List UnionSlot}
    {entries : List (Option WireEntry)} (h : schema.Planned s plan slots entries) {e : WireEntry}
    (he : e ∈ entries.filterMap id) : ∃ i f, s.fields[i]? = some f ∧
      entries[i]? = some (some e) ∧ schema.EntryOf s slots i f (some e) := by
  obtain ⟨o, ho, rfl⟩ := List.mem_filterMap.mp he
  obtain ⟨i, hi⟩ := List.mem_iff_getElem?.mp ho
  have hlt : i < s.fields.length := h.length ▸ (List.getElem?_eq_some_iff.mp hi).1
  obtain ⟨e', he', hentry⟩ := h.places i _ (List.getElem?_eq_getElem hlt)
  rw [hi] at he'
  cases he'
  exact ⟨i, _, List.getElem?_eq_getElem hlt, hi, hentry⟩

/-- An entry lies in the place of a field. -/
theorem Planned.exists_of_mem {plan : Plan} {slots : List UnionSlot}
    {entries : List (Option WireEntry)} (h : schema.Planned s plan slots entries) {e : WireEntry}
    (he : e ∈ entries.filterMap id) :
    ∃ i f, s.fields[i]? = some f ∧ schema.EntryOf s slots i f (some e) := by
  obtain ⟨i, f, hf, -, hentry⟩ := h.place_of_mem he
  exact ⟨i, f, hf, hentry⟩

end Schema

/-! ## Codecs -/

/-- What is known of a codec that was compiled. -/
structure Codec.Sound (c : Codec) : Prop where
  linked : c.schema.Linked
  plans : List.Forall₂ (fun s plan => plan.structName = s.name ∧
    ∃ slots entries, c.schema.Planned s plan slots entries) c.schema.structs c.plans

theorem sound_of_compile {options : Options} {decls : List Declaration} {c : Codec}
    (h : compile options decls = .ok c) : c.Sound := by
  have hlinked := linked_of_compile h
  obtain ⟨-, -, -, hplans⟩ := compile_eq_ok.mp h
  refine ⟨hlinked, ?_⟩
  rw [List.forall₂_iff_get] at hplans ⊢
  refine ⟨hplans.1, fun i hi hi' => ?_⟩
  obtain ⟨hname, -, hplanned⟩ := hlinked.planned_of_planOf (List.get_mem _ _) (hplans.2 i hi hi')
  exact ⟨hname, hplanned⟩

namespace Codec

variable {c : Codec}

/-- A struct is looked up under its name, with its plans. -/
theorem Sound.planned_of_lookup (h : c.Sound) {name : String} {s : Struct} {plan : Plan}
    (hl : c.lookup name = .ok (s, plan)) :
    c.schema.struct? name = some s ∧ s ∈ c.schema.structs ∧ s.name = name ∧ plan ∈ c.plans ∧
      plan.structName = name ∧ ∃ slots entries, c.schema.Planned s plan slots entries := by
  unfold lookup at hl
  split at hl
  · rename_i s' plan' hs hp
    cases hl
    obtain ⟨hmem, hname⟩ := Schema.mem_of_struct? hs
    have hplan : plan.structName = name := by simpa using List.find?_some hp
    have hR := forall₂_find? h.plans (fun a b hab => by rw [hab.1]) hs hp
    exact ⟨hs, hmem, hname, List.mem_of_find?_eq_some hp, hplan, hR.2⟩
  · cases hl

/-- A struct of a compiled schema has plans. -/
theorem Sound.lookup_of_struct? (h : c.Sound) {name : String} {s : Struct}
    (hs : c.schema.struct? name = some s) : ∃ plan, c.plan? name = some plan ∧
      c.lookup name = .ok (s, plan) := by
  obtain ⟨hmem, hname⟩ := Schema.mem_of_struct? hs
  obtain ⟨plan, hplan, hp, -⟩ := forall₂_mem_left h.plans hmem
  have hsome : (c.plan? name).isSome = true := by
    unfold Codec.plan?
    rw [List.find?_isSome]
    exact ⟨plan, hplan, by simp [hp, hname]⟩
  obtain ⟨found, hfound⟩ := Option.isSome_iff_exists.mp hsome
  refine ⟨found, hfound, ?_⟩
  unfold Codec.lookup
  rw [hs, hfound]

/-- The frame of a record, in parts. -/
theorem frame_eq_ok {name : String} {initial : List Initializer} {r : Record} {frame : Frame} :
    c.frame name initial r = .ok frame ↔ ∃ s plan, c.lookup name = .ok (s, plan) ∧
      r.typeName = name ∧ frame = { struct := s, plan, record := r
                                    initial := initial ++ plan.initializers } := by
  unfold Codec.frame
  simp only [bind_eq_ok, Prod.exists]
  refine exists_congr fun s => exists_congr fun plan => and_congr_right fun _ => ?_
  split
  · rename_i h
    simp [h, eq_comm]
  · rename_i h
    simp [h]

end Codec

end WireLayout
