import WireLayout.Proofs.Places

/-!
# The three plans of a struct correspond

Measuring, writing and reading a struct go over the same parts of its layout in the same order: the
fields on the wire, the members of a union in one part at the first of them. Leaving aside what a
reader does later, when it looks back, each plan has one step for every part, under the same name and
guard, and the three operations of a part fit each other.
-/

namespace WireLayout

namespace Struct

variable (s : Struct)

/-- The fields that stand for a part of the layout: those on the wire, of a union the first one. -/
def wireFields : List Field :=
  s.fields.filter fun f => !f.isConst &&
    match s.unionOf? f.name with
    | none => true
    | some g => g.members.head? == some f.name

/-- The role of the part that a field stands for. -/
def wireRole (f : Field) : Role :=
  if (s.unionOf? f.name).isSome then .union else f.disposition.role

/-- When this part is there. -/
def wireGuard (f : Field) : Option Condition :=
  if (s.unionOf? f.name).isSome then none else f.condition

end Struct

/-- The steps that take bytes from the wire. -/
def Plan.takingSteps (plan : Plan) : List (Step DecodeOp) :=
  plan.decode.filter fun step => !step.op.isDeferred

/-- Whether the member of a union's slot is found out among these members, and only so. -/
def Plan.ResolvesAs (plan : Plan) (slot : String) (members : List UnionMember) : Prop :=
  (∃ step ∈ plan.decode, step.field = slot ∧ step.op = .resolveUnion members) ∧
    ∀ step ∈ plan.decode, step.field = slot → ∀ others, step.op = .resolveUnion others →
      others = members

/-- Whether the operation writes a number of elements. -/
def EncodeOp.isLength : EncodeOp → Bool
  | .length .. => true
  | _ => false

/-- Whether the operation reads a number of elements. -/
def DecodeOp.isLength : DecodeOp → Bool
  | .length _ => true
  | _ => false

/-- How the operations that measure, write and read one part of the layout fit each other. -/
inductive Struct.OpsFit (s : Struct) (plan : Plan) (name : String) :
    SizeOp → EncodeOp → DecodeOp → Prop
  /-- A value of the record. -/
  | leaf {leaf : Leaf} :
      OpsFit s plan name (.fixed leaf.form.width) (.leaf leaf) (.leaf leaf)
  /-- The length of a region, which a record may leave out. -/
  | byteLength {leaf : Leaf} {array : String} {align : Option Nat} :
      (array, align) ∈ s.regionsMeasuredBy name →
      OpsFit s plan name (.fixed leaf.form.width) (.byteLength leaf array align) (.leaf leaf)
  /-- A number of elements. -/
  | length {leaf : Leaf} :
      OpsFit s plan name (.fixed leaf.form.width) (.length leaf (s.arraysCountedBy name))
        (.length leaf)
  /-- A fixed value. -/
  | reserved {leaf : Leaf} {value : ReservedValue} :
      OpsFit s plan name (.fixed leaf.form.width) (.reserved leaf value)
        (.reserved leaf value.fixed?)
  /-- A struct. -/
  | nested {ty : String} {isInline : Bool} :
      OpsFit s plan name (.nested ty) (.nested ty isInline) (.nested ty isInline)
  /-- A counted array. -/
  | array {element : Element} {count : Count} :
      OpsFit s plan name (.array element) (.array element count) (.array element count)
  /-- A region of polymorphic elements. -/
  | arraySized {layout : SizedArray} {group : String} :
      OpsFit s plan name (.byteLength layout.lengthField)
        (.arraySized layout.lengthField layout.align) (.arraySized layout group)
  /-- An array up to the end of the buffer. -/
  | fill {element : Element} :
      OpsFit s plan name (.fill element) (.fill element) (.fill element)
  /-- The slot of a union. -/
  | union {bytes : Nat} {members : List UnionMember} : plan.ResolvesAs name members →
      OpsFit s plan name (.union bytes) (.union bytes members) (.union bytes)

/-- Whether the operations of a part fit each other, and a number of elements is written and read
exactly where the part's field counts elements. -/
structure Struct.OpsCorrespond (s : Struct) (plan : Plan) (name : String) (a : SizeOp)
    (b : EncodeOp) (d : DecodeOp) : Prop where
  fit : s.OpsFit plan name a b d
  written : b.isLength = s.isCount name
  read : d.isLength = s.isCount name

/-- Whether a step is that of the part that a field stands for. -/
structure Struct.StepOf {Op : Type} (s : Struct) (f : Field) (step : Step Op) : Prop where
  field : step.field = f.name
  role : step.role = s.wireRole f
  guard : step.guard = s.wireGuard f

/-- Related lists stay related when elements that have no partner are left out. -/
theorem forall₂_filter_filterMap {α β : Type} {R : α → Option β → Prop} {S : α → β → Prop}
    {p : α → Bool} {l : List α} {bs : List (Option β)} (h : List.Forall₂ R l bs)
    (hR : ∀ a b, R a b → (p a = false ∧ b = none) ∨ p a = true ∧ ∃ x, b = some x ∧ S a x) :
    List.Forall₂ S (l.filter p) (bs.filterMap id) := by
  induction h with
  | nil => exact .nil
  | @cons a b l bs hab _ ih =>
    rcases hR a b hab with ⟨hp, rfl⟩ | ⟨hp, x, rfl, hS⟩
    · rw [List.filter_cons, hp]
      exact ih
    · rw [List.filter_cons, if_pos hp]
      exact .cons hS ih

/-- Lists of the same length whose elements are related place by place. -/
theorem forall₂_of_getElem? {α β : Type} {R : α → β → Prop} {l : List α} {bs : List β}
    (hlen : bs.length = l.length)
    (h : ∀ (i : Nat) (a : α), l[i]? = some a → ∃ b, bs[i]? = some b ∧ R a b) :
    List.Forall₂ R l bs := by
  rw [List.forall₂_iff_get]
  refine ⟨hlen.symm, fun i hi hi' => ?_⟩
  obtain ⟨b, hb, hR⟩ := h i l[i] (List.getElem?_eq_getElem hi)
  rw [List.getElem?_eq_getElem hi'] at hb
  cases hb
  exact hR

/-- A step that is not one of an entry looks back. -/
theorem Struct.isDeferred_of_mem {s : Struct} {slots : List UnionSlot} {place : Nat}
    {step : Step DecodeOp} (h : step ∈ s.deferredAt slots place) : step.op.isDeferred = true := by
  obtain ⟨slot, -, -, rfl⟩ | ⟨-, f, target, -, -, -, rfl⟩ := Struct.deferredAt_cases h
  · rfl
  · rfl

namespace Schema.Planned

variable {schema : Schema} {s : Struct} {plan : Plan} {slots : List UnionSlot}
  {entries : List (Option WireEntry)}

/-- Without the steps that look back, the decode plan too has a step for every entry. -/
theorem takingSteps (hp : schema.Planned s plan slots entries) :
    plan.takingSteps = (entries.filterMap id).map fun e => e.step (e.decodeOp s) := by
  have key : ∀ (l : List (Option WireEntry)) (k : Nat),
      ((l.zipIdx k).flatMap fun p => (p.1.map fun e => e.step (e.decodeOp s)).toList ++
        s.deferredAt slots p.2).filter (fun step => !step.op.isDeferred) =
      (l.filterMap id).map fun e => e.step (e.decodeOp s) := by
    intro l
    induction l with
    | nil => intro k; rfl
    | cons o l ih =>
      intro k
      have hback : (s.deferredAt slots k).filter (fun step => !step.op.isDeferred) = [] := by
        rw [List.filter_eq_nil_iff]
        intro step hstep
        simp [Struct.isDeferred_of_mem hstep]
      rw [List.zipIdx_cons, List.flatMap_cons, List.filter_append, List.filter_append, hback,
        List.append_nil, ih (k + 1)]
      cases o with
      | none => rfl
      | some e =>
        have htaking : (e.step (e.decodeOp s)).op.isDeferred = false := e.isDeferred_decodeOp s
        simp [htaking]
  unfold Plan.takingSteps
  rw [hp.decode]
  exact key entries 0

/-- The member of a slot is found out among the slot's members. -/
theorem resolvesAs (hp : schema.Planned s plan slots entries) (hs : s.WellFormed schema.types)
    {slot : UnionSlot} (h : slot ∈ slots) : plan.ResolvesAs slot.name slot.members := by
  constructor
  · refine ⟨Struct.resolveStep slot, ?_, rfl, rfl⟩
    have hlt := (hp.slotReady_lt h).2
    rw [hp.decode]
    refine List.mem_flatMap.mpr ⟨(entries[s.slotReady slot], s.slotReady slot), ?_, ?_⟩
    · exact List.mem_zipIdx_iff_getElem?.mpr (List.getElem?_eq_getElem hlt)
    · exact List.mem_append_right _ (Struct.mem_deferredAt.mpr
        (Or.inl (List.mem_map.mpr ⟨slot, h, rfl⟩)))
  · intro step hstep hfield others hop
    obtain ⟨other, hother, hname, rfl⟩ := hp.slot_of_resolveUnion hstep hop
    rw [hp.slot_of_name hs h hother (hname.symm.trans hfield)]

/-- A field that counts elements has the shape of an integer. -/
theorem isCount_eq_false (hs : s.WellFormed schema.types) {f : Field} (hf : f ∈ s.fields)
    (h : ∀ t, f.disposition = .plain → f.condition = none →
      schema.types.form? f.typeName ≠ some (.int t)) : s.isCount f.name = false := by
  rw [Bool.eq_false_iff]
  intro hcount
  have ht := hs.testable_of_isCount hf hcount
  obtain ⟨t, hint⟩ := ht.2
  exact h t ht.plain.1 ht.plain.2 (TypeTable.form?_of_intType? hint)

/-- The operations of a field of its own correspond. -/
theorem correspond_of_own (hs : s.WellFormed schema.types) {f : Field} (hf : f ∈ s.fields)
    {shape : WireShape} (hshape : schema.Shaped s f shape) {role : Role}
    {guard : Option Condition} {e : WireEntry} (he : e = { field := f.name, role, guard, shape }) :
    s.OpsCorrespond plan f.name e.sizeOp (e.encodeOp s) (e.decodeOp s) := by
  subst he
  have hother : ∀ d, f.disposition = d → d ≠ .plain → false = s.isCount f.name := by
    intro d hd hne
    exact (isCount_eq_false hs hf fun t hplain _ => absurd (hd.symm.trans hplain) hne).symm
  cases hshape with
  | @leaf leaf hstored hform =>
    unfold WireEntry.sizeOp WireEntry.encodeOp WireEntry.decodeOp
    dsimp only
    by_cases hcount : s.isCount f.name = true
    · rw [if_pos hcount, if_pos hcount]
      exact ⟨.length, hcount.symm, hcount.symm⟩
    · have hfalse : false = s.isCount f.name := by simpa using hcount
      rw [if_neg hcount, if_neg hcount]
      cases hregion : (s.regionsMeasuredBy f.name).getLast? with
      | none => exact ⟨.leaf, hfalse, hfalse⟩
      | some region => exact ⟨.byteLength (List.mem_of_getLast? hregion), hfalse, hfalse⟩
  | nested hstored hform hstruct =>
    have hfalse : s.isCount f.name = false :=
      isCount_eq_false hs hf fun t _ _ hint => by rw [hform] at hint; cases hint
    exact ⟨.nested, hfalse.symm, hfalse.symm⟩
  | reserved hd hform => exact ⟨.reserved, hother _ hd (by simp), hother _ hd (by simp)⟩
  | array hd helem => exact ⟨.array, hother _ hd (by simp), hother _ hd (by simp)⟩
  | arraySized hd hgroup => exact ⟨.arraySized, hother _ hd (by simp), hother _ hd (by simp)⟩
  | fill hd helem => exact ⟨.fill, hother _ hd (by simp), hother _ hd (by simp)⟩

/-- Every field has its place among the entries. -/
theorem forall₂_places (hp : schema.Planned s plan slots entries) :
    List.Forall₂ (fun f e => ∃ i, s.fields[i]? = some f ∧ schema.EntryOf s slots i f e)
      s.fields entries := by
  refine forall₂_of_getElem? hp.length fun i f hf => ?_
  obtain ⟨e, he, hentry⟩ := hp.places i f hf
  exact ⟨e, he, i, hf, hentry⟩

/-- The entries of the layout are those of the fields that stand for its parts, in order. -/
theorem forall₂_wireFields (hp : schema.Planned s plan slots entries)
    (hs : s.WellFormed schema.types) :
    List.Forall₂ (fun f e => (e.field = f.name ∧ e.role = s.wireRole f ∧ e.guard = s.wireGuard f) ∧
      s.OpsCorrespond plan f.name e.sizeOp (e.encodeOp s) (e.decodeOp s))
      s.wireFields (entries.filterMap id) := by
  refine forall₂_filter_filterMap hp.forall₂_places ?_
  rintro f e ⟨i, hi, hentry⟩
  have hf := List.mem_of_getElem? hi
  cases hentry with
  | const hconst hunion =>
    refine Or.inl ⟨?_, rfl⟩
    rw [hconst]
    rfl
  | own hconst hunion hshape =>
    refine Or.inr ⟨?_, _, rfl, ?_, ?_⟩
    · rw [hconst, hunion]
      rfl
    · unfold Struct.wireRole Struct.wireGuard
      rw [hunion]
      exact ⟨rfl, rfl, rfl⟩
    · exact correspond_of_own hs hf hshape rfl
  | @slot slot hslot hpos hname =>
    obtain ⟨f', hf', -, m, hm, hmname⟩ := hp.first_of_slot hslot
    rw [hpos, hi] at hf'
    obtain rfl := Option.some.inj hf'
    obtain ⟨f', hf', hn, hstored, hcond, -, -, g, hg, hof⟩ := hp.member_of_slot hs hslot hm
    obtain rfl := List.inj_on_of_nodup_map hs.names hf' hf (hn.trans hmname)
    have hfirst : g.members.head? = some f'.name := by rw [hof.first, hname]
    refine Or.inr ⟨?_, _, rfl, ?_, ?_⟩
    · rw [Field.isConst_of_isStored hstored, hg]
      simp [hfirst]
    · unfold Struct.wireRole Struct.wireGuard
      rw [hg]
      exact ⟨hname, rfl, rfl⟩
    · have hcount : s.isCount f'.name = false :=
        isCount_eq_false hs hf fun t _ hnone => by rw [hcond] at hnone; cases hnone
      exact ⟨.union (hname ▸ hp.resolvesAs hs hslot), hcount.symm, hcount.symm⟩
  | member hunion hno =>
    refine Or.inl ⟨?_, rfl⟩
    obtain ⟨g, hg⟩ := Option.isSome_iff_exists.mp hunion
    obtain ⟨slot, hslot, hof, -⟩ := hp.slot_of_union hs hf hg
    have hlater : g.members.head? ≠ some f.name := by
      intro hfirst
      rw [hof.first] at hfirst
      have hpos := hof.position
      rw [Option.some.inj hfirst, Struct.position?_of_getElem? hs.names hi] at hpos
      exact hno slot hslot (Option.some.inj hpos).symm
    rw [hg]
    simp [hlater]

theorem map_field (hp : schema.Planned s plan slots entries) (hs : s.WellFormed schema.types) :
    (entries.filterMap id).map (·.field) = s.wireFields.map (·.name) :=
  (forall₂_map_eq (hp.forall₂_wireFields hs) fun _ _ h => h.1.1.symm).symm

/-- No two entries go by the same name. -/
theorem nodup_field (hp : schema.Planned s plan slots entries) (hs : s.WellFormed schema.types) :
    ((entries.filterMap id).map (·.field)).Nodup := by
  rw [hp.map_field hs]
  exact hs.names.sublist (List.Sublist.map _ List.filter_sublist)

end Schema.Planned

/-- **The plans of a struct correspond.** The size plan, the encode plan and the decode plan without the
steps that look back have one step for every field that stands for a part of the layout, in the order
of these fields. The three steps of a part have its name, role and guard, and their operations fit
each other. -/
theorem plans_correspond {options : Options} {decls : List Declaration} {c : Codec}
    (hcompile : compile options decls = .ok c) {name : String} {s : Struct}
    (hstruct : c.schema.struct? name = some s) :
    ∃ plan, c.plan? name = some plan ∧ plan.size.length = s.wireFields.length ∧
      plan.encode.length = s.wireFields.length ∧
      plan.takingSteps.length = s.wireFields.length ∧
      ∀ (i : Nat) (f : Field) (a : Step SizeOp) (b : Step EncodeOp) (d : Step DecodeOp),
        s.wireFields[i]? = some f → plan.size[i]? = some a → plan.encode[i]? = some b →
        plan.takingSteps[i]? = some d →
          s.StepOf f a ∧ s.StepOf f b ∧ s.StepOf f d ∧
            s.OpsCorrespond plan f.name a.op b.op d.op := by
  have hc := sound_of_compile hcompile
  obtain ⟨plan, hplan, hl⟩ := hc.lookup_of_struct? hstruct
  obtain ⟨-, hs, -, -, -, slots, entries, hp⟩ := hc.planned_of_lookup hl
  have hall := hp.forall₂_wireFields (hc.linked.wellFormed s hs)
  refine ⟨plan, hplan, ?_, ?_, ?_, ?_⟩
  · rw [hp.size, List.length_map, hall.length_eq]
  · rw [hp.encode, List.length_map, hall.length_eq]
  · rw [hp.takingSteps, List.length_map, hall.length_eq]
  · intro i f a b d hf ha hb hd
    obtain ⟨e, he, ⟨hfield, hrole, hguard⟩, hops⟩ := forall₂_getElem? hall hf
    rw [hp.size, List.getElem?_map, he] at ha
    rw [hp.encode, List.getElem?_map, he] at hb
    rw [hp.takingSteps, List.getElem?_map, he] at hd
    cases ha
    cases hb
    cases hd
    exact ⟨⟨hfield, hrole, hguard⟩, ⟨hfield, hrole, hguard⟩, ⟨hfield, hrole, hguard⟩, hops⟩

/-- A batch has seven parts; the sixth is the slot that its fee and its memo share. -/
theorem plans_correspond_batch :
    compile {} sampleDeclarations = .ok sampleCodec ∧
    ∃ s plan, sampleCodec.schema.struct? "Batch" = some s ∧
      sampleCodec.plan? "Batch" = some plan ∧
      s.wireFields.map (·.name) =
        ["count", "ids", "length", "transfers", "idsSize", "fee", "mode"] ∧
      plan.size.length = 7 ∧ plan.encode.length = 7 ∧ plan.takingSteps.length = 7 ∧
      ∃ f a b d, f.name = "fee" ∧ s.StepOf f a ∧ s.StepOf f b ∧ s.StepOf f d ∧
        s.OpsCorrespond plan "fee" a.op b.op d.op := by
  have hsome : (sampleCodec.schema.struct? "Batch").isSome = true := by decide +kernel
  obtain ⟨s, hs⟩ := Option.isSome_iff_exists.mp hsome
  obtain ⟨plan, hplan, hsize, hencode, htaking, hsteps⟩ := plans_correspond compile_sample hs
  have hnames : s.wireFields.map (·.name) =
      ["count", "ids", "length", "transfers", "idsSize", "fee", "mode"] := by
    have hall : (sampleCodec.schema.struct? "Batch").map (fun s => s.wireFields.map (·.name)) =
        some ["count", "ids", "length", "transfers", "idsSize", "fee", "mode"] := by decide +kernel
    rw [hs] at hall
    exact Option.some.inj hall
  have hlen : s.wireFields.length = 7 := by
    rw [← List.length_map (f := (·.name)), hnames]
    rfl
  rw [hlen] at hsize hencode htaking
  obtain ⟨f, hf, hname⟩ : ∃ f, s.wireFields[5]? = some f ∧ f.name = "fee" := by
    have hfee := congrArg (fun l => l[5]?) hnames
    simp only [List.getElem?_map] at hfee
    exact Option.map_eq_some_iff.mp hfee
  obtain ⟨ha, hb, hd, hops⟩ := hsteps 5 f _ _ _ hf
    (List.getElem?_eq_getElem (by omega)) (List.getElem?_eq_getElem (by omega))
    (List.getElem?_eq_getElem (by omega))
  exact ⟨compile_sample, s, plan, hs, hplan, hnames, hsize, hencode, htaking, f, _, _, _, hname,
    ha, hb, hd, hname ▸ hops⟩

end WireLayout
