import WireLayout.Proofs.Discriminators
import WireLayout.Proofs.MeasureFaults
import WireLayout.Proofs.Places

/-!
# How reading can fail

A reader asks for integers that it has read before: the one that a condition tests, the number of an
array's elements, the length of a region; and for the bytes of a union. The steps of a decode plan are
in such an order that every answer is there, whatever the bytes are. So reading fails only for what the
bytes are, and never because a struct, a value or a field is missing: with one exception, the header of
a region, whose record need not hold the members that tell what follows.
-/

namespace WireLayout

/-! ## Faults -/

/-- Whether an array of the schema reads this member of this header, as discriminator or version. -/
def Schema.Tells (schema : Schema) (header field : String) : Prop :=
  ∃ s ∈ schema.structs, ∃ f ∈ s.fields, ∃ layout, f.sizedArray? = some layout ∧
    layout.binding.header = header ∧
    (layout.binding.typeField = field ∨ layout.binding.versionField = some field)

/-- Whether reading a struct of the schema may end in a fault. -/
def Schema.ReadFault (schema : Schema) : CodecError → Prop
  | .missingField owner field => schema.Tells owner field
  | .typeMismatch .. => False
  | .badByteLength .. => False
  | .lengthMismatch .. => False
  | .byteLengthMismatch .. => False
  | .unknownStruct _ => False
  | .unknownGroup _ => False
  | _ => True

/-! ## What a step asks for -/

/-- The fields whose integers an operation asks for. -/
def DecodeOp.asks : DecodeOp → List String
  | .array _ (.field name) => [name]
  | .arraySized layout _ => [layout.lengthField]
  | .resolveUnion members => members.map (·.guard.field)
  | .checkSizeOf field _ => [field]
  | _ => []

/-- The fields whose integers a step asks for: the one that its condition tests, then those of its
operation. -/
def Step.asks (step : Step DecodeOp) : List String :=
  (step.guard.map (·.field)).toList ++ step.op.asks

/-- Whether all that a step asks for is known: integers, and the bytes of a union. -/
structure Progress.Answers (p : Progress) (step : Step DecodeOp) : Prop where
  ints : ∀ name ∈ step.asks, (p.scratch.lookup name).isSome = true
  slot : ∀ members, step.op = .resolveUnion members → (p.slots.lookup step.field).isSome = true

/-- Whether a step always notes the integer of its field. -/
def Step.Notes (step : Step DecodeOp) : Prop :=
  step.guard = none ∧
    ((∃ leaf t, step.op = .leaf leaf ∧ leaf.form = .int t) ∨ ∃ leaf, step.op = .length leaf)

/-- Whether a step always takes the bytes of a union. -/
def Step.TakesSlot (step : Step DecodeOp) : Prop := step.guard = none ∧ ∃ size, step.op = .union size

/-! ## The order of the steps -/

namespace Struct

/-- A step is that of an entry or looks back from its place, and comes after the entries of the places
before, in the second case after that of its own. -/
theorem split_decodeSteps {s : Struct} {slots : List UnionSlot} {entries : List (Option WireEntry)}
    {before after : List (Step DecodeOp)} {step : Step DecodeOp}
    (h : s.decodeSteps slots entries = before ++ step :: after) :
    ∃ i, (∀ k e, k < i → entries[k]? = some (some e) → e.step (e.decodeOp s) ∈ before) ∧
      ((∃ e, entries[i]? = some (some e) ∧ step = e.step (e.decodeOp s)) ∨
        step ∈ s.deferredAt slots i ∧
          ∀ e, entries[i]? = some (some e) → e.step (e.decodeOp s) ∈ before) := by
  obtain ⟨i, -, front, back, hat, rfl⟩ := split_stepsAt h
  refine ⟨i, fun k e hk he => ?_, ?_⟩
  · have hentry : e.step (e.decodeOp s) ∈ s.stepsAt slots entries k :=
      List.mem_append_left _ (mem_entryStep.mpr ⟨e, he, rfl⟩)
    exact List.mem_append_left _ (List.mem_flatMap.mpr ⟨k, List.mem_range.mpr hk, hentry⟩)
  · by_cases hentry : step ∈ s.entryStep entries i
    · obtain ⟨e, he, rfl⟩ := mem_entryStep.mp hentry
      exact Or.inl ⟨e, he, rfl⟩
    · have hmem : step ∈ s.stepsAt slots entries i := by
        rw [hat]
        simp
      refine Or.inr ⟨(List.mem_append.mp hmem).resolve_left hentry, fun e he => ?_⟩
      exact List.mem_append_right _
        (mem_of_append_eq hat hentry _ (mem_entryStep.mpr ⟨e, he, rfl⟩))

end Struct

/-- The operation of a field asks for no integer but the length of an array. -/
theorem Schema.Shaped.lengthName?_of_asks {schema : Schema} {s : Struct} {f : Field}
    {shape : WireShape} (h : schema.Shaped s f shape) {role : Role} {guard : Option Condition}
    {name : String}
    (hname : name ∈ (WireEntry.decodeOp s { field := f.name, role, guard, shape }).asks) :
    f.lengthName? = some name := by
  unfold Field.lengthName?
  cases h with
  | leaf _ _ =>
    simp only [WireEntry.decodeOp] at hname
    split at hname <;> cases hname
  | @array element count hd _ =>
    rw [hd]
    cases count with
    | literal n => cases hname
    | field length =>
      obtain rfl := List.mem_singleton.mp hname
      rfl
  | arraySized hd _ =>
    rw [hd]
    obtain rfl := List.mem_singleton.mp hname
    rfl
  | _ => cases hname

namespace Schema.Planned

variable {schema : Schema} {s : Struct} {plan : Plan} {slots : List UnionSlot}
  {entries : List (Option WireEntry)}

/-- The entry of a plain field of integer type always notes its integer. -/
theorem notes_of_testable (hp : schema.Planned s plan slots entries)
    (hs : s.WellFormed schema.types) {k : Nat} {f : Field} (hf : s.fields[k]? = some f)
    (ht : f.Testable schema.types) : ∃ e, entries[k]? = some (some e) ∧
      (e.step (e.decodeOp s)).field = f.name ∧ (e.step (e.decodeOp s)).Notes := by
  obtain ⟨leaf, t, hform, he⟩ := hp.entry_of_testable hs hf ht
  refine ⟨_, he, rfl, rfl, ?_⟩
  simp only [WireEntry.step, WireEntry.decodeOp]
  split
  · exact Or.inr ⟨leaf, rfl⟩
  · exact Or.inl ⟨leaf, t, rfl, hform⟩

/-- The step of an entry asks for integers of earlier plain fields. -/
theorem earlier_of_asks (hp : schema.Planned s plan slots entries)
    (hs : s.WellFormed schema.types) {i : Nat} {e : WireEntry} (he : entries[i]? = some (some e))
    {name : String} (hname : name ∈ (e.step (e.decodeOp s)).asks) :
    ∃ k g, k < i ∧ s.fields[k]? = some g ∧ g.name = name ∧ g.Testable schema.types := by
  obtain ⟨f, hf⟩ : ∃ f, s.fields[i]? = some f :=
    ⟨_, List.getElem?_eq_getElem (hp.length ▸ (List.getElem?_eq_some_iff.mp he).1)⟩
  obtain ⟨e', he', hentry⟩ := hp.places i f hf
  rw [he] at he'
  cases he'
  cases hentry with
  | slot _ _ _ => cases hname
  | own hconst hunion hshape =>
    rcases List.mem_append.mp hname with hname | hname
    · -- the field that the condition tests
      obtain ⟨c, hc, rfl⟩ := Option.map_eq_some_iff.mp (Option.mem_toList.mp hname)
      obtain ⟨g, hg, hgname, ht⟩ := hs.tested f (List.mem_of_getElem? hf) c hc
      obtain ⟨k, hk⟩ := List.mem_iff_getElem?.mp hg
      have hlt := Struct.tested_before hs.names hf hconst hc hunion hk hgname ht.plain.2
      exact ⟨k, g, hlt, hk, hgname, ht⟩
    · -- the length of an array
      obtain ⟨k, g, hlt, hk, hgname, hplain, hnum⟩ :=
        hs.counted i f hf name (hshape.lengthName?_of_asks hname)
      exact ⟨k, g, hlt, hk, hgname, hplain, TypeTable.intType_of_isNumber hnum⟩

/-- What a step asks for is read before it, if no field holds the size of another. -/
theorem asks_before (hp : schema.Planned s plan slots entries) (hs : s.WellFormed schema.types)
    (hsize : ∀ f ∈ s.fields, f.sizeOfTarget? = none) {before after : List (Step DecodeOp)}
    {step : Step DecodeOp} (h : plan.decode = before ++ step :: after) :
    (∀ name ∈ step.asks, ∃ x ∈ before, x.field = name ∧ x.Notes) ∧
      ∀ members, step.op = .resolveUnion members →
        ∃ x ∈ before, x.field = step.field ∧ x.TakesSlot := by
  rw [hp.decode] at h
  obtain ⟨i, hbefore, ⟨e, he, rfl⟩ | ⟨hdeferred, hplace⟩⟩ := Struct.split_decodeSteps h
  · refine ⟨fun name hname => ?_, fun members hresolve => ?_⟩
    · obtain ⟨k, g, hk, hg, rfl, ht⟩ := hp.earlier_of_asks hs he hname
      obtain ⟨e', he', hname, hnotes⟩ := hp.notes_of_testable hs hg ht
      exact ⟨_, hbefore k e' hk he', hname, hnotes⟩
    · have hdeferred := e.isDeferred_decodeOp s
      rw [show e.decodeOp s = .resolveUnion members from hresolve] at hdeferred
      cases hdeferred
  · have hupTo : ∀ k e, k ≤ i → entries[k]? = some (some e) → e.step (e.decodeOp s) ∈ before := by
      intro k e hk he
      rcases Nat.lt_or_eq_of_le hk with hlt | rfl
      · exact hbefore k e hlt he
      · exact hplace e he
    obtain ⟨slot, hslot, rfl, rfl⟩ | ⟨j, f, target, hf, htarget, -⟩ :=
      Struct.deferredAt_cases hdeferred
    · -- the members of a slot all test one field, and the slot was taken
      refine ⟨fun name hname => ?_, fun members _ => ?_⟩
      · obtain ⟨m, hm, rfl⟩ := List.mem_map.mp hname
        obtain ⟨k, g, hk, hgname, ht, hle⟩ := hp.tested_of_slot hs hslot
        obtain ⟨e, he, hname, hnotes⟩ := hp.notes_of_testable hs hk ht
        exact ⟨_, hupTo k e hle he, by rw [hname, hgname, hp.guard_of_slot hs hslot m hm], hnotes⟩
      · exact ⟨_, hupTo _ _ (Struct.position_le_slotReady slot) (hp.entry_of_slot hs hslot), rfl, rfl,
          _, rfl⟩
    · rw [hsize f (List.mem_of_getElem? hf)] at htarget
      cases htarget

end Schema.Planned

/-! ## What a run knows -/

theorem Ordered.isSome_lookup_cons {α : Type} {m : List (String × α)} {name : String}
    (h : (m.lookup name).isSome = true) (q : String × α) : ((q :: m).lookup name).isSome = true := by
  rw [Ordered.lookup_cons]
  split
  · rfl
  · exact h

theorem Progress.isSome_noteValue {p : Progress} {name : String}
    (h : (p.scratch.lookup name).isSome = true) (field : String) (v : Value) :
    ((p.noteValue field v).scratch.lookup name).isSome = true := by
  cases v with
  | int n => exact Ordered.isSome_lookup_cons h _
  | _ => exact h

namespace Codec

variable {c : Codec} {d : Decoder} {s : Struct} {plan : Plan} {p p' : Progress}
  {step : Step DecodeOp}

/-- What was known stays known. -/
theorem known_of_readStep (h : c.readStep d s plan p step = .ok p') (name : String) :
    ((p.scratch.lookup name).isSome = true → (p'.scratch.lookup name).isSome = true) ∧
      ((p.slots.lookup name).isSome = true → (p'.slots.lookup name).isSome = true) := by
  rcases performs_of_readStep h with rfl | hdone
  · exact ⟨id, id⟩
  generalize step.op = op at hdone
  constructor
  · intro hknown
    cases hdone with
    | leaf _ => exact Progress.isSome_noteValue hknown _ _
    | member _ _ _ => exact Progress.isSome_noteValue hknown _ _
    | length _ => exact Ordered.isSome_lookup_cons hknown _
    | reserved _ _ => exact Ordered.isSome_lookup_cons hknown _
    | _ => exact hknown
  · intro hknown
    rcases hdone.slots with hslots | ⟨size, raw, -, hslots, -⟩
    · rw [hslots]
      exact hknown
    · rw [hslots]
      exact Ordered.isSome_lookup_cons hknown _

theorem known_of_notes (hnotes : step.Notes) (h : c.readStep d s plan p step = .ok p') :
    (p'.scratch.lookup step.field).isSome = true := by
  obtain ⟨hguard, hop⟩ := hnotes
  rw [readStep, hguard, Progress.holds, ok_bind, if_pos rfl] at h
  have hself : ∀ n : Int, (((step.field, n) :: p.scratch).lookup step.field).isSome = true := by
    intro n
    rw [Ordered.lookup_cons, if_pos rfl]
    rfl
  rcases hop with ⟨leaf, t, hop, hform⟩ | ⟨leaf, hop⟩
  · rw [hop] at h
    obtain ⟨⟨v, cursor⟩, hv, h⟩ := bind_eq_ok.mp h
    unfold Leaf.read at hv
    rw [hform] at hv
    obtain ⟨q, -, hv⟩ := map_eq_ok.mp hv
    cases hv
    cases h
    exact hself _
  · rw [hop] at h
    obtain ⟨q, -, h⟩ := bind_eq_ok.mp h
    cases h
    exact hself _

theorem known_of_takesSlot (hslot : step.TakesSlot) (h : c.readStep d s plan p step = .ok p') :
    (p'.slots.lookup step.field).isSome = true := by
  obtain ⟨hguard, size, hop⟩ := hslot
  rw [readStep, hguard, Progress.holds, ok_bind, if_pos rfl, hop] at h
  obtain ⟨q, -, h⟩ := bind_eq_ok.mp h
  cases h
  dsimp only
  rw [Ordered.lookup_cons, if_pos rfl]
  rfl

/-- What a step makes known is known after the steps behind it. -/
theorem known_of_run {before : List (Step DecodeOp)} {start : Progress}
    (h : before.foldlM (c.readStep d s plan) start = .ok p) (hmem : step ∈ before) :
    (step.Notes → (p.scratch.lookup step.field).isSome = true) ∧
      (step.TakesSlot → (p.slots.lookup step.field).isSome = true) := by
  obtain ⟨l, l', rfl⟩ := List.append_of_mem hmem
  obtain ⟨q, q', -, hstep, h⟩ := foldlM_split h
  constructor
  · intro hnotes
    refine foldlM_invariant (fun q => (q.scratch.lookup step.field).isSome = true) ?_
      (known_of_notes hnotes hstep) h
    exact fun x _ a a' ha hx => (known_of_readStep hx step.field).1 ha
  · intro hslot
    refine foldlM_invariant (fun q => (q.slots.lookup step.field).isSome = true) ?_
      (known_of_takesSlot hslot hstep) h
    exact fun x _ a a' ha hx => (known_of_readStep hx step.field).2 ha

/-- Wherever a run gets to, the next step finds what it asks for. -/
theorem Sound.answers (hc : c.Sound) (hsize : ∀ s ∈ c.schema.structs, ∀ f ∈ s.fields,
      f.sizeOfTarget? = none) {name : String} (hl : c.lookup name = .ok (s, plan))
    {before after : List (Step DecodeOp)} (hsplit : plan.decode = before ++ step :: after)
    {start : Progress} (h : before.foldlM (c.readStep d s plan) start = .ok p) :
    p.Answers step := by
  obtain ⟨-, hs, -, -, -, slots, entries, hplanned⟩ := hc.planned_of_lookup hl
  obtain ⟨hints, hslot⟩ :=
    hplanned.asks_before (hc.linked.wellFormed s hs) (hsize s hs) hsplit
  constructor
  · intro name hname
    obtain ⟨x, hx, rfl, hnotes⟩ := hints name hname
    exact (known_of_run h hx).1 hnotes
  · intro members hop
    obtain ⟨x, hx, hfield, htakes⟩ := hslot members hop
    rw [← hfield]
    exact (known_of_run h hx).2 htakes

end Codec

/-! ## Reads that only fail for what the bytes are -/

section Reading

variable {schema : Schema}

theorem Cursor.take_failsOnly (cursor : Cursor) (len : Nat) :
    FailsOnly schema.ReadFault (cursor.take len) := by
  unfold take
  split <;> simp [Schema.ReadFault]

theorem Leaf.read_failsOnly (leaf : Leaf) (cursor : Cursor) :
    FailsOnly schema.ReadFault (leaf.read cursor) := by
  unfold read
  split
  · exact ((cursor.take_failsOnly _).map _).map _
  · exact (cursor.take_failsOnly _).map _

theorem Leaf.readInt_failsOnly {leaf : Leaf} {t : IntType} (h : leaf.form = .int t)
    (field : String) (cursor : Cursor) :
    FailsOnly schema.ReadFault (leaf.readInt field cursor) := by
  unfold readInt
  rw [h]
  exact (cursor.take_failsOnly _).map _

theorem Progress.noted_failsOnly_of_known {p : Progress} {name : String}
    (h : (p.scratch.lookup name).isSome = true) (owner : String) :
    FailsOnly schema.ReadFault (p.noted owner name) := by
  obtain ⟨v, hv⟩ := Option.isSome_iff_exists.mp h
  rw [noted_eq_ok.mpr hv]
  exact .ok v

variable {d : Decoder}

/-- Whether a decoder reads the structs of a schema, and fails only for what the bytes are. -/
def Decoder.FailsOnly (d : Decoder) (schema : Schema) : Prop :=
  ∀ name cursor, schema.hasStruct name = true →
    WireLayout.FailsOnly schema.ReadFault (d name cursor)

theorem Element.read_failsOnly (hd : d.FailsOnly schema) {ty : String} {element : Element}
    (h : schema.ElementOf ty element) (cursor : Cursor) :
    FailsOnly schema.ReadFault (element.read d cursor) := by
  cases h with
  | leaf _ => exact Leaf.read_failsOnly _ cursor
  | struct _ hdeclared => exact (hd _ _ hdeclared).map _

theorem readCounted_failsOnly (hd : d.FailsOnly schema) {ty : String} {element : Element}
    (h : schema.ElementOf ty element) (count : Nat) (cursor : Cursor) :
    FailsOnly schema.ReadFault (readCounted d element count cursor) := by
  induction count generalizing cursor with
  | zero => exact .ok _
  | succ count ih =>
    unfold readCounted
    exact .bind (Element.read_failsOnly hd h cursor) fun q _ =>
      .bind (ih q.2) fun _ _ => .ok _

theorem readToEnd_failsOnly {read : Cursor → Except CodecError (Value × Cursor)}
    (h : ∀ here, FailsOnly schema.ReadFault (read here)) (field : String) (rounds : Nat)
    (cursor : Cursor) : FailsOnly schema.ReadFault (readToEnd field read rounds cursor) := by
  induction rounds generalizing cursor with
  | zero =>
    unfold readToEnd
    split <;> simp [Schema.ReadFault]
  | succ rounds ih =>
    unfold readToEnd
    split
    · exact .ok _
    · refine .bind (h cursor) fun q _ => ?_
      dsimp only
      split
      · simp [Schema.ReadFault]
      · exact .bind (ih q.2) fun _ _ => .ok _

theorem readUnion_failsOnly (hd : d.FailsOnly schema) {owner : String} {raw : Bytes} {p : Progress}
    {members : List UnionMember}
    (hknown : ∀ m ∈ members, (p.scratch.lookup m.guard.field).isSome = true)
    (helem : ∀ m ∈ members, ∃ ty, schema.ElementOf ty m.element) :
    FailsOnly schema.ReadFault (Codec.readUnion d owner raw p members) := by
  induction members with
  | nil => exact .ok _
  | cons m rest ih =>
    unfold Codec.readUnion
    refine .bind (p.noted_failsOnly_of_known (hknown m (by simp)) owner) fun tested _ => ?_
    obtain ⟨ty, hty⟩ := helem m (by simp)
    split
    · exact .bind (Element.read_failsOnly hd hty _) fun _ _ => .ok _
    · exact ih (fun m' hm' => hknown m' (List.mem_cons_of_mem _ hm'))
        fun m' hm' => helem m' (List.mem_cons_of_mem _ hm')

namespace Codec

variable {c : Codec}

theorem headerInt_failsOnly {header field : String} (h : c.schema.Tells header field) (r : Record) :
    FailsOnly c.schema.ReadFault (c.headerInt header r field) := by
  unfold headerInt
  split
  · exact .ok _
  · exact FailsOnly.error_iff.mpr h

/-- A header is a struct, and only the members that its array reads may be missing in its record. -/
theorem peekHeader_failsOnly (hlinked : c.schema.Linked) (hd : d.FailsOnly c.schema) {s : Struct}
    (hs : s ∈ c.schema.structs) {f : Field} (hf : f ∈ s.fields) {layout : SizedArray}
    (hlayout : f.sizedArray? = some layout) (bytes : Bytes) :
    FailsOnly c.schema.ReadFault (c.peekHeader d layout.binding bytes) := by
  have hheader : c.schema.hasStruct layout.binding.header = true := by
    obtain ⟨m, hm, -⟩ := hlinked.member?_of_sizedArray hs hf hlayout
    obtain ⟨path, -, hm⟩ := Option.bind_eq_some_iff.mp hm
    obtain ⟨h, hstruct, -⟩ := Option.bind_eq_some_iff.mp hm
    unfold Schema.hasStruct
    rw [hstruct]
    rfl
  refine .bind (hd _ _ hheader) fun q _ => ?_
  unfold headerKey
  refine .bind (headerInt_failsOnly ⟨s, hs, f, hf, layout, hlayout, rfl, Or.inl rfl⟩ _) fun id _ => ?_
  split
  · exact .ok _
  · rename_i version hversion
    have htells : c.schema.Tells layout.binding.header version :=
      ⟨s, hs, f, hf, layout, hlayout, rfl, Or.inr hversion⟩
    exact .bind (headerInt_failsOnly htells _) fun v _ =>
      .bind (toLength_failsOnly trivial) fun _ _ => .ok _

/-- Whether what a discriminator stands for is a declared struct. -/
def ResolvesDeclared (c : Codec) : Prop :=
  ∀ group version id name, c.dispatch.resolve? group version id = some name →
    c.schema.hasStruct name = true

theorem readPolymorphic_failsOnly (hlinked : c.schema.Linked) (hdispatch : c.ResolvesDeclared)
    (hd : d.FailsOnly c.schema) {s : Struct} (hs : s ∈ c.schema.structs) {f : Field}
    (hf : f ∈ s.fields) {layout : SizedArray} (hlayout : f.sizedArray? = some layout)
    (group : String) (here : Cursor) :
    FailsOnly c.schema.ReadFault (c.readPolymorphic d layout group here) := by
  refine .bind (peekHeader_failsOnly hlinked hd hs hf hlayout _) fun key _ => ?_
  have hstruct : FailsOnly c.schema.ReadFault (c.structOf group key) := by
    unfold structOf
    split <;> simp [Schema.ReadFault]
  refine .bind hstruct fun name hname => ?_
  have hdeclared : c.schema.hasStruct name = true :=
    hdispatch _ _ _ _ (structOf_eq_ok.mp hname)
  refine .bind (hd name here hdeclared) fun q _ => .bind ?_ fun _ _ => .ok _
  exact (q.2.take_failsOnly _).map _

variable {owner : String} {s : Struct} {plan : Plan} {p : Progress} {step : Step DecodeOp}

theorem countOf_failsOnly {count : Count}
    (h : ∀ name, count = .field name → (p.scratch.lookup name).isSome = true) (owner : String) :
    FailsOnly c.schema.ReadFault (countOf owner p count) := by
  cases count with
  | literal n => exact .ok _
  | field name =>
    exact .bind (p.noted_failsOnly_of_known (h name rfl) owner) fun _ _ => toLength_failsOnly trivial

/-- A field of its own, for which all is known that it asks for, fails only for what the bytes are. -/
theorem Sound.readOwn_failsOnly (hc : c.Sound) (hdispatch : c.ResolvesDeclared)
    (hd : d.FailsOnly c.schema) (hs : s ∈ c.schema.structs) {f : Field} (hf : f ∈ s.fields)
    {shape : WireShape} (hshape : c.schema.Shaped s f shape) {role : Role} {guard : Option Condition}
    (hints : ∀ name ∈ (WireEntry.decodeOp s { field := f.name, role, guard, shape }).asks,
      (p.scratch.lookup name).isSome = true) :
    FailsOnly c.schema.ReadFault (c.readOp d s plan f.name p
      (WireEntry.decodeOp s { field := f.name, role, guard, shape })) := by
  have hwf := hc.linked.wellFormed s hs
  cases hshape with
  | @leaf l _ hform =>
    simp only [WireEntry.decodeOp]
    split
    · rename_i hcount
      -- a field that counts elements is an integer
      obtain ⟨-, t, ht⟩ := hwf.testable_of_isCount hf hcount
      rw [TypeTable.form?_of_intType? ht] at hform
      exact .bind (Leaf.readInt_failsOnly (Option.some.inj hform).symm _ _) fun _ _ => .ok _
    · exact .bind (l.read_failsOnly _) fun _ _ => .ok _
  | nested _ _ hdeclared => exact .bind (hd _ _ hdeclared) fun _ _ => .ok _
  | @reserved l value hdisp hform =>
    have htyped := hwf.typed f hf
    unfold Field.Typed at htyped
    rw [hdisp] at htyped
    obtain ⟨t, ht⟩ := htyped
    rw [TypeTable.form?_of_intType? ht] at hform
    refine .bind (Leaf.readInt_failsOnly (Option.some.inj hform).symm _ _) fun q _ => ?_
    cases value.fixed? with
    | none => exact .ok _
    | some expected => exact .bind (checkReserved_failsOnly trivial) fun _ _ => .ok _
  | @array element count hdisp helem =>
    refine .bind (countOf_failsOnly (fun name hcount => hints name ?_) s.name) fun n _ =>
      .bind (readCounted_failsOnly hd helem n _) fun _ _ => .ok _
    rw [hcount]
    exact List.mem_singleton.mpr rfl
  | @arraySized layout group hdisp hgroup =>
    have hlayout : f.sizedArray? = some layout := by
      unfold Field.sizedArray?
      rw [hdisp]
    refine .bind (p.noted_failsOnly_of_known (hints _ (List.mem_singleton.mpr rfl)) s.name) fun declared _ => ?_
    refine .bind (toLength_failsOnly trivial) fun len _ => .bind ((p.cursor.take_failsOnly _).map _) ?_
    intro q _
    refine .bind (readToEnd_failsOnly (fun here => ?_) _ _ _) fun _ _ => .ok _
    exact readPolymorphic_failsOnly hc.linked hdispatch hd hs hf hlayout group here
  | fill _ helem =>
    exact .bind (readToEnd_failsOnly (fun here => Element.read_failsOnly hd helem here) _ _ _)
      fun _ _ => .ok _

/-- A step that finds what it asks for fails only for what the bytes are. -/
theorem Sound.readStep_failsOnly (hc : c.Sound) (hdispatch : c.ResolvesDeclared)
    (hsize : ∀ s ∈ c.schema.structs, ∀ f ∈ s.fields, f.sizeOfTarget? = none)
    (hd : d.FailsOnly c.schema) (hl : c.lookup owner = .ok (s, plan)) (hstep : step ∈ plan.decode)
    (hanswers : p.Answers step) : FailsOnly c.schema.ReadFault (c.readStep d s plan p step) := by
  obtain ⟨-, hs, -, -, -, slots, entries, hplanned⟩ := hc.planned_of_lookup hl
  have hwf := hc.linked.wellFormed s hs
  obtain ⟨hints, hslots⟩ := hanswers
  have hholds : FailsOnly c.schema.ReadFault (p.holds s.name step.guard) := by
    unfold Progress.holds
    split
    · exact .ok _
    · rename_i guard hguard
      refine (p.noted_failsOnly_of_known (hints _ ?_) _).map _
      simp [Step.asks, hguard]
  refine .bind hholds fun b _ => ?_
  cases b with
  | false => exact .ok _
  | true =>
    rw [if_pos rfl]
    rw [hplanned.decode] at hstep
    rcases Struct.mem_decodeSteps hstep with ⟨e, he, rfl⟩ | ⟨i, hstep⟩
    · -- the step of a place
      obtain ⟨i, f, hf, hentry⟩ := hplanned.exists_of_mem he
      have hf := List.mem_of_getElem? hf
      cases hentry with
      | slot _ _ _ => exact .bind (p.cursor.take_failsOnly _) fun _ _ => .ok _
      | own hconst hunion hshape =>
        refine hc.readOwn_failsOnly hdispatch hd hs hf hshape fun name hname => hints name ?_
        exact List.mem_append_right _ hname
    · obtain ⟨slot, hslot, -, rfl⟩ | ⟨j, f, target, hf, htarget, -⟩ :=
        Struct.deferredAt_cases hstep
      · -- a union that is resolved
        obtain ⟨raw, hraw⟩ := Option.isSome_iff_exists.mp (hslots _ rfl)
        refine .bind ?_ fun raw _ => readUnion_failsOnly hd (fun m hm => hints _ ?_) fun m hm => ?_
        · rw [slot_eq_ok.mpr hraw]
          exact .ok _
        · exact List.mem_append_right _ (List.mem_map.mpr ⟨m, hm, rfl⟩)
        · obtain ⟨f, -, -, -, -, -, helem, -⟩ := hplanned.member_of_slot hwf hslot hm
          exact ⟨_, helem⟩
      · -- no size was promised
        rw [hsize s hs f (List.mem_of_getElem? hf)] at htarget
        cases htarget

theorem Sound.decodeAt_failsOnly (hc : c.Sound) (hdispatch : c.ResolvesDeclared)
    (hsize : ∀ s ∈ c.schema.structs, ∀ f ∈ s.fields, f.sizeOfTarget? = none) (n : Nat) :
    (c.decodeAt n).FailsOnly c.schema := by
  -- on the depth that is left; within a struct, each step follows a run of the steps before it
  induction n with
  | zero =>
    intro name cursor _
    simp [decodeAt, Schema.ReadFault]
  | succ n ih =>
    intro name cursor hdeclared
    obtain ⟨s, hs⟩ := Option.isSome_iff_exists.mp hdeclared
    obtain ⟨plan, -, hl⟩ := hc.lookup_of_struct? hs
    unfold decodeAt
    rw [hl, ok_bind]
    refine .bind (.foldlM fun before step after p hsplit hrun => ?_) fun _ _ => .ok _
    refine hc.readStep_failsOnly hdispatch hsize ih hl ?_ (hc.answers hsize hl hsplit hrun)
    rw [hsplit]
    simp

end Codec

end Reading

/-- **Reading fails only for what the bytes are.** In a schema in which no field holds the size of
another, a declared struct is read from any buffer without a fault about values, structs or groups; the
only members that may be missing are those that arrays read in their headers. And wherever a reader
gets to in the steps of a struct, whichever way it reads the structs in it, the next step finds every
integer that it asks for and the bytes of its union. -/
theorem decode_failsOnly {options : Options} {decls : List Declaration} {c : Codec}
    (hcompile : compile options decls = .ok c)
    (hsize : ∀ s ∈ c.schema.structs, ∀ f ∈ s.fields, f.sizeOfTarget? = none) {name : String}
    (hdeclared : c.schema.hasStruct name = true) :
    (∀ bytes e, c.decode name bytes = .error e → c.schema.ReadFault e) ∧
      ∀ owner s plan, c.lookup owner = .ok (s, plan) →
        ∀ (d : Decoder) (cursor : Cursor) before step after p, plan.decode = before ++ step :: after →
          before.foldlM (c.readStep d s plan) (Progress.start s owner cursor) = .ok p →
          p.Answers step := by
  have hc := sound_of_compile hcompile
  obtain ⟨-, -, hdispatch, -⟩ := compile_eq_ok.mp hcompile
  have hresolves : c.ResolvesDeclared := fun _ _ _ _ => Schema.hasStruct_of_resolve? hdispatch
  constructor
  · intro bytes
    have hprefix : FailsOnly c.schema.ReadFault (c.decodePrefix name bytes) :=
      (hc.decodeAt_failsOnly hresolves hsize _ name _ hdeclared).map _
    refine FailsOnly.bind hprefix fun q _ => ?_
    dsimp only
    split <;> simp [Schema.ReadFault]
  · intro owner s plan hl d cursor before step after p hsplit hrun
    exact hc.answers hsize hl hsplit hrun

/-- A box of items under a header that need not say their kind. -/
def boxDeclarations : List Declaration :=
  [ .enum { name := "Kind", width := 1, signedness := .unsigned, comment := none
            members := [{ name := "note", value := .unsigned 1, comment := none }] },
    .struct { name := "Header", comment := none, disposition := some "abstract"
              fields :=
                [ { name := some "tagged", typeName := some "uint8" },
                  { name := some "kind", typeName := some "Kind", condition := some "tagged"
                    conditionOperation := some "equals", conditionValue := some (.unsigned 1) } ] },
    .struct { name := "Box", comment := none, disposition := none
              fields :=
                [ { name := some "length", typeName := some "uint8" },
                  { name := some "items", disposition := some "array_sized"
                    header := some "Header", headerTypeField := some "kind"
                    size := some (.text "length") } ] } ]

/-- An item without a kind: the one member that may be missing. -/
theorem decode_failsOnly_box :
    compile {} boxDeclarations = .ok (codecOf boxDeclarations) ∧
      (∀ s ∈ (codecOf boxDeclarations).schema.structs, ∀ f ∈ s.fields, f.sizeOfTarget? = none) ∧
      (codecOf boxDeclarations).schema.hasStruct "Box" = true ∧
      ∃ e, (codecOf boxDeclarations).decode "Box" [1, 0] = .error e ∧
        e = .missingField "Header" "kind" ∧ (codecOf boxDeclarations).schema.ReadFault e := by
  have hcompile : compile {} boxDeclarations = .ok (codecOf boxDeclarations) :=
    compile_codecOf (by decide +kernel)
  have hsize : ∀ s ∈ (codecOf boxDeclarations).schema.structs, ∀ f ∈ s.fields,
      f.sizeOfTarget? = none := by decide +kernel
  have hdeclared : (codecOf boxDeclarations).schema.hasStruct "Box" = true := by decide +kernel
  have hread : ((codecOf boxDeclarations).decode "Box" [1, 0]).map (fun _ => ()) =
      .error (.missingField "Header" "kind") := by decide +kernel
  cases hdecode : (codecOf boxDeclarations).decode "Box" [1, 0] with
  | ok r =>
    rw [hdecode] at hread
    cases hread
  | error e =>
    rw [hdecode] at hread
    exact ⟨hcompile, hsize, hdeclared, e, rfl, Except.error.inj hread,
      (decode_failsOnly hcompile hsize hdeclared).1 _ _ hdecode⟩

end WireLayout
