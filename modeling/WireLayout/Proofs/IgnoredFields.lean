import WireLayout.Proofs.Interchange

/-!
# Fields that records need not hold

What a record says of a constant, of a reserved value or of a number of elements is not looked at, nor
is what it says beside its struct's fields. Two records that differ only there, at whatever depth, are
interchangeable. A number of elements may not be the length of a region as well: such a length is
compared with the region.
-/

namespace WireLayout

namespace Schema

/-- Whether a record of a struct need not hold the field: the struct has none of that name, or gives it
its value. -/
def derives (schema : Schema) (typeName name : String) : Bool :=
  match (schema.struct? typeName) with
  | none => true
  | some s =>
    match s.field? name with
    | none => true
    | some f => f.isConst || f.disposition.role == .reserved || s.isCount name

/-- Whether two values are the same but for fields that records need not hold. -/
inductive Agree (schema : Schema) : Value → Value → Prop where
  | int (n : Int) : Agree schema (.int n) (.int n)
  | bytes (b : Bytes) : Agree schema (.bytes b) (.bytes b)
  | list {items items' : List Value} : List.Forall₂ (Agree schema) items items' →
      Agree schema (.list items) (.list items')
  | record {typeName : String} {fields fields' : List (String × Value)} :
      (∀ name, schema.derives typeName name = false →
        Option.Rel (Agree schema) (fields.lookup name) (fields'.lookup name)) →
      Agree schema (.record typeName fields) (.record typeName fields')

/-- Whether no field that counts elements is the length of a region. -/
def CountsOnly (schema : Schema) : Prop :=
  ∀ s ∈ schema.structs, ∀ f ∈ s.fields, s.isCount f.name = true → s.regionsMeasuredBy f.name = []

instance (schema : Schema) : Decidable schema.CountsOnly :=
  inferInstanceAs (Decidable (∀ s ∈ schema.structs, ∀ f ∈ s.fields, s.isCount f.name = true →
    s.regionsMeasuredBy f.name = []))

variable {schema : Schema}

/-! ## Values that agree -/

namespace Agree

mutual

theorem refl : ∀ v : Value, schema.Agree v v
  | .int n => .int n
  | .bytes b => .bytes b
  | .list items => .list (reflItems items)
  | .record _ fields => .record fun name _ => reflFields fields name

theorem reflItems : ∀ items : List Value, List.Forall₂ schema.Agree items items
  | [] => .nil
  | v :: rest => .cons (refl v) (reflItems rest)

theorem reflFields : ∀ (fields : List (String × Value)) (name : String),
    Option.Rel schema.Agree (fields.lookup name) (fields.lookup name)
  | [], _ => .none
  | (key, v) :: rest, name => by
    rw [List.lookup_cons]
    split
    · exact .some (refl v)
    · exact reflFields rest name

end

theorem insert {r : Record} {name : String} (h : schema.derives r.typeName name = true)
    (v : Value) : schema.Agree r.toValue (r.insert name v).toValue := by
  refine .record fun other hother => ?_
  have hne : other ≠ name := by
    rintro rfl
    rw [h] at hother
    cases hother
  have hget := r.get?_insert_of_ne v hne
  unfold Record.get? at hget
  rw [hget]
  exact reflFields r.fields other

theorem typeName {r r' : Record} (h : schema.Agree r.toValue r'.toValue) :
    r'.typeName = r.typeName := by
  unfold Record.toValue at h
  generalize r'.typeName = ty' at h
  cases h
  rfl

theorem get? {r r' : Record} (h : schema.Agree r.toValue r'.toValue) {name : String}
    (hname : schema.derives r.typeName name = false) :
    (r.get? name = none ∧ r'.get? name = none) ∨ ∃ v v',
      r.get? name = some v ∧ r'.get? name = some v' ∧ schema.Agree v v' := by
  have hrel : Option.Rel schema.Agree (r.get? name) (r'.get? name) := by
    unfold Record.toValue at h
    generalize r'.typeName = ty' at h
    cases h with
    | record hfields => exact hfields name hname
  generalize r.get? name = x at hrel
  generalize r'.get? name = x' at hrel
  cases hrel with
  | none => exact Or.inl ⟨rfl, rfl⟩
  | some hagree => exact Or.inr ⟨_, _, rfl, rfl, hagree⟩

/-- The relation of records that agree, whatever they are measured and written as. -/
def pairing (schema : Schema) : Pairing := fun _ _ r r' => schema.Agree r.toValue r'.toValue

mutual

theorem alike : ∀ {v v' : Value}, schema.Agree v v' → v.Alike (pairing schema).All v'
  | _, _, .int n => .int n
  | _, _, .bytes b => .bytes b
  | _, _, .list hitems => .list (alikeItems hitems)
  | _, _, .record hfields => .record fun _ _ => .record hfields

theorem alikeItems : ∀ {items items' : List Value}, List.Forall₂ schema.Agree items items' →
    List.Forall₂ (Value.Alike (pairing schema).All) items items'
  | _, _, .nil => .nil
  | _, _, .cons hv hrest => .cons (alike hv) (alikeItems hrest)

end

end Agree

end Schema

/-! ## Records that agree -/

theorem Schema.CountsOnly.unread {schema : Schema} (hcounts : schema.CountsOnly) {s : Struct}
    (hs : s ∈ schema.structs) (hnames : (s.fields.map (·.name)).Nodup) {name : String}
    (hstruct : schema.struct? name = some s) {f : Field} (hf : f ∈ s.fields)
    (h : schema.derives name f.name = true) : s.Unread f := by
  unfold derives at h
  rw [hstruct] at h
  dsimp only at h
  rw [Struct.field?_of_mem hnames hf] at h
  dsimp only at h
  rw [Bool.or_eq_true, Bool.or_eq_true, beq_iff_eq] at h
  rcases h with (hconst | hreserved) | hcount
  · exact Or.inl hconst
  · exact Or.inr (Or.inl hreserved)
  · exact Or.inr (Or.inr ⟨hcount, hcounts s hs f hf hcount⟩)

/-- Records that agree answer all that is asked of them alike. -/
theorem Codec.Sound.bisimulation_agree {c : Codec} (hc : c.Sound)
    (hcounts : c.schema.CountsOnly) : c.Bisimulation (Schema.Agree.pairing c.schema) where
  typeName := fun h => Schema.Agree.typeName h
  step := by
    intro name initial r r' h frame hframe
    obtain ⟨s, plan, hl, htype, rfl⟩ := Codec.frame_eq_ok.mp hframe
    obtain ⟨hstruct, hs, -⟩ := hc.planned_of_lookup hl
    refine ⟨fun f hf => ?_, fun f _ _ => Schema.Agree.refl _⟩
    have hnames := (hc.linked.wellFormed s hs).names
    cases hderived : c.schema.derives name f.name with
    | true => exact .unread (hcounts.unread hs hnames hstruct hf hderived)
    | false =>
      rcases Schema.Agree.get? h (htype ▸ hderived) with ⟨hv, hv'⟩ | ⟨v, v', hv, hv', hagree⟩
      · exact .absent hv hv'
      · exact .alike hv hv' hagree.alike

/-- **Stale and unknown fields change nothing.** Records that differ only in fields that their structs
do not have or that are constants, reserved values or numbers of elements have the same bytes and the
same size, or fail alike. -/
theorem encode_ignores_derived {options : Options} {decls : List Declaration} {c : Codec}
    (h : compile options decls = .ok c) (hcounts : c.schema.CountsOnly) {r r' : Record}
    (hagree : c.schema.Agree r.toValue r'.toValue) :
    c.encode r = c.encode r' ∧ c.size r = c.size r' := by
  have hc := sound_of_compile h
  have hbisim := hc.bisimulation_agree hcounts
  have hacyclic := Schema.not_embeds_self_of_compile h
  exact ⟨hbisim.encode_eq hc hacyclic hagree, hbisim.size_eq hc hacyclic hagree⟩

/-- A batch that gives a wrong number of ids is written as one that gives none. -/
theorem encode_ignores_derived_count :
    sampleCodec.encode sampleRecord = sampleCodec.encode (sampleRecord.insert "count" (.int 99)) ∧
      sampleCodec.size sampleRecord = sampleCodec.size (sampleRecord.insert "count" (.int 99)) :=
  encode_ignores_derived compile_sample (by decide +kernel)
    (Schema.Agree.insert (by decide +kernel) _)

end WireLayout
