import WireLayout.Proofs.Compiled

/-!
# Plans can be derived

The derivation of plans looks up types, sizes of unions and headers again, and could fail at each.
In a linked schema every one of these look-ups was made before, by the checks of the fields or of the
references, so the derivation has a result for every struct.
-/

namespace WireLayout

/-- The largest size is known when all sizes are. -/
theorem Struct.unionSizeWith?_isSome {sizeOf : String → Option Nat} {s : Struct}
    {g : ConditionGroup}
    (h : ∀ name ∈ g.members, ∃ f, s.field? name = some f ∧ ∃ n, f.sizeWith? sizeOf = some n) :
    ∃ n, s.unionSizeWith? sizeOf g = some n := by
  unfold unionSizeWith?
  generalize g.members = members at h
  generalize 0 = widest
  induction members generalizing widest with
  | nil => exact ⟨widest, rfl⟩
  | cons name rest ih =>
    obtain ⟨f, hf, n, hn⟩ := h name (by simp)
    obtain ⟨m, hm⟩ := ih (fun x hx => h x (List.mem_cons_of_mem _ hx)) (max widest n)
    exact ⟨m, by rw [List.foldlM_cons]; simpa [hf, hn] using hm⟩

namespace Schema

variable {schema : Schema} {s : Struct} {f : Field}

theorem Built.element_ok (h : schema.Built) (owner : String)
    (hty : schema.types.isTaken f.typeName = true) : ∃ e, schema.element owner f = .ok e := by
  unfold element
  split
  · exact ⟨_, rfl⟩
  · rename_i hform
    rw [if_pos (h.known f.typeName hty hform)]
    exact ⟨_, rfl⟩

/-- An integer type is no struct. -/
theorem element_of_intType? {owner : String} {t : IntType}
    (h : schema.types.intType? f.typeName = some t) :
    schema.element owner f = .ok (.leaf { typeName := f.typeName, form := .int t }) := by
  unfold element
  rw [TypeTable.form?_of_intType? h]

/-- The type of a field that holds a value by itself has an element. -/
theorem Built.element_of_isStored (h : schema.Built) (hs : s ∈ schema.structs) (hf : f ∈ s.fields)
    (hstored : f.isStored = true) : ∃ e, schema.element s.name f = .ok e := by
  have htyped := (h.wellFormed s hs).typed f hf
  unfold Field.Typed at htyped
  unfold Field.isStored at hstored
  cases hd : f.disposition with
  | plain =>
    rw [hd] at htyped
    exact h.element_ok s.name htyped
  | inline =>
    rw [hd] at htyped
    exact h.element_ok s.name (TypeTable.isTaken_of_isStruct htyped)
  | _ => simp [hd] at hstored

theorem Linked.unionSlot_ok (h : schema.Linked) (hs : s ∈ schema.structs) {g : ConditionGroup}
    (hg : g ∈ s.unions) (first : String) : ∃ slot, schema.unionSlot s g first = .ok slot := by
  obtain ⟨bytes, hbytes⟩ : ∃ n, schema.unionSize? s g = some n := by
    refine Struct.unionSizeWith?_isSome fun name hname => ?_
    obtain ⟨f, -, hfield, hfit, -⟩ := h.fitsUnion hs hg hname
    simp only [Schema.fitsUnion, Bool.and_eq_true] at hfit
    exact ⟨f, hfield, Option.isSome_iff_exists.mp hfit.2⟩
  obtain ⟨members, hmembers⟩ :
      ∃ ms, (g.members.filterMap (schema.unionMember? s)).mapM id = .ok ms := by
    refine mapM_ok_of_forall fun m hm => ?_
    obtain ⟨name, hname, hmem⟩ := List.mem_filterMap.mp hm
    obtain ⟨f, hf, hfield, hfit, c, hc, -⟩ := h.fitsUnion hs hg hname
    simp only [Schema.fitsUnion, Bool.and_eq_true] at hfit
    obtain ⟨e, he⟩ := h.element_of_isStored hs hf hfit.1
    simp only [unionMember?, hfield, hc, he, Option.bind_some, Option.map_some, ok_map,
      Option.some.injEq] at hmem
    exact ⟨_, hmem.symm⟩
  unfold unionSlot
  rw [hbytes]
  exact ⟨_, bind_eq_ok.mpr ⟨members, hmembers, rfl⟩⟩

theorem Linked.unionSlots_ok (h : schema.Linked) (hs : s ∈ schema.structs) :
    ∃ slots, schema.unionSlots s = .ok slots := by
  refine mapM_ok_of_forall fun x hx => ?_
  obtain ⟨g, hg, hx⟩ := List.mem_filterMap.mp hx
  obtain ⟨first, -, rfl⟩ := Option.map_eq_some_iff.mp hx
  exact h.unionSlot_ok hs hg first

theorem Linked.arrayGroup_ok (h : schema.Linked) (hs : s ∈ schema.structs) (hf : f ∈ s.fields)
    {layout : SizedArray} (hl : f.sizedArray? = some layout) :
    ∃ group, schema.arrayGroup s f layout.binding = .ok group := by
  obtain ⟨m, hm, henum⟩ := h.member?_of_sizedArray hs hf hl
  refine ⟨m.typeName, ?_⟩
  unfold arrayGroup
  rw [hm, Option.filter_some, if_pos henum]

/-- Every field has a shape on the wire or is a constant. -/
theorem Linked.shape?_ok (h : schema.Linked) (hs : s ∈ schema.structs) (hf : f ∈ s.fields) :
    ∃ shape, schema.shape? s f = .ok shape := by
  have htyped := (h.wellFormed s hs).typed f hf
  unfold Field.Typed at htyped
  unfold shape?
  cases hd : f.disposition with
  | const v => exact ⟨none, rfl⟩
  | plain =>
    rw [hd] at htyped
    obtain ⟨e, he⟩ := h.element_ok s.name htyped
    exact ⟨_, map_eq_ok.mpr ⟨e, he, rfl⟩⟩
  | inline =>
    rw [hd] at htyped
    obtain ⟨e, he⟩ := h.element_ok s.name (TypeTable.isTaken_of_isStruct htyped)
    exact ⟨_, map_eq_ok.mpr ⟨e, he, rfl⟩⟩
  | reserved value =>
    rw [hd] at htyped
    obtain ⟨t, ht⟩ := htyped
    exact ⟨_, bind_eq_ok'.mpr ⟨_, element_of_intType? ht, rfl⟩⟩
  | array count =>
    rw [hd] at htyped
    obtain ⟨e, he⟩ := h.element_ok s.name htyped
    exact ⟨_, map_eq_ok.mpr ⟨e, he, rfl⟩⟩
  | arraySized layout =>
    obtain ⟨group, hgroup⟩ := h.arrayGroup_ok hs hf (by unfold Field.sizedArray?; rw [hd])
    exact ⟨_, map_eq_ok.mpr ⟨group, hgroup, rfl⟩⟩
  | arrayFill =>
    rw [hd] at htyped
    obtain ⟨e, he⟩ := h.element_ok s.name htyped
    exact ⟨_, map_eq_ok.mpr ⟨e, he, rfl⟩⟩

theorem Linked.wireEntries_ok (h : schema.Linked) (hs : s ∈ schema.structs)
    (slots : List UnionSlot) : ∃ entries, schema.wireEntries s slots = .ok entries := by
  refine mapM_ok_of_forall fun p hp => ?_
  obtain ⟨f, i⟩ := p
  have hf : f ∈ s.fields := (List.mem_zipIdx hp).2.2 ▸ List.getElem_mem _
  unfold wireEntry?
  split
  · exact ⟨_, rfl⟩
  · obtain ⟨shape, hshape⟩ := h.shape?_ok hs hf
    exact ⟨_, map_eq_ok.mpr ⟨shape, hshape, rfl⟩⟩

theorem Linked.planOf_ok (h : schema.Linked) (hs : s ∈ schema.structs)
    (initializers : List Initializer) : ∃ plan, schema.planOf s initializers = .ok plan := by
  obtain ⟨slots, hslots⟩ := h.unionSlots_ok hs
  obtain ⟨entries, hentries⟩ := h.wireEntries_ok hs slots
  exact ⟨_, bind_eq_ok.mpr ⟨slots, hslots, bind_eq_ok.mpr ⟨entries, hentries, rfl⟩⟩⟩

end Schema

/-- No compilation ends in the derivation of the plans: when the earlier stages succeed, every struct
has a plan, whatever its initial values are. -/
theorem derivation_total (options : Options) (decls : List Declaration) :
    (∀ e, compile options decls ≠ .error (.derivation e)) ∧
      ∀ schema, Schema.ofDeclarations options decls = .ok schema →
        schema.dependencyErrors = [] → ∀ s ∈ schema.structs, ∀ initializers,
          ∃ plan, schema.derive s.name initializers = .ok plan := by
  have hlinked : ∀ schema, Schema.ofDeclarations options decls = .ok schema →
      schema.dependencyErrors = [] → schema.Linked := fun schema hschema hdep =>
    Schema.linked_of_dependencyErrors (Schema.built_of_ofDeclarations hschema) hdep
  constructor
  · intro e h
    unfold compile at h
    rcases bind_eq_error.mp h with h | ⟨schema, hschema, h⟩
    · unfold Schema.ofDeclarations at h
      rcases bind_eq_error.mp h with h | ⟨types, -, h⟩ <;>
        obtain ⟨e', -, he⟩ := mapError_eq_error.mp h <;> cases he
    · simp only [List.isEmpty_iff] at h
      split at h
      · rename_i hdep
        rcases bind_eq_error.mp h with h | ⟨dispatch, -, h⟩
        · obtain ⟨e', -, he⟩ := mapError_eq_error.mp h
          cases he
        · obtain ⟨plans, hplans⟩ := mapM_ok_of_forall fun s hs =>
            (hlinked schema hschema hdep).planOf_ok hs (schema.initializers dispatch options s)
          rw [hplans] at h
          cases h
      · cases h
  · intro schema hschema hdep s hs initializers
    obtain ⟨s', hs'⟩ : ∃ s', schema.struct? s.name = some s' := by
      rw [← Option.isSome_iff_exists]
      unfold Schema.struct?
      rw [List.find?_isSome]
      exact ⟨s, hs, by simp⟩
    unfold Schema.derive
    rw [hs']
    exact (hlinked schema hschema hdep).planOf_ok (List.mem_of_find?_eq_some hs') initializers

/-- The plan of a struct with a union, a region of elements and a reserved size. -/
theorem derivation_total_batch :
    Schema.ofDeclarations {} sampleDeclarations = .ok sampleCodec.schema ∧
      sampleCodec.schema.dependencyErrors = [] ∧
      ∃ s ∈ sampleCodec.schema.structs, s.name = "Batch" ∧ s.unions.length = 1 ∧
        ∃ plan, sampleCodec.schema.derive s.name [] = .ok plan := by
  obtain ⟨hschema, hdep, -, -⟩ := compile_eq_ok.mp compile_sample
  obtain ⟨s, hs, hname, hunions⟩ :
      ∃ s ∈ sampleCodec.schema.structs, s.name = "Batch" ∧ s.unions.length = 1 := by
    decide +kernel
  exact ⟨hschema, hdep, s, hs, hname, hunions,
    (derivation_total {} sampleDeclarations).2 _ hschema hdep s hs []⟩

end WireLayout
