import WireLayout.Proofs.Discriminators
import WireLayout.Proofs.LeadingConstant

/-!
# Schemas with one more constant

A constant is put before the fields of one struct of a schema. Wherever another struct refers to that
one, it asks for its size, its members or what it embeds. As nobody asks for the constant, the answers
are the same, and so are the faults between structs and the plans.
-/

namespace WireLayout

/-- The struct, with another field before its own and another identity if it has the name. -/
def Struct.behindAt (name : String) (k : Field) (identity : Option Identity) (s : Struct) : Struct :=
  if s.name = name then s.behind k identity else s

/-- The schema with another field before those of the struct of a name, which gets another identity. -/
def Schema.behind (schema : Schema) (name : String) (k : Field) (identity : Option Identity) :
    Schema :=
  { schema with structs := schema.structs.map (Struct.behindAt name k identity) }

/-- Whether a constant may be put before the fields of a struct of the schema without notice: it has a
new name, which is that of no header's member, and its type is no struct. -/
structure Schema.Spares (schema : Schema) (name : String) (k : Field) : Prop where
  spares : ∀ s ∈ schema.structs, s.name = name → s.Spares k
  untyped : schema.struct? k.typeName = none
  headers : ∀ s ∈ schema.structs, ∀ r ∈ s.headerReferences,
    r.2.typeField ≠ k.name ∧ r.2.versionField ≠ some k.name

namespace Struct

variable (name : String) (k : Field) (identity : Option Identity) (s : Struct)

theorem name_behindAt : (s.behindAt name k identity).name = s.name := by
  unfold behindAt
  split <;> rfl

theorem header_behindAt : (s.behindAt name k identity).header = s.header := by
  unfold behindAt
  split <;> rfl

theorem version_behindAt : (s.behindAt name k identity).version = s.version := by
  unfold behindAt
  split <;> rfl

end Struct

namespace Schema

theorem getLast?_of_memberPathFrom? {schema : Schema} {field : String} {depth : Nat}
    {seen : List String} {name : String} {path : List String}
    (h : schema.memberPathFrom? field depth seen name = some path) : path.getLast? = some field := by
  induction depth generalizing seen name path with
  | zero => cases h
  | succ depth ih =>
    unfold memberPathFrom? at h
    obtain ⟨s, -, h⟩ := Option.bind_eq_some_iff.mp h
    split at h
    · cases h
      rfl
    · split at h
      · cases h
      · obtain ⟨f, -, hf⟩ := List.exists_of_findSome?_eq_some h
        obtain ⟨rest, hrest, rfl⟩ := Option.map_eq_some_iff.mp hf
        have hlast := ih hrest
        rw [List.getLast?_cons, hlast]
        rfl

namespace Spares

variable {schema : Schema} {name : String} {k : Field} {identity : Option Identity}
  (h : schema.Spares name k)

include h

variable (identity) in
theorem behindAt_cases {s : Struct} (hs : s ∈ schema.structs) :
    s.behindAt name k identity = s ∨ s.Spares k ∧ s.behindAt name k identity = s.behind k identity := by
  unfold Struct.behindAt
  split
  · rename_i hname
    exact Or.inr ⟨h.spares s hs hname, rfl⟩
  · exact Or.inl rfl

omit h in
theorem struct?_behind (ty : String) :
    (schema.behind name k identity).struct? ty =
      (schema.struct? ty).map (Struct.behindAt name k identity) := by
  have hname : ((fun s : Struct => s.name == ty) ∘ Struct.behindAt name k identity) =
      fun s => s.name == ty := by
    funext s
    rw [Function.comp_apply, Struct.name_behindAt]
  unfold struct? behind
  rw [List.find?_map, hname]

omit h in
theorem hasStruct_behind : (schema.behind name k identity).hasStruct = schema.hasStruct := by
  funext ty
  unfold hasStruct
  rw [struct?_behind, Option.isSome_map]

omit h in
theorem length_behind :
    (schema.behind name k identity).structs.length = schema.structs.length := List.length_map _

/-! ## Members -/

theorem memberPathFrom?_behind {field : String} (hne : field ≠ k.name) (depth : Nat) :
    (schema.behind name k identity).memberPathFrom? field depth =
      schema.memberPathFrom? field depth := by
  induction depth with
  | zero => rfl
  | succ depth ih =>
    funext seen ty
    unfold memberPathFrom?
    rw [struct?_behind, ih]
    cases hs : schema.struct? ty with
    | none => rfl
    | some s =>
      rw [Option.map_some, Option.bind_some, Option.bind_some]
      rcases h.behindAt_cases identity (mem_of_struct? hs).1 with heq | ⟨hspares, heq⟩
      · rw [heq]
      · obtain ⟨value, hvalue⟩ := Field.disposition_of_isConst hspares.isConst
        have hinline : (s.behind k identity).fields.filter (fun f => f.disposition == .inline) =
            s.fields.filter fun f => f.disposition == .inline :=
          List.filter_cons_of_neg (by simp [hvalue])
        rw [heq, Struct.Spares.field?_behind hne, hinline]

theorem memberPath?_behind (ty : String) {field : String} (hne : field ≠ k.name) :
    (schema.behind name k identity).memberPath? ty field = schema.memberPath? ty field := by
  unfold memberPath?
  rw [length_behind, h.memberPathFrom?_behind hne]

/-- A path that does not end in the constant leads to the same field: it does not pass through the
constant either, whose type is no struct. -/
theorem fieldAt?_behind {s : Struct} (hs : s ∈ schema.structs) {path : List String}
    (hpath : path.getLast? ≠ some k.name) :
    (schema.behind name k identity).fieldAt? (s.behindAt name k identity) path =
      schema.fieldAt? s path := by
  induction path generalizing s with
  | nil => rfl
  | cons hop path ih =>
    cases path with
    | nil =>
      have hne : hop ≠ k.name := fun heq => hpath (congrArg some heq)
      unfold fieldAt?
      rcases h.behindAt_cases identity hs with heq | ⟨-, heq⟩
      · rw [heq]
      · rw [heq, Struct.Spares.field?_behind hne]
    | cons next path =>
      have hrest : ∀ f : Field, ((schema.behind name k identity).struct? f.typeName).bind
            (fun t => (schema.behind name k identity).fieldAt? t (next :: path)) =
          (schema.struct? f.typeName).bind fun t => schema.fieldAt? t (next :: path) := by
        intro f
        rw [struct?_behind]
        cases ht : schema.struct? f.typeName with
        | none => rfl
        | some t => exact ih (mem_of_struct? ht).1 (by rwa [List.getLast?_cons_cons] at hpath)
      unfold fieldAt?
      simp only [Option.bind_assoc, hrest]
      rcases h.behindAt_cases identity hs with heq | ⟨hspares, heq⟩
      · rw [heq]
      · -- where the path begins with the constant, there is no field in either schema
        by_cases hhop : hop = k.name
        · have hfront : (s.behind k identity).field? k.name = some k :=
            List.find?_cons_of_pos (beq_self_eq_true _)
          rw [heq, hhop, hfront, hspares.field?_self, Option.bind_some, h.untyped]
          rfl
        · rw [heq, Struct.Spares.field?_behind hhop]

theorem member?_behind (ty : String) {field : String} (hne : field ≠ k.name) :
    (schema.behind name k identity).member? ty field = schema.member? ty field := by
  unfold member?
  rw [h.memberPath?_behind ty hne, struct?_behind]
  cases hpath : schema.memberPath? ty field with
  | none => rfl
  | some path =>
    have hlast := getLast?_of_memberPathFrom? hpath
    cases hs : schema.struct? ty with
    | none => rfl
    | some s =>
      refine h.fieldAt?_behind (mem_of_struct? hs).1 ?_
      rw [hlast]
      exact fun heq => hne (Option.some.inj heq)

/-! ## Sizes -/

theorem fixedSizeAt?_behind (depth : Nat) :
    (schema.behind name k identity).fixedSizeAt? depth = schema.fixedSizeAt? depth := by
  induction depth with
  | zero =>
    funext ty
    unfold fixedSizeAt?
    rfl
  | succ depth ih =>
    funext ty
    simp only [fixedSizeAt?, struct?_behind, ih]
    rw [show (schema.behind name k identity).types = schema.types from rfl]
    cases schema.types.form? ty with
    | some form => rfl
    | none =>
      cases hs : schema.struct? ty with
      | none => rfl
      | some s =>
        rcases h.behindAt_cases identity (mem_of_struct? hs).1 with heq | ⟨hspares, heq⟩
        · simp only [Option.map_some, Option.bind_some, heq]
        · simp only [Option.map_some, Option.bind_some, heq, hspares.sizeWith?_behind]

theorem fixedSize?_behind :
    (schema.behind name k identity).fixedSize? = schema.fixedSize? := by
  funext ty
  unfold fixedSize?
  rw [length_behind, h.fixedSizeAt?_behind]

/-! ## References between structs -/

theorem headerFault?_behind {b : HeaderBinding} (htype : b.typeField ≠ k.name)
    (hversion : b.versionField ≠ some k.name) :
    (schema.behind name k identity).headerFault? b = schema.headerFault? b := by
  unfold headerFault?
  rw [hasStruct_behind, h.member?_behind b.header htype]
  cases hfield : b.versionField with
  | none => rfl
  | some version =>
    have hne : version ≠ k.name := fun heq => hversion (hfield.trans (congrArg some heq))
    simp only [h.member?_behind b.header hne]
    rfl

theorem headerErrors_behind {s : Struct} (hs : s ∈ schema.structs) :
    (schema.behind name k identity).headerErrors (s.behindAt name k identity) =
      schema.headerErrors s := by
  have hreferences : (s.behindAt name k identity).headerReferences = s.headerReferences := by
    rcases h.behindAt_cases identity hs with heq | ⟨hspares, heq⟩
    · rw [heq]
    · rw [heq, hspares.headerReferences_behind]
  unfold headerErrors
  rw [hreferences, Struct.name_behindAt]
  refine List.filterMap_congr fun r hr => ?_
  obtain ⟨htype, hversion⟩ := h.headers s hs r hr
  rw [h.headerFault?_behind htype hversion]

theorem unionErrors_behind {s : Struct} (hs : s ∈ schema.structs) :
    (schema.behind name k identity).unionErrors (s.behindAt name k identity) =
      schema.unionErrors s := by
  have hfits : (schema.behind name k identity).fitsUnion = schema.fitsUnion := by
    funext f
    unfold fitsUnion fieldSize?
    rw [h.fixedSize?_behind]
  unfold unionErrors
  rw [Struct.name_behindAt, hfits]
  rcases h.behindAt_cases identity hs with heq | ⟨hspares, heq⟩
  · rw [heq]
  · rw [heq, hspares.unions_behind]
    refine List.filterMap_congr fun member hmember => ?_
    obtain ⟨g, hg, hmember⟩ := List.mem_flatMap.mp hmember
    rw [Struct.Spares.field?_behind (hspares.ne_of_mem_members hg hmember)]

theorem embedded_behind {s : Struct} (hs : s ∈ schema.structs) :
    (schema.behind name k identity).embedded (s.behindAt name k identity) = schema.embedded s := by
  have hembeds : (schema.behind name k identity).embeds = schema.embeds := by
    funext f
    unfold embeds
    rw [hasStruct_behind]
  unfold embedded
  rw [hembeds]
  rcases h.behindAt_cases identity hs with heq | ⟨hspares, heq⟩
  · rw [heq]
  · rw [heq]
    refine List.filter_cons_of_neg ?_
    simp [embeds, Field.isStored_of_isConst hspares.isConst]

theorem chainTo_behind (target : String) (depth : Nat) :
    (schema.behind name k identity).chainTo target depth = schema.chainTo target depth := by
  induction depth with
  | zero =>
    funext seen ty
    simp only [chainTo]
  | succ depth ih =>
    funext seen ty
    simp only [chainTo, struct?_behind, ih]
    cases hs : schema.struct? ty with
    | none => rfl
    | some s =>
      simp only [Option.map_some, h.embedded_behind (mem_of_struct? hs).1]

theorem recursionError?_behind {s : Struct} (hs : s ∈ schema.structs) :
    (schema.behind name k identity).recursionError? (s.behindAt name k identity) =
      schema.recursionError? s := by
  unfold recursionError?
  rw [Struct.name_behindAt, length_behind, h.chainTo_behind, h.embedded_behind hs]

theorem dependencyErrors_behind :
    (schema.behind name k identity).dependencyErrors = schema.dependencyErrors := by
  unfold dependencyErrors
  rw [show (schema.behind name k identity).structs =
    schema.structs.map (Struct.behindAt name k identity) from rfl, List.flatMap_map]
  refine List.flatMap_congr fun s hs => ?_
  rw [h.headerErrors_behind hs, h.unionErrors_behind hs, h.recursionError?_behind hs]

/-! ## Plans -/

omit h in
theorem element_behind : (schema.behind name k identity).element = schema.element := by
  funext owner f
  unfold element
  rw [hasStruct_behind]
  rfl

theorem unionSlot_behind : (schema.behind name k identity).unionSlot = schema.unionSlot := by
  have hmember : (schema.behind name k identity).unionMember? = schema.unionMember? := by
    funext s name
    unfold unionMember?
    rw [element_behind]
  funext s g first
  unfold unionSlot unionSize?
  rw [hmember, h.fixedSize?_behind]

theorem shape?_behind {s : Struct} (hs : s ∈ schema.structs) {f : Field} (hf : f ∈ s.fields) :
    (schema.behind name k identity).shape? s f = schema.shape? s f := by
  unfold shape?
  rw [element_behind]
  cases hd : f.disposition with
  | arraySized layout =>
    -- the group of a region is the type of a header's member, which is not the constant
    have hmem : (f.name, layout.binding) ∈ s.headerReferences :=
      List.mem_append_left _ (List.mem_filterMap.mpr ⟨f, hf, by simp [Field.sizedArray?, hd]⟩)
    dsimp only
    unfold arrayGroup
    rw [h.member?_behind _ (h.headers s hs _ hmem).1]
    rfl
  | _ => rfl

theorem wireEntries_behind {s : Struct} (hs : s ∈ schema.structs) (slots : List UnionSlot) :
    (schema.behind name k identity).wireEntries s slots = schema.wireEntries s slots := by
  unfold wireEntries
  refine mapM_congr_left fun p hp => ?_
  have hf : p.1 ∈ s.fields := (List.mem_zipIdx hp).2.2 ▸ List.getElem_mem _
  unfold wireEntry?
  rw [h.shape?_behind hs hf]

/-- A struct of the schema has the same plan in both schemas, before the constant is put first. -/
theorem planOf_behind_schema {s : Struct} (hs : s ∈ schema.structs)
    (initializers : List Initializer) :
    (schema.behind name k identity).planOf s initializers = schema.planOf s initializers := by
  unfold planOf unionSlots
  simp only [h.unionSlot_behind, h.wireEntries_behind hs]

theorem planOf_behind {s : Struct} (hs : s ∈ schema.structs) (initializers : List Initializer) :
    (schema.behind name k identity).planOf (s.behindAt name k identity) initializers =
      schema.planOf s initializers := by
  rcases h.behindAt_cases identity hs with heq | ⟨hspares, heq⟩
  · rw [heq, h.planOf_behind_schema hs]
  · rw [heq, hspares.planOf_behind, h.planOf_behind_schema hs]

end Spares

end Schema

end WireLayout
