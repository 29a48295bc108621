import WireLayout.Proofs.Embedding
import WireLayout.Proofs.Layout
import WireLayout.Proofs.MeasureFaults

/-!
# The depth that measuring needs

A record is measured within its own depth and as many structs more as there are: the records that are
there nest as deep as the record, and below the deepest only empty ones are measured. Each of these is
one of a struct that the one before embeds, and as no struct embeds itself in the end, the structs have
a rank that falls each time.
-/

namespace WireLayout

open Relation

/-! ## Depths that suffice -/

namespace Schema

variable {schema : Schema}

/-- The number of structs that a struct embeds, directly or through others. -/
noncomputable def embedRank (schema : Schema) (name : String) : Nat :=
  (leadsTo schema.Embeds (schema.structs.map (·.name)).toFinset name).card

theorem Embeds.rank_lt (hacyclic : ∀ name, ¬ TransGen schema.Embeds name name)
    {owner name : String} (h : schema.Embeds owner name) :
    schema.embedRank name < schema.embedRank owner := by
  obtain ⟨-, -, hname, -⟩ := id h
  exact card_leadsTo_lt (hacyclic name) (mem_names_of_hasStruct hname) h

theorem embedRank_lt_length (hacyclic : ∀ name, ¬ TransGen schema.Embeds name name)
    (hpos : 0 < schema.structs.length) (name : String) :
    schema.embedRank name < schema.structs.length := by
  refine card_leadsTo_lt_length ?_ (hacyclic name) hpos
  rintro owner name ⟨s, hs, -⟩
  exact Option.isSome_iff_exists.mpr ⟨s, hs⟩

end Schema

/-- Whether a depth suffices for a record of a struct: it counts the record's nesting and all structs,
or, for a record that is empty, those that the struct embeds. -/
def Codec.Within (c : Codec) (n : Nat) (name : String) (r : Record) : Prop :=
  c.depthOf r ≤ n ∨ r.fields = [] ∧ c.schema.embedRank name < n

namespace Codec.Within

variable {c : Codec} {n : Nat} {name : String} {r : Record}

theorem pos (h : c.Within n name r) : 0 < n := by
  rcases h with h | ⟨-, h⟩
  · rw [depthOf, Record.depth_eq] at h
    omega
  · omega

/-- What a field of the record holds needs less depth. -/
theorem of_get? (h : c.Within (n + 1) name r) {field : String} {v : Value}
    (hv : r.get? field = some v) {part : Record} (hpart : part.depth ≤ v.depth) (ty : String) :
    c.Within n ty part := by
  rcases h with h | ⟨hempty, -⟩
  · have hlt := Record.depth_lt_of_get? hv
    unfold depthOf at h
    refine Or.inl ?_
    unfold depthOf
    omega
  · unfold Record.get? at hv
    rw [hempty] at hv
    cases hv

theorem of_embeds (hacyclic : ∀ name, ¬ TransGen c.schema.Embeds name name)
    (h : c.Within (n + 1) name r) {ty : String} (hembeds : c.schema.Embeds name ty) :
    c.Within n ty (.empty ty) := by
  refine Or.inr ⟨rfl, ?_⟩
  rcases h with h | ⟨-, h⟩
  · obtain ⟨s, hs, -⟩ := hembeds
    have hpos := List.length_pos_of_mem (Schema.mem_of_struct? hs).1
    have hrank := Schema.embedRank_lt_length hacyclic hpos ty
    rw [depthOf, Record.depth_eq] at h
    omega
  · have hrank := hembeds.rank_lt hacyclic
    omega

theorem of_nested (hacyclic : ∀ name, ¬ TransGen c.schema.Embeds name name) {frame : Frame}
    (h : c.Within (n + 1) name frame.record) {field ty : String} (hembeds : c.schema.Embeds name ty)
    {inner : Record} (hinner : frame.nested field ty = .ok inner) : c.Within n ty inner := by
  unfold Frame.nested at hinner
  split at hinner
  · rename_i v hv
    obtain rfl := asRecord_eq_ok.mp hinner
    exact h.of_get? hv (Nat.le_refl _) ty
  · split at hinner
    · cases hinner
    · cases hinner
      exact h.of_embeds hacyclic hembeds

end Codec.Within

/-! ## Computations that end -/

/-- Whether a computation does not fail because structs nest too deep. -/
abbrev Ends {α : Type} (x : Except CodecError α) : Prop :=
  FailsOnly (fun e => ∀ name, e ≠ .endless name) x

theorem ends_iff {α : Type} {x : Except CodecError α} :
    Ends x ↔ ∀ name, x ≠ .error (.endless name) :=
  ⟨fun h name heq => h _ heq name rfl, fun h _ he name heq => h name (heq ▸ he)⟩

/-! ## Measuring a frame -/

/-- Whether a measure ends on the parts of a frame's record. -/
abbrev Frame.PartsEnd (frame : Frame) (m : Measure) : Prop :=
  frame.PartsFailOnly (fun e => ∀ name, e ≠ .endless name) m

/-- No fault that measuring has by itself is one of depth. -/
theorem CodecError.OfMeasuring.ne_endless (e : CodecError) (h : e.OfMeasuring) (name : String) :
    e ≠ .endless name := by
  rintro rfl
  exact h

theorem toLength_ends (field : String) (v : Int) : Ends (toLength field v) :=
  toLength_failsOnly nofun

namespace Frame

variable {frame : Frame} {m : Measure}

theorem stepsSize_ends (h : frame.PartsEnd m) {steps : List (Step SizeOp)}
    (hsteps : ∀ step ∈ steps, step ∈ frame.plan.size) (total : Nat) :
    Ends (frame.stepsSize m total steps) :=
  stepsSize_failsOnly CodecError.OfMeasuring.ne_endless h hsteps total

theorem fieldSize_ends (h : frame.PartsEnd m) (schema : Schema) (target : String) :
    Ends (frame.fieldSize schema m target) :=
  fieldSize_failsOnly CodecError.OfMeasuring.ne_endless h schema target

end Frame

/-! ## Measuring a record -/

namespace Codec

variable {c : Codec}

theorem lookup_ends (c : Codec) (name : String) : Ends (c.lookup name) :=
  c.lookup_failsOnly CodecError.OfMeasuring.ne_endless name

/-- A nested step of a size plan is that of a struct which the plan's struct embeds. -/
theorem Sound.embeds_of_sizeStep (hc : c.Sound) {name : String} {s : Struct} {plan : Plan}
    (hl : c.lookup name = .ok (s, plan)) {step : Step SizeOp} (hstep : step ∈ plan.size)
    {ty : String} (hop : step.op = .nested ty) : c.schema.Embeds name ty := by
  obtain ⟨hstruct, -, -, -, -, slots, entries, hp⟩ := hc.planned_of_lookup hl
  rw [hp.size] at hstep
  obtain ⟨e, he, rfl⟩ := List.mem_map.mp hstep
  obtain ⟨i, f, hf, hentry⟩ := hp.exists_of_mem he
  cases hentry with
  | slot hslot hpos hname => cases hop
  | own hconst hunion hshape =>
    cases hshape with
    | nested hstored hform hdeclared =>
      cases hop
      exact ⟨s, hstruct, hdeclared, f, List.mem_of_getElem? hf, hstored, rfl⟩
    | _ => cases hop

/-- A record is measured within a depth that suffices for it. -/
theorem Sound.sizeAt_ends (hc : c.Sound) (hembeds : ∀ name, ¬ TransGen c.schema.Embeds name name)
    (n : Nat) (name : String) (initial : List Initializer) (r : Record) (hn : c.Within n name r) :
    Ends (c.sizeAt n name initial r) := by
  induction n generalizing name initial r with
  | zero => exact absurd hn.pos (Nat.lt_irrefl 0)
  | succ n ih =>
    unfold sizeAt
    refine .bind ?_ fun frame hframe => ?_
    · exact c.frame_failsOnly CodecError.OfMeasuring.ne_endless name initial r
    obtain ⟨s, plan, hl, -, rfl⟩ := frame_eq_ok.mp hframe
    apply Frame.stepsSize_ends _ fun step hstep => hstep
    constructor
    case elements =>
      rintro field items hitems v hv r' rfl ty
      exact ih ty [] r' (hn.of_get? hitems (Value.depth_le_itemsDepth hv) ty)
    case nested =>
      intro step hstep ty hop r' hr'
      exact ih ty _ r' (hn.of_nested hembeds (hc.embeds_of_sizeStep hl hstep hop) hr')

theorem Sound.measure_ends (hc : c.Sound) (hembeds : ∀ name, ¬ TransGen c.schema.Embeds name name)
    (name : String) (initial : List Initializer) (r : Record) : Ends (c.measure name initial r) :=
  hc.sizeAt_ends hembeds _ name initial r (Or.inl (Nat.le_refl _))

/-- Whether the second computation has the outcome of the first, unless that fails because structs
nest too deep. -/
def Unless (α : Type) (x y : Except CodecError α) : Prop := Ends x → y = x

theorem Unless.sequential : Sequential Unless where
  refl _ := fun _ => rfl
  bind := by
    intro α β x y f g hxy hfg hends
    obtain ⟨hx, hf⟩ := hends.of_bind
    rw [hxy hx]
    cases x with
    | error e => rfl
    | ok a => exact hfg a rfl (hf a rfl)

theorem sizeAt_unless (c : Codec) (n more : Nat) :
    (c.sizeAt n).Related Unless (c.sizeAt (n + more)) := by
  induction n with
  | zero =>
    intro name _ _ hends
    exact absurd rfl (ends_iff.mp hends name)
  | succ n ih =>
    rw [Nat.succ_add]
    exact c.sizeAt_related Unless.sequential ih

/-- A record is measured in the same way within every depth that admits it. -/
theorem Sound.sizeAt_eq_measure (hc : c.Sound)
    (hembeds : ∀ name, ¬ TransGen c.schema.Embeds name name) {n : Nat} {r : Record}
    (hn : c.depthOf r ≤ n) (name : String) (initial : List Initializer) :
    c.sizeAt n name initial r = c.measure name initial r := by
  obtain ⟨more, rfl⟩ := Nat.exists_eq_add_of_le hn
  exact c.sizeAt_unless _ more name initial r (hc.measure_ends hembeds name initial r)

end Codec

end WireLayout
