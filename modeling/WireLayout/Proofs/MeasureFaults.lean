import WireLayout.Proofs.Fuel

/-!
# How measuring can fail

Measuring asks a record for values and adds numbers up; it reads no bytes. So it fails for what the
record holds, or because a nested struct cannot be measured, and for nothing else. What is said here of
a frame holds for whatever faults the measure of its parts may end in.
-/

namespace WireLayout

/-- Whether measuring a frame may end in a fault by itself, whatever its parts are. -/
def CodecError.OfMeasuring : CodecError → Prop
  | .missingField .. => True
  | .typeMismatch .. => True
  | .outOfRange .. => True
  | .lengthMismatch .. => True
  | .unknownStruct _ => True
  | _ => False

/-- Whether a measure only ends in faults that are allowed on the parts of a frame's record. -/
structure Frame.PartsFailOnly (frame : Frame) (allowed : CodecError → Prop) (m : Measure) :
    Prop where
  elements : ∀ name items, frame.record.get? name = some (.list items) →
    ∀ v ∈ items, ∀ r, v = r.toValue → ∀ ty, FailsOnly allowed (m ty [] r)
  nested : ∀ step ∈ frame.plan.size, ∀ ty, step.op = .nested ty → ∀ r,
    frame.nested step.field ty = .ok r →
      FailsOnly allowed (m ty (frame.initialInside step.field) r)

theorem toLength_failsOnly {allowed : CodecError → Prop} {field : String} {v : Int}
    (h : allowed (.outOfRange field v)) : FailsOnly allowed (toLength field v) := by
  unfold toLength
  split
  · exact .ok _
  · exact FailsOnly.error_iff.mpr h

section Measuring

variable {allowed : CodecError → Prop} (hallowed : ∀ e : CodecError, e.OfMeasuring → allowed e)

include hallowed

theorem grow_failsOnly (total more : Nat) (field : String) :
    FailsOnly allowed (grow total more field) := by
  unfold grow
  split
  · exact .ok _
  · exact FailsOnly.error_iff.mpr (hallowed _ trivial)

theorem asRecord_failsOnly (field : String) (v : Value) : FailsOnly allowed (asRecord field v) := by
  unfold asRecord
  split
  · exact .ok _
  · exact FailsOnly.error_iff.mpr (hallowed _ trivial)

theorem asInt_failsOnly (field : String) (v : Value) : FailsOnly allowed (asInt field v) := by
  unfold asInt
  split
  · exact .ok _
  · exact FailsOnly.error_iff.mpr (hallowed _ trivial)

theorem asList_failsOnly (field : String) (v : Value) : FailsOnly allowed (asList field v) := by
  unfold asList
  split
  · exact .ok _
  · exact FailsOnly.error_iff.mpr (hallowed _ trivial)

variable {m : Measure}

theorem regionLength_failsOnly {items : List Value}
    (h : ∀ v ∈ items, ∀ r, v = r.toValue → ∀ ty, FailsOnly allowed (m ty [] r)) (field : String)
    (align : Option Nat) (total : Nat) :
    FailsOnly allowed (regionLength m field align total items) := by
  induction items generalizing total with
  | nil => exact .ok _
  | cons v rest ih =>
    unfold regionLength
    refine .bind (asRecord_failsOnly hallowed _ _) fun r hr => ?_
    refine .bind (h v (by simp) r (asRecord_eq_ok.mp hr) _) fun size _ => ?_
    refine .bind (grow_failsOnly hallowed _ _ _) fun total _ => ?_
    refine .bind (grow_failsOnly hallowed _ _ _) fun total _ => ?_
    exact ih (fun w hw => h w (List.mem_cons_of_mem _ hw)) total

theorem elementsSize_failsOnly {items : List Value}
    (h : ∀ v ∈ items, ∀ r, v = r.toValue → ∀ ty, FailsOnly allowed (m ty [] r)) (element : Element)
    (field : String) (total : Nat) :
    FailsOnly allowed (elementsSize m element field total items) := by
  induction items generalizing total with
  | nil => exact .ok _
  | cons v rest ih =>
    have hfirst : FailsOnly allowed (element.size m field v) := by
      cases element with
      | leaf l => exact .ok _
      | struct ty =>
        exact .bind (asRecord_failsOnly hallowed _ _) fun r hr =>
          h v (by simp) r (asRecord_eq_ok.mp hr) ty
    unfold elementsSize
    refine .bind hfirst fun size _ => .bind (grow_failsOnly hallowed _ _ _) fun total _ => ?_
    exact ih (fun w hw => h w (List.mem_cons_of_mem _ hw)) total

namespace Frame

variable {frame : Frame}

theorem missing_failsOnly {α : Type} (frame : Frame) (name : String) :
    FailsOnly allowed (.error (frame.missing name) : Except CodecError α) :=
  FailsOnly.error_iff.mpr (hallowed _ trivial)

theorem list_failsOnly (frame : Frame) (name : String) : FailsOnly allowed (frame.list name) := by
  unfold list
  split
  · exact asList_failsOnly hallowed _ _
  · exact frame.missing_failsOnly hallowed _

theorem nested_failsOnly (frame : Frame) (field ty : String) :
    FailsOnly allowed (frame.nested field ty) := by
  unfold nested
  split
  · exact asRecord_failsOnly hallowed _ _
  · split
    · exact frame.missing_failsOnly hallowed _
    · exact .ok _

theorem liveLength_failsOnly (frame : Frame) (arrays : List String) :
    FailsOnly allowed (frame.liveLength arrays) := by
  have hshared : ∀ shared, FailsOnly allowed (frame.sharedLength shared arrays) := by
    induction arrays with
    | nil => exact fun _ => .ok _
    | cons array rest ih =>
      intro shared
      unfold sharedLength
      split
      · exact ih shared
      · rename_i v _
        split
        · rename_i e herr
          exact FailsOnly.error_iff.mpr (asList_failsOnly hallowed array v e herr)
        · split
          · exact ih _
          · split
            · exact ih _
            · exact FailsOnly.error_iff.mpr (hallowed _ trivial)
  exact hshared none

theorem intOf_failsOnly (h : frame.PartsFailOnly allowed m) (name : String) :
    FailsOnly allowed (frame.intOf m name) := by
  unfold intOf
  split
  · exact .ok _
  · split
    · exact (frame.liveLength_failsOnly hallowed _).map _
    · split
      · exact asInt_failsOnly hallowed _ _
      · split
        · exact .ok _
        · split
          · refine .bind (frame.list_failsOnly hallowed _) fun items hitems => .map ?_ _
            exact regionLength_failsOnly hallowed (h.elements _ items (list_eq_ok.mp hitems)) _ _ 0
          · exact frame.missing_failsOnly hallowed _

theorem holds_failsOnly (h : frame.PartsFailOnly allowed m) (guard : Option Condition) :
    FailsOnly allowed (frame.holds m guard) := by
  unfold holds
  split
  · exact .ok _
  · exact (intOf_failsOnly hallowed h _).map _

theorem opSize_failsOnly (h : frame.PartsFailOnly allowed m) {step : Step SizeOp}
    (hstep : step ∈ frame.plan.size) : FailsOnly allowed (frame.opSize m step.field step.op) := by
  cases hop : step.op with
  | fixed bytes => exact .ok _
  | union bytes => exact .ok _
  | nested ty =>
    exact .bind (frame.nested_failsOnly hallowed _ _) fun r hr => h.nested step hstep ty hop r hr
  | array element =>
    exact .bind (frame.list_failsOnly hallowed _) fun items hitems =>
      elementsSize_failsOnly hallowed (h.elements _ items (list_eq_ok.mp hitems)) _ _ 0
  | fill element =>
    exact .bind (frame.list_failsOnly hallowed _) fun items hitems =>
      elementsSize_failsOnly hallowed (h.elements _ items (list_eq_ok.mp hitems)) _ _ 0
  | byteLength lengthField =>
    exact .bind (intOf_failsOnly hallowed h _) fun n _ => toLength_failsOnly (hallowed _ trivial)

theorem stepsSize_failsOnly (h : frame.PartsFailOnly allowed m) {steps : List (Step SizeOp)}
    (hsteps : ∀ step ∈ steps, step ∈ frame.plan.size) (total : Nat) :
    FailsOnly allowed (frame.stepsSize m total steps) := by
  induction steps generalizing total with
  | nil => exact .ok _
  | cons step rest ih =>
    have hrest := ih fun step' hstep' => hsteps step' (List.mem_cons_of_mem _ hstep')
    unfold stepsSize
    refine .bind (holds_failsOnly hallowed h _) fun b _ => ?_
    cases b with
    | false => exact hrest total
    | true =>
      refine .bind (opSize_failsOnly hallowed h (hsteps step (by simp))) fun size _ => ?_
      exact .bind (grow_failsOnly hallowed _ _ _) fun total _ => hrest total

theorem fieldSize_failsOnly (h : frame.PartsFailOnly allowed m) (schema : Schema)
    (target : String) : FailsOnly allowed (frame.fieldSize schema m target) := by
  unfold fieldSize
  split
  · unfold unionMemberSize
    split
    · exact .ok _
    · split
      · refine .bind (holds_failsOnly hallowed h _) fun b _ => ?_
        split
        · split
          · exact .ok _
          · exact frame.missing_failsOnly hallowed _
        · exact .ok _
      · exact .ok _
  · split
    · exact .ok _
    · rename_i step hstep
      refine .bind (holds_failsOnly hallowed h _) fun b _ => ?_
      split
      · exact opSize_failsOnly hallowed h (List.mem_of_find?_eq_some hstep)
      · exact .ok _

end Frame

namespace Codec

theorem lookup_failsOnly (c : Codec) (name : String) : FailsOnly allowed (c.lookup name) := by
  unfold lookup
  split
  · exact .ok _
  · exact FailsOnly.error_iff.mpr (hallowed _ trivial)

theorem frame_failsOnly (c : Codec) (name : String) (initial : List Initializer) (r : Record) :
    FailsOnly allowed (c.frame name initial r) := by
  unfold frame
  refine .bind (c.lookup_failsOnly hallowed name) fun q _ => ?_
  dsimp only
  split
  · exact .ok _
  · exact FailsOnly.error_iff.mpr (hallowed _ trivial)

/-- Where a record may nest too deep, its measure has no other faults than those of measuring. -/
theorem sizeAt_failsOnly (hendless : ∀ name, allowed (.endless name)) (c : Codec) (n : Nat)
    (name : String) (initial : List Initializer) (r : Record) :
    FailsOnly allowed (c.sizeAt n name initial r) := by
  induction n generalizing name initial r with
  | zero => exact FailsOnly.error_iff.mpr (hendless name)
  | succ n ih =>
    unfold sizeAt
    refine .bind (c.frame_failsOnly hallowed name initial r) fun frame _ => ?_
    refine Frame.stepsSize_failsOnly hallowed ?_ (fun step hstep => hstep) 0
    exact ⟨fun _ _ _ _ _ r _ ty => ih ty [] r, fun _ _ ty _ r _ => ih ty _ r⟩

theorem measure_failsOnly (hendless : ∀ name, allowed (.endless name)) (c : Codec) (name : String)
    (initial : List Initializer) (r : Record) : FailsOnly allowed (c.measure name initial r) :=
  c.sizeAt_failsOnly hallowed hendless _ name initial r

end Codec

end Measuring

end WireLayout
