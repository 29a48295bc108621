import WireLayout.Proofs.Matching
import WireLayout.Proofs.MeasureDepth

/-!
# Records that are interchangeable

Records are interchangeable if they answer all that is asked of them alike, and so do the records
nested in them. Then they have the same size and the same bytes, or fail alike, although they may nest
differently deep and are measured and written within different depths: as no struct embeds itself, an
empty record that stands for one left out needs no more depth than there are structs.
-/

namespace WireLayout

open Relation

/-- What two records say of a field may be put in other terms for the records that are nested in them,
for which less depth suffices. -/
theorem Frame.Matches.deepen {c : Codec} (hacyclic : ∀ name, ¬ TransGen c.schema.Embeds name name)
    {name : String} {frame : Frame} (hs : c.schema.struct? name = some frame.struct) {r' : Record}
    {N Q : Pairing} {n n' : Nat} (hn : c.Within (n + 1) name frame.record)
    (hn' : c.Within (n' + 1) name r')
    (hQ : ∀ ty initial r r', N ty initial r r' → c.Within n ty r → c.Within n' ty r' →
      Q ty initial r r')
    (h : frame.Matches c.schema N r') : frame.Matches c.schema Q r' := by
  have hedge : ∀ f ∈ frame.struct.fields, c.schema.embeds f = true →
      c.schema.Embeds name f.typeName := by
    intro f hf hembeds
    obtain ⟨hstored, hdeclared⟩ := Bool.and_eq_true_iff.mp hembeds
    exact ⟨_, hs, hdeclared, f, hf, hstored, rfl⟩
  constructor
  case fields =>
    intro f hf
    cases h.fields f hf with
    | unread hunread => exact .unread hunread
    | absent hnone hnone' => exact .absent hnone hnone'
    | alike hv hv' halike =>
      refine .alike hv hv' (halike.imp fun a a' ha ha' hN ty initial => ?_)
      exact hQ ty initial a a' (hN ty initial) (hn.of_get? hv ha ty) (hn'.of_get? hv' ha' ty)
    | initial hd hform hunion hregion hnone hinitial hsome =>
      exact .initial hd hform hunion hregion hnone hinitial hsome
    | nested hembeds hform hunion hinner hinner' hN =>
      refine .nested hembeds hform hunion hinner hinner' (hQ _ _ _ _ hN ?_ ?_)
      · exact hn.of_nested hacyclic (hedge f hf hembeds) hinner
      · have hwithin : c.Within (n' + 1) name (frame.withRecord r').record := hn'
        exact hwithin.of_nested hacyclic (hedge f hf hembeds) hinner'
  case empty =>
    intro f hf hembeds
    refine hQ _ _ _ _ (h.empty f hf hembeds) ?_ ?_
    · exact hn.of_embeds hacyclic (hedge f hf hembeds)
    · exact hn'.of_embeds hacyclic (hedge f hf hembeds)

/-! ## Interchangeable records -/

/-- Whether a relation holds between records that answer all that is asked of them alike, and then
between those nested in them. -/
structure Codec.Bisimulation (c : Codec) (N : Pairing) : Prop where
  typeName : ∀ {name initial r r'}, N name initial r r' → r'.typeName = r.typeName
  step : ∀ {name initial r r'}, N name initial r r' → ∀ frame,
    c.frame name initial r = .ok frame → frame.Matches c.schema N r'

namespace Codec

variable {c : Codec}

theorem frame_withRecord {r r' : Record} (h : r'.typeName = r.typeName) (name : String)
    (initial : List Initializer) :
    c.frame name initial r' = (c.frame name initial r).map fun frame => frame.withRecord r' := by
  unfold frame
  rw [h]
  cases c.lookup name with
  | error e => rfl
  | ok q =>
    dsimp only [ok_bind]
    split <;> rfl

namespace Bisimulation

variable {N : Pairing} (hN : c.Bisimulation N) (hc : c.Sound)
  (hacyclic : ∀ name, ¬ TransGen c.schema.Embeds name name)

include hN hc hacyclic

/-- Interchangeable records have the same size, in whatever depths suffice for them. -/
theorem sizeAt_eq {n n' : Nat} {name : String} {initial : List Initializer} {r r' : Record}
    (h : N name initial r r') (hn : c.Within n name r) (hn' : c.Within n' name r') :
    c.sizeAt n name initial r = c.sizeAt n' name initial r' := by
  -- the depths differ, as one of the records may nest deeper by what the other one leaves out
  induction n generalizing n' name initial r r' with
  | zero => exact absurd hn.pos (Nat.lt_irrefl 0)
  | succ n ih =>
    cases n' with
    | zero => exact absurd hn'.pos (Nat.lt_irrefl 0)
    | succ n' =>
      unfold sizeAt
      rw [frame_withRecord (hN.typeName h)]
      cases hframe : c.frame name initial r with
      | error e => rfl
      | ok frame =>
        have hstep := hN.step h frame hframe
        obtain ⟨s, plan, hl, -, rfl⟩ := frame_eq_ok.mp hframe
        obtain ⟨hstruct, hs, -, -, -, slots, entries, hp⟩ := hc.planned_of_lookup hl
        have hparts := hstep.deepen hacyclic hstruct hn hn'
          (Q := fun ty initial a a' => c.sizeAt n ty initial a = c.sizeAt n' ty initial a')
          (fun ty initial a a' hNa ha ha' => ih hNa ha ha')
        dsimp only [ok_bind, ok_map]
        rw [Frame.withRecord_plan, hp.size]
        exact hparts.stepsSize_eq (hc.linked.wellFormed s hs) (fun _ _ _ _ h => h) hp
          (fun e he => he) 0

theorem measure_eq {name : String} {initial : List Initializer} {r r' : Record}
    (h : N name initial r r') : c.measure name initial r = c.measure name initial r' :=
  hN.sizeAt_eq hc hacyclic h (Or.inl (Nat.le_refl _)) (Or.inl (Nat.le_refl _))

theorem encodeAt_eq {n n' : Nat} {name : String} {initial : List Initializer} {r r' : Record}
    (h : N name initial r r') (hn : c.Within n name r) (hn' : c.Within n' name r') :
    c.encodeAt n name initial r = c.encodeAt n' name initial r' := by
  induction n generalizing n' name initial r r' with
  | zero => exact absurd hn.pos (Nat.lt_irrefl 0)
  | succ n ih =>
    cases n' with
    | zero => exact absurd hn'.pos (Nat.lt_irrefl 0)
    | succ n' =>
      unfold encodeAt
      rw [frame_withRecord (hN.typeName h)]
      cases hframe : c.frame name initial r with
      | error e => rfl
      | ok frame =>
        have hstep := hN.step h frame hframe
        obtain ⟨s, plan, hl, -, rfl⟩ := frame_eq_ok.mp hframe
        obtain ⟨hstruct, hs, -, -, -, slots, entries, hp⟩ := hc.planned_of_lookup hl
        -- writing measures, too, at a depth of its own
        have hparts := hstep.deepen hacyclic hstruct hn hn'
          (Q := fun ty initial a a' => c.measure ty initial a = c.measure ty initial a' ∧
            c.encodeAt n ty initial a = c.encodeAt n' ty initial a')
          (fun ty initial a a' hNa ha ha' => ⟨hN.measure_eq hc hacyclic hNa, ih hNa ha ha'⟩)
        dsimp only [ok_bind, ok_map]
        rw [Frame.withRecord_plan, hp.encode]
        exact hparts.stepsBytes_eq (hc.linked.wellFormed s hs) (fun _ _ _ _ h => h.1)
          (fun _ _ _ _ h => h.2) hp fun e he => he

theorem size_eq {r r' : Record} (h : N r.typeName [] r r') : c.size r = c.size r' := by
  unfold size
  rw [hN.typeName h]
  exact hN.measure_eq hc hacyclic h

theorem encode_eq {r r' : Record} (h : N r.typeName [] r r') : c.encode r = c.encode r' := by
  unfold encode encoder
  rw [hN.typeName h]
  exact hN.encodeAt_eq hc hacyclic h (Or.inl (Nat.le_refl _)) (Or.inl (Nat.le_refl _))

end Bisimulation

end Codec

end WireLayout
