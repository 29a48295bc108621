import WireLayout.Proofs.DecodeDepth

/-!
# What a step stores

A step of a reader leaves the record as it is or sets one field of it, to a value that was read from
the bytes ahead or from those of a union.
-/

namespace WireLayout

/-- Elements that are read one after the other. -/
inductive ReadsItems (read : Cursor → Except CodecError (Value × Cursor)) :
    Cursor → List Value → Cursor → Prop
  /-- None. -/
  | nil (cursor : Cursor) : ReadsItems read cursor [] cursor
  /-- One and those after it. -/
  | cons {cursor cursor' cursor'' : Cursor} {v : Value} {items : List Value} :
      read cursor = .ok (v, cursor') → ReadsItems read cursor' items cursor'' →
      ReadsItems read cursor (v :: items) cursor''

theorem readsItems_of_readCounted {d : Decoder} {element : Element} {count : Nat}
    {cursor cursor' : Cursor} {items : List Value}
    (h : readCounted d element count cursor = .ok (items, cursor')) :
    ReadsItems (fun here => element.read d here) cursor items cursor' := by
  induction count generalizing cursor items with
  | zero => cases h; exact .nil _
  | succ count ih =>
    simp only [readCounted, bind_eq_ok] at h
    obtain ⟨⟨v, next⟩, hv, ⟨vs, last⟩, hvs, h⟩ := h
    cases h
    exact .cons hv (ih hvs)

theorem readsItems_of_readToEnd {field : String}
    {read : Cursor → Except CodecError (Value × Cursor)} {rounds : Nat} {cursor cursor' : Cursor}
    {items : List Value} (h : readToEnd field read rounds cursor = .ok (items, cursor')) :
    ReadsItems read cursor items cursor' ∧ cursor'.rest = [] := by
  induction rounds generalizing cursor items with
  | zero =>
    unfold readToEnd at h
    split at h
    · rename_i hempty
      cases h
      exact ⟨.nil _, List.isEmpty_iff.mp hempty⟩
    · cases h
  | succ rounds ih =>
    unfold readToEnd at h
    split at h
    · rename_i hempty
      cases h
      exact ⟨.nil _, List.isEmpty_iff.mp hempty⟩
    · obtain ⟨⟨v, next⟩, hv, h⟩ := bind_eq_ok.mp h
      dsimp only at h
      split at h
      · cases h
      · obtain ⟨⟨vs, last⟩, hvs, h⟩ := bind_eq_ok.mp h
        cases h
        obtain ⟨hrest, hend⟩ := ih hvs
        exact ⟨.cons hv hrest, hend⟩

namespace Codec

/-- What a struct that is being read may be given to hold. -/
inductive Stores (c : Codec) (d : Decoder) (p : Progress) : Value → Prop
  /-- A value that is no struct. -/
  | leaf {leaf : Leaf} {v : Value} {last : Cursor} : leaf.read p.cursor = .ok (v, last) →
      Stores c d p v
  /-- A struct. -/
  | nested {ty : String} {r : Record} {last : Cursor} : d ty p.cursor = .ok (r, last) →
      Stores c d p r.toValue
  /-- The elements of an array. -/
  | items {element : Element} {items : List Value} {last : Cursor} :
      ReadsItems (fun here => element.read d here) p.cursor items last → Stores c d p (.list items)
  /-- The elements of a region. -/
  | region {layout : SizedArray} {group : String} {region : Cursor} {items : List Value}
      {last : Cursor} : ReadsItems (c.readPolymorphic d layout group) region items last →
      Stores c d p (.list items)
  /-- A member of a union. -/
  | member {name : String} {raw : Bytes} {element : Element} {v : Value} {last : Cursor} :
      p.slots.lookup name = some raw → element.read d (Cursor.start raw) = .ok (v, last) →
      Stores c d p v

variable {c : Codec} {d : Decoder}

/-- A step sets at most one field, to a value that was read. -/
theorem Performs.stores {s : Struct} {plan : Plan} {field : String} {p p' : Progress}
    {op : DecodeOp} (h : c.Performs d s plan field p op p') :
    p'.record = p.record ∨ ∃ key v, p'.record = p.record.insert key v ∧ c.Stores d p v := by
  cases h with
  | @leaf _ v _ hv =>
    refine Or.inr ⟨field, v, ?_, .leaf hv⟩
    rw [Progress.moveTo, Progress.store, p.record_noteValue]
  | @nested _ _ r _ hr => exact Or.inr ⟨field, r.toValue, rfl, .nested hr⟩
  | @array _ _ _ items _ _ hitems =>
    exact Or.inr ⟨field, .list items, rfl, .items (readsItems_of_readCounted hitems)⟩
  | @arraySized _ _ _ _ _ _ _ items _ _ _ hitems =>
    exact Or.inr ⟨field, .list items, rfl, .region (readsItems_of_readToEnd hitems).1⟩
  | @fill _ items _ hitems =>
    exact Or.inr ⟨field, .list items, rfl, .items (readsItems_of_readToEnd hitems).1⟩
  | @member _ _ m v _ hraw _ hv =>
    refine Or.inr ⟨m.field, v, ?_, .member hraw hv⟩
    rw [Progress.store, p.record_noteValue]
  | _ => exact Or.inl rfl

theorem stores_of_readStep {s : Struct} {plan : Plan} {p p' : Progress} {step : Step DecodeOp}
    (h : c.readStep d s plan p step = .ok p') :
    p'.record = p.record ∨ ∃ key v, p'.record = p.record.insert key v ∧ c.Stores d p v := by
  rcases performs_of_readStep h with rfl | hdone
  · exact Or.inl rfl
  · exact hdone.stores

/-- The record that steps build is one of the same struct, and its fields stay ordered. -/
theorem sorted_of_steps {s : Struct} {plan : Plan} {steps : List (Step DecodeOp)} {p p' : Progress}
    (h : steps.foldlM (c.readStep d s plan) p = .ok p') (hp : Ordered.Sorted p.record.fields) :
    p'.record.typeName = p.record.typeName ∧ Ordered.Sorted p'.record.fields := by
  refine foldlM_invariant (fun q : Progress => q.record.typeName = p.record.typeName ∧
    Ordered.Sorted q.record.fields) ?_ ⟨rfl, hp⟩ h
  rintro step - q q' ⟨hname, hsorted⟩ hstep
  rcases stores_of_readStep hstep with hrecord | ⟨key, v, hrecord, -⟩
  · rw [hrecord]
    exact ⟨hname, hsorted⟩
  · rw [hrecord]
    exact ⟨hname, hsorted.insert key v⟩

end Codec

end WireLayout
