import WireLayout.Codec.Encode
import WireLayout.Proofs.Values
import WireLayout.Proofs.Wire

/-!
# What was written

What a writer did is taken apart again: whatever was joined has its parts, and an operation that has
written something found in the frame what it needs for it.
-/

namespace WireLayout

/-! ## Parts of what is joined -/

/-- Every part of what is joined was written, and is no longer. -/
theorem length_le_of_joinM {α : Type} {f : α → Except CodecError Bytes} {l : List α} {bytes : Bytes}
    (h : joinM f l = .ok bytes) {a : α} (ha : a ∈ l) :
    ∃ part, f a = .ok part ∧ part.length ≤ bytes.length := by
  induction l generalizing bytes with
  | nil => cases ha
  | cons b l ih =>
    simp only [joinM, bind_eq_ok] at h
    obtain ⟨first, hfirst, more, hmore, h⟩ := h
    cases h
    rw [List.length_append]
    rcases List.mem_cons.mp ha with rfl | ha
    · exact ⟨first, hfirst, Nat.le_add_right _ _⟩
    · obtain ⟨part, hpart, hle⟩ := ih hmore ha
      exact ⟨part, hpart, Nat.le_trans hle (Nat.le_add_left _ _)⟩

theorem exists_of_joinM {α : Type} {f : α → Except CodecError Bytes} {l : List α} {bytes : Bytes}
    (h : joinM f l = .ok bytes) {a : α} (ha : a ∈ l) : ∃ part, f a = .ok part :=
  (length_le_of_joinM h ha).imp fun _ => And.left

theorem joinM_map {α β : Type} (f : β → Except CodecError Bytes) (g : α → β) (l : List α) :
    joinM f (l.map g) = joinM (fun a => f (g a)) l := by
  induction l with
  | nil => rfl
  | cons a rest ih => rw [List.map_cons, joinM, joinM, ih]

section Elements

variable {encoder : Encoder} {field : String}

/-- A record is written by the encoder. -/
theorem Element.write_struct {ty : String} {r : Record} :
    (Element.struct ty).write encoder field r.toValue = encoder ty [] r := by
  unfold Element.write
  rw [asRecord_eq_ok.mpr rfl]
  rfl

/-- Every record of a region was written, and is no longer. -/
theorem length_le_of_regionBytes {align : Option Nat} {offset : Nat} {items : List Value}
    {bytes : Bytes} (h : regionBytes encoder field align offset items = .ok bytes) {r : Record}
    (hr : r.toValue ∈ items) :
    ∃ part, encoder r.typeName [] r = .ok part ∧ part.length ≤ bytes.length := by
  induction items generalizing offset bytes with
  | nil => cases hr
  | cons v rest ih =>
    simp only [regionBytes, bind_eq_ok] at h
    obtain ⟨r', hr', first, hfirst, more, hmore, h⟩ := h
    cases h
    simp only [List.length_append]
    rcases List.mem_cons.mp hr with rfl | hr
    · obtain rfl := Except.ok.inj ((asRecord_eq_ok.mpr rfl).symm.trans hr')
      exact ⟨first, hfirst, by omega⟩
    · obtain ⟨part, hpart, hle⟩ := ih hmore hr
      exact ⟨part, hpart, by omega⟩

end Elements

/-! ## Operations -/

namespace Frame

variable {frame : Frame} {schema : Schema} {measure : Measure} {encoder : Encoder} {field : String}
  {bytes : Bytes}

/-- An entry of a value that is no struct is written in as many bytes as the value's type has,
wherever the value comes from. -/
theorem length_of_leaf {leaf : Leaf} {role : Role} {guard : Option Condition}
    (h : frame.opBytes schema measure encoder field
      (WireEntry.encodeOp frame.struct { field, role, guard, shape := .leaf leaf }) = .ok bytes) :
    bytes.length = leaf.form.width := by
  simp only [WireEntry.encodeOp] at h
  split at h
  · obtain ⟨k, -, h⟩ := bind_eq_ok.mp h
    exact Leaf.length_of_write h
  · split at h
    · obtain ⟨k, -, h⟩ := bind_eq_ok.mp h
      exact Leaf.length_of_write h
    · obtain ⟨v, -, h⟩ := bind_eq_ok.mp h
      exact Leaf.length_of_write h

/-- A counted array is written as its elements, one after the other. -/
theorem joinM_of_array {element : Element} {count : Count}
    (h : frame.opBytes schema measure encoder field (.array element count) = .ok bytes) :
    ∃ items, frame.list field = .ok items ∧
      joinM (fun v => element.write encoder field v) items = .ok bytes := by
  obtain ⟨items, hitems, h⟩ := bind_eq_ok.mp h
  refine ⟨items, hitems, ?_⟩
  cases count with
  | field name => exact h
  | literal expected =>
    dsimp only at h
    split at h
    · exact h
    · cases h

/-- A region is written as its elements, and is as long as the record says. -/
theorem regionBytes_of_arraySized {lengthField : String} {align : Option Nat}
    (h : frame.opBytes schema measure encoder field (.arraySized lengthField align) = .ok bytes) :
    ∃ items, frame.list field = .ok items ∧ regionBytes encoder field align 0 items = .ok bytes ∧
      ∀ k, frame.record.get? lengthField = some (.int k) → k = bytes.length := by
  simp only [opBytes, bind_eq_ok] at h
  obtain ⟨items, hitems, region, hregion, h⟩ := h
  refine ⟨items, hitems, ?_⟩
  split at h
  case h_1 declared hdeclared =>
    split at h
    case isTrue heq =>
      cases h
      refine ⟨hregion, fun k hk => ?_⟩
      rw [hk] at hdeclared
      exact (Option.some.inj hdeclared).trans heq
    case isFalse => cases h
  case h_2 hnone =>
    cases h
    refine ⟨hregion, fun k hk => ?_⟩
    rw [hk] at hnone
    cases hnone

/-- A union is written as one of its members, with zeros up to its size. -/
theorem unionBytes_of_union {size : Nat} {members : List UnionMember}
    (h : frame.opBytes schema measure encoder field (.union size members) = .ok bytes) :
    ∃ raw, frame.unionBytes measure encoder members = .ok raw ∧ raw.length ≤ size ∧
      bytes = raw ++ Bytes.zeros (size - raw.length) := by
  obtain ⟨raw, hraw, h⟩ := bind_eq_ok.mp h
  refine ⟨raw, hraw, ?_⟩
  split at h
  · rename_i hle
    exact ⟨hle, (Except.ok.inj h).symm⟩
  · cases h

/-- A union is written as long as its size. -/
theorem length_of_union {size : Nat} {members : List UnionMember}
    (h : frame.opBytes schema measure encoder field (.union size members) = .ok bytes) :
    bytes.length = size := by
  obtain ⟨raw, -, hle, rfl⟩ := unionBytes_of_union h
  rw [List.length_append, Bytes.length_zeros]
  omega

/-- The first member of a union whose condition holds is what is written. -/
theorem write_of_unionBytes {before after : List UnionMember} {m : UnionMember}
    (h : frame.unionBytes measure encoder (before ++ m :: after) = .ok bytes)
    (hbefore : ∀ x ∈ before, frame.holds measure (some x.guard) = .ok false)
    (hm : frame.holds measure (some m.guard) = .ok true) {v : Value}
    (hv : frame.value m.field = .ok v) : m.element.write encoder m.field v = .ok bytes := by
  induction before with
  | nil =>
    obtain ⟨t, ht, hholds⟩ := map_eq_ok.mp hm
    rw [List.nil_append, unionBytes, ht, ok_bind, if_pos hholds, hv] at h
    exact h
  | cons x before ih =>
    obtain ⟨t, ht, hholds⟩ := map_eq_ok.mp (hbefore x (by simp))
    rw [List.cons_append, unionBytes, ht, ok_bind, if_neg (by simp [hholds])] at h
    exact ih h fun y hy => hbefore y (List.mem_cons_of_mem _ hy)

end Frame

end WireLayout
