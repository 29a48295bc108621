import WireLayout.Codec.Decode
import WireLayout.Proofs.Outcome

/-!
# What an operation does

An operation of a decode plan that succeeds has read something from the bytes ahead, or from those of
a union, and keeps it: in the record, as an integer for later steps, or as the bytes of a union. What
each of them has read and what it keeps is said here once.
-/

namespace WireLayout

namespace Progress

variable (p : Progress) (name : String) (v : Value)

@[simp] theorem record_noteValue : (p.noteValue name v).record = p.record := by
  cases v <;> rfl

@[simp] theorem slots_noteValue : (p.noteValue name v).slots = p.slots := by
  cases v <;> rfl

@[simp] theorem cursor_noteValue : (p.noteValue name v).cursor = p.cursor := by
  cases v <;> rfl

@[simp] theorem noteValue_moveTo (d : Cursor) :
    (p.moveTo d).noteValue name v = (p.noteValue name v).moveTo d := by
  cases v <;> rfl

end Progress

theorem noted_eq_ok {p : Progress} {owner name : String} {n : Int} :
    p.noted owner name = .ok n ↔ p.scratch.lookup name = some n := by
  unfold Progress.noted
  cases p.scratch.lookup name <;> simp

theorem slot_eq_ok {p : Progress} {owner name : String} {raw : Bytes} :
    p.slot owner name = .ok raw ↔ p.slots.lookup name = some raw := by
  unfold Progress.slot
  cases p.slots.lookup name <;> simp

section Faults

variable {allowed : CodecError → Prop}

theorem Progress.noted_failsOnly (p : Progress) {owner name : String}
    (h : allowed (.missingField owner name)) : FailsOnly allowed (p.noted owner name) := by
  unfold Progress.noted
  split
  · exact .ok _
  · exact FailsOnly.error_iff.mpr h

theorem Progress.slot_failsOnly (p : Progress) {owner name : String}
    (h : allowed (.missingField owner name)) : FailsOnly allowed (p.slot owner name) := by
  unfold Progress.slot
  split
  · exact .ok _
  · exact FailsOnly.error_iff.mpr h

theorem Progress.holds_failsOnly (p : Progress) {owner : String}
    (h : ∀ name, allowed (.missingField owner name)) (guard : Option Condition) :
    FailsOnly allowed (p.holds owner guard) := by
  unfold Progress.holds
  split
  · exact .ok _
  · exact (p.noted_failsOnly (h _)).map _

theorem Codec.checkReserved_failsOnly {field : String} {expected found : Int}
    (h : allowed (.reservedMismatch field expected found)) :
    FailsOnly allowed (Codec.checkReserved field expected found) := by
  unfold Codec.checkReserved
  split
  · exact .ok _
  · exact FailsOnly.error_iff.mpr h

end Faults

theorem eq_of_checkReserved {field : String} {expected found : Int} {u : Unit}
    (h : Codec.checkReserved field expected found = .ok u) : expected = found := by
  unfold Codec.checkReserved at h
  split at h
  · assumption
  · cases h

namespace Codec

/-- What a struct that is being read becomes when an operation is done. -/
inductive Performs (c : Codec) (d : Decoder) (s : Struct) (plan : Plan) (field : String)
    (p : Progress) : DecodeOp → Progress → Prop
  /-- A value is read and set, and noted if it is an integer. -/
  | leaf {leaf : Leaf} {v : Value} {cursor : Cursor} : leaf.read p.cursor = .ok (v, cursor) →
      Performs c d s plan field p (.leaf leaf) (((p.noteValue field v).store field v).moveTo cursor)
  /-- A number of elements is read and noted. -/
  | length {leaf : Leaf} {n : Int} {cursor : Cursor} :
      leaf.readInt field p.cursor = .ok (n, cursor) →
      Performs c d s plan field p (.length leaf) ((p.note field n).moveTo cursor)
  /-- A struct is read and set. -/
  | nested {ty : String} {isInline : Bool} {r : Record} {cursor : Cursor} :
      d ty p.cursor = .ok (r, cursor) →
      Performs c d s plan field p (.nested ty isInline) ((p.store field r.toValue).moveTo cursor)
  /-- An integer is read and noted, which is the one that is expected, if there is one. -/
  | reserved {leaf : Leaf} {expect : Option Int} {n : Int} {cursor : Cursor} :
      leaf.readInt field p.cursor = .ok (n, cursor) → (∀ e, expect = some e → e = n) →
      Performs c d s plan field p (.reserved leaf expect) ((p.note field n).moveTo cursor)
  /-- A noted size is that of a field of the record. -/
  | check {reserved target : String} {found : Int} {size : Nat} :
      p.noted s.name reserved = .ok found →
      Frame.fieldSize { struct := s, plan, record := p.record, initial := [] } c.schema c.measure
        target = .ok size → size = found →
      Performs c d s plan field p (.checkSizeOf reserved target) p
  /-- The elements of an array are read and set. -/
  | array {element : Element} {count : Count} {n : Nat} {items : List Value} {cursor : Cursor} :
      countOf s.name p count = .ok n → readCounted d element n p.cursor = .ok (items, cursor) →
      Performs c d s plan field p (.array element count) ((p.store field (.list items)).moveTo cursor)
  /-- The elements of a region are read and set. -/
  | arraySized {layout : SizedArray} {group : String} {declared : Int} {len : Nat} {front : Bytes}
      {cursor last : Cursor} {items : List Value} :
      p.noted s.name layout.lengthField = .ok declared →
      toLength layout.lengthField declared = .ok len → p.cursor.take len = .ok (front, cursor) →
      readToEnd field (c.readPolymorphic d layout group) front.length (Cursor.start front) =
        .ok (items, last) →
      Performs c d s plan field p (.arraySized layout group)
        ((p.store field (.list items)).moveTo cursor)
  /-- The elements up to the end are read and set. -/
  | fill {element : Element} {items : List Value} {cursor : Cursor} :
      readToEnd field (fun here => element.read d here) p.cursor.remaining p.cursor =
        .ok (items, cursor) →
      Performs c d s plan field p (.fill element) ((p.store field (.list items)).moveTo cursor)
  /-- The bytes of a union are taken and kept. -/
  | union {size : Nat} {raw : Bytes} {cursor : Cursor} : p.cursor.take size = .ok (raw, cursor) →
      Performs c d s plan field p (.union size) { p with slots := (field, raw) :: p.slots, cursor }
  /-- The bytes of a union hold no member. -/
  | vacant {members : List UnionMember} {raw : Bytes} : p.slots.lookup field = some raw →
      Performs c d s plan field p (.resolveUnion members) p
  /-- The bytes of a union hold a member, which is read and set, and noted if it is an integer. -/
  | member {members : List UnionMember} {raw : Bytes} {m : UnionMember} {v : Value} {last : Cursor} :
      p.slots.lookup field = some raw → m ∈ members →
      m.element.read d (Cursor.start raw) = .ok (v, last) →
      Performs c d s plan field p (.resolveUnion members) ((p.noteValue m.field v).store m.field v)

variable {c : Codec} {d : Decoder}

/-- The bytes of a union are read as one of its members, or not at all. -/
theorem readUnion_cases {owner : String} {raw : Bytes} {p p' : Progress}
    {members : List UnionMember} (h : readUnion d owner raw p members = .ok p') :
    p' = p ∨ ∃ m ∈ members, ∃ v last, m.element.read d (Cursor.start raw) = .ok (v, last) ∧
      p' = (p.noteValue m.field v).store m.field v := by
  induction members with
  | nil => exact Or.inl (Except.ok.inj h).symm
  | cons m rest ih =>
    unfold readUnion at h
    obtain ⟨tested, -, h⟩ := bind_eq_ok.mp h
    split at h
    · obtain ⟨⟨v, last⟩, hv, h⟩ := bind_eq_ok.mp h
      exact Or.inr ⟨m, by simp, v, last, hv, (Except.ok.inj h).symm⟩
    · rcases ih h with hsame | ⟨m', hm', hmember⟩
      · exact Or.inl hsame
      · exact Or.inr ⟨m', List.mem_cons_of_mem _ hm', hmember⟩

theorem performs_of_readOp {s : Struct} {plan : Plan} {field : String} {p p' : Progress}
    {op : DecodeOp} (h : c.readOp d s plan field p op = .ok p') :
    c.Performs d s plan field p op p' := by
  cases op with
  | leaf l =>
    obtain ⟨⟨v, cursor⟩, hv, h⟩ := bind_eq_ok.mp h
    cases h
    exact .leaf hv
  | length l =>
    obtain ⟨⟨n, cursor⟩, hn, h⟩ := bind_eq_ok.mp h
    cases h
    exact .length hn
  | nested ty isInline =>
    obtain ⟨⟨r, cursor⟩, hr, h⟩ := bind_eq_ok.mp h
    cases h
    exact .nested hr
  | reserved l expect =>
    obtain ⟨⟨n, cursor⟩, hn, h⟩ := bind_eq_ok.mp h
    cases expect with
    | none =>
      cases h
      exact .reserved hn fun _ he => by cases he
    | some expected =>
      obtain ⟨u, hcheck, h⟩ := bind_eq_ok.mp h
      cases h
      refine .reserved hn fun e he => ?_
      rw [← Option.some.inj he]
      exact eq_of_checkReserved hcheck
  | checkSizeOf reserved target =>
    simp only [readOp, bind_eq_ok] at h
    obtain ⟨found, hfound, size, hsize, u, hcheck, h⟩ := h
    cases h
    exact .check hfound hsize (eq_of_checkReserved hcheck)
  | array element count =>
    simp only [readOp, bind_eq_ok] at h
    obtain ⟨n, hn, ⟨items, cursor⟩, hitems, h⟩ := h
    cases h
    exact .array hn hitems
  | arraySized layout group =>
    simp only [readOp, bind_eq_ok] at h
    obtain ⟨declared, hdeclared, len, hlen, ⟨region, cursor⟩, hregion, ⟨items, last⟩, hitems, h⟩ := h
    cases h
    obtain ⟨⟨front, next⟩, htake, hpair⟩ := map_eq_ok.mp hregion
    cases hpair
    exact .arraySized hdeclared hlen htake hitems
  | fill element =>
    obtain ⟨⟨items, cursor⟩, hitems, h⟩ := bind_eq_ok.mp h
    cases h
    exact .fill hitems
  | union size =>
    obtain ⟨⟨raw, cursor⟩, htake, h⟩ := bind_eq_ok.mp h
    cases h
    exact .union htake
  | resolveUnion members =>
    obtain ⟨raw, hraw, h⟩ := bind_eq_ok.mp h
    have hslot := slot_eq_ok.mp hraw
    rcases readUnion_cases h with rfl | ⟨m, hm, v, last, hv, rfl⟩
    · exact .vacant hslot
    · exact .member hslot hm hv

/-- A step is passed, or its operation is done. -/
theorem performs_of_readStep {s : Struct} {plan : Plan} {p p' : Progress} {step : Step DecodeOp}
    (h : c.readStep d s plan p step = .ok p') :
    p' = p ∨ c.Performs d s plan step.field p step.op p' := by
  obtain ⟨b, -, h⟩ := bind_eq_ok.mp h
  cases b with
  | false => exact Or.inl (Except.ok.inj h).symm
  | true => exact Or.inr (performs_of_readOp h)

/-- A struct is found for a discriminator and version if one is registered under them. -/
theorem structOf_eq_ok {group : String} {key : Int × Option Nat} {name : String} :
    c.structOf group key = .ok name ↔
      c.dispatch.resolve? group (key.2.getD 0) key.1 = some name := by
  unfold structOf
  split
  · rename_i other hresolve
    rw [hresolve, Except.ok.injEq, Option.some.injEq]
  · rename_i hnone
    rw [hnone]
    simp

end Codec

end WireLayout
