import WireLayout.Proofs.Contents
import WireLayout.Proofs.Runs

/-!
# Rewriting elements

What is read is complete: it leaves nothing out that an initial value would have to stand in for. An
element that was read is written in as many bytes as it was read from, and so are the elements of an
array and of a region. The bytes are the same where all of them matter: the slots of unions and the
zeros up to an alignment are passed over when they are read, and so is the number of elements of arrays
none of which is there.
-/

namespace WireLayout

/-! ## Conditions on schemas -/

/-- Whether every array whose elements a field counts is always there. -/
def Schema.CountsPresent (schema : Schema) : Prop :=
  ∀ s ∈ schema.structs, ∀ f ∈ s.fields, f.countedBy?.isSome = true → f.condition = none

/-- Whether every byte matters: no struct has a union, and no elements are aligned. -/
def Schema.Exact (schema : Schema) : Prop :=
  ∀ s ∈ schema.structs, s.unions = [] ∧ ∀ f ∈ s.fields, ∀ layout ∈ f.sizedArray?,
    ∀ align ∈ layout.align, align ≤ 1

instance (schema : Schema) : Decidable schema.CountsPresent :=
  inferInstanceAs (Decidable (∀ s ∈ schema.structs, ∀ f ∈ s.fields,
    f.countedBy?.isSome = true → f.condition = none))

instance (schema : Schema) : Decidable schema.Exact :=
  inferInstanceAs (Decidable (∀ s ∈ schema.structs, s.unions = [] ∧ ∀ f ∈ s.fields,
    ∀ layout ∈ f.sizedArray?, ∀ align ∈ layout.align, align ≤ 1))

/-! ## What is known of bytes, values and records -/

/-- Whether bytes stand for others: they are as many and, under a condition, the same. -/
def Bytes.Alike (same : Prop) (a b : Bytes) : Prop :=
  a.length = b.length ∧ (same → a = b)

/-- Whether bytes stand for others in a schema: they are as many and, if every byte matters, the
same. -/
abbrev Schema.Alike (schema : Schema) (a b : Bytes) : Prop := Bytes.Alike schema.Exact a b

namespace Bytes.Alike

variable {same : Prop} {a b a' b' : Bytes}

theorem refl (a : Bytes) : Alike same a a := ⟨rfl, fun _ => rfl⟩

theorem append (h : Alike same a b) (h' : Alike same a' b') :
    Alike same (a ++ a') (b ++ b') := by
  refine ⟨?_, fun hsame => ?_⟩
  · rw [List.length_append, List.length_append, h.1, h'.1]
  · rw [h.2 hsame, h'.2 hsame]

end Bytes.Alike

namespace Codec

/-- Whether the records that a value is or lists are complete. -/
def Whole (c : Codec) (v : Value) : Prop :=
  ∀ r : Record, (v = r.toValue ∨ ∃ items, v = .list items ∧ r.toValue ∈ items) → c.Complete r

/-- Whether a record of a struct is complete and is written in bytes that stand for these. -/
structure Rewritten (c : Codec) (same : Prop) (name : String) (r : Record) (used : Bytes) :
    Prop where
  /-- The record is one of the struct. -/
  typeName : r.typeName = name
  /-- It leaves nothing out. -/
  complete : c.Complete r
  /-- It is written. -/
  written : ∀ m initial, r.depth ≤ m →
    ∃ bytes, c.encodeAt m name initial r = .ok bytes ∧ Bytes.Alike same bytes used

/-- Whether this holds for everything that a decoder reads. -/
def Rewrites (c : Codec) (same : Prop) (d : Decoder) : Prop :=
  ∀ name cursor r cursor', d name cursor = .ok (r, cursor') →
    ∃ used, cursor.Reads used cursor' ∧ c.Rewritten same name r used

variable {c : Codec} {same : Prop}

theorem Complete.of_whole {r : Record} (here : c.CompleteHere r)
    (parts : ∀ name v, r.get? name = some v → c.Whole v) : c.Complete r := by
  intro x hx
  cases hx with
  | refl => exact here
  | field hget hin => exact parts _ _ hget _ (Or.inl rfl) x hin
  | element hget hmem hin => exact parts _ _ hget _ (Or.inr ⟨_, rfl, hmem⟩) x hin

theorem Whole.int (n : Int) : c.Whole (.int n) := by
  rintro r (h | ⟨items, h, -⟩) <;> cases h

theorem Whole.bytes (bs : Bytes) : c.Whole (.bytes bs) := by
  rintro r (h | ⟨items, h, -⟩) <;> cases h

theorem Whole.record {r : Record} (h : c.Complete r) : c.Whole r.toValue := by
  rintro r' (heq | ⟨items, heq, -⟩)
  · have := congrArg Value.record? heq
    simp only [Value.record?_toValue, Option.some.injEq] at this
    exact this ▸ h
  · cases heq

theorem Whole.list {items : List Value} (h : ∀ v ∈ items, c.Whole v) : c.Whole (.list items) := by
  rintro r (heq | ⟨items', heq, hmem⟩)
  · cases heq
  · cases heq
    exact h _ hmem r (Or.inl rfl)

theorem Whole.of_readLeaf {leaf : Leaf} {cursor cursor' : Cursor} {v : Value}
    (h : leaf.read cursor = .ok (v, cursor')) : c.Whole v := by
  unfold Leaf.read at h
  split at h
  · obtain ⟨p, -, h⟩ := map_eq_ok.mp h
    cases h
    exact .int _
  · obtain ⟨p, -, h⟩ := map_eq_ok.mp h
    cases h
    exact .bytes _

/-! ## Elements -/

/-- An element is whole, and it is written in bytes that stand for those that it was read from. -/
theorem Rewrites.element {d : Decoder} (hd : c.Rewrites same d) {element : Element}
    {cursor cursor' : Cursor} {v : Value} (h : element.read d cursor = .ok (v, cursor')) :
    ∃ used, cursor.Reads used cursor' ∧ c.Whole v ∧ ∀ m field, v.depth ≤ m →
      ∃ bytes, element.write (c.encodeAt m) field v = .ok bytes ∧ Bytes.Alike same bytes used := by
  cases element with
  | leaf l =>
    obtain ⟨used, -, hreads⟩ := Leaf.write_of_read h ""
    refine ⟨used, hreads, .of_readLeaf h, fun m field _ => ?_⟩
    obtain ⟨bytes, hbytes, hreads'⟩ := Leaf.write_of_read h field
    have hsame : bytes = used := by
      have hlen : bytes.length = used.length := by
        have := hreads.offset
        have := hreads'.offset
        omega
      exact (List.append_inj (hreads'.rest.symm.trans hreads.rest) hlen).1
    exact ⟨bytes, hbytes, hsame ▸ .refl _⟩
  | struct ty =>
    obtain ⟨⟨r, cursor''⟩, hr, h⟩ := map_eq_ok.mp h
    cases h
    obtain ⟨used, hreads, hrec⟩ := hd _ _ _ _ hr
    refine ⟨used, hreads, .record hrec.complete, fun m field hm => ?_⟩
    obtain ⟨bytes, hbytes, halike⟩ := hrec.written m [] hm
    have hrecord : asRecord field r.toValue = .ok r := asRecord_eq_ok.mpr rfl
    exact ⟨bytes, bind_eq_ok'.mpr ⟨r, hrecord, hbytes⟩, halike⟩

/-- The elements of an array are written one by one. -/
theorem Rewrites.items {d : Decoder} (hd : c.Rewrites same d) {element : Element}
    {cursor cursor' : Cursor} {items : List Value}
    (h : ReadsItems (fun here => element.read d here) cursor items cursor') :
    ∃ used, cursor.Reads used cursor' ∧ (∀ v ∈ items, c.Whole v) ∧
      ∀ m field, (∀ v ∈ items, v.depth ≤ m) → ∃ bytes,
        joinM (fun v => element.write (c.encodeAt m) field v) items = .ok bytes ∧
          Bytes.Alike same bytes used := by
  induction h with
  | nil cursor => exact ⟨[], .refl cursor, by simp, fun _ _ _ => ⟨[], rfl, .refl []⟩⟩
  | cons hv _ ih =>
    obtain ⟨front, hfront, hwhole, hwrite⟩ := hd.element hv
    obtain ⟨used, hused, hrest, hjoin⟩ := ih
    refine ⟨front ++ used, hfront.trans hused, List.forall_mem_cons.mpr ⟨hwhole, hrest⟩, ?_⟩
    intro m field hm
    obtain ⟨hmv, hmrest⟩ := List.forall_mem_cons.mp hm
    obtain ⟨bytes, hbytes, halike⟩ := hwrite m field hmv
    obtain ⟨more, hmore, halike'⟩ := hjoin m field hmrest
    refine ⟨bytes ++ more, ?_, halike.append halike'⟩
    simp only [joinM, hbytes, hmore, ok_bind]

/-- The elements of a region are whole. -/
theorem Rewrites.whole_of_region {d : Decoder} (hd : c.Rewrites same d) {layout : SizedArray}
    {group : String} {cursor cursor' : Cursor} {items : List Value}
    (h : ReadsItems (c.readPolymorphic d layout group) cursor items cursor') :
    ∀ v ∈ items, c.Whole v := by
  induction h with
  | nil => simp
  | cons hv _ ih =>
    simp only [readPolymorphic, bind_eq_ok] at hv
    obtain ⟨key, -, name, -, ⟨r, next⟩, hr, past, -, hv⟩ := hv
    cases hv
    obtain ⟨used, -, hrec⟩ := hd _ _ _ _ hr
    exact List.forall_mem_cons.mpr ⟨.record hrec.complete, ih⟩

/-- The elements of a region are written one by one, each with the zeros that align the next. -/
theorem Rewrites.region {d : Decoder} (hd : c.Rewrites same d) {layout : SizedArray} {group : String}
    (hexact : same → ∀ align ∈ layout.align, align ≤ 1) {cursor cursor' : Cursor}
    {items : List Value} (h : ReadsItems (c.readPolymorphic d layout group) cursor items cursor') :
    ∃ used, cursor.Reads used cursor' ∧ ∀ m field, (∀ v ∈ items, v.depth ≤ m) → ∃ bytes,
      regionBytes (c.encodeAt m) field layout.align cursor.offset items = .ok bytes ∧
        Bytes.Alike same bytes used := by
  induction h with
  | nil cursor => exact ⟨[], .refl cursor, fun _ _ _ => ⟨[], rfl, .refl []⟩⟩
  | @cons cursor _ _ _ _ hv _ ih =>
    obtain ⟨used, hused, hjoin⟩ := ih
    simp only [readPolymorphic, bind_eq_ok] at hv
    obtain ⟨key, -, name, -, ⟨r, next⟩, hr, past, hpast, hv⟩ := hv
    cases hv
    obtain ⟨⟨zeros, past'⟩, htake, hpast⟩ := map_eq_ok.mp hpast
    cases hpast
    obtain ⟨hzeros, hzlen⟩ := Cursor.reads_of_take htake
    obtain ⟨front, hfront, hrec⟩ := hd _ _ _ _ hr
    refine ⟨(front ++ zeros) ++ used, (hfront.trans hzeros).trans hused, ?_⟩
    intro m field hm
    obtain ⟨hmv, hmrest⟩ := List.forall_mem_cons.mp hm
    obtain ⟨bytes, hbytes, halike⟩ := hrec.written m [] hmv
    obtain ⟨more, hmore, halike'⟩ := hjoin m field hmrest
    have hpad : (Bytes.zeros (padding (cursor.offset + bytes.length) layout.align)).length =
        zeros.length := by
      rw [Bytes.length_zeros, hzlen, halike.1, hfront.offset]
    have hsame : Bytes.Alike same
        (Bytes.zeros (padding (cursor.offset + bytes.length) layout.align)) zeros := by
      refine ⟨hpad, fun hex => ?_⟩
      have hnone : padding next.offset layout.align = 0 := by
        unfold padding
        cases halign : layout.align with
        | none => rfl
        | some a =>
          have := hexact hex a halign
          exact if_neg (by omega)
      rw [hnone] at hzlen
      rw [List.length_eq_zero_iff.mp hzlen] at hpad ⊢
      exact List.length_eq_zero_iff.mp hpad
    refine ⟨_, ?_, (halike.append hsame).append halike'⟩
    have hrecord : asRecord field r.toValue = .ok r := asRecord_eq_ok.mpr rfl
    have hoffset : cursor.offset + (bytes ++ Bytes.zeros
        (padding (cursor.offset + bytes.length) layout.align)).length = past'.offset := by
      rw [List.length_append, hpad, hzeros.offset, hfront.offset, halike.1, Nat.add_assoc]
    simp only [regionBytes, hrecord, hrec.typeName, hbytes, hoffset, hmore, ok_bind]

/-! ## What a struct that is being read holds -/

/-- Whether the record of a struct that is being read is one of the struct, and its values are
whole. -/
structure Keeps (c : Codec) (name : String) (p : Progress) : Prop where
  typeName : p.record.typeName = name
  whole : ∀ field v, p.record.get? field = some v → c.Whole v

theorem Keeps.store {name : String} {p : Progress} (h : c.Keeps name p) (field : String) {v : Value}
    (hv : c.Whole v) : c.Keeps name (p.store field v) := by
  refine ⟨h.typeName, fun field' v' hget => ?_⟩
  rw [Progress.store, Record.get?_insert] at hget
  split at hget
  · exact Option.some.inj hget ▸ hv
  · exact h.whole field' v' hget

theorem Keeps.readStep {d : Decoder} (hd : c.Rewrites same d) {s : Struct} {plan : Plan}
    {name : String} {p p' : Progress} (hp : c.Keeps name p) {step : Step DecodeOp}
    (h : c.readStep d s plan p step = .ok p') : c.Keeps name p' := by
  rcases stores_of_readStep h with hrecord | ⟨key, v, hrecord, hv⟩
  · exact ⟨hrecord ▸ hp.typeName, hrecord ▸ hp.whole⟩
  have hwhole : c.Whole v := by
    cases hv with
    | leaf h => exact .of_readLeaf h
    | nested h =>
      obtain ⟨used, -, hrec⟩ := hd _ _ _ _ h
      exact .record hrec.complete
    | items h =>
      obtain ⟨used, -, hitems, -⟩ := hd.items h
      exact .list hitems
    | region h => exact .list (hd.whole_of_region h)
    | member _ h =>
      obtain ⟨used, -, hmember, -⟩ := hd.element h
      exact hmember
  have hstore := hp.store key hwhole
  exact ⟨hrecord ▸ hstore.typeName, hrecord ▸ hstore.whole⟩

section Places

variable {d : Decoder} {s : Struct} {plan : Plan} {slots : List UnionSlot}
  {entries : List (Option WireEntry)} {st mid : Nat → Progress}
  (hr : c.Ran d s plan slots entries st mid)

include hr

theorem Ran.keeps (hd : c.Rewrites same d) {name : String} (hstart : c.Keeps name (st 0)) {i : Nat}
    (hi : i ≤ entries.length) : c.Keeps name (st i) := by
  induction i with
  | zero => exact hstart
  | succ i ih =>
    have hbefore := ih (Nat.le_of_succ_le hi)
    have hmid : c.Keeps name (mid i) := by
      cases he : entries[i] with
      | none =>
        rw [hr.skip i (List.getElem?_eq_some_iff.mpr ⟨hi, he⟩)]
        exact hbefore
      | some e => exact hbefore.readStep hd (hr.entry i e (List.getElem?_eq_some_iff.mpr ⟨hi, he⟩))
    refine foldlM_invariant (c.Keeps name) ?_ hmid (hr.resolve i hi)
    intro step _ p p' hp h
    exact hp.readStep hd h

variable {name : String} (hl : c.lookup name = .ok (s, plan))
  (hkeeps : c.Keeps name (st entries.length))
  (hrecounts : s.RecountsAll (st entries.length))

include hl hkeeps hrecounts

/-- A record that was read holds its plain and inline fields that are present. -/
theorem Ran.complete : c.Complete (st entries.length).record := by
  refine .of_whole ?_ hkeeps.whole
  intro s' plan' hl' f hf hstored hcount hunion m initial hholds
  rw [hkeeps.typeName, hl] at hl'
  cases hl'
  obtain ⟨i, hi⟩ := List.mem_iff_getElem?.mp hf
  have hlt : i < entries.length := hr.planned.length ▸ (List.getElem?_eq_some_iff.mp hi).1
  have hconst := Field.isConst_of_isStored hstored
  obtain ⟨shape, hshape, he⟩ := hr.planned.entry_of_own hr.wellFormed hi hconst hunion
  rcases hr.entry_cases he with ⟨hfalse, -⟩ | ⟨-, hread⟩
  · have := hr.holds { struct := s, plan, record := _, initial } rfl rfl hf
      (hrecounts f hf hconst) (Nat.le_of_lt hlt) hfalse m
    rw [hholds] at this
    cases this
  exact Option.isSome_iff_exists.mpr
    (hr.exists_get?_of_stored hi hunion hstored hcount hshape hread)

end Places

end Codec

end WireLayout
