import WireLayout.Proofs.Runs

/-!
# What a record that was read holds

Under the name of a field, a record that was read holds what was read for this field: an integer or a
run of bytes of its type, a record of its type that was read in turn, or a list. So the path to a
member of a struct leads, in a record of the struct, to what was read for this member, if it leads
anywhere. It always leads to an integer if no field on the way has a condition and the last one is an
integer that counts nothing.
-/

namespace WireLayout

namespace Codec

/-- Whether a record is one that reading a struct gives. -/
def IsRead (c : Codec) (name : String) (r : Record) : Prop :=
  ∃ n cursor last, c.decodeAt n name cursor = .ok (r, last)

/-- What a record that was read may hold for a field. -/
inductive HoldsFor (c : Codec) (f : Field) : Value → Prop
  /-- An integer of the field's type. -/
  | int {t : IntType} {n : Int} : f.isStored = true →
      c.schema.types.form? f.typeName = some (.int t) → t.contains n = true → HoldsFor c f (.int n)
  /-- Bytes of the field's type. -/
  | bytes {bs : Bytes} : f.isStored = true →
      c.schema.types.form? f.typeName = some (.bytes bs.length) → HoldsFor c f (.bytes bs)
  /-- A record of the field's type. -/
  | nested {r : Record} : f.isStored = true → c.IsRead f.typeName r → HoldsFor c f r.toValue
  /-- The elements of an array. -/
  | items {items : List Value} : f.isStored = false → HoldsFor c f (.list items)

variable {c : Codec} {f : Field} {v : Value}

namespace HoldsFor

theorem of_leaf (hstored : f.isStored = true) {l : Leaf}
    (hform : c.schema.types.form? f.typeName = some l.form) {cursor last : Cursor}
    (h : l.read cursor = .ok (v, last)) : c.HoldsFor f v := by
  unfold Leaf.read at h
  split at h
  · rename_i t ht
    obtain ⟨⟨n, next⟩, hn, hpair⟩ := map_eq_ok.mp h
    cases hpair
    obtain ⟨⟨front, next'⟩, htake, hpair⟩ := map_eq_ok.mp hn
    cases hpair
    have hlen := (Cursor.reads_of_take htake).2
    exact .int hstored (hform.trans (congrArg some ht)) (t.ofBytes_cases hlen).2.1
  · rename_i len hlen
    obtain ⟨⟨front, next⟩, htake, hpair⟩ := map_eq_ok.mp h
    cases hpair
    obtain rfl := (Cursor.reads_of_take htake).2
    exact .bytes hstored (hform.trans (congrArg some hlen))

theorem of_element {d : Decoder}
    (hd : ∀ name cursor r last, d name cursor = .ok (r, last) → c.IsRead name r)
    (hstored : f.isStored = true) {element : Element}
    (helem : c.schema.ElementOf f.typeName element) {cursor last : Cursor}
    (h : element.read d cursor = .ok (v, last)) : c.HoldsFor f v := by
  cases helem with
  | leaf hform => exact of_leaf hstored hform h
  | struct hform hdeclared =>
    obtain ⟨⟨r, next⟩, hr, hpair⟩ := map_eq_ok.mp h
    cases hpair
    exact .nested hstored (hd _ _ _ _ hr)

theorem intType {n : Int} (h : c.HoldsFor f (.int n)) :
    f.isStored = true ∧ ∃ t, c.schema.types.intType? f.typeName = some t ∧ t.contains n = true := by
  cases h with
  | int hstored hform hcontains =>
    refine ⟨hstored, _, ?_, hcontains⟩
    unfold TypeTable.intType?
    rw [hform]

theorem isRead {r : Record} (h : c.HoldsFor f r.toValue) : c.IsRead f.typeName r := by
  generalize hv : r.toValue = v at h
  cases h with
  | nested hstored hr =>
    have hsame := congrArg Value.record? hv
    rw [Value.record?_toValue, Value.record?_toValue] at hsame
    rw [Option.some.inj hsame]
    exact hr
  | _ => cases hv

end HoldsFor

/-! ## Steps -/

/-- A step leaves the record as it is, or sets a field to what was read for it. -/
theorem Sound.holdsFor_of_readStep (hc : c.Sound) {name : String} {s : Struct} {plan : Plan}
    (hl : c.lookup name = .ok (s, plan)) {d : Decoder}
    (hd : ∀ name cursor r last, d name cursor = .ok (r, last) → c.IsRead name r)
    {step : Step DecodeOp} (hstep : step ∈ plan.decode) {p p' : Progress}
    (h : c.readStep d s plan p step = .ok p') :
    p'.record = p.record ∨
      ∃ f ∈ s.fields, ∃ v, p'.record = p.record.insert f.name v ∧ c.HoldsFor f v := by
  obtain ⟨-, hs, -, -, -, slots, entries, hp⟩ := hc.planned_of_lookup hl
  have hwf := hc.linked.wellFormed s hs
  rcases performs_of_readStep h with rfl | hdone
  · exact Or.inl rfl
  rw [hp.decode] at hstep
  rcases Struct.mem_decodeSteps hstep with ⟨e, he, rfl⟩ | ⟨i, hstep⟩
  · obtain ⟨i, f, hf, hentry⟩ := hp.exists_of_mem he
    have hf := List.mem_of_getElem? hf
    cases hentry with
    | slot hslot hpos hname =>
      cases hdone
      exact Or.inl rfl
    | own hconst hunion hshape =>
      cases hshape with
      | @leaf l hstored hform =>
        simp only [WireEntry.step, WireEntry.decodeOp] at hdone
        split at hdone
        · cases hdone
          exact Or.inl rfl
        · cases hdone with
          | leaf hv =>
            refine Or.inr ⟨f, hf, _, ?_, .of_leaf hstored hform hv⟩
            rw [Progress.moveTo, Progress.store, p.record_noteValue]
      | nested hstored hform hdeclared =>
        cases hdone with
        | nested hr => exact Or.inr ⟨f, hf, _, rfl, .nested hstored (hd _ _ _ _ hr)⟩
      | reserved hdisp hform =>
        cases hdone
        exact Or.inl rfl
      | array hdisp helem =>
        cases hdone
        exact Or.inr ⟨f, hf, _, rfl, .items (by simp [Field.isStored, hdisp])⟩
      | arraySized hdisp hgroup =>
        cases hdone
        exact Or.inr ⟨f, hf, _, rfl, .items (by simp [Field.isStored, hdisp])⟩
      | fill hdisp helem =>
        cases hdone
        exact Or.inr ⟨f, hf, _, rfl, .items (by simp [Field.isStored, hdisp])⟩
  · obtain ⟨slot, hslot, -, rfl⟩ | ⟨-, f, target, -, -, -, rfl⟩ := Struct.deferredAt_cases hstep
    · cases hdone with
      | vacant hraw => exact Or.inl rfl
      | @member _ _ m v _ hraw hm hv =>
        obtain ⟨f, hf, hname, hstored, -, -, helem, -⟩ := hp.member_of_slot hwf hslot hm
        refine Or.inr ⟨f, hf, v, ?_, .of_element hd hstored helem hv⟩
        rw [Progress.store, p.record_noteValue, hname]
    · cases hdone
      exact Or.inl rfl

/-! ## Records -/

theorem Sound.struct?_of_isRead (hc : c.Sound) {name : String} {r : Record}
    (hr : c.IsRead name r) : ∃ s, c.schema.struct? name = some s := by
  obtain ⟨n, cursor, last, h⟩ := hr
  cases n with
  | zero => cases h
  | succ n =>
    obtain ⟨⟨s, plan⟩, hl, -⟩ := bind_eq_ok.mp h
    exact ⟨s, (hc.planned_of_lookup hl).1⟩

section Records

variable (hc : c.Sound) {name : String} {s : Struct} (hs : c.schema.struct? name = some s)
  {r : Record} (hr : c.IsRead name r)

include hc hs hr

theorem Sound.exists_of_get? {key : String} (hv : r.get? key = some v) :
    ∃ f ∈ s.fields, f.name = key ∧ c.HoldsFor f v := by
  obtain ⟨n, cursor, last, h⟩ := hr
  cases n with
  | zero => cases h
  | succ n =>
    simp only [decodeAt, bind_eq_ok] at h
    obtain ⟨⟨s', plan⟩, hl, p, hp, h⟩ := h
    cases h
    obtain rfl := Option.some.inj ((hc.planned_of_lookup hl).1.symm.trans hs)
    have hd : ∀ name cursor r last, c.decodeAt n name cursor = .ok (r, last) → c.IsRead name r :=
      fun _ cursor _ last h => ⟨n, cursor, last, h⟩
    -- each step keeps what was set before it, or sets a field to what was read for it
    refine foldlM_invariant (fun p : Progress => ∀ key v, p.record.get? key = some v →
      ∃ f ∈ s'.fields, f.name = key ∧ c.HoldsFor f v) ?_ (fun _ _ h => by cases h) hp key v hv
    intro step hstep p p' hp hstep' key v hv
    rcases hc.holdsFor_of_readStep hl hd hstep hstep' with hsame | ⟨f, hf, v', hset, hholds⟩
    · exact hp key v (hsame ▸ hv)
    · rw [hset, Record.get?_insert] at hv
      split at hv
      · rename_i hkey
        cases hv
        exact ⟨f, hf, hkey.symm, hholds⟩
      · exact hp key v hv

theorem Sound.holdsFor_of_get? {f : Field} (hf : f ∈ s.fields) (hv : r.get? f.name = some v) :
    c.HoldsFor f v := by
  obtain ⟨g, hg, hname, hholds⟩ := hc.exists_of_get? hs hr hv
  have hwf := hc.linked.wellFormed s (Schema.mem_of_struct? hs).1
  obtain rfl := List.inj_on_of_nodup_map hwf.names hg hf hname
  exact hholds

/-- The value at the end of the path to a member was read for this member. -/
theorem Sound.holdsFor_of_atPath? {path : List String} {m : Field}
    (hm : c.schema.fieldAt? s path = some m) (hv : r.atPath? path = some v) : c.HoldsFor m v := by
  induction path generalizing name s r with
  | nil => cases hm
  | cons hop path ih =>
    cases path with
    | nil =>
      obtain ⟨hmem, rfl⟩ := Struct.mem_of_field? hm
      exact hc.holdsFor_of_get? hs hr hmem hv
    | cons next path =>
      obtain ⟨t, hhop, hrest⟩ := Option.bind_eq_some_iff.mp hm
      obtain ⟨f, hf, ht⟩ := Option.bind_eq_some_iff.mp hhop
      obtain ⟨r', hr', hlast⟩ : ∃ r', (r.get? hop).bind Value.record? = some r' ∧
          r'.atPath? (next :: path) = some v := Option.bind_eq_some_iff.mp hv
      obtain ⟨v', hv', hrecord⟩ := Option.bind_eq_some_iff.mp hr'
      obtain rfl := Value.record?_eq_some.mp hrecord
      obtain ⟨hmem, rfl⟩ := Struct.mem_of_field? hf
      exact ih ht (hc.holdsFor_of_get? hs hr hmem hv').isRead hrest hlast

end Records

end Codec

/-! ## Members that are always there -/

/-- Whether the value of a field is in every record of the struct that was read. -/
def Struct.keeps (s : Struct) (f : Field) : Bool :=
  f.isStored && f.condition.isNone && !s.isCount f.name

namespace Schema

variable (schema : Schema)

/-- Whether a path leads to an integer in every record of the struct that was read. -/
def keepsIntAt (s : Struct) : List String → Bool
  | [] => false
  | [last] => (s.field? last).any fun f =>
    s.keeps f && (schema.types.intType? f.typeName).isSome
  | hop :: path => (s.field? hop).any fun f =>
    s.keeps f && (schema.struct? f.typeName).any (keepsIntAt · path)

/-- Whether a member of a struct is an integer in every record of the struct that was read. -/
def keepsInt (name field : String) : Bool :=
  (schema.memberPath? name field).any fun path =>
    (schema.struct? name).any (schema.keepsIntAt · path)

end Schema

theorem Struct.keeps_eq_true {s : Struct} {f : Field} :
    s.keeps f = true ↔ f.isStored = true ∧ f.condition = none ∧ s.isCount f.name = false := by
  simp [keeps, and_assoc]

namespace Codec

variable {c : Codec}

namespace HoldsFor

variable {f : Field} {v : Value} (h : c.HoldsFor f v) (hstored : f.isStored = true)
  (hapart : c.schema.Apart)

include h hstored hapart

theorem exists_int (hc : c.Sound) {t : IntType}
    (ht : c.schema.types.intType? f.typeName = some t) : ∃ n, v = .int n := by
  have hform := TypeTable.form?_of_intType? ht
  cases h with
  | int _ _ _ => exact ⟨_, rfl⟩
  | bytes _ hbytes =>
    rw [hform] at hbytes
    cases hbytes
  | nested _ hread =>
    obtain ⟨s, hs⟩ := hc.struct?_of_isRead hread
    rw [hapart _ s hs] at hform
    cases hform
  | items hnot =>
    rw [hstored] at hnot
    cases hnot

theorem exists_record {s : Struct} (hs : c.schema.struct? f.typeName = some s) :
    ∃ r, v = r.toValue ∧ c.IsRead f.typeName r := by
  have hnone := hapart _ s hs
  cases h with
  | int _ hform _ =>
    rw [hnone] at hform
    cases hform
  | bytes _ hform =>
    rw [hnone] at hform
    cases hform
  | nested _ hread => exact ⟨_, rfl, hread⟩
  | items hnot =>
    rw [hstored] at hnot
    cases hnot

end HoldsFor

theorem Sound.exists_get?_of_keeps (hc : c.Sound) {name : String} {s : Struct}
    (hs : c.schema.struct? name = some s) {r : Record} (hr : c.IsRead name r) {f : Field}
    (hf : f ∈ s.fields) (hkeeps : s.keeps f = true) : ∃ v, r.get? f.name = some v := by
  obtain ⟨hstored, hnone, hcount⟩ := Struct.keeps_eq_true.mp hkeeps
  obtain ⟨n, cursor, last, h⟩ := hr
  cases n with
  | zero => cases h
  | succ n =>
    obtain ⟨s', plan, slots, entries, st, mid, hl, hran, -, rfl, -⟩ := hc.ran_of_decodeAt h
    obtain rfl := Option.some.inj ((hc.planned_of_lookup hl).1.symm.trans hs)
    obtain ⟨k, hk⟩ := List.mem_iff_getElem?.mp hf
    have hwf := hran.wellFormed
    have hunion := Struct.unionOf?_of_unconditioned hwf.names hf hnone
    obtain ⟨shape, hshape, hentry⟩ :=
      hran.planned.entry_of_own hwf hk (Field.isConst_of_isStored hstored) hunion
    -- the entry has no condition, so what it reads is set
    rcases hran.entry_cases hentry with ⟨hfalse, -⟩ | ⟨-, hread⟩
    · rw [hnone] at hfalse
      cases hfalse
    exact hran.exists_get?_of_stored hk hunion hstored hcount hshape hread

theorem Sound.exists_atPath?_of_keepsIntAt (hc : c.Sound) (hapart : c.schema.Apart)
    {path : List String} {name : String} {s : Struct} (hs : c.schema.struct? name = some s)
    {r : Record} (hr : c.IsRead name r) (hkeeps : c.schema.keepsIntAt s path = true) :
    ∃ n, r.atPath? path = some (.int n) := by
  induction path generalizing name s r with
  | nil => cases hkeeps
  | cons hop path ih =>
    cases path with
    | nil =>
      obtain ⟨f, hf, hkept, hint⟩ : ∃ f, s.field? hop = some f ∧ s.keeps f = true ∧
          (c.schema.types.intType? f.typeName).isSome = true := by
        simpa [Schema.keepsIntAt, Option.any_eq_true] using hkeeps
      obtain ⟨hmem, rfl⟩ := Struct.mem_of_field? hf
      obtain ⟨t, ht⟩ := Option.isSome_iff_exists.mp hint
      obtain ⟨v, hv⟩ := hc.exists_get?_of_keeps hs hr hmem hkept
      obtain ⟨hstored, -⟩ := Struct.keeps_eq_true.mp hkept
      obtain ⟨n, rfl⟩ := (hc.holdsFor_of_get? hs hr hmem hv).exists_int hstored hapart hc ht
      exact ⟨n, hv⟩
    | cons next path =>
      obtain ⟨f, hf, hkept, t, ht, hrest⟩ : ∃ f, s.field? hop = some f ∧ s.keeps f = true ∧
          ∃ t, c.schema.struct? f.typeName = some t ∧
            c.schema.keepsIntAt t (next :: path) = true := by
        simpa [Schema.keepsIntAt, Option.any_eq_true] using hkeeps
      obtain ⟨hmem, rfl⟩ := Struct.mem_of_field? hf
      obtain ⟨v, hv⟩ := hc.exists_get?_of_keeps hs hr hmem hkept
      obtain ⟨hstored, -⟩ := Struct.keeps_eq_true.mp hkept
      obtain ⟨r', rfl, hr'⟩ :=
        (hc.holdsFor_of_get? hs hr hmem hv).exists_record hstored hapart ht
      obtain ⟨n, hn⟩ := ih ht hr' hrest
      refine ⟨n, ?_⟩
      rw [Record.atPath?, hv, Option.bind_some, Value.record?_toValue, Option.bind_some]
      · exact hn
      · exact List.cons_ne_nil _ _

end Codec

end WireLayout
