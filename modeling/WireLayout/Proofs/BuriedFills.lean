import WireLayout.Proofs.Contents
import WireLayout.Proofs.DeclarationOrder
import WireLayout.Proofs.Embedding
import WireLayout.Proofs.Runs
import WireLayout.Proofs.TakenBytes
import WireLayout.Proofs.Widths

/-!
# Arrays that go on to the end, inside of other structs

An array that takes the rest of the buffer is the last field of its struct, and no union has a member
that such an array is a part of. Nothing keeps other structs from having fields behind a struct with
such an array, or arrays of such structs. But after the struct was read nothing is left: what lies behind
it is read from no bytes. So where a struct is read at all, none of the fields behind takes a byte for
sure, and of such elements there is no more than one.
-/

namespace WireLayout

open Relation

/-! ## Structs that go on to the end -/

/-- Whether a struct has, or has as a part, an array that takes the rest of the buffer. -/
def Schema.ReachesFill (schema : Schema) (name : String) : Prop :=
  ∃ other, ReflTransGen schema.Embeds name other ∧ schema.DeclaresFill other

/-- Whether all bytes that are left are taken by a struct: the array, or the part that has it, is always
there. -/
inductive Schema.Drains (schema : Schema) : String → Prop where
  /-- It has the array. -/
  | fill {name : String} {s : Struct} {f : Field} : schema.struct? name = some s → f ∈ s.fields →
      f.condition = none → f.disposition = .arrayFill → Drains schema name
  /-- A part of it has. -/
  | part {name : String} {s : Struct} {f : Field} : schema.struct? name = some s → f ∈ s.fields →
      f.condition = none → f.isStored = true → Drains schema f.typeName → Drains schema name

theorem Schema.Drains.hasStruct {schema : Schema} {name : String} (h : schema.Drains name) :
    schema.hasStruct name = true := by
  cases h with
  | fill hs _ _ _ => exact Option.isSome_iff_exists.mpr ⟨_, hs⟩
  | part hs _ _ _ _ => exact Option.isSome_iff_exists.mpr ⟨_, hs⟩

/-! ## Unions -/

/-- Where a struct has a fixed size, each of its fields has. -/
theorem Struct.exists_sizeWith?_of_mem {s : Struct} (hs : (s.fields.map (·.name)).Nodup)
    {sizeOf : String → Option Nat} {n : Nat} (hn : s.sizeWith? sizeOf = some n) {f : Field}
    (hf : f ∈ s.fields) : ∃ k, f.sizeWith? sizeOf = some k := by
  obtain ⟨total, htotal, hn⟩ := Option.bind_eq_some_iff.mp hn
  cases hconst : f.isConst with
  | true =>
    unfold Field.isConst at hconst
    unfold Field.sizeWith?
    cases hd : f.disposition with
    | const v => exact ⟨0, rfl⟩
    | _ =>
      rw [hd] at hconst
      cases hconst
  | false =>
    cases hunion : s.unionOf? f.name with
    | none =>
      have hmem : f ∈ s.separateFields := List.mem_filter.mpr ⟨hf, by simp [hconst, hunion]⟩
      obtain ⟨k, hk⟩ := (sumSizes?_eq_some hn).1 f hmem
      unfold memberSizeWith? at hk
      split at hk
      · cases hk
      · exact ⟨k, hk⟩
    | some g =>
      have hg : g ∈ s.unions := List.mem_of_find?_eq_some hunion
      have hname : f.name ∈ g.members := by simpa using List.find?_some hunion
      obtain ⟨size, hsize⟩ := (sumSizes?_eq_some htotal).1 g hg
      obtain ⟨f', k, hf', hk, -⟩ :=
        (Struct.widest_of_unionSizeWith? (Struct.mem_unions.mp hg).1 hsize).bound _ hname
      rw [Struct.field?_of_mem hs hf] at hf'
      obtain rfl := Option.some.inj hf'
      exact ⟨k, hk⟩

namespace Schema

variable {schema : Schema}

/-- A struct with such an array in it has no fixed size. -/
theorem ReachesFill.fixedSizeAt?_eq_none (hbuilt : schema.Built)
    (hapart : schema.Apart) {name : String} (h : schema.ReachesFill name) (k : Nat) :
    schema.fixedSizeAt? k name = none := by
  obtain ⟨other, hpath, hfill⟩ := h
  rw [Option.eq_none_iff_forall_ne_some]
  intro n hn
  -- a part has a size, too, one level deeper
  have hpart : ∀ {name : String} {s : Struct} {k n : Nat}, schema.struct? name = some s →
      schema.fixedSizeAt? k name = some n → ∀ f ∈ s.fields, ∃ j m,
        f.sizeWith? (schema.fixedSizeAt? j) = some m := by
    intro name s k n hs hn f hf
    obtain ⟨j, s', -, hs', hsize⟩ := fixedSizeAt?_eq_some (hapart name s hs) hn
    obtain rfl := Option.some.inj (hs.symm.trans hs')
    have hwf := hbuilt.wellFormed s (mem_of_struct? hs).1
    exact ⟨j, Struct.exists_sizeWith?_of_mem hwf.names hsize hf⟩
  induction hpath using ReflTransGen.head_induction_on generalizing k n with
  | refl =>
    obtain ⟨s, hs, f, hf, hd⟩ := hfill
    obtain ⟨j, m, hm⟩ := hpart hs hn f hf
    unfold Field.sizeWith? at hm
    rw [hd] at hm
    cases hm
  | head hembeds _ ih =>
    obtain ⟨s, hs, -, f, hf, hstored, rfl⟩ := hembeds
    obtain ⟨j, m, hm⟩ := hpart hs hn f hf
    refine ih j m ?_
    unfold Field.sizeWith? at hm
    rcases Field.disposition_of_isStored hstored with hd | hd <;> rw [hd] at hm <;> exact hm

end Schema

/-! ## What is left behind -/

section Reading

variable {schema : Schema} {d : Decoder} {free : String → Prop}

/-- Whether nothing is ahead of a decoder after a struct. -/
def Decoder.Exhausts (d : Decoder) (ty : String) : Prop :=
  ∀ cursor r last, d ty cursor = .ok (r, last) → last.remaining = 0

/-- A loop whose first round leaves nothing has no other. -/
theorem length_le_one_of_readToEnd {field : String}
    {read : Cursor → Except CodecError (Value × Cursor)}
    (hread : ∀ cursor v last, read cursor = .ok (v, last) → last.remaining = 0) {rounds : Nat}
    {cursor last : Cursor} {items : List Value}
    (h : readToEnd field read rounds cursor = .ok (items, last)) : items.length ≤ 1 := by
  unfold readToEnd at h
  split at h
  · cases h
    exact Nat.zero_le 1
  · cases rounds with
    | zero => cases h
    | succ rounds =>
      obtain ⟨⟨v, next⟩, hv, h⟩ := bind_eq_ok.mp h
      have hnil : next.rest = [] := List.length_eq_zero_iff.mp (hread _ _ _ hv)
      dsimp only at h
      split at h
      · cases h
      · rw [readToEnd_nil field hnil] at h
        cases h
        exact Nat.le_refl 1

theorem length_le_one_of_readCounted {element : Element}
    (hread : ∀ cursor v last, element.read d cursor = .ok (v, last) →
      last.remaining = 0 ∧ last.remaining < cursor.remaining) {count : Nat} {cursor last : Cursor}
    {items : List Value} (h : readCounted d element count cursor = .ok (items, last)) :
    items.length ≤ 1 := by
  rw [length_of_readCounted h]
  rcases count with - | - | count
  · exact Nat.zero_le 1
  · exact Nat.le_refl 1
  · obtain ⟨⟨v, next⟩, hv, h⟩ := bind_eq_ok.mp h
    obtain ⟨⟨vs, last'⟩, hvs, -⟩ := bind_eq_ok.mp h
    obtain ⟨⟨v', next'⟩, hv', -⟩ := bind_eq_ok.mp hvs
    -- the second element would take a byte where the first one left none
    have hfirst := (hread _ _ _ hv).1
    have hsecond := (hread _ _ _ hv').2
    omega

namespace Codec

variable {c : Codec} {s : Struct} {plan : Plan} {slots : List UnionSlot}
  {entries : List (Option WireEntry)} {st mid : Nat → Progress}

theorem Ran.remaining_le (hr : c.Ran d s plan slots entries st mid) (hd : d.Steady free) {i j : Nat}
    (hij : i ≤ j) (hj : j ≤ entries.length) :
    (st j).cursor.remaining ≤ (st i).cursor.remaining := by
  induction hij with
  | refl => exact Nat.le_refl _
  | @step k hik ih =>
    refine Nat.le_trans ?_ (ih (Nat.le_of_succ_le hj))
    rw [hr.cursor hj]
    cases he : entries[k] with
    | none => rw [hr.skip k (List.getElem?_eq_some_iff.mpr ⟨hj, he⟩)]
    | some e => exact remaining_le_of_readStep hd (hr.entry k e (List.getElem?_eq_some_iff.mpr ⟨hj, he⟩))

/-- Where the entry of a place leaves nothing, nothing is ahead from there on. -/
theorem Ran.remaining_eq_zero (hr : c.Ran d s plan slots entries st mid) (hd : d.Steady free)
    {i : Nat} (hzero : (mid i).cursor.remaining = 0) {j : Nat} (hij : i < j)
    (hj : j ≤ entries.length) : (st j).cursor.remaining = 0 := by
  have hle := hr.remaining_le hd (Nat.succ_le_of_lt hij) hj
  rw [hr.cursor (Nat.lt_of_lt_of_le hij hj), hzero] at hle
  exact Nat.le_zero.mp hle

theorem Ran.read_of_unconditioned (hr : c.Ran d s plan slots entries st mid) {i : Nat} {f : Field}
    (hf : s.fields[i]? = some f) (hconst : f.isConst = false) (hcond : f.condition = none) :
    ∃ shape, c.schema.Shaped s f shape ∧ i < entries.length ∧
      c.readStep d s plan (st i) (s.ownStep f shape) = .ok (mid i) ∧
      c.Performs d s plan f.name (st i) (s.ownStep f shape).op (mid i) := by
  have hunion := Struct.unionOf?_of_unconditioned hr.wellFormed.names (List.mem_of_getElem? hf) hcond
  obtain ⟨shape, hshape, he⟩ := hr.planned.entry_of_own hr.wellFormed hf hconst hunion
  refine ⟨shape, hshape, (List.getElem?_eq_some_iff.mp he).1, hr.entry i _ he, ?_⟩
  rcases hr.entry_cases he with ⟨hfalse, -⟩ | ⟨-, hread⟩
  · rw [hcond] at hfalse
    cases hfalse
  · exact performs_of_readOp hread

/-- Behind a part that goes on to the end nothing is left. -/
theorem Ran.exhausted_of_part (hr : c.Ran d s plan slots entries st mid) {i : Nat} {f : Field}
    (hf : s.fields[i]? = some f) (hcond : f.condition = none) (hstored : f.isStored = true)
    (hform : c.schema.types.form? f.typeName = none) (hd : d.Exhausts f.typeName) :
    i < entries.length ∧ (mid i).cursor.remaining = 0 := by
  obtain ⟨shape, hshape, hi, -, hdone⟩ :=
    hr.read_of_unconditioned hf (Field.isConst_of_isStored hstored) hcond
  rcases hshape.of_isStored hstored with ⟨l, rfl, hleaf⟩ | ⟨isInline, rfl, -⟩
  · rw [hform] at hleaf
    cases hleaf
  · refine ⟨hi, ?_⟩
    simp only [Struct.ownStep, WireEntry.step, WireEntry.decodeOp] at hdone
    generalize mid i = p' at hdone ⊢
    cases hdone with
    | nested hread => exact hd _ _ _ hread

theorem Ran.exhausted_of_fill (hr : c.Ran d s plan slots entries st mid) {i : Nat} {f : Field}
    (hf : s.fields[i]? = some f) (hcond : f.condition = none) (hfill : f.disposition = .arrayFill) :
    i < entries.length ∧ (mid i).cursor.remaining = 0 := by
  have hconst : f.isConst = false := by simp [Field.isConst, hfill, Disposition.role]
  obtain ⟨shape, hshape, hi, -, hdone⟩ := hr.read_of_unconditioned hf hconst hcond
  obtain ⟨element, -, rfl⟩ := hshape.of_fill hfill
  refine ⟨hi, ?_⟩
  simp only [Struct.ownStep, WireEntry.step, WireEntry.decodeOp] at hdone
  generalize mid i = p' at hdone ⊢
  cases hdone with
  | fill hitems => exact List.length_eq_zero_iff.mpr (readsItems_of_readToEnd hitems).2

/-- A struct that goes on to the end leaves nothing. -/
theorem Sound.exhausts_of_drains (hc : c.Sound) (hapart : c.schema.Apart)
    {name : String} (h : c.schema.Drains name) (n : Nat) : (c.decodeAt n).Exhausts name := by
  -- what is left after the field is left at the end
  have hend : ∀ {name : String} {s : Struct}, c.schema.struct? name = some s → ∀ {n : Nat},
      (∀ {plan slots entries st mid}, c.Ran (c.decodeAt n) s plan slots entries st mid →
        ∃ i < entries.length, (mid i).cursor.remaining = 0) →
      (c.decodeAt (n + 1)).Exhausts name := by
    intro name s hs n hfield cursor r last hread
    obtain ⟨s', plan, slots, entries, st, mid, hl, hr, -, -, rfl⟩ := hc.ran_of_decodeAt hread
    obtain rfl := Option.some.inj (hs.symm.trans (hc.planned_of_lookup hl).1)
    obtain ⟨i, hi, hzero⟩ := hfield hr
    exact hr.remaining_eq_zero (hc.decodeAt_steady n) hzero hi (Nat.le_refl _)
  induction h generalizing n with
  | fill hs hf hcond hd =>
    cases n with
    | zero => exact fun _ _ _ hread => nomatch hread
    | succ n =>
      refine hend hs fun hr => ?_
      obtain ⟨i, hi⟩ := List.mem_iff_getElem?.mp hf
      exact ⟨i, hr.exhausted_of_fill hi hcond hd⟩
  | part hs hf hcond hstored hdrains ih =>
    cases n with
    | zero => exact fun _ _ _ hread => nomatch hread
    | succ n =>
      obtain ⟨t, ht⟩ := Option.isSome_iff_exists.mp hdrains.hasStruct
      refine hend hs fun hr => ?_
      obtain ⟨i, hi⟩ := List.mem_iff_getElem?.mp hf
      exact ⟨i, hr.exhausted_of_part hi hcond hstored (hapart _ t ht) (ih n)⟩

theorem Ran.performs_of_get? (hr : c.Ran d s plan slots entries st mid) {i : Nat} {f : Field}
    (hf : s.fields[i]? = some f) (hconst : f.isConst = false) (hunion : s.unionOf? f.name = none)
    {v : Value} (hv : (st entries.length).record.get? f.name = some v) :
    ∃ shape, c.schema.Shaped s f shape ∧
      c.Performs d s plan f.name (st i) (s.ownStep f shape).op (mid i) ∧
      (mid i).record.get? f.name = some v := by
  obtain ⟨shape, hshape, he⟩ := hr.planned.entry_of_own hr.wellFormed hf hconst hunion
  refine ⟨shape, hshape, ?_, (hr.agree_own hf hunion).record.symm.trans hv⟩
  rcases hr.entry_cases he with ⟨-, hskip⟩ | ⟨-, hread⟩
  · rw [hr.get?_of_still hf hunion (by rw [hskip])] at hv
    cases hv
  · exact performs_of_readOp hread

theorem Ran.length_le_one (hr : c.Ran d s plan slots entries st mid) {f : Field} (hf : f ∈ s.fields)
    (hform : c.schema.types.form? f.typeName = none) (hexhausts : d.Exhausts f.typeName)
    (harray : f.disposition = .arrayFill ∨
      (∃ count, f.disposition = .array count) ∧ d.Advances f.typeName)
    {items : List Value} (hitems : (st entries.length).record.get? f.name = some (.list items)) :
    items.length ≤ 1 := by
  have hkind : f.isConst = false ∧ f.isStored = false := by
    rcases harray with hd | ⟨⟨count, hd⟩, -⟩ <;>
      simp [Field.isConst, Field.isStored, hd, Disposition.role]
  have hread : ∀ element, c.schema.ElementOf f.typeName element → ∀ cursor v last,
      element.read d cursor = .ok (v, last) → ∃ r, d f.typeName cursor = .ok (r, last) := by
    intro element helem cursor v last h
    cases helem with
    | leaf hleaf =>
      rw [hform] at hleaf
      cases hleaf
    | struct _ _ =>
      obtain ⟨⟨r, next⟩, hr, hpair⟩ := map_eq_ok.mp h
      cases hpair
      exact ⟨r, hr⟩
  obtain ⟨i, hi⟩ := List.mem_iff_getElem?.mp hf
  have hunion := hr.planned.unionOf?_of_not_stored hr.wellFormed hf (by simp [hkind.2])
  obtain ⟨shape, hshape, hdone, hget⟩ := hr.performs_of_get? hi hkind.1 hunion hitems
  simp only [Struct.ownStep, WireEntry.step] at hdone
  generalize mid i = p' at hdone hget
  have hsame : ∀ items' cursor, (((st i).store f.name (.list items')).moveTo cursor).record.get?
      f.name = some (.list items) → items' = items := by
    intro items' cursor h
    exact Value.list.inj (Option.some.inj ((Record.get?_insert_self _ _ _).symm.trans h))
  rcases harray with hfill | ⟨⟨count, hcounts⟩, hadvances⟩
  · obtain ⟨element, helem, rfl⟩ := hshape.of_fill hfill
    cases hdone with
    | fill hloop =>
      obtain rfl := hsame _ _ hget
      refine length_le_one_of_readToEnd (fun cursor v last h => ?_) hloop
      obtain ⟨r, hr⟩ := hread _ helem cursor v last h
      exact hexhausts _ _ _ hr
  · obtain ⟨element, helem, rfl⟩ := hshape.of_array hcounts
    cases hdone with
    | array _ hcounted =>
      obtain rfl := hsame _ _ hget
      refine length_le_one_of_readCounted (fun cursor v last h => ?_) hcounted
      obtain ⟨r, hr⟩ := hread _ helem cursor v last h
      exact ⟨hexhausts _ _ _ hr, hadvances _ _ _ hr⟩

end Codec

end Reading

/-- What the structs that go on to the end are in a struct of which a record was read: behind a plain or
inline field with one of them no field and no slot of a union takes a byte for sure, and an array of
them, which each take one, has one element at most. -/
structure Codec.FillsEnd (c : Codec) (s : Struct) (r : Record) : Prop where
  fields : ∀ (i : Nat) (f : Field), s.fields[i]? = some f → f.condition = none → f.isStored = true →
    c.schema.Drains f.typeName → ∀ (j : Nat) (g : Field), i < j → s.fields[j]? = some g →
      ¬ c.schema.TakesByte s g
  items : ∀ f ∈ s.fields, c.schema.Drains f.typeName → f.disposition = .arrayFill ∨
      (∃ count, f.disposition = .array count) ∧ c.schema.Solid f.typeName →
    ∀ items, r.get? f.name = some (.list items) → items.length ≤ 1

theorem Codec.Sound.fillsEnd_of_decodeAt {c : Codec} (hc : c.Sound) (hapart : c.schema.Apart)
    {n : Nat} {name : String} {s : Struct} (hs : c.schema.struct? name = some s)
    {cursor last : Cursor} {r : Record} (h : c.decodeAt (n + 1) name cursor = .ok (r, last)) :
    c.FillsEnd s r := by
  obtain ⟨s', plan, slots, entries, st, mid, hl, hr, -, rfl, -⟩ := hc.ran_of_decodeAt h
  obtain rfl := Option.some.inj (hs.symm.trans (hc.planned_of_lookup hl).1)
  have hd := hc.decodeAt_steady n
  have hform : ∀ {ty}, c.schema.Drains ty → c.schema.types.form? ty = none := fun hdrains =>
    (Option.isSome_iff_exists.mp hdrains.hasStruct).elim fun t ht => hapart _ t ht
  constructor
  case fields =>
    intro i f hf hcond hstored hdrains j g hij hg htakes
    obtain ⟨-, hzero⟩ := hr.exhausted_of_part hf hcond hstored (hform hdrains)
      (hc.exhausts_of_drains hapart hdrains n)
    obtain ⟨e, he, hentry⟩ := exists_entry_of_takesByte hr.planned hr.wellFormed hd hg htakes
      (hc.advancesIn n)
    have hnone := hr.remaining_eq_zero hd hzero hij
      (Nat.le_of_lt (List.getElem?_eq_some_iff.mp he).1)
    have hlt := hentry _ _ (hr.entry j e he)
    omega
  case items =>
    intro f hf hdrains harray items hitems
    have hexhausts := hc.exhausts_of_drains hapart hdrains n
    refine hr.length_le_one hf (hform hdrains) hexhausts (harray.imp id ?_) hitems
    exact fun hsolid => ⟨hsolid.1, hc.advancesIn n _ hsolid.2 (hform hdrains)⟩

/-- **Arrays that take the rest are last where a message can be read.** In every struct such an array is
the last field, and no member of a union has one in it. Where such an array lies in another struct, this
is not checked. But whatever is read, of a struct that goes on to the end nothing lies behind that takes
a byte for sure, and where there may be many of them, there is one at most. -/
theorem fills_end_messages {options : Options} {decls : List Declaration} {c : Codec}
    (hcompile : compile options decls = .ok c) {s : Struct} (hs : s ∈ c.schema.structs) :
    (∀ (i : Nat) (f : Field), s.fields[i]? = some f → f.disposition = .arrayFill →
        i + 1 = s.fields.length) ∧
      (∀ f ∈ s.fields, (s.unionOf? f.name).isSome = true → ¬ c.schema.ReachesFill f.typeName) ∧
      ∀ bytes r, c.decode s.name bytes = .ok r → c.FillsEnd s r := by
  have hc := sound_of_compile hcompile
  have hapart := Schema.apart_of_compile hcompile
  have hwf := hc.linked.wellFormed s hs
  refine ⟨hwf.fill, fun f hf hunion hreaches => ?_, fun bytes r h => ?_⟩
  · obtain ⟨g, hg⟩ := Option.isSome_iff_exists.mp hunion
    have hname : f.name ∈ g.members := by simpa using List.find?_some hg
    obtain ⟨f', -, hf', hfits, -⟩ := hc.linked.fitsUnion hs (List.mem_of_find?_eq_some hg) hname
    rw [Struct.field?_of_mem hwf.names hf] at hf'
    obtain rfl := Option.some.inj hf'
    obtain ⟨hstored, hsize⟩ := Bool.and_eq_true_iff.mp hfits
    have hnone := hreaches.fixedSizeAt?_eq_none hc.linked.toBuilt hapart c.schema.structs.length
    have hfixed : c.schema.fieldSize? f = c.schema.fixedSize? f.typeName := by
      unfold Schema.fieldSize? Field.sizeWith?
      rcases Field.disposition_of_isStored hstored with hd | hd <;> rw [hd]
    rw [hfixed] at hsize
    unfold Schema.fixedSize? at hsize
    rw [hnone] at hsize
    cases hsize
  · obtain ⟨hschema, -⟩ := compile_eq_ok.mp hcompile
    have hstruct := (find?_eq_some_of_nodup (Schema.nodup_of_ofDeclarations hschema)).mpr ⟨hs, rfl⟩
    obtain ⟨⟨r', used⟩, hprefix, h⟩ := bind_eq_ok.mp h
    obtain ⟨⟨r'', last⟩, hread, hpair⟩ := map_eq_ok.mp hprefix
    cases hpair
    dsimp only at h
    split at h
    · cases h
      exact hc.fillsEnd_of_decodeAt hapart hstruct hread
    · cases h

/-- A journal of entries, in which an entry is a tag and the rest of the buffer. -/
def journalDeclarations : List Declaration :=
  [ .struct { name := "Entry", comment := none, disposition := none
              fields :=
                [ { name := some "tag", typeName := some "uint8" },
                  { name := some "text", typeName := some "uint8"
                    disposition := some "array_fill" } ] },
    .struct { name := "Journal", comment := none, disposition := none
              fields :=
                [ { name := some "level", typeName := some "uint8" },
                  { name := some "entries", typeName := some "Entry"
                    disposition := some "array_fill" } ] } ]

/-- An entry goes on to the end, so a journal that is read has no second one. -/
theorem fills_end_messages_journal :
    let c := codecOf journalDeclarations
    compile {} journalDeclarations = .ok c ∧ c.schema.Drains "Entry" ∧
      ∃ r items, c.decode "Journal" [7, 1, 65, 66] = .ok r ∧
        r.get? "entries" = some (.list items) ∧ items.length ≤ 1 := by
  intro c
  have hcompile : compile {} journalDeclarations = .ok c := compile_codecOf (by decide +kernel)
  have hdrains : c.schema.Drains "Entry" := by
    have hfill : ∃ s ∈ c.schema.struct? "Entry", ∃ f ∈ s.fields, f.condition = none ∧
        f.disposition = .arrayFill := by decide +kernel
    obtain ⟨s, hs, f, hf, hcond, hd⟩ := hfill
    exact .fill hs hf hcond hd
  obtain ⟨s, hs, hname, f, hf, hfield, htype, hd⟩ : ∃ s ∈ c.schema.structs, s.name = "Journal" ∧
      ∃ f ∈ s.fields, f.name = "entries" ∧ f.typeName = "Entry" ∧ f.disposition = .arrayFill := by
    decide +kernel
  have hread : ∃ r ∈ (c.decode "Journal" [7, 1, 65, 66]).toOption,
      ((r.get? "entries").bind Value.list?).isSome = true := by decide +kernel
  obtain ⟨r, hr, hsome⟩ := exists_ok_of_toOption hread
  obtain ⟨items, hitems⟩ := Option.isSome_iff_exists.mp hsome
  obtain ⟨v, hv, hlist⟩ := Option.bind_eq_some_iff.mp hitems
  obtain rfl := Value.list?_eq_some.mp hlist
  obtain ⟨-, -, hends⟩ := fills_end_messages hcompile hs
  have hone := (hends _ _ (hname ▸ hr)).items f hf (htype ▸ hdrains) (Or.inl hd) items
    (hfield ▸ hv)
  exact ⟨hcompile, hdrains, r, items, hr, hv, hone⟩

/-- Something sealed, which has a check behind a tail that goes on to the end, and a stack of such
tails. -/
def sealedDeclarations : List Declaration :=
  [ .struct { name := "Tail", comment := none, disposition := none
              fields := [{ name := some "rest", typeName := some "uint8"
                           disposition := some "array_fill" }] },
    .struct { name := "Sealed", comment := none, disposition := none
              fields :=
                [ { name := some "tail", typeName := some "Tail" },
                  { name := some "check", typeName := some "uint8" } ] },
    .struct { name := "Stack", comment := none, disposition := none
              fields := [{ name := some "tails", typeName := some "Tail"
                           disposition := some "array_fill" }] } ]

/-- A tail of one byte. -/
def tailOf (n : Int) : Value :=
  (Record.mk "Tail" [("rest", .list [.int n])]).toValue

/-- Both are accepted. What is written of something sealed is not read, as the check is in the tail, and
what is written of a stack of two tails is read as one. -/
theorem fill_before_field :
    let c := codecOf sealedDeclarations
    let sealed : Record := { typeName := "Sealed", fields := [("check", .int 3), ("tail", tailOf 2)] }
    let stack : Record := { typeName := "Stack", fields := [("tails", .list [tailOf 1, tailOf 2])] }
    compile {} sealedDeclarations = .ok c ∧ c.schema.DeclaresFill "Tail" ∧
      (∃ s ∈ c.schema.structs, s.name = "Sealed" ∧
        s.fields.map (fun f => (f.name, f.typeName, f.disposition)) =
          [("tail", "Tail", .plain), ("check", "uint8", .plain)]) ∧
      c.encode sealed = .ok [2, 3] ∧ c.decode "Sealed" [2, 3] = .error (.outOfBounds 2 1) ∧
      c.encode stack = .ok [1, 2] ∧
      ∃ r, c.decode "Stack" [1, 2] = .ok r ∧
        ((r.get? "tails").bind Value.list?).map List.length = some 1 := by
  intro c sealed stack
  have hfill : ∃ s ∈ c.schema.struct? "Tail", ∃ f ∈ s.fields, f.disposition = .arrayFill := by
    decide +kernel
  refine ⟨compile_codecOf (by decide +kernel), hfill, by decide +kernel, by decide +kernel, ?_,
    by decide +kernel, exists_ok_of_toOption (by decide +kernel)⟩
  exact eq_error_of_map (f := fun _ => ()) (by decide +kernel)

end WireLayout
