import WireLayout.StructBuild
import WireLayout.Proofs.Outcome

/-!
# What the field checks establish

A struct that was built from a declaration is well-formed: its names are different, the types of its
fields are known, a condition tests a plain integer field, a vector's length stands in an earlier
plain integer field, and an array that takes the rest of the buffer is the last field.

The fields are taken in one by one, so the facts are first stated for drafts and kept by every field
that is added; resolving the conditions changes none of them.
-/

namespace WireLayout

namespace Field

/-- The earlier field that holds the element count or byte length of this vector. -/
def lengthName? (f : Field) : Option String :=
  match f.disposition with
  | .array (.field name) => some name
  | .arraySized layout => some layout.lengthField
  | _ => none

theorem disposition_of_sizedArray? {f : Field} {layout : SizedArray}
    (h : f.sizedArray? = some layout) : f.disposition = .arraySized layout := by
  unfold sizedArray? at h
  split at h
  · rename_i hd
    rw [hd, Option.some.inj h]
  · cases h

theorem disposition_of_countedBy? {f : Field} {name : String} (h : f.countedBy? = some name) :
    f.disposition = .array (.field name) := by
  unfold countedBy? at h
  split at h
  · rename_i hd
    rw [hd, Option.some.inj h]
  · cases h

theorem disposition_of_sizeOfTarget? {f : Field} {target : String}
    (h : f.sizeOfTarget? = some target) : f.disposition = .reserved (.sizeOf target) := by
  unfold sizeOfTarget? at h
  split at h
  · rename_i hd
    rw [hd, Option.some.inj h]
  · cases h

theorem lengthName?_of_sizedArray? {f : Field} {layout : SizedArray}
    (h : f.sizedArray? = some layout) :
    f.lengthName? = some layout.lengthField := by
  unfold lengthName?
  rw [disposition_of_sizedArray? h]

theorem lengthName?_of_countedBy? {f : Field} {name : String} (h : f.countedBy? = some name) :
    f.lengthName? = some name := by
  unfold lengthName?
  rw [disposition_of_countedBy? h]

/-- A field that holds a value of its own is plain or inline. -/
theorem disposition_of_isStored {f : Field} (h : f.isStored = true) :
    f.disposition = .plain ∨ f.disposition = .inline := by
  unfold isStored at h
  cases hd : f.disposition with
  | plain => exact Or.inl rfl
  | inline => exact Or.inr rfl
  | _ => simp [hd] at h

theorem isConst_of_isStored {f : Field} (h : f.isStored = true) : f.isConst = false := by
  rcases disposition_of_isStored h with hd | hd <;> simp [isConst, hd, Disposition.role]

theorem role_of_isStored {f : Field} (h : f.isStored = true) : f.disposition.role ≠ .reserved := by
  rcases disposition_of_isStored h with hd | hd <;> simp [hd, Disposition.role]

theorem sizedArray?_of_isStored {f : Field} (h : f.isStored = true) : f.sizedArray? = none := by
  rcases disposition_of_isStored h with hd | hd <;> simp [sizedArray?, hd]

theorem sizeOfTarget?_of_isStored {f : Field} (h : f.isStored = true) : f.sizeOfTarget? = none := by
  rcases disposition_of_isStored h with hd | hd <;> simp [sizeOfTarget?, hd]

/-- Whether the type of the field is one that its role allows. -/
def Typed (types : TypeTable) (f : Field) : Prop :=
  match f.disposition with
  | .plain | .array _ | .arrayFill => types.isTaken f.typeName = true
  | .inline => types.isStruct f.typeName = true
  | .reserved _ => ∃ t, types.intType? f.typeName = some t
  | .const _ | .arraySized _ => True

/-- Whether the field can be tested by a condition: plain, always present and an integer. -/
def Testable (types : TypeTable) (f : Field) : Prop :=
  f.isPlain = true ∧ ∃ t, types.intType? f.typeName = some t

end Field

theorem Field.isPlain_eq_true {f : Field} :
    f.isPlain = true ↔ f.disposition = .plain ∧ f.condition = none := by
  simp [Field.isPlain]

/-- A plain field of integer type is no constant and has no condition. -/
theorem Field.Testable.plain {types : TypeTable} {f : Field} (h : f.Testable types) :
    f.disposition = .plain ∧ f.condition = none := Field.isPlain_eq_true.mp h.1

/-- A field of another role is not tested by conditions. -/
theorem Field.not_testable {types : TypeTable} {f : Field} {d : Disposition}
    (hd : f.disposition = d) (hne : d ≠ .plain) : ¬ f.Testable types :=
  fun ht => hne (hd.symm.trans ht.plain.1)

/-- What the checks of fields establish about a struct. -/
structure Struct.WellFormed (types : TypeTable) (s : Struct) : Prop where
  /-- No two fields share a name. -/
  names : (s.fields.map (·.name)).Nodup
  /-- The types of the fields fit their roles. -/
  typed : ∀ f ∈ s.fields, f.Typed types
  /-- Conditions test plain integer fields. -/
  tested : ∀ f ∈ s.fields, ∀ c, f.condition = some c →
    ∃ g ∈ s.fields, g.name = c.field ∧ g.Testable types
  /-- Lengths stand in earlier plain number fields. -/
  counted : ∀ (i : Nat) (f : Field), s.fields[i]? = some f → ∀ name, f.lengthName? = some name →
    ∃ (j : Nat) (g : Field), j < i ∧ s.fields[j]? = some g ∧ g.name = name ∧ g.isPlain = true ∧
      types.isNumber g.typeName = true
  /-- An array that takes the rest of the buffer is the last field. -/
  fill : ∀ (i : Nat) (f : Field), s.fields[i]? = some f → f.disposition = .arrayFill →
    i + 1 = s.fields.length

/-! ## Single fields -/

/-- A number type has an integer form. -/
theorem TypeTable.intType_of_isNumber {types : TypeTable} {name : String}
    (h : types.isNumber name = true) : ∃ t, types.intType? name = some t := by
  unfold TypeTable.isNumber at h
  unfold TypeTable.intType? TypeTable.form?
  split at h
  · rename_i t ht
    exact ⟨t, by rw [ht]⟩
  · rename_i d hd
    split at h
    · rename_i t ht
      exact ⟨t, by rw [hd]; simp [ht, AliasLayout.form]⟩
    · exact absurd h Bool.false_ne_true
  · exact absurd h Bool.false_ne_true

/-- An enum has an integer form. -/
theorem TypeTable.intType_of_isEnum {types : TypeTable} {name : String}
    (h : types.isEnum name = true) : ∃ t, types.intType? name = some t := by
  unfold isEnum at h
  unfold intType? form?
  split at h
  · rename_i e he
    exact ⟨e.intType, by rw [he]⟩
  · cases h

namespace Scope

variable {scope : Scope} {d : FieldDecl} {role name : String}

theorem fresh_of_freshName {n : String} (h : scope.freshName n = .ok name) :
    name = n ∧ scope.members.has name = false := by
  unfold freshName at h
  split at h
  · cases h
  · rename_i hn
    cases h
    exact ⟨rfl, by simpa using hn⟩

theorem fresh_of_requireName (h : scope.requireName d role = .ok name) :
    scope.members.has name = false := by
  unfold requireName at h
  split at h
  · exact (fresh_of_freshName h).2
  · cases h

/-- A length stands in a member that is plain, always present and a number. -/
theorem plain_of_lengthField {owner size : String} (h : scope.lengthField owner size = .ok name) :
    ∃ m ∈ scope.members, m.name = name ∧ m.isPlain = true ∧
      scope.types.isNumber m.typeName = true := by
  unfold lengthField at h
  split at h
  · cases h
  · rename_i m hm
    split at h
    · rename_i hnum
      cases h
      obtain ⟨hfind, hplain⟩ := Option.filter_eq_some_iff.mp hm
      refine ⟨m, List.mem_of_find?_eq_some hfind, ?_, hplain, hnum⟩
      simpa using List.find?_some hfind
    · cases h

end Scope

/-- What the check of a field establishes in the scope of the earlier members. -/
structure Field.Checked (scope : Scope) (f : Field) : Prop where
  /-- The name is new. -/
  fresh : scope.members.has f.name = false
  /-- The condition is still to be resolved. -/
  unresolved : f.condition = none
  /-- The type fits the role. -/
  typed : f.Typed scope.types
  /-- A length stands in an earlier plain number field. -/
  counted : ∀ name, f.lengthName? = some name →
    ∃ m ∈ scope.members, m.name = name ∧ m.isPlain = true ∧
      scope.types.isNumber m.typeName = true

namespace FieldDecl

variable {d : FieldDecl} {scope : Scope} {f : Field}

theorem checked_of_checkPlain (h : d.checkPlain scope = .ok f) : f.Checked scope := by
  simp only [checkPlain, bind_eq_ok] at h
  obtain ⟨name, hname, ty, -, h⟩ := h
  split at h
  · rename_i hty
    cases h
    exact ⟨Scope.fresh_of_requireName hname, rfl, hty, fun _ hl => by cases hl⟩
  · cases h

theorem checked_of_checkConst (h : d.checkConst scope = .ok f) : f.Checked scope := by
  simp only [checkConst, bind_eq_ok] at h
  obtain ⟨name, hname, ty, -, h⟩ := h
  split at h
  · cases h
  · obtain ⟨value, -, h⟩ := bind_eq_ok.mp h
    cases h
    exact ⟨Scope.fresh_of_requireName hname, rfl, trivial, fun _ hl => by cases hl⟩

theorem checked_of_checkInline (h : d.checkInline scope = .ok f) : f.Checked scope := by
  simp only [checkInline, bind_eq_ok] at h
  obtain ⟨ty, -, h⟩ := h
  split at h
  · rename_i hty
    obtain ⟨name, hname, h⟩ := bind_eq_ok.mp h
    cases h
    exact ⟨(Scope.fresh_of_freshName hname).2, rfl, hty, fun _ hl => by cases hl⟩
  · cases h

theorem checked_of_checkReserved (h : d.checkReserved scope = .ok f) : f.Checked scope := by
  simp only [checkReserved, bind_eq_ok] at h
  obtain ⟨name, hname, ty, -, h⟩ := h
  split at h
  · cases h
  · rename_i t ht
    split at h
    · cases h
    · obtain ⟨value, -, h⟩ := bind_eq_ok.mp h
      cases h
      exact ⟨Scope.fresh_of_requireName hname, rfl, ⟨t, ht⟩, fun _ hl => by cases hl⟩

theorem checked_of_checkArray (h : d.checkArray scope = .ok f) : f.Checked scope := by
  simp only [checkArray, bind_eq_ok] at h
  obtain ⟨name, hname, ty, -, h⟩ := h
  split at h
  · rename_i hty
    split at h
    · cases h
    · rename_i size _
      obtain ⟨count, hcount, h⟩ := bind_eq_ok.mp h
      cases h
      refine ⟨Scope.fresh_of_requireName hname, rfl, hty, fun lname hl => ?_⟩
      cases count with
      | literal n => cases hl
      | field lname' =>
        cases hl
        unfold FieldDecl.count at hcount
        split at hcount
        · split at hcount <;> cases hcount
        · obtain ⟨a, ha, he⟩ := map_eq_ok.mp hcount
          cases he
          exact Scope.plain_of_lengthField ha
  · cases h

theorem checked_of_checkArraySized (h : d.checkArraySized scope = .ok f) : f.Checked scope := by
  simp only [checkArraySized, bind_eq_ok] at h
  obtain ⟨name, hname, h⟩ := h
  split at h
  · cases h
  · cases h
  · cases h
  · split at h
    · cases h
    · obtain ⟨lengthField, hlen, h⟩ := bind_eq_ok.mp h
      obtain ⟨align, -, h⟩ := bind_eq_ok.mp h
      cases h
      refine ⟨Scope.fresh_of_requireName hname, rfl, trivial, fun lname hl => ?_⟩
      cases hl
      exact Scope.plain_of_lengthField hlen

theorem checked_of_checkArrayFill (h : d.checkArrayFill scope = .ok f) : f.Checked scope := by
  simp only [checkArrayFill, bind_eq_ok] at h
  obtain ⟨name, hname, ty, -, h⟩ := h
  split at h
  · rename_i hty
    cases h
    exact ⟨Scope.fresh_of_requireName hname, rfl, hty, fun _ hl => by cases hl⟩
  · cases h

theorem checked_of_checkField {keyword : Option FieldKeyword}
    (h : d.checkField scope keyword = .ok f) : f.Checked scope := by
  cases keyword with
  | none => exact checked_of_checkPlain h
  | some keyword =>
    cases keyword with
    | const => exact checked_of_checkConst h
    | inline => exact checked_of_checkInline h
    | reserved => exact checked_of_checkReserved h
    | array => exact checked_of_checkArray h
    | arraySized => exact checked_of_checkArraySized h
    | arrayFill => exact checked_of_checkArrayFill h

end FieldDecl

/-! ## What an entry adds -/

/-- The keyword of a declared entry, if it has one. -/
def FieldDecl.keyword? (d : FieldDecl) : Option Keyword := d.disposition.bind Keyword.ofText?

/-- Whether an entry declares a field under a keyword, or under none. -/
def FieldDecl.Declares (d : FieldDecl) : Option FieldKeyword → Prop
  | none => d.disposition = none
  | some keyword => d.keyword? = some (.field keyword)

namespace Drafts

variable {types : TypeTable} {options : Options} {drafts drafts' : Drafts} {d : FieldDecl}

theorem addField_eq_ok {keyword : Option FieldKeyword} :
    drafts.addField types keyword d = .ok drafts' ↔ drafts.fill? = none ∧
      ∃ f pending, d.checkField (drafts.scope types) keyword = .ok f ∧
        d.checkConditionKeys = .ok pending ∧
        { drafts with fields := drafts.fields ++ [{ field := f, pending }] } = drafts' := by
  unfold addField
  cases drafts.fill? with
  | some fill => simp
  | none => simp only [bind_eq_ok, Except.ok.injEq, true_and, exists_and_left]

theorem addDiscriminator_eq_ok :
    drafts.addDiscriminator types options d = .ok drafts' ↔ drafts.discriminator = none ∧
      ∃ entry,
        d.checkDiscriminator (drafts.scope types) options.defaultHeaderTypeField = .ok entry ∧
        { drafts with discriminator := some entry } = drafts' := by
  unfold addDiscriminator
  cases drafts.discriminator with
  | some entry => simp
  | none => simp [bind_eq_ok]

/-- An entry is taken in as a field, or as what identifies the struct. -/
theorem add_eq_ok :
    drafts.add types options d = .ok drafts' ↔
      (∃ keyword, d.Declares keyword ∧ drafts.addField types keyword d = .ok drafts') ∨
        d.keyword? = some .structType ∧
          drafts.addDiscriminator types options d = .ok drafts' := by
  rw [Option.exists]
  unfold add FieldDecl.Declares FieldDecl.keyword?
  cases hdisposition : d.disposition with
  | none => simp
  | some text =>
    cases hkeyword : Keyword.ofText? text with
    | none => simp [hkeyword]
    | some keyword => cases keyword <;> simp [hkeyword]

end Drafts

/-! ## All fields of a struct -/

/-- What holds of the drafts of a struct's fields: as `Struct.WellFormed`, the conditions being
still open. -/
structure Drafts.Sound (types : TypeTable) (ds : List Draft) : Prop where
  /-- No two drafts share a name. -/
  names : (ds.map (·.field.name)).Nodup
  /-- No condition is resolved. -/
  unresolved : ∀ d ∈ ds, d.field.condition = none
  /-- The types of the fields fit their roles. -/
  typed : ∀ d ∈ ds, d.field.Typed types
  /-- Lengths stand in earlier plain number fields. -/
  counted : ∀ (i : Nat) (d : Draft), ds[i]? = some d → ∀ name, d.field.lengthName? = some name →
    ∃ (j : Nat) (e : Draft), j < i ∧ ds[j]? = some e ∧ e.member.name = name ∧
      e.member.isPlain = true ∧ types.isNumber e.member.typeName = true
  /-- An array that takes the rest of the buffer is the last draft. -/
  fill : ∀ (i : Nat) (d : Draft), ds[i]? = some d → d.field.disposition = .arrayFill →
    i + 1 = ds.length

namespace Drafts

variable {types : TypeTable} {options : Options} {drafts drafts' : Drafts} {ds : List Draft}

theorem Sound.nil (types : TypeTable) : Sound types [] where
  names := List.nodup_nil
  unresolved := by simp
  typed := by simp
  counted := by simp
  fill := by simp

/-- A checked field may be added, unless an array takes the rest of the buffer. -/
theorem Sound.snoc (h : Sound types ds) {f : Field} {pending : Option PendingCondition}
    (hf : f.Checked { types, members := ds.map Draft.member })
    (hfill : ∀ d ∈ ds, d.field.disposition ≠ .arrayFill) :
    Sound types (ds ++ [{ field := f, pending }]) where
  names := by
    rw [List.map_append, List.nodup_append]
    refine ⟨h.names, by simp, ?_⟩
    intro n hn n' hn' hnn
    obtain ⟨d, hd, rfl⟩ := List.mem_map.mp hn
    simp only [List.map_cons, List.map_nil, List.mem_singleton] at hn'
    have hfresh := hf.fresh
    simp only [Members.has, Members.named?, Option.isSome_eq_false_iff, Option.isNone_iff_eq_none,
      List.find?_eq_none, List.mem_map, forall_exists_index, and_imp] at hfresh
    exact hfresh d.member d hd rfl (by simp [Draft.member, hnn, hn'])
  unresolved := by
    intro d hd
    rcases List.mem_append.mp hd with hd | hd
    · exact h.unresolved d hd
    · rw [List.mem_singleton.mp hd]; exact hf.unresolved
  typed := by
    intro d hd
    rcases List.mem_append.mp hd with hd | hd
    · exact h.typed d hd
    · rw [List.mem_singleton.mp hd]; exact hf.typed
  counted := by
    intro i d hd name hname
    rcases Nat.lt_trichotomy i ds.length with hi | rfl | hi
    · rw [List.getElem?_append_left hi] at hd
      obtain ⟨j, e, hj, he, hrest⟩ := h.counted i d hd name hname
      exact ⟨j, e, hj, by rw [List.getElem?_append_left (by omega), he], hrest⟩
    · rw [List.getElem?_concat_length, Option.some.injEq] at hd
      subst hd
      obtain ⟨m, hm, hname, hplain, hnum⟩ := hf.counted name hname
      obtain ⟨e, he, rfl⟩ := List.mem_map.mp hm
      obtain ⟨j, hj⟩ := List.mem_iff_getElem?.mp he
      have hlt := (List.getElem?_eq_some_iff.mp hj).1
      exact ⟨j, e, hlt, by rw [List.getElem?_append_left hlt, hj], hname, hplain, hnum⟩
    · rw [List.getElem?_eq_none (by simp; omega)] at hd
      cases hd
  fill := by
    intro i d hd hdisp
    rcases Nat.lt_trichotomy i ds.length with hi | rfl | hi
    · rw [List.getElem?_append_left hi] at hd
      exact absurd hdisp (hfill d (List.mem_of_getElem? hd))
    · simp
    · rw [List.getElem?_eq_none (by simp; omega)] at hd
      cases hd

/-- Every entry that is taken in keeps the drafts sound. -/
theorem Sound.add {d : FieldDecl} (h : Sound types drafts.fields)
    (hadd : drafts.add types options d = .ok drafts') : Sound types drafts'.fields := by
  rcases add_eq_ok.mp hadd with ⟨keyword, -, hadd⟩ | ⟨-, hadd⟩
  · obtain ⟨hfill, f, pending, hf, -, rfl⟩ := addField_eq_ok.mp hadd
    refine h.snoc (FieldDecl.checked_of_checkField hf) fun e he => ?_
    simp only [fill?, Option.map_eq_none_iff, List.find?_eq_none, beq_iff_eq] at hfill
    exact hfill e he
  · obtain ⟨-, entry, -, rfl⟩ := addDiscriminator_eq_ok.mp hadd
    exact h

/-- The drafts of all entries are sound. -/
theorem sound_of_foldlM {decls : List FieldDecl}
    (h : decls.foldlM (fun drafts f => drafts.add types options f) ({} : Drafts) = .ok drafts) :
    Sound types drafts.fields :=
  foldlM_invariant (fun drafts => Sound types drafts.fields)
    (fun _ _ _ _ hs ha => hs.add ha) (Sound.nil types) h

end Drafts

/-- Resolving the condition of a draft changes nothing else. -/
theorem Draft.field_of_resolve {scope : Scope} {d : Draft} {f : Field}
    (h : d.resolve scope = .ok f) :
    ∃ c, f = { d.field with condition := c } ∧
      ((c = d.field.condition ∧ d.pending = none) ∨
        ∃ p cond, d.pending = some p ∧ c = some cond ∧
          p.resolve scope d.field.name = .ok cond) := by
  unfold Draft.resolve at h
  split at h
  · rename_i hp
    cases h
    exact ⟨_, rfl, Or.inl ⟨rfl, hp⟩⟩
  · rename_i p hp
    obtain ⟨cond, hcond, rfl⟩ := map_eq_ok.mp h
    exact ⟨_, rfl, Or.inr ⟨p, cond, hp, rfl, hcond⟩⟩

/-- A resolved condition tests a plain member of integer type. -/
theorem PendingCondition.tested_of_resolve {p : PendingCondition} {scope : Scope} {owner : String}
    {c : Condition} (h : p.resolve scope owner = .ok c) :
    ∃ m ∈ scope.members, m.name = c.field ∧ m.isPlain = true ∧
      ∃ t, scope.types.intType? m.typeName = some t := by
  unfold PendingCondition.resolve at h
  split at h
  · cases h
  · rename_i m hm
    split at h
    · rename_i htest
      split at h
      · cases h
        simp only [Bool.and_eq_true] at htest
        exact ⟨m, List.mem_of_find?_eq_some hm, by simpa using List.find?_some hm, htest.1,
          Option.isSome_iff_exists.mp htest.2⟩
      · cases h
    · cases h

/-- Whether a field is plain is known before its condition is resolved. -/
theorem Draft.isPlain_of_resolve {scope : Scope} {d : Draft} {f : Field}
    (hd : d.field.condition = none) (h : d.resolve scope = .ok f)
    (hplain : d.member.isPlain = true) : f.isPlain = true := by
  simp only [Draft.member, Bool.and_eq_true, beq_iff_eq, Option.isNone_iff_eq_none] at hplain
  obtain ⟨c, rfl, ⟨rfl, -⟩ | ⟨p, cond, hp, -⟩⟩ := Draft.field_of_resolve h
  · simp [Field.isPlain, hplain.1, hd]
  · rw [hplain.2] at hp
    cases hp

theorem StructDecl.wellFormed_of_check {d : StructDecl} {types : TypeTable} {options : Options}
    {s : Struct} (h : d.check types options = .ok s) : s.WellFormed types := by
  simp only [StructDecl.check, bind_eq_ok] at h
  obtain ⟨kind, -, drafts, hdrafts, fields, hfields, -, -, h⟩ := h
  have hs : s.fields = fields := by
    cases h
    unfold StructDecl.assemble
    split <;> rfl
  have hsound := Drafts.sound_of_foldlM hdrafts
  have hres := mapM_eq_ok.mp hfields
  have hfield : ∀ (i : Nat) (f : Field), s.fields[i]? = some f →
      ∃ d : Draft, drafts.fields[i]? = some d ∧ d.resolve (drafts.scope types) = .ok f := by
    intro i f hf
    rw [hs] at hf
    obtain ⟨d, hd, hR⟩ := forall₂_getElem? hres.flip hf
    exact ⟨d, hd, hR⟩
  have hmember : ∀ d ∈ drafts.fields, d.member.isPlain = true → ∃ g ∈ s.fields,
      g.name = d.member.name ∧ g.typeName = d.member.typeName ∧ g.isPlain = true := by
    intro d hd hplain
    obtain ⟨g, hg, hR⟩ := forall₂_mem_left hres hd
    refine ⟨g, hs ▸ hg, ?_, ?_, Draft.isPlain_of_resolve (hsound.unresolved d hd) hR hplain⟩
    all_goals obtain ⟨c, rfl, -⟩ := Draft.field_of_resolve hR; rfl
  constructor
  case names =>
    have hnames : drafts.fields.map (·.field.name) = fields.map (·.name) := by
      refine forall₂_map_eq hres fun d f hR => ?_
      obtain ⟨c, rfl, -⟩ := Draft.field_of_resolve hR
      rfl
    rw [hs, ← hnames]
    exact hsound.names
  case typed =>
    intro f hf
    obtain ⟨i, hi⟩ := List.mem_iff_getElem?.mp hf
    obtain ⟨d, hd, hR⟩ := hfield i f hi
    obtain ⟨c, rfl, -⟩ := Draft.field_of_resolve hR
    exact hsound.typed d (List.mem_of_getElem? hd)
  case tested =>
    intro f hf c hc
    obtain ⟨i, hi⟩ := List.mem_iff_getElem?.mp hf
    obtain ⟨d, hd, hR⟩ := hfield i f hi
    obtain ⟨c', rfl, ⟨rfl, -⟩ | ⟨p, cond, -, rfl, hcond⟩⟩ := Draft.field_of_resolve hR
    · rw [show d.field.condition = none from hsound.unresolved d (List.mem_of_getElem? hd)] at hc
      cases hc
    · cases hc
      obtain ⟨m, hm, hname, hplain, t, ht⟩ := PendingCondition.tested_of_resolve hcond
      obtain ⟨e, he, rfl⟩ := List.mem_map.mp hm
      obtain ⟨g, hg, hgn, hgt, hgp⟩ := hmember e he hplain
      exact ⟨g, hg, hgn.trans hname, hgp, t, by rw [hgt]; exact ht⟩
  case counted =>
    intro i f hf name hname
    obtain ⟨d, hd, hR⟩ := hfield i f hf
    obtain ⟨c, rfl, -⟩ := Draft.field_of_resolve hR
    obtain ⟨j, e, hj, he, hen, hplain, hnum⟩ := hsound.counted i d hd name hname
    obtain ⟨g, hg, hgR⟩ := forall₂_getElem? hres he
    have hgp := Draft.isPlain_of_resolve (hsound.unresolved e (List.mem_of_getElem? he)) hgR hplain
    refine ⟨j, g, hj, by rw [hs]; exact hg, ?_, hgp, ?_⟩
    · obtain ⟨c', rfl, -⟩ := Draft.field_of_resolve hgR
      exact hen
    · obtain ⟨c', rfl, -⟩ := Draft.field_of_resolve hgR
      exact hnum
  case fill =>
    intro i f hf hdisp
    obtain ⟨d, hd, hR⟩ := hfield i f hf
    obtain ⟨c, rfl, -⟩ := Draft.field_of_resolve hR
    rw [hs, ← hres.length_eq]
    exact hsound.fill i d hd hdisp

end WireLayout
