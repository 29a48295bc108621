import WireLayout.Proofs.Checked

/-!
# Values that a schema fixes

A schema fixes the values of constants, of reserved fields and of discriminators. The checks of a
struct establish that each is a value of its type: a number that the type has, or that of a member of
the enum.
-/

namespace WireLayout

/-- Whether a name has a value in an enum. -/
def TypeTable.HasMember (types : TypeTable) (enumName member : String) (value : Int) : Prop :=
  ∃ e, types.enum? enumName = some e ∧ e.valueOf? member = some value

/-- Whether an integer is one of an integer type. -/
def TypeTable.HasInt (types : TypeTable) (ty : String) (value : Int) : Prop :=
  ∃ t, types.intType? ty = some t ∧ t.contains value = true

/-- Whether the value that a field is fixed to, if it is fixed, is one of its type. -/
def Field.Fits (types : TypeTable) (f : Field) : Prop :=
  match f.disposition with
  | .const (.int v) => types.HasInt f.typeName v
  | .const (.member name v) => types.HasMember f.typeName name v
  | .reserved (.int v) => types.HasInt f.typeName v
  | .reserved (.member name v) => types.HasMember f.typeName name v
  | _ => True

/-! ## Single entries -/

namespace TypeTable

variable {types : TypeTable} {name : String} {e : EnumDef}

/-- What a name means as an enum is an enum of this name. -/
theorem mem_of_enum? (h : types.enum? name = some e) :
    .enum e ∈ types.defs ∧ e.name = name ∧ types.find? name = some (.enum e) := by
  unfold enum? at h
  split at h
  case h_2 => cases h
  rename_i d hfind
  cases h
  exact ⟨List.mem_of_find?_eq_some hfind, by simpa [TypeDef.name] using List.find?_some hfind, hfind⟩

theorem enum?_of_resolve? (h : types.resolve? name = some (.enum e)) : types.enum? name = some e := by
  unfold resolve? at h
  split at h
  · cases h
  · obtain ⟨d, hfind, hd⟩ := Option.map_eq_some_iff.mp h
    unfold enum?
    rw [hfind]
    cases d <;> cases hd
    rfl

end TypeTable

namespace FieldDecl

variable {d : FieldDecl} {scope : Scope} {f : Field}

/-- The value of a constant is one of its type. -/
theorem fits_of_constValue {name ty : String} {raw : Scalar} {value : ConstValue}
    (h : constValue scope name ty raw = .ok value) {f : Field} (hty : f.typeName = ty)
    (hd : f.disposition = .const value) : f.Fits scope.types := by
  unfold Field.Fits
  rw [hd, hty]
  unfold constValue at h
  split at h
  · cases h
  · split at h
    · split at h
      · rename_i t ht
        split at h
        · rename_i hcontains
          cases h
          exact ⟨t, ht, hcontains⟩
        · cases h
      · cases h
    · cases h
  · rename_i e hresolve _
    dsimp only at h
    split at h
    · rename_i v hv
      cases h
      exact ⟨e, TypeTable.enum?_of_resolve? hresolve, hv⟩
    · cases h
  · cases h

/-- The value of a reserved field is one of its type. -/
theorem fits_of_reservedValue {name ty : String} {t : IntType} {raw : Scalar} {value : ReservedValue}
    (h : reservedValue scope name ty t raw = .ok value) (ht : scope.types.intType? ty = some t)
    {f : Field} (hty : f.typeName = ty) (hd : f.disposition = .reserved value) :
    f.Fits scope.types := by
  unfold Field.Fits
  rw [hd, hty]
  unfold reservedValue at h
  split at h
  · split at h
    · rename_i hcontains
      cases h
      exact ⟨t, ht, hcontains⟩
    · cases h
  · split at h
    · cases h
      trivial
    · split at h
      · rename_i v hv
        cases h
        obtain ⟨e, he, hv⟩ := Option.bind_eq_some_iff.mp hv
        exact ⟨e, he, hv⟩
      · cases h
    · cases h

/-- A field that was checked is fixed to a value of its type, if it is fixed. -/
theorem fits_of_checkField {keyword : Option FieldKeyword} (h : d.checkField scope keyword = .ok f) :
    f.Fits scope.types := by
  match keyword with
  | none =>
    simp only [checkField, checkPlain, bind_eq_ok] at h
    obtain ⟨name, -, ty, -, h⟩ := h
    split at h <;> cases h
    trivial
  | some .const =>
    simp only [checkField, checkConst, bind_eq_ok] at h
    obtain ⟨name, -, ty, -, h⟩ := h
    split at h
    · cases h
    · obtain ⟨value, hvalue, h⟩ := bind_eq_ok.mp h
      cases h
      exact fits_of_constValue hvalue rfl rfl
  | some .inline =>
    simp only [checkField, checkInline, bind_eq_ok] at h
    obtain ⟨ty, -, h⟩ := h
    split at h
    · obtain ⟨name, -, h⟩ := bind_eq_ok.mp h
      cases h
      trivial
    · cases h
  | some .reserved =>
    simp only [checkField, checkReserved, bind_eq_ok] at h
    obtain ⟨name, -, ty, -, h⟩ := h
    split at h
    · cases h
    · rename_i t ht
      split at h
      · cases h
      · obtain ⟨value, hvalue, h⟩ := bind_eq_ok.mp h
        cases h
        exact fits_of_reservedValue hvalue ht rfl rfl
  | some .array =>
    simp only [checkField, checkArray, bind_eq_ok] at h
    obtain ⟨name, -, ty, -, h⟩ := h
    split at h
    · split at h
      · cases h
      · obtain ⟨count, -, h⟩ := bind_eq_ok.mp h
        cases h
        trivial
    · cases h
  | some .arraySized =>
    simp only [checkField, checkArraySized, bind_eq_ok] at h
    obtain ⟨name, -, h⟩ := h
    split at h
    · cases h
    · cases h
    · cases h
    · split at h
      · cases h
      · obtain ⟨lengthField, -, h⟩ := bind_eq_ok.mp h
        obtain ⟨align, -, h⟩ := bind_eq_ok.mp h
        cases h
        trivial
  | some .arrayFill =>
    simp only [checkField, checkArrayFill, bind_eq_ok] at h
    obtain ⟨name, -, ty, -, h⟩ := h
    split at h <;> cases h
    trivial

/-- A discriminator is a member of its group's enum. -/
theorem hasMember_of_checkDiscriminator {defaultTypeField : String} {entry : Discriminator}
    (h : d.checkDiscriminator scope defaultTypeField = .ok entry) :
    scope.types.HasMember entry.identity.group entry.identity.member entry.identity.value := by
  simp only [checkDiscriminator, bind_eq_ok] at h
  obtain ⟨ty, -, h⟩ := h
  split at h
  · cases h
  rename_i group hgroup
  split at h
  · cases h
  split at h
  · cases h
  rename_i member _
  split at h
  · cases h
  rename_i value hvalue
  obtain ⟨version, -, h⟩ := bind_eq_ok.mp h
  cases h
  obtain ⟨-, hname, -⟩ := TypeTable.mem_of_enum? hgroup
  exact ⟨group, hname ▸ hgroup, hvalue⟩

end FieldDecl

/-! ## Structs -/

/-- What holds of the drafts of a struct: their fixed values and the discriminator are of their types. -/
structure Drafts.Fits (types : TypeTable) (drafts : Drafts) : Prop where
  fields : ∀ d ∈ drafts.fields, d.field.Fits types
  discriminator : ∀ entry, drafts.discriminator = some entry →
    types.HasMember entry.identity.group entry.identity.member entry.identity.value

namespace Drafts

variable {types : TypeTable} {options : Options} {drafts drafts' : Drafts} {d : FieldDecl}

theorem Fits.addField (h : drafts.Fits types) {keyword : Option FieldKeyword}
    (hadd : drafts.addField types keyword d = .ok drafts') : drafts'.Fits types := by
  obtain ⟨-, f, pending, hf, -, rfl⟩ := addField_eq_ok.mp hadd
  refine ⟨fun e he => ?_, h.discriminator⟩
  rcases List.mem_append.mp he with he | he
  · exact h.fields e he
  · rw [List.mem_singleton.mp he]
    exact FieldDecl.fits_of_checkField hf

theorem Fits.addDiscriminator (h : drafts.Fits types)
    (hadd : drafts.addDiscriminator types options d = .ok drafts') : drafts'.Fits types := by
  obtain ⟨-, entry, hentry, rfl⟩ := addDiscriminator_eq_ok.mp hadd
  refine ⟨h.fields, fun entry' heq => ?_⟩
  cases heq
  exact FieldDecl.hasMember_of_checkDiscriminator hentry

/-- Every entry that is taken in keeps the values fitting. -/
theorem Fits.add (h : drafts.Fits types) (hadd : drafts.add types options d = .ok drafts') :
    drafts'.Fits types := by
  rcases add_eq_ok.mp hadd with ⟨keyword, -, hadd⟩ | ⟨-, hadd⟩
  · exact h.addField hadd
  · exact h.addDiscriminator hadd

theorem fits_of_foldlM {decls : List FieldDecl}
    (h : decls.foldlM (fun drafts f => drafts.add types options f) ({} : Drafts) = .ok drafts) :
    drafts.Fits types :=
  foldlM_invariant (fun drafts => drafts.Fits types) (fun _ _ _ _ hs ha => hs.add ha)
    ⟨by simp, by simp⟩ h

end Drafts

namespace StructDecl

variable {d : StructDecl} {types : TypeTable} {options : Options} {s : Struct}

/-- Every fixed value of a struct that was built is one of its field's type. -/
theorem fits_of_check (h : d.check types options = .ok s) : ∀ f ∈ s.fields, f.Fits types := by
  simp only [StructDecl.check, bind_eq_ok] at h
  obtain ⟨kind, -, drafts, hdrafts, fields, hfields, -, -, h⟩ := h
  have hs : s.fields = fields := by
    cases h
    unfold StructDecl.assemble
    split <;> rfl
  intro f hf
  obtain ⟨draft, hdraft, hR⟩ := forall₂_mem_right (mapM_eq_ok.mp hfields) (hs ▸ hf)
  obtain ⟨c, rfl, -⟩ := Draft.field_of_resolve hR
  exact (Drafts.fits_of_foldlM hdrafts).fields draft hdraft

/-- The identity that a struct declares is a member of its group's enum. -/
theorem hasMember_of_check (h : d.check types options = .ok s) {identity : Identity}
    (hidentity : s.identity = some identity) :
    types.HasMember identity.group identity.member identity.value := by
  have hfits := fits_of_check h
  simp only [StructDecl.check, bind_eq_ok] at h
  obtain ⟨kind, -, drafts, hdrafts, fields, -, -, -, h⟩ := h
  cases h
  unfold StructDecl.assemble at hfits hidentity
  split at hidentity
  · rename_i entry hentry
    cases hidentity
    exact (Drafts.fits_of_foldlM hdrafts).discriminator entry hentry
  · rename_i hnone
    rw [hnone] at hfits
    obtain ⟨f, hfind, hvalue⟩ := Option.bind_eq_some_iff.mp hidentity
    have hfit := hfits f (List.mem_of_find?_eq_some hfind)
    unfold Field.constValue? at hvalue
    unfold Field.Fits at hfit
    cases hd : f.disposition with
    | const value =>
      cases value with
      | int v => simp [hd] at hvalue
      | member name v =>
        simp only [hd, Option.some.injEq] at hvalue hfit
        subst hvalue
        exact hfit
    | _ => simp [hd] at hvalue

end StructDecl

end WireLayout
