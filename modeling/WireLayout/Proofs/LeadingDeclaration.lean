import WireLayout.Proofs.Checked
import WireLayout.Proofs.FixedValues
import WireLayout.Proofs.LeadingConstant

/-!
# Declaring a constant before the other fields

The checks of a field see the members before it, and those of a condition or a promised size all
members. One more member, under a name that none of the others has, is neither in the way of a name nor
found under one that is looked up: what passed a check passes it again, with the same result.
-/

namespace WireLayout

/-! ## Scopes with one more member -/

theorem Members.named?_cons {members : Members} {m : Member} {name : String} (hne : name ≠ m.name) :
    Members.named? (m :: members) name = Members.named? members name := by
  unfold named?
  rw [List.find?_cons_of_neg (by simpa using hne.symm)]

theorem Members.ne_of_named? {members : Members} {m x : Member} {name : String}
    (hnew : ∀ y ∈ members, y.name ≠ m.name) (h : members.named? name = some x) : name ≠ m.name := by
  have hname : x.name = name := by simpa using List.find?_some h
  exact hname ▸ hnew x (List.mem_of_find?_eq_some h)

namespace Scope

variable {scope : Scope} {m : Member}

/-- The scope with another member before those that are known. -/
def behind (scope : Scope) (m : Member) : Scope := { scope with members := m :: scope.members }

theorem freshName_behind {n name : String} (h : scope.freshName n = .ok name) (hne : name ≠ m.name) :
    (scope.behind m).freshName n = .ok name := by
  obtain ⟨rfl, hfree⟩ := fresh_of_freshName h
  unfold Members.has at hfree
  unfold freshName Members.has behind
  rw [Members.named?_cons hne, hfree]
  rfl

theorem requireName_behind {d : FieldDecl} {role name : String}
    (h : scope.requireName d role = .ok name) (hne : name ≠ m.name) :
    (scope.behind m).requireName d role = .ok name := by
  unfold requireName at h ⊢
  cases hname : d.name with
  | none => simp [hname] at h
  | some n =>
    simp only [hname] at h ⊢
    exact freshName_behind h hne

variable (hnew : ∀ x ∈ scope.members, x.name ≠ m.name)

include hnew

theorem lengthField_behind {owner size name : String}
    (h : scope.lengthField owner size = .ok name) :
    (scope.behind m).lengthField owner size = .ok name := by
  obtain ⟨x, hx⟩ : ∃ x, scope.members.named? size = some x := by
    unfold lengthField at h
    cases hx : scope.members.named? size with
    | none => simp [hx] at h
    | some x => exact ⟨x, rfl⟩
  unfold lengthField at h ⊢
  rw [show (scope.behind m).members.named? size = scope.members.named? size from
    Members.named?_cons (Members.ne_of_named? hnew hx)]
  exact h

theorem checkSizeOf_behind {owner target : String} (h : scope.checkSizeOf owner target = .ok ()) :
    (scope.behind m).checkSizeOf owner target = .ok () := by
  unfold checkSizeOf Members.has at h ⊢
  split at h
  · rename_i hhas
    obtain ⟨x, hx⟩ := Option.isSome_iff_exists.mp hhas
    rw [show (scope.behind m).members.named? target = scope.members.named? target from
      Members.named?_cons (Members.ne_of_named? hnew hx), if_pos hhas]
  · cases h

theorem checkSizeOfTargets_behind {fields : List Field}
    (h : scope.checkSizeOfTargets fields = .ok ()) :
    (scope.behind m).checkSizeOfTargets fields = .ok () := by
  refine forM_eq_ok.mpr fun f hf => ?_
  have hf := forM_eq_ok.mp h f hf
  cases htarget : f.sizeOfTarget? with
  | none => rfl
  | some target =>
    simp only [htarget] at hf ⊢
    exact checkSizeOf_behind hnew hf

end Scope

namespace FieldDecl

variable {d : FieldDecl} {scope : Scope} {m : Member} {f : Field}

theorem checkPlain_behind (h : d.checkPlain scope = .ok f) (hne : f.name ≠ m.name) :
    d.checkPlain (scope.behind m) = .ok f := by
  simp only [checkPlain, bind_eq_ok] at h ⊢
  obtain ⟨name, hname, ty, hty, h⟩ := h
  refine ⟨name, Scope.requireName_behind hname ?_, ty, hty, h⟩
  split at h <;> cases h
  exact hne

theorem checkConst_behind (h : d.checkConst scope = .ok f) (hne : f.name ≠ m.name) :
    d.checkConst (scope.behind m) = .ok f := by
  simp only [checkConst, bind_eq_ok] at h ⊢
  obtain ⟨name, hname, ty, hty, h⟩ := h
  refine ⟨name, Scope.requireName_behind hname ?_, ty, hty, h⟩
  split at h
  · cases h
  · obtain ⟨value, -, h⟩ := bind_eq_ok.mp h
    cases h
    exact hne

theorem checkInline_behind (h : d.checkInline scope = .ok f) (hne : f.name ≠ m.name) :
    d.checkInline (scope.behind m) = .ok f := by
  simp only [checkInline, bind_eq_ok] at h ⊢
  obtain ⟨ty, hty, h⟩ := h
  refine ⟨ty, hty, ?_⟩
  split at h
  · rename_i hstruct
    obtain ⟨name, hname, h⟩ := bind_eq_ok.mp h
    cases h
    rw [if_pos (show (scope.behind m).types.isStruct ty = true from hstruct)]
    exact bind_eq_ok.mpr ⟨name, Scope.freshName_behind hname hne, rfl⟩
  · cases h

theorem checkReserved_behind (h : d.checkReserved scope = .ok f) (hne : f.name ≠ m.name) :
    d.checkReserved (scope.behind m) = .ok f := by
  simp only [checkReserved, bind_eq_ok] at h ⊢
  obtain ⟨name, hname, ty, hty, h⟩ := h
  refine ⟨name, Scope.requireName_behind hname ?_, ty, hty, h⟩
  split at h
  · cases h
  · split at h
    · cases h
    · obtain ⟨value, -, h⟩ := bind_eq_ok.mp h
      cases h
      exact hne

theorem checkArrayFill_behind (h : d.checkArrayFill scope = .ok f) (hne : f.name ≠ m.name) :
    d.checkArrayFill (scope.behind m) = .ok f := by
  simp only [checkArrayFill, bind_eq_ok] at h ⊢
  obtain ⟨name, hname, ty, hty, h⟩ := h
  refine ⟨name, Scope.requireName_behind hname ?_, ty, hty, h⟩
  split at h <;> cases h
  exact hne

variable (hnew : ∀ x ∈ scope.members, x.name ≠ m.name)

include hnew

theorem count_behind {name : String} {size : Scalar} {n : Count}
    (h : count scope name size = .ok n) : count (scope.behind m) name size = .ok n := by
  unfold count at h ⊢
  cases hsize : size.integer? with
  | some v =>
    simp only [hsize] at h ⊢
    exact h
  | none =>
    simp only [hsize] at h ⊢
    obtain ⟨field, hfield, rfl⟩ := map_eq_ok.mp h
    rw [Scope.lengthField_behind hnew hfield]
    rfl

theorem checkArray_behind (h : d.checkArray scope = .ok f) (hne : f.name ≠ m.name) :
    d.checkArray (scope.behind m) = .ok f := by
  simp only [checkArray, bind_eq_ok] at h ⊢
  obtain ⟨name, hname, ty, hty, h⟩ := h
  split at h
  · rename_i htaken
    split at h
    · cases h
    · obtain ⟨n, hn, h⟩ := bind_eq_ok.mp h
      cases h
      refine ⟨name, Scope.requireName_behind hname hne, ty, hty, ?_⟩
      rw [if_pos (show (scope.behind m).types.isTaken ty = true from htaken)]
      exact bind_eq_ok.mpr ⟨n, count_behind hnew hn, rfl⟩
  · cases h

theorem checkArraySized_behind (h : d.checkArraySized scope = .ok f) (hne : f.name ≠ m.name) :
    d.checkArraySized (scope.behind m) = .ok f := by
  simp only [checkArraySized, bind_eq_ok] at h ⊢
  obtain ⟨name, hname, h⟩ := h
  split at h
  · cases h
  · cases h
  · cases h
  · split at h
    · cases h
    · obtain ⟨lengthField, hlength, h⟩ := bind_eq_ok.mp h
      obtain ⟨align, halign, h⟩ := bind_eq_ok.mp h
      cases h
      refine ⟨name, Scope.requireName_behind hname hne, ?_⟩
      exact bind_eq_ok.mpr ⟨lengthField, Scope.lengthField_behind hnew hlength,
        bind_eq_ok.mpr ⟨align, halign, rfl⟩⟩

/-- What passed the check of a field passes it with another member before it. -/
theorem checkField_behind {keyword : Option FieldKeyword} (h : d.checkField scope keyword = .ok f)
    (hne : f.name ≠ m.name) : d.checkField (scope.behind m) keyword = .ok f := by
  cases keyword with
  | none => exact checkPlain_behind h hne
  | some keyword =>
    cases keyword with
    | const => exact checkConst_behind h hne
    | inline => exact checkInline_behind h hne
    | reserved => exact checkReserved_behind h hne
    | array => exact checkArray_behind hnew h hne
    | arraySized => exact checkArraySized_behind hnew h hne
    | arrayFill => exact checkArrayFill_behind h hne

end FieldDecl

/-! ## Drafts -/

theorem Draft.resolve_behind {d : Draft} {scope : Scope} {m : Member} {f : Field}
    (hnew : ∀ x ∈ scope.members, x.name ≠ m.name) (h : d.resolve scope = .ok f) :
    d.resolve (scope.behind m) = .ok f := by
  unfold Draft.resolve at h ⊢
  cases hpending : d.pending with
  | none => simpa only [hpending] using h
  | some p =>
    simp only [hpending] at h ⊢
    obtain ⟨c, hc, rfl⟩ := map_eq_ok.mp h
    refine map_eq_ok.mpr ⟨c, ?_, rfl⟩
    unfold PendingCondition.resolve at hc ⊢
    cases hx : scope.members.named? p.field with
    | none => simp [hx] at hc
    | some x =>
      rw [show (scope.behind m).members.named? p.field = some x from
        (Members.named?_cons (Members.ne_of_named? hnew hx)).trans hx]
      simp only [hx] at hc
      exact hc

namespace Drafts

variable {types : TypeTable} {options : Options} {drafts drafts' : Drafts} {first : Draft}

/-- The drafts with another one before them. -/
def behind (drafts : Drafts) (first : Draft) : Drafts :=
  { drafts with fields := first :: drafts.fields }

theorem subset_of_add {d : FieldDecl} (h : drafts.add types options d = .ok drafts') :
    drafts.fields ⊆ drafts'.fields := by
  rcases add_eq_ok.mp h with ⟨keyword, -, hadd⟩ | ⟨-, hadd⟩
  · obtain ⟨-, f, pending, -, -, rfl⟩ := addField_eq_ok.mp hadd
    exact List.subset_append_left _ _
  · obtain ⟨-, entry, -, rfl⟩ := addDiscriminator_eq_ok.mp hadd
    exact List.Subset.refl _

theorem subset_of_foldlM {decls : List FieldDecl}
    (h : decls.foldlM (fun drafts f => drafts.add types options f) drafts = .ok drafts') :
    drafts.fields ⊆ drafts'.fields :=
  foldlM_invariant (fun after : Drafts => drafts.fields ⊆ after.fields)
    (fun _ _ _ _ hbefore hadd _ hx => subset_of_add hadd (hbefore hx)) (fun _ hx => hx) h

section Behind

variable (hfill : first.field.disposition ≠ .arrayFill)

include hfill

theorem add_behind {d : FieldDecl} (h : drafts.add types options d = .ok drafts')
    (hnew : ∀ x ∈ drafts'.fields, x.field.name ≠ first.field.name) :
    (drafts.behind first).add types options d = .ok (drafts'.behind first) := by
  rcases add_eq_ok.mp h with ⟨keyword, hdeclares, hadd⟩ | ⟨hkeyword, hadd⟩
  · obtain ⟨hnofill, f, pending, hf, hpending, rfl⟩ := addField_eq_ok.mp hadd
    have hmembers : ∀ x ∈ drafts.members, x.name ≠ first.member.name := by
      intro x hx
      obtain ⟨y, hy, rfl⟩ := List.mem_map.mp hx
      exact hnew y (List.mem_append_left _ hy)
    have hchecked := FieldDecl.checkField_behind (m := first.member) hmembers hf
      (hnew _ (List.mem_append_right _ List.mem_cons_self))
    refine add_eq_ok.mpr (.inl ⟨keyword, hdeclares, ?_⟩)
    refine addField_eq_ok.mpr ⟨?_, f, pending, hchecked, hpending, rfl⟩
    unfold fill? behind at *
    rwa [List.find?_cons_of_neg (by simpa using hfill)]
  · obtain ⟨hnone, entry, hentry, rfl⟩ := addDiscriminator_eq_ok.mp hadd
    refine add_eq_ok.mpr (.inr ⟨hkeyword, ?_⟩)
    exact addDiscriminator_eq_ok.mpr ⟨hnone, entry, hentry, rfl⟩

theorem foldlM_behind {decls : List FieldDecl}
    (h : decls.foldlM (fun drafts f => drafts.add types options f) drafts = .ok drafts')
    (hnew : ∀ x ∈ drafts'.fields, x.field.name ≠ first.field.name) :
    decls.foldlM (fun drafts f => drafts.add types options f) (drafts.behind first) =
      .ok (drafts'.behind first) := by
  induction decls generalizing drafts with
  | nil =>
    obtain rfl := pure_eq_ok.mp h
    rfl
  | cons d rest ih =>
    rw [List.foldlM_cons] at h ⊢
    obtain ⟨next, hadd, h⟩ := bind_eq_ok.mp h
    refine bind_eq_ok.mpr ⟨next.behind first, ?_, ih h⟩
    exact add_behind hfill hadd fun x hx => hnew x (subset_of_foldlM h hx)

end Behind

end Drafts

/-! ## Entries -/

theorem FieldDecl.Declares.unique {d : FieldDecl} {declared : Option FieldKeyword}
    {keyword : FieldKeyword} (h : d.Declares declared) (hkeyword : d.Declares (some keyword)) :
    declared = some keyword := by
  unfold Declares at h hkeyword
  cases declared with
  | none => simp [keyword?, h] at hkeyword
  | some other =>
    rw [h] at hkeyword
    cases hkeyword
    rfl

/-- An entry that is always there. -/
def FieldDecl.unconditional (d : FieldDecl) : FieldDecl :=
  { d with condition := none, conditionOperation := none, conditionValue := none }

namespace FieldDecl

variable {d : FieldDecl} {scope : Scope} {f : Field}

theorem eq_of_checkConst {name : String} (hname : d.name = some name)
    (h : d.checkConst scope = .ok f) : ∃ ty value, f = d.toField name ty (.const value) := by
  simp only [checkConst, bind_eq_ok] at h
  obtain ⟨n, hn, ty, -, h⟩ := h
  obtain rfl : n = name := by
    unfold Scope.requireName at hn
    rw [hname] at hn
    exact (Scope.fresh_of_freshName hn).1
  split at h
  · cases h
  · obtain ⟨value, -, h⟩ := bind_eq_ok.mp h
    cases h
    exact ⟨ty, value, rfl⟩

/-- A constant that passed its check passes it where no members are known. -/
theorem checkConst_unconditional (h : d.checkConst scope = .ok f) :
    d.unconditional.checkConst { types := scope.types, members := [] } = .ok f := by
  simp only [checkConst, bind_eq_ok] at h ⊢
  obtain ⟨name, hname, ty, hty, h⟩ := h
  refine ⟨name, ?_, ty, hty, h⟩
  unfold Scope.requireName at hname ⊢
  rw [show d.unconditional.name = d.name from rfl]
  cases hd : d.name with
  | none => simp [hd] at hname
  | some n =>
    simp only [hd] at hname ⊢
    rw [(Scope.fresh_of_freshName hname).1]
    rfl

end FieldDecl

namespace Drafts

variable {types : TypeTable} {options : Options} {drafts drafts' : Drafts}

/-- Every declared field is among the drafts, as its check gave it. -/
theorem exists_of_mem {decls : List FieldDecl}
    (h : decls.foldlM (fun drafts f => drafts.add types options f) ({} : Drafts) = .ok drafts)
    {d : FieldDecl} (hd : d ∈ decls) {keyword : FieldKeyword}
    (hkeyword : d.keyword? = some (.field keyword)) :
    ∃ scope f pending, scope.types = types ∧ d.checkField scope (some keyword) = .ok f ∧
      { field := f, pending } ∈ drafts.fields := by
  obtain ⟨earlier, later, rfl⟩ := List.append_of_mem hd
  obtain ⟨before, after, -, hadd, h⟩ := foldlM_split h
  rcases add_eq_ok.mp hadd with ⟨declared, hdeclared, hadd⟩ | ⟨hstruct, -⟩
  · obtain rfl := hdeclared.unique hkeyword
    obtain ⟨-, f, pending, hf, -, rfl⟩ := addField_eq_ok.mp hadd
    exact ⟨before.scope types, f, pending, rfl, hf,
      subset_of_foldlM h (List.mem_append_right _ List.mem_cons_self)⟩
  · rw [hkeyword] at hstruct
    cases hstruct

theorem discriminator_of_foldlM {decls : List FieldDecl}
    (hentries : ∀ d ∈ decls, d.keyword? ≠ some .structType)
    (h : decls.foldlM (fun drafts f => drafts.add types options f) ({} : Drafts) = .ok drafts) :
    drafts.discriminator = none := by
  refine foldlM_invariant (fun drafts : Drafts => drafts.discriminator = none) ?_ rfl h
  intro d hd before after hbefore hadd
  rcases add_eq_ok.mp hadd with ⟨keyword, -, hadd⟩ | ⟨hstruct, -⟩
  · obtain ⟨-, f, pending, -, -, rfl⟩ := addField_eq_ok.mp hadd
    exact hbefore
  · exact absurd hstruct (hentries d hd)

end Drafts

/-! ## Structs -/

theorem find?_of_isConst {fields : List Field} (hnames : (fields.map (·.name)).Nodup) {f : Field}
    (hf : f ∈ fields) (hconst : f.isConst = true) {name : String} (hname : f.name = name) :
    fields.find? (fun g => g.isConst && g.name == name) = some f := by
  cases hfind : fields.find? fun g => g.isConst && g.name == name with
  | none => exact absurd (by simp [hconst, hname]) (List.find?_eq_none.mp hfind f hf)
  | some g =>
    have hg := List.find?_some hfind
    rw [Bool.and_eq_true, beq_iff_eq] at hg
    rw [List.inj_on_of_nodup_map hnames (List.mem_of_find?_eq_some hfind) hf
      (hg.2.trans hname.symm)]

theorem conventionalVersion_behind {k : Field} {fields : List Field} {versionConst : String}
    (hne : k.name ≠ versionConst) :
    conventionalVersion (k :: fields) versionConst = conventionalVersion fields versionConst := by
  unfold conventionalVersion
  rw [List.find?_cons_of_neg (by simp [hne])]

namespace StructDecl

variable {types : TypeTable} {options : Options}

/-- The struct that is declared with another field before the others. -/
def behind (d : StructDecl) (first : FieldDecl) : StructDecl :=
  { d with fields := first :: d.fields }

/-- A struct without a discriminator entry has the identity and the version that constants give. -/
theorem conventional_of_check {d : StructDecl} {s : Struct} (h : d.check types options = .ok s)
    (hentries : ∀ f ∈ d.fields, f.keyword? ≠ some .structType) :
    s.identity = conventionalIdentity s.fields options.typeConst ∧
      s.version = conventionalVersion s.fields options.versionConst := by
  simp only [check, bind_eq_ok] at h
  obtain ⟨kind, -, drafts, hdrafts, fields, -, -, -, h⟩ := h
  rw [Drafts.discriminator_of_foldlM hentries hdrafts] at h
  cases h
  exact ⟨rfl, rfl⟩

/-- A struct without a discriminator entry that was built is built with another constant first, which
may give it another identity. -/
theorem check_behind {d : StructDecl} {s : Struct} (h : d.check types options = .ok s)
    (hentries : ∀ f ∈ d.fields, f.keyword? ≠ some .structType) {first : FieldDecl} {k : Field}
    (hfirst : ({} : Drafts).add types options first =
      .ok { fields := [{ field := k, pending := none }] })
    (hspares : s.Spares k) (hversion : k.name ≠ options.versionConst) :
    (d.behind first).check types options =
      .ok (s.behind k (conventionalIdentity (k :: s.fields) options.typeConst)) := by
  simp only [check, bind_eq_ok] at h ⊢
  obtain ⟨kind, hkind, drafts, hdrafts, fields, hfields, u, htargets, h⟩ := h
  have hnone := Drafts.discriminator_of_foldlM hentries hdrafts
  have hassemble : d.assemble options kind fields none = s := by
    rw [hnone] at h
    exact Except.ok.inj h
  have hs : s.fields = fields := by
    rw [← hassemble]
    rfl
  have hresolved := mapM_eq_ok.mp hfields
  -- no draft has the constant's name, as no field has it
  have hnew : ∀ x ∈ drafts.fields, x.field.name ≠ k.name := by
    intro x hx
    obtain ⟨f, hf, hresolve⟩ := forall₂_mem_left hresolved hx
    obtain ⟨c, rfl, -⟩ := Draft.field_of_resolve hresolve
    rw [← hs] at hf
    have hfresh := hspares.fresh _ hf
    exact hfresh
  have hmembers : ∀ x ∈ (drafts.scope types).members, x.name ≠ k.name := by
    intro x hx
    obtain ⟨y, hy, rfl⟩ := List.mem_map.mp hx
    exact hnew y hy
  obtain ⟨value, hvalue⟩ := Field.disposition_of_isConst hspares.isConst
  have hfill : k.disposition ≠ .arrayFill := by simp [hvalue]
  refine ⟨kind, hkind, drafts.behind { field := k, pending := none }, ?_, k :: fields, ?_, (), ?_, ?_⟩
  · rw [show (d.behind first).fields = first :: d.fields from rfl, List.foldlM_cons, hfirst]
    exact Drafts.foldlM_behind hfill hdrafts hnew
  · refine mapM_eq_ok.mpr (.cons rfl (hresolved.imp fun x f hresolve => ?_))
    exact Draft.resolve_behind (m := Draft.member { field := k, pending := none }) hmembers hresolve
  · refine forM_eq_ok.mpr fun f hf => ?_
    rcases List.mem_cons.mp hf with rfl | hf
    · rw [Field.sizeOfTarget?_of_isConst hspares.isConst]
    · exact forM_eq_ok.mp (Scope.checkSizeOfTargets_behind
        (m := Draft.member { field := k, pending := none }) hmembers htargets) f hf
  · rw [show (drafts.behind { field := k, pending := none }).discriminator = none from hnone, hs,
      ← hassemble]
    unfold assemble
    rw [conventionalVersion_behind hversion]
    rfl

/-- The constant that gives a struct its identity gives it to every struct that it comes first in. -/
theorem exists_constant_of_check {b : StructDecl} {base : Struct}
    (h : b.check types options = .ok base)
    (hentries : ∀ f ∈ b.fields, f.keyword? ≠ some .structType) {k : FieldDecl} (hk : k ∈ b.fields)
    (hkeyword : k.keyword? = some (.field .const)) (hname : k.name = some options.typeConst)
    {identity : Identity} (hidentity : base.identity = some identity) :
    ∃ f : Field, f.isConst = true ∧ f.name = options.typeConst ∧ f.typeName = identity.group ∧
      (∀ fields, conventionalIdentity (f :: fields) options.typeConst = some identity) ∧
      ({} : Drafts).add types options k.unconditional =
        .ok { fields := [{ field := f, pending := none }] } := by
  have hnames := (wellFormed_of_check h).names
  have hgiven := (conventional_of_check h hentries).1.symm.trans hidentity
  simp only [check, bind_eq_ok] at h
  obtain ⟨kind, -, drafts, hdrafts, fields, hfields, -, -, h⟩ := h
  rw [Drafts.discriminator_of_foldlM hentries hdrafts] at h
  cases h
  obtain ⟨scope, f, pending, rfl, hf, hmem⟩ := Drafts.exists_of_mem hdrafts hk hkeyword
  obtain ⟨ty, value, rfl⟩ := FieldDecl.eq_of_checkConst hname hf
  obtain ⟨g, hg, hresolve⟩ := forall₂_mem_left (mapM_eq_ok.mp hfields) hmem
  obtain ⟨c, rfl, -⟩ := Draft.field_of_resolve hresolve
  -- perhaps with a condition, the constant is the one that is found in its own struct
  have hname' : (k.toField options.typeConst ty (.const value)).name = options.typeConst := rfl
  unfold conventionalIdentity at hgiven
  rw [find?_of_isConst hnames hg rfl hname', Option.bind_some] at hgiven
  cases value with
  | int v => cases hgiven
  | member member v =>
    cases hgiven
    refine ⟨k.toField options.typeConst ty (.const (.member member v)), rfl, rfl, rfl, ?_, ?_⟩
    · intro others
      unfold conventionalIdentity
      rw [List.find?_cons_of_pos (by simp [FieldDecl.toField, Field.isConst, Disposition.role])]
      rfl
    · have hkeyword' : k.unconditional.keyword? = some (.field .const) := hkeyword
      refine Drafts.add_eq_ok.mpr (.inl ⟨some .const, hkeyword', ?_⟩)
      exact Drafts.addField_eq_ok.mpr
        ⟨rfl, _, none, FieldDecl.checkConst_unconditional hf, rfl, rfl⟩

end StructDecl

end WireLayout
