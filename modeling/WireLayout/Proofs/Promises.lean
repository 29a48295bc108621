import WireLayout.Proofs.Complete
import WireLayout.Proofs.Places

/-!
# Promised sizes

A reserved field may promise the size of another field. A reader compares the two as soon as it knows
the other field, with the record it has by then; a writer computes the size from the whole record. The
two sizes are the same, unless the presence or the length of the other field depends on a number of
elements, which only the whole record tells.
-/

namespace WireLayout

/-- Whether the presence and the byte length of a field whose size is promised do not depend on a
number of elements. -/
def Schema.PromisesSettled (schema : Schema) : Prop :=
  ∀ s ∈ schema.structs, ∀ f ∈ s.fields, ∀ target ∈ f.sizeOfTarget?, ∀ g ∈ s.fields,
    g.name = target → (∀ c ∈ g.condition, s.isCount c.field = false) ∧
      ∀ layout ∈ g.sizedArray?, s.isCount layout.lengthField = false

instance (schema : Schema) : Decidable schema.PromisesSettled :=
  inferInstanceAs (Decidable (∀ s ∈ schema.structs, ∀ f ∈ s.fields, ∀ target ∈ f.sizeOfTarget?,
    ∀ g ∈ s.fields, g.name = target → (∀ c ∈ g.condition, s.isCount c.field = false) ∧
      ∀ layout ∈ g.sizedArray?, s.isCount layout.lengthField = false))

namespace Schema.Planned

variable {schema : Schema} {s : Struct} {plan : Plan} {slots : List UnionSlot}
  {entries : List (Option WireEntry)}

/-- The field that a condition tests is known when the field of the condition is. -/
theorem tested_le_ready (hp : schema.Planned s plan slots entries) (hs : s.WellFormed schema.types)
    {f : Field} (hf : f ∈ s.fields) (hconst : f.isConst = false) {cond : Condition}
    (hc : f.condition = some cond) {k : Nat} {g : Field} (hk : s.fields[k]? = some g)
    (hname : g.name = cond.field) (ht : g.Testable schema.types) :
    k ≤ s.ready slots f.name := by
  obtain ⟨i, hi⟩ := List.mem_iff_getElem?.mp hf
  cases hunion : s.unionOf? f.name with
  | none =>
    have hown := hp.ready_of_own hs hi hunion
    have hlt := Struct.tested_before hs.names hi hconst hc hunion hk hname ht.plain.2
    omega
  | some u =>
    obtain ⟨slot, hslot, -, m, hm, hmname, hmc⟩ := hp.slot_of_union hs hf hunion
    obtain ⟨f', hf', hn', -, hc', htest, -⟩ := hp.member_of_slot hs hslot hm
    have hpos := Struct.position?_of_getElem? hs.names hk
    have hcf : cond.field = slot.conditionField := by
      rw [hc] at hmc
      rw [Option.some.inj hmc, htest]
    rw [← hmname, hp.ready_of_member hs hslot hm]
    exact Struct.tested_le_slotReady (hcf ▸ hname ▸ hpos)

end Schema.Planned

namespace Codec

variable {c : Codec} {s : Struct} {plan : Plan} {slots : List UnionSlot}
  {entries : List (Option WireEntry)} {r part : Record} {place : Nat}

/-- What the size of a field depends on is the same in a complete record and in a part of it that
holds what is known after a place. -/
theorem Sound.sameSizes (hc : c.Sound) (hl : c.lookup r.typeName = .ok (s, plan))
    (hp : c.schema.Planned s plan slots entries) (hcomplete : c.Complete r)
    (hpart : ∀ x, s.ready slots x ≤ place → part.get? x = r.get? x) {f : Field} (hf : f ∈ s.fields)
    (hready : s.ready slots f.name ≤ place)
    (hcond : ∀ cond ∈ f.condition, s.isCount cond.field = false)
    (hsized : ∀ layout ∈ f.sizedArray?, s.isCount layout.lengthField = false)
    (initial initial' : List Initializer) :
    Frame.SameSizes c.schema c.measure (Frame.mk s plan part initial) (Frame.mk s plan r initial')
      f := by
  obtain ⟨-, hmem, -⟩ := hc.planned_of_lookup hl
  have hs := hc.linked.wellFormed s hmem
  have hhere := hcomplete r (.refl r)
  obtain ⟨i, hi⟩ := List.mem_iff_getElem?.mp hf
  -- an integer that is known by then is the same in both records
  have hagree : ∀ k g, s.fields[k]? = some g → g.Testable c.schema.types → k ≤ place →
      s.isCount g.name = false →
        (Frame.mk s plan part initial).AgreeOn (Frame.mk s plan r initial') g.name := by
    intro k g hg ht hle hcount
    have hgmem := List.mem_of_getElem? hg
    have hunion := Struct.unionOf?_of_unconditioned hs.names hgmem ht.plain.2
    have hk := hp.ready_of_own hs hg hunion
    obtain ⟨v, hv⟩ :=
      Option.isSome_iff_exists.mp (hhere.isSome_of_testable hl hs hgmem ht hcount)
    exact Or.inr ⟨hcount, v, (hpart _ (hk ▸ hle)).trans hv, hv⟩
  have htested : f.isConst = false → ∀ cond, f.condition = some cond →
      (Frame.mk s plan part initial).AgreeOn (Frame.mk s plan r initial') cond.field := by
    intro hconst cond hc
    obtain ⟨g, hg, hname, ht⟩ := hs.tested f hf cond hc
    obtain ⟨k, hk⟩ := List.mem_iff_getElem?.mp hg
    have hle := hp.tested_le_ready hs hf hconst hc hk hname ht
    have hcount : s.isCount g.name = false := hname ▸ hcond cond hc
    exact hname ▸ hagree k g hk ht (Nat.le_trans hle hready) hcount
  constructor
  case value => exact (hpart f.name hready).symm
  case tested => exact htested
  case length =>
    intro layout hlayout
    obtain ⟨j, g, hlt, hg, hname, hplain, hnum⟩ :=
      hs.counted i f hi _ (Field.lengthName?_of_sizedArray? hlayout)
    have hd := Field.disposition_of_sizedArray? hlayout
    have hunion := hp.unionOf?_of_not_stored hs hf (by simp [Field.isStored, hd])
    have hown := hp.ready_of_own hs hi hunion
    exact hname ▸ hagree j g hg ⟨hplain, TypeTable.intType_of_isNumber hnum⟩ (by omega)
      (hname ▸ hsized layout hlayout)
  case present =>
    intro hstored hform hunion hholds
    have hstruct : (Frame.mk s plan r initial').struct = (Frame.mk s plan part initial).struct := rfl
    have hfull := (Frame.holds_congr hstruct hs hf (htested (Field.isConst_of_isStored hstored))
      c.measure c.measure).trans hholds
    have hcount : s.isCount f.name = false := by
      rw [Bool.eq_false_iff]
      intro hcount
      obtain ⟨t, ht⟩ := (hs.testable_of_isCount hf hcount).2
      rw [TypeTable.form?_of_intType? ht] at hform
      cases hform
    have hsome := hhere s plan hl f hf hstored hcount hunion c.measure initial' hfull
    rw [← hpart f.name hready] at hsome
    exact hsome
  case nested =>
    intro x hget initial initial'
    have hget := (hpart f.name hready).symm.trans hget
    exact hc.sizeAt_congr (hcomplete.within (Record.within_of_get? hget)) _ _ _ _

/-- The promised size of a field is the same in a complete record and in a part of it that holds what
is known after a place. -/
theorem Sound.fieldSize_eq (hc : c.Sound) (hsettled : c.schema.PromisesSettled)
    (hl : c.lookup r.typeName = .ok (s, plan)) (hp : c.schema.Planned s plan slots entries)
    (hcomplete : c.Complete r) (hpart : ∀ x, s.ready slots x ≤ place → part.get? x = r.get? x)
    {f : Field} (hf : f ∈ s.fields) {target : String} (htarget : f.sizeOfTarget? = some target)
    (hready : s.ready slots target ≤ place) (initial initial' : List Initializer) :
    (Frame.mk s plan r initial').fieldSize c.schema c.measure target =
      (Frame.mk s plan part initial).fieldSize c.schema c.measure target := by
  obtain ⟨-, hmem, -⟩ := hc.planned_of_lookup hl
  refine Frame.fieldSize_congr (Frame.mk s plan part initial) (Frame.mk s plan r initial') rfl rfl
    (hc.linked.wellFormed s hmem) hp ?_
  intro g hg hname
  obtain ⟨hcond, hsized⟩ := hsettled s hmem f hf target htarget g hg hname
  exact hc.sameSizes hl hp hcomplete hpart hg (hname ▸ hready) hcond hsized initial initial'

end Codec

/-! ## Promises that a reader can check -/

/-- Whether every vector has a number of elements: none goes on to the end of the buffer, and none has
its length in bytes. -/
def Schema.AllCounted (schema : Schema) : Prop :=
  ∀ s ∈ schema.structs, ∀ f ∈ s.fields, f.disposition ≠ .arrayFill ∧ f.sizedArray? = none

/-- Whether two conditions that test the same field never hold together. -/
def Condition.excludes (c c' : Condition) : Bool :=
  (c.op == .equals && !c'.holds c.value) || (c'.op == .equals && !c.holds c'.value)

/-- Whether a member of a union whose size is promised is never there together with another one. -/
def Schema.PromisesExclusive (schema : Schema) : Prop :=
  ∀ s ∈ schema.structs, ∀ f ∈ s.fields, ∀ target ∈ f.sizeOfTarget?, ∀ g ∈ s.fields,
    g.name = target → (s.unionOf? target).isSome = true → ∀ h ∈ s.fields, h.name ≠ target →
      ∀ cond ∈ g.condition, ∀ cond' ∈ h.condition, cond'.field = cond.field →
        cond.excludes cond' = true

/-- Whether no initial value is one of a member of a union whose size is promised. -/
def Schema.SparesPromises (schema : Schema) (initial : List Initializer) : Prop :=
  ∀ i ∈ initial, ∀ s ∈ schema.structs, ∀ f ∈ s.fields, ∀ target ∈ f.sizeOfTarget?,
    (s.unionOf? target).isSome = true → i.path.getLast? ≠ some target

/-- Whether the presence of a field whose size is promised can be told from the bytes up to it. -/
structure Codec.PromisesTold (c : Codec) : Prop where
  /-- It does not depend on a number of elements. -/
  settled : c.schema.PromisesSettled
  /-- It is the only member of its union that can be there. -/
  exclusive : c.schema.PromisesExclusive
  /-- It has no initial value there. -/
  spared : ∀ plan ∈ c.plans, c.schema.SparesPromises plan.initializers

instance (schema : Schema) : Decidable schema.AllCounted :=
  inferInstanceAs (Decidable (∀ s ∈ schema.structs, ∀ f ∈ s.fields,
    f.disposition ≠ .arrayFill ∧ f.sizedArray? = none))

instance (schema : Schema) : Decidable schema.PromisesExclusive :=
  inferInstanceAs (Decidable (∀ s ∈ schema.structs, ∀ f ∈ s.fields, ∀ target ∈ f.sizeOfTarget?,
    ∀ g ∈ s.fields, g.name = target → (s.unionOf? target).isSome = true → ∀ h ∈ s.fields,
      h.name ≠ target → ∀ cond ∈ g.condition, ∀ cond' ∈ h.condition, cond'.field = cond.field →
        cond.excludes cond' = true))

instance (schema : Schema) (initial : List Initializer) : Decidable (schema.SparesPromises initial) :=
  inferInstanceAs (Decidable (∀ i ∈ initial, ∀ s ∈ schema.structs, ∀ f ∈ s.fields,
    ∀ target ∈ f.sizeOfTarget?, (s.unionOf? target).isSome = true → i.path.getLast? ≠ some target))

/-- Conditions that exclude each other do not hold for the same integer. -/
theorem Condition.not_holds_of_excludes {c c' : Condition} (h : c.excludes c' = true) {t : Int}
    (hc : c.holds t = true) : c'.holds t = false := by
  have hvalue : ∀ x : Condition, x.op = .equals → x.holds t = true → x.value = t := by
    intro x hop hx
    unfold Condition.holds at hx
    rw [hop] at hx
    exact (beq_iff_eq.mp hx).symm
  simp only [Condition.excludes, Bool.or_eq_true, Bool.and_eq_true, beq_iff_eq,
    Bool.not_eq_true'] at h
  rcases h with ⟨hop, hnot⟩ | ⟨hop, hnot⟩
  · rwa [hvalue c hop hc] at hnot
  · rw [Bool.eq_false_iff]
    intro hc'
    rw [hvalue c' hop hc', hc] at hnot
    cases hnot

section Initial

variable {schema : Schema} {initial initial' : List Initializer}

theorem Schema.SparesPromises.append (h : schema.SparesPromises initial)
    (h' : schema.SparesPromises initial') : schema.SparesPromises (initial ++ initial') := by
  intro i hi
  rcases List.mem_append.mp hi with hi | hi
  · exact h i hi
  · exact h' i hi

theorem Schema.SparesPromises.inside (h : schema.SparesPromises initial) (field : String) :
    schema.SparesPromises (initial.filterMap fun i => i.inside? field) := by
  intro i hi s hs f hf target htarget hunion hlast
  obtain ⟨j, hj, next, path, hpath, rfl⟩ := Initializer.mem_inside.mp hi
  refine h j hj s hs f hf target htarget hunion ?_
  rw [hpath, List.getLast?_cons_cons]
  exact hlast

/-- A promised member of a union takes no initial value. -/
theorem Schema.SparesPromises.initial?_eq_none {frame : Frame}
    (h : schema.SparesPromises frame.initial) (hs : frame.struct ∈ schema.structs) {f : Field}
    (hf : f ∈ frame.struct.fields) {target : String} (htarget : f.sizeOfTarget? = some target)
    (hunion : (frame.struct.unionOf? target).isSome = true) : frame.initial? target = none := by
  unfold Frame.initial?
  rw [Option.map_eq_none_iff, List.find?_eq_none]
  intro i hi hfor
  have hpath : i.path = [target] := by simpa [Initializer.isFor] using hfor
  exact h i hi _ hs f hf target htarget hunion (by rw [hpath]; rfl)

end Initial

end WireLayout
