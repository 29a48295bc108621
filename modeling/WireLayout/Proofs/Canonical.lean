import WireLayout.Proofs.Promises

/-!
# Canonical records

A record of a struct is canonical if it holds what a reader of the struct would set, and nothing else:
the fields that are there by themselves and whose conditions hold, and of each union the first member
whose condition holds. Constants, reserved values and numbers of elements are not part of it.
-/

namespace WireLayout

/-! ## Fields that belong in a record -/

/-- Whether the condition of a field holds. -/
def Frame.present (frame : Frame) (m : Measure) (f : Field) : Bool :=
  (frame.holds m f.condition).toOption.getD false

/-- Whether a field belongs in a record. -/
inductive Frame.Expects (frame : Frame) (m : Measure) (f : Field) : Prop
  /-- A field of its own that holds a value does, if its condition holds. -/
  | own : f.isConst = false → f.disposition.role ≠ .reserved →
      frame.struct.isCount f.name = false → frame.struct.unionOf? f.name = none →
      frame.present m f = true → Expects frame m f
  /-- The first member of a union whose condition holds does. -/
  | member {g : ConditionGroup} : frame.struct.unionOf? f.name = some g →
      (g.members.find? fun name => (frame.struct.field? name).any (frame.present m)) =
        some f.name → Expects frame m f

theorem Frame.expects_iff {frame : Frame} {m : Measure} {f : Field} :
    frame.Expects m f ↔
      (f.isConst = false ∧ f.disposition.role ≠ .reserved ∧ frame.struct.isCount f.name = false ∧
        frame.struct.unionOf? f.name = none ∧ frame.present m f = true) ∨
      ∃ g ∈ frame.struct.unionOf? f.name, (g.members.find? fun name =>
        (frame.struct.field? name).any (frame.present m)) = some f.name := by
  constructor
  · intro h
    cases h with
    | own hconst hrole hcount hunion hp => exact Or.inl ⟨hconst, hrole, hcount, hunion, hp⟩
    | member hunion hfind => exact Or.inr ⟨_, hunion, hfind⟩
  · rintro (⟨hconst, hrole, hcount, hunion, hp⟩ | ⟨g, hunion, hfind⟩)
    · exact .own hconst hrole hcount hunion hp
    · exact .member hunion hfind

instance (frame : Frame) (m : Measure) (f : Field) : Decidable (frame.Expects m f) :=
  decidable_of_iff _ Frame.expects_iff.symm

/-- Whether a record holds the fields that belong in it and no others. -/
structure Codec.CanonicalHere (c : Codec) (r : Record) : Prop where
  /-- Its fields are ordered by name. -/
  sorted : Ordered.Sorted r.fields
  /-- A name is set if it is that of a field that belongs in the record. -/
  fields : ∀ s plan, c.lookup r.typeName = .ok (s, plan) → ∀ name, (r.get? name).isSome = true ↔
    ∃ f ∈ s.fields, f.name = name ∧ (Frame.mk s plan r plan.initializers).Expects c.measure f

theorem Codec.canonicalHere_iff {c : Codec} {r : Record} :
    c.CanonicalHere r ↔ Ordered.Sorted r.fields ∧ ∀ q ∈ (c.lookup r.typeName).toOption,
      ∀ name ∈ r.fields.map (·.1) ++ q.1.fields.map (·.name), (r.get? name).isSome = true ↔
        ∃ f ∈ q.1.fields, f.name = name ∧
          (Frame.mk q.1 q.2 r q.2.initializers).Expects c.measure f := by
  constructor
  · rintro ⟨hsorted, hfields⟩
    refine ⟨hsorted, fun q hq name _ => ?_⟩
    exact hfields q.1 q.2 (eq_ok_of_toOption hq) name
  · rintro ⟨hsorted, hfields⟩
    refine ⟨hsorted, fun s plan hl name => ?_⟩
    have hiff := hfields (s, plan) (by rw [hl]; rfl) name
    constructor
    · intro hsome
      obtain ⟨v, hv⟩ := Option.isSome_iff_exists.mp hsome
      refine (hiff ?_).mp hsome
      exact List.mem_append_left _ (List.mem_map.mpr ⟨_, Record.mem_of_get? hv, rfl⟩)
    · rintro ⟨f, hf, rfl, hexpects⟩
      refine (hiff ?_).mpr ⟨f, hf, rfl, hexpects⟩
      exact List.mem_append_right _ (List.mem_map.mpr ⟨f, hf, rfl⟩)

instance (c : Codec) (r : Record) : Decidable (c.CanonicalHere r) :=
  have : Decidable (Ordered.Sorted r.fields) :=
    inferInstanceAs (Decidable (r.fields.Pairwise fun a b => a.1 < b.1))
  decidable_of_iff _ Codec.canonicalHere_iff.symm

/-- Whether this holds for a record and for all records in it. -/
def Codec.Canonical (c : Codec) (r : Record) : Prop := ∀ x, x.Within r → c.CanonicalHere x

theorem Codec.Canonical.within {c : Codec} {r x : Record} (h : c.Canonical r) (hx : x.Within r) :
    c.Canonical x := fun _ hy => h _ (hy.trans hx)

theorem Frame.present_eq_true {frame : Frame} {m : Measure} {f : Field} :
    frame.present m f = true ↔ frame.holds m f.condition = .ok true := by
  unfold present
  cases frame.holds m f.condition with
  | error e => simp [Except.toOption]
  | ok b => simp [Except.toOption]

namespace Codec

variable {c : Codec} {r : Record} {s : Struct} {plan : Plan}

section Here

variable (h : c.CanonicalHere r) (hl : c.lookup r.typeName = .ok (s, plan))
  (hs : s.WellFormed c.schema.types)

include h hl hs

/-- A plain integer field that counts nothing is in the record. -/
theorem CanonicalHere.isSome_of_testable {g : Field} (hg : g ∈ s.fields)
    (ht : g.Testable c.schema.types) (hcount : s.isCount g.name = false) :
    (r.get? g.name).isSome = true := by
  obtain ⟨hd, hc⟩ := ht.plain
  refine (h.fields s plan hl g.name).mpr ⟨g, hg, rfl, .own ?_ ?_ hcount ?_ ?_⟩
  · simp [Field.isConst, hd, Disposition.role]
  · simp [hd, Disposition.role]
  · exact Struct.unionOf?_of_unconditioned hs.names hg hc
  · rw [Frame.present_eq_true, hc]
    rfl

/-- Conditions do not depend on initial values. -/
theorem CanonicalHere.holds_eq {f : Field} (hf : f ∈ s.fields) (initial initial' : List Initializer)
    (m m' : Measure) : (Frame.mk s plan r initial').holds m' f.condition =
      (Frame.mk s plan r initial).holds m f.condition := by
  have hstruct : (Frame.mk s plan r initial').struct = (Frame.mk s plan r initial).struct := rfl
  refine Frame.holds_congr hstruct hs hf (fun cond hc => ?_) m m'
  obtain ⟨g, hg, hname, ht⟩ := hs.tested f hf cond hc
  rw [← hname]
  cases hcount : s.isCount g.name with
  | true => exact Or.inl ⟨hcount, rfl⟩
  | false =>
    obtain ⟨v, hv⟩ := Option.isSome_iff_exists.mp (h.isSome_of_testable hl hs hg ht hcount)
    exact Or.inr ⟨hcount, v, hv, hv⟩

/-- A field is in the record if it belongs in it, whatever the initial values. -/
theorem CanonicalHere.isSome_iff (initial : List Initializer) {f : Field} (hf : f ∈ s.fields) :
    (r.get? f.name).isSome = true ↔ (Frame.mk s plan r initial).Expects c.measure f := by
  have hpresent : ∀ g ∈ s.fields, (Frame.mk s plan r initial).present c.measure g =
      (Frame.mk s plan r plan.initializers).present c.measure g := by
    intro g hg
    unfold Frame.present
    rw [h.holds_eq hl hs hg plan.initializers initial c.measure c.measure]
  have hfirst : ∀ members : List String, (members.find? fun name =>
      (s.field? name).any ((Frame.mk s plan r initial).present c.measure)) =
        members.find? fun name =>
          (s.field? name).any ((Frame.mk s plan r plan.initializers).present c.measure) := by
    intro members
    refine congrArg (fun p => members.find? p) (funext fun name => ?_)
    cases hg : s.field? name with
    | none => rfl
    | some g => exact hpresent g (Struct.mem_of_field? hg).1
  rw [h.fields s plan hl f.name]
  constructor
  · rintro ⟨g, hg, hname, hexpects⟩
    obtain rfl := List.inj_on_of_nodup_map hs.names hg hf hname
    cases hexpects with
    | own hconst hrole hcount hunion hp =>
      exact .own hconst hrole hcount hunion ((hpresent g hg).trans hp)
    | member hunion hfind => exact .member hunion ((hfirst _).trans hfind)
  · intro hexpects
    refine ⟨f, hf, rfl, ?_⟩
    cases hexpects with
    | own hconst hrole hcount hunion hp =>
      exact .own hconst hrole hcount hunion ((hpresent f hf).symm.trans hp)
    | member hunion hfind => exact .member hunion ((hfirst _).symm.trans hfind)

/-- Where a field of its own is not in the record, its condition does not hold, or it is a constant,
a reserved value or a number of elements. -/
theorem CanonicalHere.get?_of_own (initial : List Initializer) {f : Field} (hf : f ∈ s.fields)
    (hunion : s.unionOf? f.name = none) : (∃ v, r.get? f.name = some v ∧ f.isConst = false ∧
        f.disposition.role ≠ .reserved ∧ s.isCount f.name = false ∧
        (Frame.mk s plan r initial).holds c.measure f.condition = .ok true) ∨
      r.get? f.name = none ∧ (f.isConst = false → f.disposition.role ≠ .reserved →
        s.isCount f.name = false →
        (Frame.mk s plan r initial).holds c.measure f.condition ≠ .ok true) := by
  have hiff := h.isSome_iff hl hs initial hf
  cases hget : r.get? f.name with
  | none =>
    refine Or.inr ⟨rfl, fun hconst hrole hcount hholds => ?_⟩
    have hsome := hiff.mpr (.own hconst hrole hcount hunion (Frame.present_eq_true.mpr hholds))
    rw [hget] at hsome
    cases hsome
  | some v =>
    have hexpects := hiff.mp (by rw [hget]; rfl)
    cases hexpects with
    | own hconst hrole hcount _ hp =>
      exact Or.inl ⟨v, rfl, hconst, hrole, hcount, Frame.present_eq_true.mp hp⟩
    | member hsome _ =>
      have hsome : s.unionOf? f.name = some _ := hsome
      rw [hunion] at hsome
      cases hsome

/-- A member of a union is in the record if it is the first whose condition holds. -/
theorem CanonicalHere.isSome_of_member {slots : List UnionSlot} {entries : List (Option WireEntry)}
    (hp : c.schema.Planned s plan slots entries) (initial : List Initializer) {slot : UnionSlot}
    (hslot : slot ∈ slots) {t : Int}
    (ht : (Frame.mk s plan r initial).intOf c.measure slot.conditionField = .ok t) {m : UnionMember}
    (hm : m ∈ slot.members) : (r.get? m.field).isSome = true ↔
      (slot.members.find? fun m => m.guard.holds t).map (·.field) = some m.field := by
  obtain ⟨f, hf, hname, -, -, -, -, g, hg, hof⟩ := hp.member_of_slot hs hslot hm
  have hfirst : (g.members.find? fun name => (s.field? name).any
      ((Frame.mk s plan r initial).present c.measure)) =
        (slot.members.find? fun m => m.guard.holds t).map (·.field) := by
    refine forall₂_find?_map hof.members (fun _ m h => h.named) fun name m hmember => ?_
    obtain ⟨f', hf', rfl, -, hcond, -⟩ := hmember.field
    have htested : m.guard.field = slot.conditionField := hmember.tested.trans hof.tested.symm
    rw [Struct.field?_of_mem hs.names hf', Option.any_some]
    unfold Frame.present
    rw [hcond]
    simp only [Frame.holds, htested, ht, ok_map, Except.toOption, Option.getD_some]
  rw [← hname, h.isSome_iff hl hs initial hf, ← hfirst]
  constructor
  · intro hexpects
    cases hexpects with
    | own _ _ _ hnone _ =>
      have hnone : s.unionOf? f.name = none := hnone
      rw [hg] at hnone
      cases hnone
    | member hg' hfind =>
      have hg' : s.unionOf? f.name = some _ := hg'
      rw [hg] at hg'
      cases hg'
      exact hfind
  · exact fun hfind => .member hg hfind

end Here

/-- A canonical record is complete. -/
theorem Sound.complete_of_canonical (hc : c.Sound) (h : c.Canonical r) : c.Complete r := by
  intro x hx s plan hl f hf hstored hcount hunion m initial hholds
  have hhere := h x hx
  obtain ⟨-, hmem, -⟩ := hc.planned_of_lookup hl
  have hs := hc.linked.wellFormed s hmem
  rw [hhere.isSome_iff hl hs initial hf]
  refine .own (Field.isConst_of_isStored hstored) (Field.role_of_isStored hstored) hcount hunion ?_
  rw [Frame.present_eq_true, ← hholds]
  exact hhere.holds_eq hl hs hf initial initial m c.measure

end Codec

end WireLayout
