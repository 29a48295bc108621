import Mathlib.Data.List.Perm.Basic
import Mathlib.Data.List.Range
import WireLayout.Proofs.Correspondence
import WireLayout.Proofs.DecodeFaults
import WireLayout.Proofs.Invariants

/-!
# Steps that look back

A reader looks back for two reasons: to find out which member a union's slot holds, and to compare a
size that was promised. A decode plan has one such step for every union and one for every promise, and
no others. Each comes as soon as what it needs was read.

That no step is lost or done twice is a count. The steps that look back are kept with the places after
which they are done. Going through the places in order meets each of them once, since each place is that
of a field. The order within a place is the order in which they are kept: a union is resolved before the
size of one of its members is compared.
-/

namespace WireLayout

/-! ## Lists by place -/

/-- Going through the places in order meets everything that has a place. -/
theorem perm_flatMap_range {α : Type} (l : List (Nat × α)) (n : Nat) :
    ((List.range n).flatMap fun i => (l.filter fun p => p.1 == i).map (·.2)).Perm
      ((l.filter fun p => p.1 < n).map (·.2)) := by
  induction n with
  | zero => simp
  | succ n ih =>
    have hbelow : (l.filter fun p => p.1 < n + 1).filter (fun p => p.1 < n) =
        l.filter fun p => p.1 < n := by
      rw [List.filter_filter]
      refine List.filter_congr fun p _ => ?_
      rw [← Bool.decide_and, decide_eq_decide]
      omega
    have hat : (l.filter fun p => p.1 < n + 1).filter (fun p => !decide (p.1 < n)) =
        l.filter fun p => p.1 == n := by
      rw [List.filter_filter]
      refine List.filter_congr fun p _ => ?_
      rw [Bool.eq_iff_iff]
      simp
      omega
    have hsplit := List.filter_append_perm (fun p : Nat × α => p.1 < n)
      (l.filter fun p => p.1 < n + 1)
    rw [hbelow, hat] at hsplit
    rw [List.range_succ, List.flatMap_append, List.flatMap_singleton]
    refine (ih.append_right _).trans ?_
    rw [← List.map_append]
    exact hsplit.map _

/-- An element of a list without repetitions is in one place of it. -/
theorem ne_of_nodup_map {α β : Type} {f : α → β} {before after : List α} {x : α}
    (h : ((before ++ x :: after).map f).Nodup) : ∀ y ∈ before ++ after, f y ≠ f x := by
  intro y hy heq
  rw [List.map_append, List.map_cons, List.nodup_middle, List.nodup_cons] at h
  rw [← List.map_append, ← heq] at h
  exact h.1 (List.mem_map_of_mem hy)

/-! ## Steps by place -/

/-- What a step of a decode plan is for. -/
inductive DecodeOp.Purpose where
  /-- It takes bytes from the wire. -/
  | take
  /-- It finds out which member a slot holds. -/
  | resolve
  /-- It compares a size that was promised. -/
  | compare
  deriving DecidableEq

/-- The purpose of an operation. -/
def DecodeOp.purpose : DecodeOp → DecodeOp.Purpose
  | .resolveUnion _ => .resolve
  | .checkSizeOf .. => .compare
  | _ => .take

theorem DecodeOp.isDeferred_eq (op : DecodeOp) : op.isDeferred = !(op.purpose == .take) := by
  cases op <;> rfl

/-- The steps of entries take bytes. -/
theorem WireEntry.purpose_decodeOp (s : Struct) (e : WireEntry) :
    (e.decodeOp s).purpose = .take := by
  have h := e.isDeferred_decodeOp s
  rw [DecodeOp.isDeferred_eq] at h
  simpa using h

/-- What tells the steps of a decode plan apart. -/
def Step.key (step : Step DecodeOp) : String × DecodeOp.Purpose := (step.field, step.op.purpose)

namespace Struct

variable {s : Struct} {slots : List UnionSlot} {entries : List (Option WireEntry)}

/-- Whether a step of a decode plan is one at a place, and these are the steps before it: those at
earlier places, the entry of its own place if it looks back, and the unions that are resolved there if
it compares a size. -/
structure Placed (s : Struct) (slots : List UnionSlot) (entries : List (Option WireEntry))
    (before : List (Step DecodeOp)) (step : Step DecodeOp) (place : Nat) : Prop where
  at_place : step ∈ s.stepsAt slots entries place
  earlier : ∀ i < place, ∀ x ∈ s.stepsAt slots entries i, x ∈ before
  place_le : ∀ x ∈ before, ∃ i ≤ place, x ∈ s.stepsAt slots entries i
  entry : step.op.isDeferred = true → ∀ x ∈ s.entryStep entries place, x ∈ before
  resolved : step.op.purpose = .compare → ∀ slot ∈ s.slotsAt slots place, resolveStep slot ∈ before

/-- The steps before a step of a decode plan. -/
theorem exists_placed {before after : List (Step DecodeOp)} {step : Step DecodeOp}
    (h : s.decodeSteps slots entries = before ++ step :: after) :
    ∃ place, s.Placed slots entries before step place := by
  obtain ⟨place, -, front, back, hat, rfl⟩ := split_stepsAt h
  have htaking : ∀ x ∈ s.entryStep entries place, x.op.isDeferred = false := by
    intro x hx
    obtain ⟨e, -, rfl⟩ := mem_entryStep.mp hx
    exact e.isDeferred_decodeOp s
  refine ⟨place, ?_, ?_, ?_, ?_, ?_⟩
  · rw [hat]
    simp
  · intro i hi x hx
    exact List.mem_append_left _ (List.mem_flatMap.mpr ⟨i, List.mem_range.mpr hi, hx⟩)
  · intro x hx
    rcases List.mem_append.mp hx with hx | hx
    · obtain ⟨i, hi, hx⟩ := List.mem_flatMap.mp hx
      exact ⟨i, Nat.le_of_lt (List.mem_range.mp hi), hx⟩
    · exact ⟨place, Nat.le_refl _, by rw [hat]; exact List.mem_append_left _ hx⟩
  · intro hdeferred x hx
    have hnot : step ∉ s.entryStep entries place := by
      intro hmem
      rw [htaking step hmem] at hdeferred
      cases hdeferred
    exact List.mem_append_right _ (mem_of_append_eq hat hnot x hx)
  · intro hcompares slot hslot
    unfold stepsAt at hat
    rw [deferredAt_eq, ← List.append_assoc] at hat
    refine List.mem_append_right _ (mem_of_append_eq hat ?_ _ ?_)
    · intro hmem
      rcases List.mem_append.mp hmem with hmem | hmem
      · have htakes := htaking step hmem
        rw [DecodeOp.isDeferred_eq, hcompares] at htakes
        cases htakes
      · obtain ⟨other, -, rfl⟩ := List.mem_map.mp hmem
        cases hcompares
    · exact List.mem_append_right _ (List.mem_map_of_mem hslot)

/-- The entries up to the place of a step that looks back come before it. -/
theorem Placed.entry_mem {before : List (Step DecodeOp)} {step : Step DecodeOp} {place : Nat}
    (h : s.Placed slots entries before step place) (hdeferred : step.op.isDeferred = true) {i : Nat}
    (hi : i ≤ place) {e : WireEntry} (he : entries[i]? = some (some e)) :
    e.step (e.decodeOp s) ∈ before := by
  have hmem : e.step (e.decodeOp s) ∈ s.entryStep entries i := mem_entryStep.mpr ⟨e, he, rfl⟩
  rcases Nat.lt_or_eq_of_le hi with hlt | rfl
  · exact h.earlier i hlt _ (List.mem_append_left _ hmem)
  · exact h.entry hdeferred _ hmem

/-- A step that looks back is one that is kept for its place. -/
theorem Placed.mem_deferredAt {before : List (Step DecodeOp)} {step : Step DecodeOp} {place : Nat}
    (h : s.Placed slots entries before step place) (hdeferred : step.op.isDeferred = true) :
    step ∈ s.deferredAt slots place := by
  rcases List.mem_append.mp h.at_place with hmem | hmem
  · obtain ⟨e, -, rfl⟩ := mem_entryStep.mp hmem
    rw [show (e.step (e.decodeOp s)).op.isDeferred = false from e.isDeferred_decodeOp s] at hdeferred
    cases hdeferred
  · exact hmem

/-- The fields that promise sizes are fields of the struct, in order. -/
theorem sizeOfSteps_sublist :
    ((s.sizeOfSteps slots).map fun p => p.2.field).Sublist (s.fields.map (·.name)) := by
  have key : ∀ (fields : List Field) (k : Nat),
      (((fields.zipIdx k).filterMap fun p => p.1.sizeOfTarget?.map fun target =>
        (max p.2 (s.targetReady slots target p.2), p.1.checkStep target)).map
          fun p => p.2.field).Sublist (fields.map (·.name)) := by
    intro fields
    induction fields with
    | nil => intro k; exact .slnil
    | cons f fields ih =>
      intro k
      rw [List.zipIdx_cons, List.filterMap_cons, List.map_cons]
      cases htarget : f.sizeOfTarget? with
      | none => exact (ih (k + 1)).cons _
      | some target => exact (ih (k + 1)).cons_cons _
  exact key s.fields 0

end Struct

namespace Schema.Planned

variable {schema : Schema} {s : Struct} {plan : Plan} {slots : List UnionSlot}
  {entries : List (Option WireEntry)}

/-- A promise is compared at the place of a field. -/
theorem place_of_sizeOfSteps (hp : schema.Planned s plan slots entries)
    {p : Nat × Step DecodeOp} (h : p ∈ s.sizeOfSteps slots) : p.1 < entries.length := by
  obtain ⟨i, f, target, hf, -, rfl⟩ := Struct.exists_of_mem_sizeOfSteps h
  have hi : i < entries.length := hp.length ▸ (List.getElem?_eq_some_iff.mp hf).1
  exact Nat.max_lt.mpr ⟨hi, hp.targetReady_lt hi target⟩

/-- A decode plan consists of the steps that take bytes, one step for every slot, and one for every
promise. -/
theorem perm_decode (hp : schema.Planned s plan slots entries) :
    plan.decode.Perm (plan.takingSteps ++
      (slots.map Struct.resolveStep ++ (s.sizeOfSteps slots).map (·.2))) := by
  have hdeferred : plan.decode.filter (fun step => !!step.op.isDeferred) =
      (List.range entries.length).flatMap (s.deferredAt slots) := by
    rw [hp.decode, Struct.decodeSteps_eq, List.filter_flatMap]
    congr 1
    funext place
    have hentry : (s.entryStep entries place).filter (fun step => !!step.op.isDeferred) = [] := by
      rw [List.filter_eq_nil_iff]
      intro step hstep
      obtain ⟨e, -, rfl⟩ := Struct.mem_entryStep.mp hstep
      have htakes : (e.step (e.decodeOp s)).op.isDeferred = false := e.isDeferred_decodeOp s
      simp [htakes]
    have hback : (s.deferredAt slots place).filter (fun step => !!step.op.isDeferred) =
        s.deferredAt slots place := by
      rw [List.filter_eq_self]
      intro step hstep
      simp [Struct.isDeferred_of_mem hstep]
    unfold Struct.stepsAt
    rw [List.filter_append, hentry, hback, List.nil_append]
  have hall : (s.resolveSteps slots ++ s.sizeOfSteps slots).filter
      (fun p => p.1 < entries.length) = s.resolveSteps slots ++ s.sizeOfSteps slots := by
    rw [List.filter_eq_self]
    intro p hmem
    rw [decide_eq_true_eq]
    rcases List.mem_append.mp hmem with h | h
    · obtain ⟨slot, hslot, rfl⟩ := List.mem_map.mp h
      exact (hp.slotReady_lt hslot).2
    · exact hp.place_of_sizeOfSteps h
  have hback := perm_flatMap_range (s.resolveSteps slots ++ s.sizeOfSteps slots) entries.length
  rw [hall, List.map_append] at hback
  have hresolve : (s.resolveSteps slots).map (·.2) = slots.map Struct.resolveStep := by
    unfold Struct.resolveSteps
    rw [List.map_map]
    rfl
  rw [hresolve] at hback
  refine (List.filter_append_perm (fun step => !step.op.isDeferred) plan.decode).symm.trans ?_
  exact List.Perm.append_left _ (hdeferred ▸ hback)

/-- Steps of one purpose are told apart by their fields. -/
theorem nodup_keys (hp : schema.Planned s plan slots entries) (hs : s.WellFormed schema.types) :
    (plan.decode.map Step.key).Nodup := by
  have hfields : ∀ steps : List (Step DecodeOp), (steps.map (·.field)).Nodup →
      (steps.map Step.key).Nodup := by
    intro steps h
    refine List.Nodup.of_map Prod.fst ?_
    rwa [List.map_map]
  have htake : (plan.takingSteps.map Step.key).Nodup := by
    refine hfields _ ?_
    rw [hp.takingSteps, List.map_map]
    have hnames : s.wireFields.map (·.name) =
        (entries.filterMap id).map (fun e => (e.step (e.decodeOp s)).field) :=
      forall₂_map_eq (hp.forall₂_wireFields hs) fun f e h => h.1.1.symm
    have hsub : (s.wireFields.map (·.name)).Sublist (s.fields.map (·.name)) :=
      List.Sublist.map _ List.filter_sublist
    exact hnames ▸ hs.names.sublist hsub
  have hresolve : ((slots.map Struct.resolveStep).map Step.key).Nodup := by
    refine hfields _ ?_
    rw [List.map_map]
    exact hp.nodup_slots.map_on fun slot h slot' h' heq => hp.slot_of_name hs h' h heq
  have hcompare : (((s.sizeOfSteps slots).map (·.2)).map Step.key).Nodup := by
    refine hfields _ ?_
    rw [List.map_map]
    exact hs.names.sublist Struct.sizeOfSteps_sublist
  -- steps of different purposes have different keys
  have hresolves : ∀ step ∈ slots.map Struct.resolveStep, step.op.purpose = .resolve := by
    intro step h
    obtain ⟨slot, -, rfl⟩ := List.mem_map.mp h
    rfl
  have hcompares : ∀ step ∈ (s.sizeOfSteps slots).map (·.2), step.op.purpose = .compare := by
    intro step h
    obtain ⟨p, hmem, rfl⟩ := List.mem_map.mp h
    obtain ⟨⟨f, i⟩, -, hstep⟩ := List.mem_filterMap.mp hmem
    obtain ⟨target, -, rfl⟩ := Option.map_eq_some_iff.mp hstep
    rfl
  have htakes : ∀ step ∈ plan.takingSteps, step.op.purpose = .take := by
    intro step h
    have htaking := (List.mem_filter.mp h).2
    rw [DecodeOp.isDeferred_eq] at htaking
    simpa using htaking
  have hapart : ∀ (l l' : List (Step DecodeOp)), (∀ x ∈ l, ∀ y ∈ l', x.op.purpose ≠ y.op.purpose) →
      (l.map Step.key).Disjoint (l'.map Step.key) := by
    intro l l' h k hk hk'
    obtain ⟨x, hx, rfl⟩ := List.mem_map.mp hk
    obtain ⟨y, hy, heq⟩ := List.mem_map.mp hk'
    exact h x hx y hy (congrArg Prod.snd heq).symm
  rw [(hp.perm_decode.map Step.key).nodup_iff, List.map_append, List.map_append]
  refine htake.append (hresolve.append hcompare (hapart _ _ ?_)) ?_
  · intro x hx y hy
    rw [hresolves x hx, hcompares y hy]
    decide
  · rw [← List.map_append]
    refine hapart _ _ fun x hx y hy => ?_
    rw [htakes x hx]
    rcases List.mem_append.mp hy with hy | hy
    · rw [hresolves y hy]
      decide
    · rw [hcompares y hy]
      decide

/-- The steps at a place are those of a field that is not behind it. -/
theorem namedAt_of_stepsAt (hp : schema.Planned s plan slots entries) {place : Nat}
    {x : Step DecodeOp} (hx : x ∈ s.stepsAt slots entries place) :
    ∃ i ≤ place, s.NamedAt i x.field := by
  rcases List.mem_append.mp hx with hx | hx
  · obtain ⟨e, he, rfl⟩ := Struct.mem_entryStep.mp hx
    have hlt : place < s.fields.length := hp.length ▸ (List.getElem?_eq_some_iff.mp he).1
    have hf := List.getElem?_eq_getElem hlt
    obtain ⟨e', he', hentry⟩ := hp.places place _ hf
    rw [he] at he'
    cases he'
    refine ⟨place, Nat.le_refl _, _, hf, ?_⟩
    cases hentry with
    | own hconst hunion hshape => rfl
    | slot hslot hpos hname => exact hname.symm
  · obtain ⟨slot, hslot, rfl, rfl⟩ | ⟨i, f, target, hf, -, rfl, rfl⟩ := Struct.deferredAt_cases hx
    · obtain ⟨f, hf, hname, -⟩ := hp.first_of_slot hslot
      exact ⟨slot.position, Struct.position_le_slotReady slot, f, hf, hname⟩
    · exact ⟨i, Nat.le_max_left _ _, f, hf, rfl⟩

/-- A union's member is found out after the field that it tests, which comes after the slot. -/
theorem namedAt_slotReady (hp : schema.Planned s plan slots entries)
    (hs : s.WellFormed schema.types) {g : ConditionGroup} (hg : g ∈ s.unions) {slot : UnionSlot}
    (hslot : slot ∈ slots) (hof : schema.SlotOf s g slot) :
    s.NamedAt (s.slotReady slot) g.conditionField := by
  obtain ⟨k, f, hk, hname, -, -⟩ := hp.tested_of_slot hs hslot
  obtain ⟨first, hfirst, hfirstName⟩ := Struct.getElem?_of_position? hof.position
  obtain ⟨hgroup, hunion⟩ := Struct.mem_unions.mp hg
  have htested : s.NamedAt k g.conditionField := ⟨f, hk, hname.trans hof.tested⟩
  have hlayout := Struct.layout_of_mem hs.names hgroup hof.first ⟨first, hfirst, hfirstName⟩ htested
  have hlt : slot.position < k := by
    by_contra hge
    rw [if_neg hge] at hlayout
    unfold ConditionGroup.isUnion at hunion
    rw [hlayout] at hunion
    cases hunion
  have hpos : s.position? slot.conditionField = some k := by
    rw [hof.tested]
    exact Struct.position?_of_namedAt hs.names htested
  have hready : s.slotReady slot = k := by
    unfold Struct.slotReady
    rw [hpos]
    exact Nat.max_eq_left (Nat.le_of_lt hlt)
  rw [hready]
  exact htested

end Schema.Planned

/-! ## What a step that looks back needs -/

/-- Whether a step finds out which member of a union its slot holds. -/
structure Schema.Resolves (schema : Schema) (s : Struct) (g : ConditionGroup)
    (step : Step DecodeOp) : Prop where
  first : g.members.head? = some step.field
  role : step.role = .union
  guard : step.guard = none
  members : ∃ members, step.op = .resolveUnion members ∧
    List.Forall₂ (schema.MemberOf s g) g.members members

/-- Whether a union is resolved by one of the steps of a plan only, and where it has to be: after the
step that takes the slot and the one that reads the tested field, and before those of later fields. -/
structure Schema.ResolvedBy (schema : Schema) (s : Struct) (g : ConditionGroup)
    (before : List (Step DecodeOp)) (step : Step DecodeOp) (after : List (Step DecodeOp)) :
    Prop where
  resolves : schema.Resolves s g step
  once : ∀ x ∈ before ++ after, ¬ schema.Resolves s g x
  slot : ∃ x ∈ before, x.field = step.field ∧ x.TakesSlot
  tested : ∃ x ∈ before, x.field = g.conditionField ∧ x.Notes
  prompt : ∀ x ∈ before, ∀ i j, s.NamedAt i x.field → s.NamedAt j g.conditionField → i ≤ j

/-- Whether the size that a field promises is compared by one of the steps of a plan only, and where it
has to be: after the step that reads the promise, and after the one that reads the field that it is
about, or finds out that it is in its union's slot. -/
structure Schema.ComparedBy (schema : Schema) (s : Struct) (f : Field) (target : String)
    (before after : List (Step DecodeOp)) : Prop where
  once : ∀ x ∈ before ++ after, x.field = f.name → x.op.purpose ≠ .compare
  promise : ∃ x ∈ before, x.field = f.name ∧ x.guard = f.condition ∧
    ∃ leaf expect, x.op = .reserved leaf expect
  target : ∃ t ∈ s.fields, t.name = target ∧ (t.isConst = false →
    (∀ g, s.unionOf? target = some g → ∃ x ∈ before, schema.Resolves s g x) ∧
    (s.unionOf? target = none → ∃ x ∈ before, x.field = target ∧ x.op.purpose = .take))

namespace Schema.Planned

variable {schema : Schema} {s : Struct} {plan : Plan} {slots : List UnionSlot}
  {entries : List (Option WireEntry)}

theorem resolves_resolveStep {g : ConditionGroup} {slot : UnionSlot}
    (hof : schema.SlotOf s g slot) : schema.Resolves s g (Struct.resolveStep slot) where
  first := hof.first
  role := rfl
  guard := rfl
  members := ⟨slot.members, rfl, hof.members⟩

/-- A slot is resolved at one place. -/
theorem place_of_resolveStep (hp : schema.Planned s plan slots entries)
    (hs : s.WellFormed schema.types) {slot : UnionSlot} (hslot : slot ∈ slots) {place : Nat}
    (h : Struct.resolveStep slot ∈ s.deferredAt slots place) : place = s.slotReady slot := by
  obtain ⟨other, hother, rfl, hstep⟩ | ⟨-, f, target, -, -, -, hstep⟩ :=
    Struct.deferredAt_cases h
  · rw [hp.slot_of_name hs hslot hother (congrArg Step.field hstep).symm]
  · cases congrArg Step.op hstep

/-- Every union is resolved once, and in time. -/
theorem resolvedBy (hp : schema.Planned s plan slots entries) (hs : s.WellFormed schema.types)
    {g : ConditionGroup} (hg : g ∈ s.unions) :
    ∃ before step after, plan.decode = before ++ step :: after ∧
      schema.ResolvedBy s g before step after := by
  obtain ⟨slot, hslot, hof⟩ := forall₂_mem_left hp.unions hg
  have hresolves := resolves_resolveStep hof
  have hmem : Struct.resolveStep slot ∈ plan.decode := by
    refine hp.perm_decode.mem_iff.mpr (List.mem_append_right _ (List.mem_append_left _ ?_))
    exact List.mem_map_of_mem hslot
  obtain ⟨before, after, hsplit⟩ := List.append_of_mem hmem
  obtain ⟨place, hplaced⟩ := Struct.exists_placed (hp.decode ▸ hsplit)
  obtain rfl := hp.place_of_resolveStep hs hslot (hplaced.mem_deferredAt rfl)
  have hnamed := hp.namedAt_slotReady hs hg hslot hof
  refine ⟨before, _, after, hsplit, hresolves, ?_, ?_, ?_, ?_⟩
  · intro x hx hother
    refine ne_of_nodup_map (hsplit ▸ hp.nodup_keys hs) x hx ?_
    obtain ⟨members, hop, -⟩ := hother.members
    have hfield : x.field = slot.name := Option.some.inj (hother.first.symm.trans hof.first)
    unfold Step.key
    rw [hop, hfield]
    rfl
  · refine ⟨_, hplaced.entry_mem rfl (Struct.position_le_slotReady slot) (hp.entry_of_slot hs hslot),
      rfl, rfl, slot.bytes, rfl⟩
  · obtain ⟨k, t, hk, hname, htest, hle⟩ := hp.tested_of_slot hs hslot
    obtain ⟨e, he, hfield, hnotes⟩ := hp.notes_of_testable hs hk htest
    exact ⟨_, hplaced.entry_mem rfl hle he, hfield.trans (hname.trans hof.tested), hnotes⟩
  · intro x hx i j hi hj
    obtain ⟨k, hk, hat⟩ := hplaced.place_le x hx
    obtain ⟨i', hi', hname⟩ := hp.namedAt_of_stepsAt hat
    have hsame : i' = i := Option.some.inj
      ((Struct.position?_of_namedAt hs.names hname).symm.trans
        (Struct.position?_of_namedAt hs.names hi))
    have hready : s.slotReady slot = j := Option.some.inj
      ((Struct.position?_of_namedAt hs.names hnamed).symm.trans
        (Struct.position?_of_namedAt hs.names hj))
    omega

/-- Every promise is compared once, and in time. -/
theorem comparedBy (hp : schema.Planned s plan slots entries) (hs : s.WellFormed schema.types)
    {f : Field} (hf : f ∈ s.fields) {target : String} (htarget : f.sizeOfTarget? = some target)
    (hdeclared : ∃ t ∈ s.fields, t.name = target) :
    ∃ before after, plan.decode = before ++ f.checkStep target :: after ∧
      schema.ComparedBy s f target before after := by
  obtain ⟨i, hi⟩ := List.mem_iff_getElem?.mp hf
  have hd := Field.disposition_of_sizeOfTarget? htarget
  have hmem : f.checkStep target ∈ plan.decode := by
    refine hp.perm_decode.mem_iff.mpr (List.mem_append_right _ (List.mem_append_right _ ?_))
    refine List.mem_map.mpr ⟨(max i (s.targetReady slots target i), f.checkStep target), ?_, rfl⟩
    refine List.mem_filterMap.mpr ⟨(f, i), List.mem_zipIdx_iff_getElem?.mpr hi, ?_⟩
    exact Option.map_eq_some_iff.mpr ⟨target, htarget, rfl⟩
  obtain ⟨before, after, hsplit⟩ := List.append_of_mem hmem
  obtain ⟨place, hplaced⟩ := Struct.exists_placed (hp.decode ▸ hsplit)
  -- the place is not before that of the promise, nor before that of the target
  have hplace : i ≤ place ∧ s.ready slots target ≤ place := by
    have hback := hplaced.mem_deferredAt rfl
    rw [Struct.deferredAt_eq] at hback
    rcases List.mem_append.mp hback with hback | hback
    · obtain ⟨slot, -, heq⟩ := List.mem_map.mp hback
      cases congrArg Step.op heq
    · obtain ⟨k, f', target', hk, -, hle, hready, heq⟩ := Struct.exists_of_mem_checksAt hback
      obtain ⟨hname, rfl⟩ := DecodeOp.checkSizeOf.inj (congrArg Step.op heq)
      have hpos := Struct.position?_of_getElem? hs.names hk
      rw [← hname, Struct.position?_of_getElem? hs.names hi] at hpos
      exact ⟨Option.some.inj hpos ▸ hle, hready⟩
  refine ⟨before, after, hsplit, ?_, ?_, ?_⟩
  · intro x hx hfield hpurpose
    refine ne_of_nodup_map (hsplit ▸ hp.nodup_keys hs) x hx ?_
    unfold Step.key
    rw [hpurpose, hfield]
    rfl
  · have hunion := hp.unionOf?_of_not_stored hs hf (by simp [Field.isStored, hd])
    obtain ⟨shape, hshape, he⟩ := hp.entry_of_own hs hi
      (by simp [Field.isConst, hd, Disposition.role]) hunion
    obtain ⟨leaf, rfl⟩ := hshape.of_reserved hd
    exact ⟨_, hplaced.entry_mem rfl hplace.1 he, rfl, rfl, leaf, _, rfl⟩
  · obtain ⟨t, ht, rfl⟩ := hdeclared
    refine ⟨t, ht, rfl, fun hconst => ⟨fun g hg => ?_, fun hunion => ?_⟩⟩
    · obtain ⟨slot, hslot, hof, m, hm, hname, -⟩ := hp.slot_of_union hs ht hg
      have hready : s.slotReady slot ≤ place := by
        rw [← hp.ready_of_member hs hslot hm, hname]
        exact hplace.2
      refine ⟨Struct.resolveStep slot, ?_, resolves_resolveStep hof⟩
      rcases Nat.lt_or_eq_of_le hready with hlt | heq
      · refine hplaced.earlier _ hlt _ (List.mem_append_right _ ?_)
        exact Struct.mem_deferredAt.mpr (Or.inl (List.mem_map_of_mem hslot))
      · exact hplaced.resolved rfl slot (Struct.mem_slotsAt.mpr ⟨hslot, heq⟩)
    · obtain ⟨k, hk⟩ := List.mem_iff_getElem?.mp ht
      obtain ⟨shape, -, he⟩ := hp.entry_of_own hs hk hconst hunion
      have hle : k ≤ place := hp.ready_of_own hs hk hunion ▸ hplace.2
      exact ⟨_, hplaced.entry_mem rfl hle he, rfl, WireEntry.purpose_decodeOp s _⟩

/-- No other steps look back. -/
theorem resolves_or_compares (hp : schema.Planned s plan slots entries) {step : Step DecodeOp}
    (hstep : step ∈ plan.decode) (hdeferred : step.op.isDeferred = true) :
    (∃ g ∈ s.unions, schema.Resolves s g step) ∨
      ∃ f ∈ s.fields, ∃ target, f.sizeOfTarget? = some target ∧ step = f.checkStep target := by
  rcases List.mem_append.mp (hp.perm_decode.mem_iff.mp hstep) with h | h
  · have htaking := (List.mem_filter.mp h).2
    rw [hdeferred] at htaking
    cases htaking
  rcases List.mem_append.mp h with h | h
  · obtain ⟨slot, hslot, rfl⟩ := List.mem_map.mp h
    obtain ⟨g, hg, hof⟩ := hp.union_of_slot hslot
    exact Or.inl ⟨g, hg, resolves_resolveStep hof⟩
  · obtain ⟨p, hmem, rfl⟩ := List.mem_map.mp h
    obtain ⟨i, f, target, hf, htarget, rfl⟩ := Struct.exists_of_mem_sizeOfSteps hmem
    exact Or.inr ⟨f, List.mem_of_getElem? hf, target, htarget, rfl⟩

end Schema.Planned

/-- **Steps that look back come after what they need, once each.** In the decode plan of a struct, a
field has at most one step of each purpose. Every union is resolved by one step: after the step that
takes its slot and the one that reads the field it tests, and before the steps of all later fields. Every
promised size is compared by one step, under the guard of the promise: after the step that reads the
promise, and after the one that reads its target or, if this is a member of a union, resolves the union.
No other steps look back. -/
theorem steps_look_back {options : Options} {decls : List Declaration} {c : Codec}
    (hcompile : compile options decls = .ok c) {name : String} {s : Struct}
    (hstruct : c.schema.struct? name = some s) :
    ∃ plan, c.plan? name = some plan ∧ (plan.decode.map Step.key).Nodup ∧
      (∀ g ∈ s.unions, ∃ before step after, plan.decode = before ++ step :: after ∧
        c.schema.ResolvedBy s g before step after) ∧
      (∀ f ∈ s.fields, ∀ target, f.sizeOfTarget? = some target →
        ∃ before after, plan.decode = before ++ f.checkStep target :: after ∧
          c.schema.ComparedBy s f target before after) ∧
      ∀ step ∈ plan.decode, step.op.isDeferred = true →
        (∃ g ∈ s.unions, c.schema.Resolves s g step) ∨
          ∃ f ∈ s.fields, ∃ target, f.sizeOfTarget? = some target ∧ step = f.checkStep target := by
  have hc := sound_of_compile hcompile
  obtain ⟨plan, hplan, hl⟩ := hc.lookup_of_struct? hstruct
  obtain ⟨-, hmem, -, -, -, slots, entries, hp⟩ := hc.planned_of_lookup hl
  have hs := hc.linked.wellFormed s hmem
  obtain ⟨d, hcheck⟩ := Schema.exists_check_of_compile hcompile hmem
  refine ⟨plan, hplan, hp.nodup_keys hs, ?_, ?_, ?_⟩
  · exact fun g hg => hp.resolvedBy hs hg
  · intro f hf target htarget
    exact hp.comparedBy hs hf htarget (StructDecl.target_of_check hcheck hf htarget)
  · exact fun step hstep hdeferred => hp.resolves_or_compares hstep hdeferred

/-- In a batch the slot of the fee and the memo is resolved after the mode, and the size of the ids is
compared. -/
theorem steps_look_back_batch :
    compile {} sampleDeclarations = .ok sampleCodec ∧
    ∃ s plan, sampleCodec.schema.struct? "Batch" = some s ∧
      sampleCodec.plan? "Batch" = some plan ∧ (plan.decode.map Step.key).Nodup ∧
      (∃ g ∈ s.unions, g.members = ["fee", "memo"] ∧ g.conditionField = "mode" ∧
        ∃ before step after, plan.decode = before ++ step :: after ∧
          sampleCodec.schema.ResolvedBy s g before step after) ∧
      ∃ f ∈ s.fields, f.name = "idsSize" ∧
        ∃ before after, plan.decode = before ++ f.checkStep "ids" :: after ∧
          sampleCodec.schema.ComparedBy s f "ids" before after := by
  obtain ⟨s, hs, ⟨g, hg, hmembers, htested⟩, f, hf, hname, htarget⟩ :
      ∃ s, sampleCodec.schema.struct? "Batch" = some s ∧
        (∃ g ∈ s.unions, g.members = ["fee", "memo"] ∧ g.conditionField = "mode") ∧
        ∃ f ∈ s.fields, f.name = "idsSize" ∧ f.sizeOfTarget? = some "ids" := by
    have hbatch : ∃ s ∈ sampleCodec.schema.struct? "Batch",
        (∃ g ∈ s.unions, g.members = ["fee", "memo"] ∧ g.conditionField = "mode") ∧
        ∃ f ∈ s.fields, f.name = "idsSize" ∧ f.sizeOfTarget? = some "ids" := by decide +kernel
    exact hbatch
  obtain ⟨plan, hplan, hnodup, hunions, hpromises, -⟩ := steps_look_back compile_sample hs
  exact ⟨compile_sample, s, plan, hs, hplan, hnodup, ⟨g, hg, hmembers, htested, hunions g hg⟩, f, hf,
    hname, hpromises f hf "ids" htarget⟩

end WireLayout
